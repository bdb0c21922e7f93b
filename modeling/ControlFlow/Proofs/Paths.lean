import ControlFlow.Proofs.Reachability

/-!
# Paths that are found

    A path is found by a search that follows only blocks from which the target can
    still be reached, notes for every block it finds which block it was found from,
    and goes back along these notes once the target turns up.

    The notes are a `Trail`: what a block was found from was found before, so that
    going back ends at the source and is a walk (`Trail.walk_retrace`).  That the
    target does turn up is the invariant `Searching`: whatever was found is either
    waiting on the stack, or everything it leads to was found as well.
-/

namespace ControlFlow.Reachability

variable {r : Reachability} {f : Procedure} {source target via block x : NodeId}

/-- A step that a search for the target may take: to a successor that can still
    get there. -/
def Leads (r : Reachability) (target u v : NodeId) : Prop :=
  v ∈ r.successors[u]?.getD [] ∧ v < r.sources.size ∧ r.reaches v target = true

/-! ## Trails -/

/-- Every block on a trail was found once, by a step from a block found before, and
    the first ones from the source. -/
inductive Trail (next : NodeId → NodeId → Prop) (source : NodeId) : List (NodeId × NodeId) → Prop where
  | nil : Trail next source []
  | cons {block via : NodeId} {trail : List (NodeId × NodeId)} (before : Trail next source trail)
      (hvia : via ∈ source :: trail.map Prod.fst) (hstep : next via block)
      (hnew : block ∉ source :: trail.map Prod.fst) : Trail next source ((block, via) :: trail)

/-- A block found stays found as the trail grows. -/
theorem found_cons {trail : List (NodeId × NodeId)} {found : NodeId}
    (hblock : block ∈ source :: trail.map Prod.fst) :
    block ∈ source :: ((found, via) :: trail).map Prod.fst := by
  rcases List.mem_cons.mp hblock with hsource | hrest
  · exact List.mem_cons.mpr (.inl hsource)
  · exact List.mem_cons_of_mem source (List.mem_cons_of_mem found hrest)

/-- A block other than the last one found was found before it. -/
theorem found_of_ne {trail : List (NodeId × NodeId)} {found : NodeId}
    (hblock : block ∈ source :: ((found, via) :: trail).map Prod.fst) (hne : found ≠ block) :
    block ∈ source :: trail.map Prod.fst := by
  rw [List.map_cons, List.mem_cons, List.mem_cons] at hblock
  exact List.mem_cons.mpr (hblock.imp_right (·.resolve_left (Ne.symm hne)))

/-- Going back along a trail from a block that is on it is a walk from the source,
    read backwards. -/
theorem Trail.walk_retrace {next : NodeId → NodeId → Prop} {trail : List (NodeId × NodeId)}
    (h : Trail next source trail) (hblock : block ∈ source :: trail.map Prod.fst) :
    Walk next source (retrace block trail).reverse block := by
  induction h generalizing block with
  | nil =>
      rw [List.mem_singleton.mp hblock]
      exact Walk.here source
  | @cons found via trail _ hvia hstep _ ih =>
      rw [retrace]
      by_cases heq : found = block
      · subst heq
        rw [if_pos rfl, List.reverse_cons]
        exact (ih hvia).snoc hstep
      · rw [if_neg heq]
        exact ih (found_of_ne hblock heq)

/-- A block on a trail was found by a step. -/
theorem Trail.exists_step {next : NodeId → NodeId → Prop} {trail : List (NodeId × NodeId)}
    (h : Trail next source trail) (hblock : block ∈ trail.map Prod.fst) : ∃ via, next via block := by
  induction h with
  | nil => exact absurd hblock List.not_mem_nil
  | @cons found via trail _ _ hstep _ ih =>
      rcases List.mem_cons.mp hblock with rfl | hrest
      · exact ⟨via, hstep⟩
      · exact ih hrest

/-- Going back begins where it is asked to. -/
theorem retrace_eq_cons (block : NodeId) (trail : List (NodeId × NodeId)) :
    ∃ rest, retrace block trail = block :: rest := by
  induction trail with
  | nil => exact ⟨[], rfl⟩
  | cons entry trail ih =>
      rw [retrace]
      split
      · exact ⟨_, rfl⟩
      · exact ih

/-- Going back from the source is over at once. -/
theorem Trail.retrace_source {next : NodeId → NodeId → Prop} {trail : List (NodeId × NodeId)}
    (h : Trail next source trail) : retrace source trail = [source] := by
  induction h with
  | nil => rfl
  | @cons block via trail _ _ _ hnew ih =>
      have hne : block ≠ source := fun heq => hnew (heq ▸ List.mem_cons_self)
      rw [retrace, if_neg hne, ih]

/-- Going back from any other block found goes on with what it was found from. -/
theorem Trail.retrace_of_mem {next : NodeId → NodeId → Prop} {trail : List (NodeId × NodeId)}
    (h : Trail next source trail) (hblock : block ∈ trail.map Prod.fst) :
    ∃ via, trail.lookup block = some via ∧ via ∈ source :: trail.map Prod.fst ∧
      retrace block trail = block :: retrace via trail := by
  induction h with
  | nil => exact absurd hblock List.not_mem_nil
  | @cons found before trail _ hbefore _ hnew ih =>
      -- what was found before the last block is still gone back from in the same way
      have hskip : ∀ via, via ∈ source :: trail.map Prod.fst →
          retrace via ((found, before) :: trail) = retrace via trail := by
        intro via hvia
        have hne : found ≠ via := fun heq => hnew (heq ▸ hvia)
        rw [retrace, if_neg hne]
      by_cases heq : found = block
      · subst heq
        refine ⟨before, List.lookup_cons_self, found_cons hbefore, ?_⟩
        rw [retrace, if_pos rfl, hskip before hbefore]
      · have hrest : block ∈ trail.map Prod.fst :=
          (List.mem_cons.mp hblock).resolve_left (Ne.symm heq)
        obtain ⟨via, hlookup, hvia, hretrace⟩ := ih hrest
        refine ⟨via, ?_, found_cons hvia, ?_⟩
        · rw [List.lookup_cons, beq_false_of_ne (Ne.symm heq)]
          exact hlookup
        · rw [hskip block (List.mem_cons_of_mem source hrest), hretrace, hskip via hvia]

/-! ## Taking up blocks -/

namespace Quest

theorem mem_found_push (q : Quest) :
    x ∈ (q.push r source target via block).found source ↔
      x ∈ q.found source ∨ x = block ∧ block < r.sources.size ∧ r.reaches block target = true := by
  rw [push]
  split
  · rename_i h
    obtain ⟨hfresh, hreaches⟩ := Bool.and_eq_true_iff.mp h
    have hlt := (Graph.fresh_iff.mp hfresh).1
    simp only [found, List.map_cons, List.mem_cons, and_iff_left (And.intro hlt hreaches)]
    exact or_left_comm.trans or_comm
  · rename_i h
    refine ⟨.inl, fun hx => hx.elim id ?_⟩
    rintro ⟨rfl, hlt, hreaches⟩
    refine Classical.byContradiction fun hnot => h ?_
    exact Bool.and_eq_true_iff.mpr ⟨Graph.fresh_iff.mpr ⟨hlt, hnot⟩, hreaches⟩

/-- A block that is newly found goes to the stack. -/
theorem mem_stack_push (q : Quest) :
    x ∈ (q.push r source target via block).stack ↔
      x ∈ q.stack ∨ x ∉ q.found source ∧ x ∈ (q.push r source target via block).found source := by
  rw [push]
  split
  · rename_i h
    have hnew := (Graph.fresh_iff.mp (Bool.and_eq_true_iff.mp h).1).2
    simp only [found, List.map_cons, List.mem_cons] at hnew ⊢
    constructor
    · rintro (rfl | hstack)
      · exact .inr ⟨hnew, .inr (.inl rfl)⟩
      · exact .inl hstack
    · rintro (hstack | ⟨hnot, hsource | rfl | hrest⟩)
      · exact .inr hstack
      · exact absurd (.inl hsource) hnot
      · exact .inl rfl
      · exact absurd (.inr hrest) hnot
  · exact ⟨.inl, fun h => h.resolve_right fun hnew => hnew.1 hnew.2⟩

/-- After taking up a list, those of its blocks are found that lead to the target. -/
theorem mem_found_pushAll (q : Quest) (blocks : List NodeId) :
    x ∈ (q.pushAll r source target via blocks).found source ↔
      x ∈ q.found source ∨ x ∈ blocks ∧ x < r.sources.size ∧ r.reaches x target = true := by
  induction blocks generalizing q with
  | nil => simp [pushAll]
  | cons block blocks ih =>
      show x ∈ ((q.push r source target via block).pushAll r source target via blocks).found source ↔ _
      rw [ih, mem_found_push, List.mem_cons, or_assoc, or_and_right]
      refine or_congr_right (or_congr_left (and_congr_right ?_))
      rintro rfl
      exact Iff.rfl

theorem mem_stack_pushAll (q : Quest) (blocks : List NodeId) :
    x ∈ (q.pushAll r source target via blocks).stack ↔ x ∈ q.stack ∨
      x ∉ q.found source ∧ x ∈ (q.pushAll r source target via blocks).found source := by
  induction blocks generalizing q with
  | nil => exact ⟨.inl, fun h => h.resolve_right fun hnew => hnew.1 hnew.2⟩
  | cons block blocks ih =>
      show x ∈ ((q.push r source target via block).pushAll r source target via blocks).stack ↔
        x ∈ q.stack ∨ x ∉ q.found source ∧
          x ∈ ((q.push r source target via block).pushAll r source target via blocks).found source
      rw [ih, mem_stack_push, mem_found_pushAll, mem_found_push]
      tauto

/-- The trail of a search stays one while it takes up successors of a block found. -/
theorem trail_pushAll {q : Quest} {blocks : List NodeId} (h : Trail (Leads r target) source q.trail)
    (hvia : via ∈ q.found source) (hblocks : ∀ b ∈ blocks, b ∈ r.successors[via]?.getD []) :
    Trail (Leads r target) source (q.pushAll r source target via blocks).trail := by
  induction blocks generalizing q with
  | nil => exact h
  | cons block blocks ih =>
      refine ih ?_ ((mem_found_push q).mpr (.inl hvia)) fun b hb => hblocks b (.tail block hb)
      rw [push]
      split
      · rename_i hpush
        obtain ⟨hfresh, hreaches⟩ := Bool.and_eq_true_iff.mp hpush
        obtain ⟨hlt, hnew⟩ := Graph.fresh_iff.mp hfresh
        exact .cons h hvia ⟨hblocks block (.head blocks), hlt, hreaches⟩ hnew
      · exact h

end Quest

/-! ## The search -/

/-- A search under way: its notes are a trail, and what was found is stacked or has
    everything found that it leads to. -/
structure Searching (r : Reachability) (source target : NodeId) (q : Quest) : Prop where
  trail : Trail (Leads r target) source q.trail
  stacked : ∀ b ∈ q.stack, b ∈ q.found source
  expanded : ∀ u ∈ q.found source, u ∈ q.stack ∨ ∀ v, Leads r target u v → v ∈ q.found source

namespace Searching

theorem start (r : Reachability) (source target : NodeId) :
    Searching r source target ⟨[source], []⟩ where
  trail := .nil
  stacked _ hb := hb
  expanded _ hu := .inl hu

/-- Expanding the block on top of the stack keeps a search under way. -/
theorem expand {stack : List NodeId} {trail : List (NodeId × NodeId)}
    (h : Searching r source target ⟨block :: stack, trail⟩) :
    Searching r source target
      (Quest.pushAll r source target block ⟨stack, trail⟩ (r.successors[block]?.getD [])) where
  trail := Quest.trail_pushAll h.trail (h.stacked block List.mem_cons_self) fun _ hb => hb
  stacked b hb := by
    rcases (Quest.mem_stack_pushAll _ _).mp hb with hold | hnew
    · exact (Quest.mem_found_pushAll _ _).mpr (.inl (h.stacked b (List.mem_cons_of_mem block hold)))
    · exact hnew.2
  expanded u hu := by
    have hkept : ∀ v, v ∈ Quest.found ⟨block :: stack, trail⟩ source →
        v ∈ (Quest.pushAll r source target block ⟨stack, trail⟩
          (r.successors[block]?.getD [])).found source :=
      fun v hv => (Quest.mem_found_pushAll _ _).mpr (.inl hv)
    by_cases hold : u ∈ Quest.found ⟨stack, trail⟩ source
    · rcases h.expanded u hold with hstack | hdone
      · rcases List.mem_cons.mp hstack with rfl | hrest
        · -- the block itself is done now
          exact .inr fun v hv => (Quest.mem_found_pushAll _ _).mpr (.inr hv)
        · exact .inl ((Quest.mem_stack_pushAll _ _).mpr (.inl hrest))
      · exact .inr fun v hv => hkept v (hdone v hv)
    · exact .inl ((Quest.mem_stack_pushAll _ _).mpr (.inr ⟨hold, hu⟩))

/-- A search ends with a trail that the target is on. -/
theorem run {q : Quest} (h : Searching r source target q)
    (hreach : Reaches (Leads r target) source target) :
    Trail (Leads r target) source (Quest.run r source target q) ∧
      target ∈ source :: (Quest.run r source target q).map Prod.fst := by
  fun_induction Quest.run r source target q with
  | case1 trail =>
      -- nothing waits any more, so that the blocks found are closed under steps
      refine ⟨h.trail, ?_⟩
      refine hreach.induction (P := fun v => v ∈ Quest.found ⟨[], trail⟩ source) List.mem_cons_self ?_
      intro v w _ hv hvw
      exact (h.expanded v hv).resolve_left List.not_mem_nil w hvw
  | case2 stack trail => exact ⟨h.trail, h.stacked target List.mem_cons_self⟩
  | case3 block stack trail _ ih => exact ih h.expand

end Searching

/-! ## Paths of procedures -/

theorem successors_of (f : Procedure) (u : NodeId) :
    (of f).successors[u]?.getD [] = f.successors u := by
  have htable : (of f).successors = (f.blocks.toList.map (·.successors)).toArray := by
    rw [of]
    cases f.entry <;> rfl
  rw [htable, List.getElem?_toArray, List.getElem?_map, Array.getElem?_toList]
  rfl

/-- The steps of a search are steps of the flow. -/
theorem flow_of_leads {u v : NodeId} (h : Leads (of f) target u v) : Direction.forward.Flow f u v := by
  have hsuccessor := h.1
  rw [successors_of] at hsuccessor
  exact hsuccessor

/-- Where control gets from a reached block to the target, steps of a search do. -/
theorem reaches_leads (hf : f.Built) (hsource : Direction.forward.Reached f source)
    (h : Reaches (Direction.forward.Flow f) source target) :
    Reaches (Leads (of f) target) source target := by
  obtain ⟨visited, hwalk⟩ := h
  induction hwalk with
  | here v => exact Reaches.refl v
  | @step u v w visited huv hrest ih =>
      have hv : Direction.forward.Reached f v := hsource.trans ((Reaches.refl u).tail huv)
      have hleads : Leads (of f) w u v := by
        refine ⟨?_, ?_, (reaches_iff hf).mpr ⟨hv, visited, hrest⟩⟩
        · rw [successors_of]
          exact huv
        · rw [(fitting_sources hf).size_eq]
          exact hf.linked.flow_lt huv
      exact ((Reaches.refl u).tail hleads).trans (ih hv)

/-- The path from one block to another that it reaches is a walk, read backwards. -/
theorem walk_path (hf : f.Built) (h : (of f).reaches source target = true) :
    Walk (Direction.forward.Flow f) source ((of f).path source target).reverse target := by
  obtain ⟨hsource, hreach⟩ := (reaches_iff hf).mp h
  obtain ⟨htrail, htarget⟩ :=
    (Searching.start (of f) source target).run (reaches_leads hf hsource hreach)
  rw [path, if_pos h]
  exact (htrail.walk_retrace htarget).mono fun _ _ => flow_of_leads

end ControlFlow.Reachability
