import ControlFlow.Proofs.Postorder
import Mathlib.Data.List.Dedup

/-!
# The search of a graph

    `search` marks a node when it stacks it and lists it when it takes it off, so
    that a mark alone does not mean that a node is listed already.  What it comes
    to is said for an arbitrary stack and arbitrary marks: everything stacked is
    listed, and with a node each of its successors, unless that was marked to begin
    with.  At the start nothing is marked but what is stacked.

    One step stacks the fresh successors of a node, each once (`pushAll_eq`); what
    is listed, that nothing is listed twice, and what stands before a node are
    inductions along `drain` that use only this.
-/

namespace ControlFlow.Graph

variable {g : Graph} {start x y : NodeId}

/-! ## Stacking -/

namespace Pending

/-- What stacking a list puts on top, and marks: its fresh nodes, each where it
    stands last. -/
theorem pushAll_eq (size : Nat) (vs : List NodeId) (s : Pending) :
    s.pushAll size vs = ⟨(vs.filter (fresh size s.marked)).dedup ++ s.stack,
      (vs.filter (fresh size s.marked)).dedup ++ s.marked⟩ := by
  induction vs with
  | nil => rfl
  | cons v vs ih =>
      show (s.pushAll size vs).push size v = _
      rw [ih, push]
      -- `v` is fresh after the rest of the list if it was before and is not in the rest
      by_cases hfresh : fresh size s.marked v = true
      · obtain ⟨hlt, hnot⟩ := fresh_iff.mp hfresh
        rw [List.filter_cons_of_pos hfresh]
        by_cases hmem : v ∈ vs.filter (fresh size s.marked)
        · rw [List.dedup_cons_of_mem hmem, if_neg]
          rw [fresh_iff, List.mem_append, List.mem_dedup]
          exact fun h => h.2 (.inl hmem)
        · rw [List.dedup_cons_of_notMem hmem, if_pos]
          · rfl
          · rw [fresh_iff, List.mem_append, List.mem_dedup]
            exact ⟨hlt, fun h => h.elim hmem hnot⟩
      · rw [List.filter_cons_of_neg hfresh, if_neg]
        rw [fresh_iff] at hfresh ⊢
        exact fun h => hfresh ⟨h.1, fun hmem => h.2 (List.mem_append_right _ hmem)⟩

/-- What is marked after stacking a list: what was, and the nodes of the list. -/
theorem mem_marked_pushAll (size : Nat) (vs : List NodeId) (s : Pending) :
    x ∈ (s.pushAll size vs).marked ↔ x ∈ s.marked ∨ x ∈ vs ∧ x < size := by
  rw [pushAll_eq, List.mem_append, List.mem_dedup, List.mem_filter, fresh_iff]
  by_cases hmarked : x ∈ s.marked
  · exact iff_of_true (.inr hmarked) (.inl hmarked)
  · rw [or_iff_left hmarked, or_iff_right hmarked, and_iff_left hmarked]

/-- What is stacked: what was, and those nodes of the list that were not marked. -/
theorem mem_stack_pushAll (size : Nat) (vs : List NodeId) (s : Pending) :
    x ∈ (s.pushAll size vs).stack ↔ x ∈ s.stack ∨ x ∈ vs ∧ x < size ∧ x ∉ s.marked := by
  rw [pushAll_eq, List.mem_append, List.mem_dedup, List.mem_filter, fresh_iff, or_comm]

end Pending

/-! ## What is listed -/

/-- Everything stacked is listed. -/
theorem mem_drain_of_stack {s : Pending} (h : x ∈ s.stack) : x ∈ g.drain s := by
  fun_induction drain g s with
  | case1 marked => exact absurd h List.not_mem_nil
  | case2 v rest marked ih =>
      rcases List.mem_cons.mp h with rfl | hrest
      · exact List.mem_cons_self
      · exact List.mem_cons_of_mem v (ih ((Pending.mem_stack_pushAll ..).mpr (.inl hrest)))

/-- The successors of a listed node are listed, unless they were marked before. -/
theorem successor_mem_drain {s : Pending} (h : x ∈ g.drain s) (hxy : g.Edge x y)
    (hlt : y < g.size) : y ∈ g.drain s ∨ y ∈ s.marked := by
  fun_induction drain g s with
  | case1 marked => exact absurd h List.not_mem_nil
  | case2 v rest marked ih =>
      -- what the step marks it stacks, and what is stacked is listed
      have hstep : y ∈ g.successors v → y ∈ v :: g.drain (Pending.pushAll g.size (g.successors v)
          ⟨rest, marked⟩) ∨ y ∈ marked := by
        intro hv
        by_cases hmarked : y ∈ marked
        · exact .inr hmarked
        · refine .inl (List.mem_cons_of_mem v (mem_drain_of_stack ?_))
          exact (Pending.mem_stack_pushAll ..).mpr (.inr ⟨hv, hlt, hmarked⟩)
      rcases List.mem_cons.mp h with rfl | hrest
      · exact hstep hxy
      · rcases ih hrest with hlisted | hmarked
        · exact .inl (List.mem_cons_of_mem v hlisted)
        · rcases (Pending.mem_marked_pushAll ..).mp hmarked with hold | ⟨hv, -⟩
          · exact .inr hold
          · exact hstep hv

/-- Whatever is listed is reached from something stacked. -/
theorem reaches_of_mem_drain {s : Pending} (h : x ∈ g.drain s) :
    ∃ e ∈ s.stack, Reaches g.Link e x := by
  fun_induction drain g s with
  | case1 marked => exact absurd h List.not_mem_nil
  | case2 v rest marked ih =>
      rcases List.mem_cons.mp h with rfl | hrest
      · exact ⟨x, List.mem_cons_self, Reaches.refl x⟩
      · obtain ⟨e, he, hreach⟩ := ih hrest
        rcases (Pending.mem_stack_pushAll ..).mp he with hold | ⟨hv, hlt, -⟩
        · exact ⟨e, List.mem_cons_of_mem v hold, hreach⟩
        · exact ⟨v, List.mem_cons_self, ((Reaches.refl v).tail ⟨hv, hlt⟩).trans hreach⟩

theorem search_outside (hstart : ¬ start < g.size) : g.search start = [] := by
  rw [search, if_neg hstart]

/-- The start comes first. -/
theorem search_eq_cons (hstart : start < g.size) : ∃ rest, g.search start = start :: rest := by
  rw [search, if_pos hstart, drain]
  exact ⟨_, rfl⟩

theorem head?_search (g : Graph) (start : NodeId) :
    (g.search start).head? = if start < g.size then some start else none := by
  split
  · rename_i hstart
    obtain ⟨rest, hrest⟩ := search_eq_cons hstart
    rw [hrest, List.head?_cons]
  · rename_i hstart
    rw [search_outside hstart]
    rfl

theorem search_eq_nil_iff : g.search start = [] ↔ g.size ≤ start := by
  rw [← List.head?_eq_none_iff, head?_search, ite_eq_right_iff, ← Nat.not_lt]
  exact imp_congr_right fun _ => iff_false_intro (Option.some_ne_none start)

/-- The search lists the nodes reached from its start within the graph. -/
theorem mem_search_iff_link :
    x ∈ g.search start ↔ start < g.size ∧ Reaches g.Link start x := by
  by_cases hstart : start < g.size
  · rw [search, if_pos hstart, and_iff_right hstart]
    have hlisted : start ∈ g.drain ⟨[start], [start]⟩ := mem_drain_of_stack List.mem_cons_self
    constructor
    · intro h
      obtain ⟨e, he, hreach⟩ := reaches_of_mem_drain h
      exact List.mem_singleton.mp he ▸ hreach
    · intro h
      refine h.induction (P := fun v => v ∈ g.drain ⟨[start], [start]⟩) hlisted ?_
      intro v w _ hv hlink
      rcases successor_mem_drain hv hlink.1 hlink.2 with hw | hmarked
      · exact hw
      · exact List.mem_singleton.mp hmarked ▸ hlisted
  · rw [search_outside hstart]
    exact iff_of_false List.not_mem_nil fun h => hstart h.1

theorem mem_search_iff (hstart : start < g.size) (hsize : ∀ u v, g.Edge u v → v < g.size) :
    x ∈ g.search start ↔ Reaches g.Edge start x := by
  rw [mem_search_iff_link, and_iff_right hstart, reaches_link_iff hsize]

/-! ## In which order -/

/-- A listed node was stacked to begin with, or it is a successor of a node listed
    before it. -/
theorem link_of_drain_eq {s : Pending} {before after : List NodeId}
    (h : g.drain s = before ++ x :: after) : x ∈ s.stack ∨ ∃ u ∈ before, g.Link u x := by
  fun_induction drain g s generalizing before with
  | case1 marked => simp at h
  | case2 v rest marked ih =>
      cases before with
      | nil =>
          obtain ⟨rfl, -⟩ := List.cons.inj h
          exact .inl List.mem_cons_self
      | cons u before =>
          obtain ⟨rfl, hrest⟩ := List.cons.inj h
          rcases ih hrest with hstacked | ⟨w, hw, hlink⟩
          · rcases (Pending.mem_stack_pushAll ..).mp hstacked with hold | ⟨hv, hlt, -⟩
            · exact .inl (List.mem_cons_of_mem v hold)
            · exact .inr ⟨v, List.mem_cons_self, hv, hlt⟩
          · exact .inr ⟨w, List.mem_cons_of_mem v hw, hlink⟩

/-- Nothing is listed twice, and of what was marked only what is stacked, as long as
    the stack holds marked nodes, each once. -/
theorem nodup_drain (s : Pending) (hnodup : s.stack.Nodup) (hmarked : ∀ v ∈ s.stack, v ∈ s.marked) :
    (g.drain s).Nodup ∧ ∀ v ∈ g.drain s, v ∈ s.stack ∨ v ∉ s.marked := by
  fun_induction drain g s with
  | case1 marked => exact ⟨List.nodup_nil, fun v hv => absurd hv List.not_mem_nil⟩
  | case2 v rest marked ih =>
      obtain ⟨hv, hrest⟩ := List.nodup_cons.mp hnodup
      have hvmarked : v ∈ marked := hmarked v List.mem_cons_self
      have hnew : ∀ u ∈ ((g.successors v).filter (fresh g.size marked)).dedup, u ∉ marked := by
        intro u hu
        exact (fresh_iff.mp (List.mem_filter.mp (List.mem_dedup.mp hu)).2).2
      rw [Pending.pushAll_eq] at ih ⊢
      obtain ⟨hout, hold⟩ := ih
        (List.nodup_append.mpr ⟨List.nodup_dedup _, hrest, fun u hu w hw heq =>
          hnew u hu (heq ▸ hmarked w (List.mem_cons_of_mem v hw))⟩)
        (by
          intro u hu
          rw [List.mem_append] at hu ⊢
          exact hu.imp_right fun hmem => hmarked u (List.mem_cons_of_mem v hmem))
      refine ⟨List.nodup_cons.mpr ⟨fun hmem => ?_, hout⟩, fun u hu => ?_⟩
      · rcases hold v hmem with hstacked | hnot
        · exact (List.mem_append.mp hstacked).elim (fun h => hnew v h hvmarked) hv
        · exact hnot (List.mem_append_right _ hvmarked)
      · rcases List.mem_cons.mp hu with rfl | hu
        · exact .inl List.mem_cons_self
        · rcases hold u hu with hstacked | hnot
          · rcases List.mem_append.mp hstacked with h | h
            · exact .inr (hnew u h)
            · exact .inl (List.mem_cons_of_mem v h)
          · exact .inr fun hmem => hnot (List.mem_append_right _ hmem)

/-- Each node is listed once. -/
theorem nodup_search (g : Graph) (start : NodeId) : (g.search start).Nodup := by
  rw [search]
  split
  · exact (nodup_drain ⟨[start], [start]⟩ (List.nodup_singleton start) fun v hv => hv).1
  · exact List.nodup_nil

end ControlFlow.Graph
