import ControlFlow.Proofs.Guarded.BitSet
import ControlFlow.Proofs.Guarded.Order
import ControlFlow.Proofs.Paths

/-!
# Reachability with every access checked

    The sets that a sweep merges have one capacity, the number of blocks, and all the
    words it calls for.  That is `Fitting`, which every sweep keeps (`Growing`).

    A search for a path notes for every block it finds how far it is and which block
    it was found from, in two tables.  Together with the stack they show a `Quest`:
    the blocks that have a distance are the blocks found, and what a block was found
    from can be looked up in the trail.  Going back through the table is then going
    back along the trail, and it ends because a trail does.
-/

namespace ControlFlow.Guarded

/-! ## Sweeps -/

/-- What reaches a block whatever its predecessors: the entry itself, if it is that. -/
def seedOf (count : Nat) (entry block : NodeId) : Guarded BitSet :=
  if block = entry then insertBit (.empty count) entry else pure (.empty count)

/-- What reaches a block, judging by what reaches its predecessors. -/
def gather (count : Nat) (entry block : NodeId) (predecessors : List NodeId)
    (sources : Array BitSet) : Guarded BitSet := do
  let seed ← seedOf count entry block
  let union ← predecessors.foldlM (fun s p => do
    let t ← fetch sources p
    mergeBits s t) seed
  if union.isEmpty then pure union else insertBit union block

/-- Puts what reaches a block in place of what was known. -/
def regather (f : Procedure) (entry block : NodeId) (state : Array BitSet × Bool) :
    Guarded (Array BitSet × Bool) :=
  match f.predecessors block with
  | [] => pure state
  | predecessors => do
      let union ← gather f.blocks.size entry block predecessors state.1
      put block union state

/-- Regathers every block of an order, in postorder read backwards. -/
def sweepSets (f : Procedure) (entry : NodeId) (postorder : List NodeId) (sources : Array BitSet) :
    Guarded (Array BitSet × Bool) :=
  postorder.foldrM (regather f entry) (sources, false)

/-- Only the entry reaches the entry. -/
def seeded (count : Nat) (entry : NodeId) : Guarded (Array BitSet) := do
  let set ← fetch (Reachability.unreached count) entry
  let set ← insertBit set entry
  store (Reachability.unreached count) entry set

/-- Computes which blocks of a procedure reach which. -/
def reachability (f : Procedure) : Guarded Reachability :=
  let successors := (f.blocks.toList.map (·.successors)).toArray
  match f.entry with
  | none =>
      pure
        { entry := none, sources := Reachability.unreached f.blocks.size
          successors := successors, sweeps := 0 }
  | some entry => do
      let initial ← seeded f.blocks.size entry
      let o ← order f .forward
      let settled ← settle (sweepSets f entry o.order.postorder) initial
      pure
        { entry := some entry, sources := settled.1, successors := successors
          sweeps := settled.2 }

section Sweeps

variable {f : Procedure} {entry b : NodeId} {s : Array BitSet} {count : Nat}

/-- The set of a block is there, and it fits. -/
theorem fetch_set (hs : Reachability.Fitting count s) (hb : b < count) :
    ∃ set, s[b]? = some set ∧ fetch s b = pure set ∧ set.Fits count := by
  have hset := Array.getElem?_eq_getElem (hs.size_eq ▸ hb : b < s.size)
  exact ⟨_, hset, fetch_eq hset, hs.fits b _ hset⟩

/-- The predecessors of a block are blocks. -/
theorem predecessor_lt (hf : f.Built) {u : NodeId} (hu : u ∈ f.predecessors b) :
    u < f.blocks.size :=
  have hback : Direction.backward.Flow f b u := (hf.linked.mirrored u b).mpr hu
  hf.linked.flow_lt hback

theorem seedOf_yields (hentry : entry < count) (b : NodeId) :
    Yields (seedOf count entry b) fun seed =>
      seed = (if b = entry then (BitSet.empty count).add entry else .empty count) ∧
        seed.Fits count := by
  have hempty := BitSet.Fits.empty count
  rw [seedOf]
  split
  · rw [insertBit_eq hempty hentry]
    exact Yields.pure ⟨rfl, hempty.add hentry⟩
  · exact Yields.pure ⟨rfl, hempty⟩

/-- Merging the sets of some blocks into a seed. -/
theorem merged_yields (hs : Reachability.Fitting count s) {us : List NodeId}
    (hus : ∀ u ∈ us, u < count) {seed : BitSet} (hseed : seed.Fits count) :
    Yields (us.foldlM (fun set u => do
        let other ← fetch s u
        mergeBits set other) seed) fun union =>
      union = us.foldl (fun set u => set.merge (s[u]?.getD (.empty count))) seed ∧
        union.Fits count := by
  refine Yields.foldlM (R := fun (set plain : BitSet) => set = plain ∧ set.Fits count) ?_ ⟨rfl, hseed⟩
  rintro u hu set _ ⟨rfl, hset⟩
  obtain ⟨other, hget, hfetch, hother⟩ := fetch_set hs (hus u hu)
  rw [hfetch, pure_bind, mergeBits_eq hset hother, hget]
  exact Yields.pure ⟨rfl, hset.merge hother⟩

theorem gather_eq (hf : f.Built) (hs : Reachability.Fitting f.blocks.size s)
    (hentry : entry < f.blocks.size) (hb : b < f.blocks.size) :
    gather f.blocks.size entry b (f.predecessors b) s =
      pure (Reachability.gather f.blocks.size entry b (f.predecessors b) s) := by
  refine Yields.eq_pure ((seedOf_yields hentry b).bind ?_)
  rintro seed ⟨hseed_eq, hseed⟩
  refine (merged_yields hs (fun u => predecessor_lt hf) hseed).bind ?_
  rintro union ⟨hunion_eq, hunion⟩
  have hplain : Reachability.gather f.blocks.size entry b (f.predecessors b) s =
      if union.isEmpty then union else union.add b := by
    rw [hunion_eq, hseed_eq]
    rfl
  rw [hplain]
  split
  · exact Yields.pure rfl
  · rw [insertBit_eq hunion hb]
    exact Yields.pure rfl

/-- Regathering a block of fitting sets, guarded and not. -/
theorem regather_yields {state : Array BitSet × Bool} {done : List NodeId} (hf : f.Built)
    (hs : Reachability.Fitting f.blocks.size state.1) (hentry : entry < f.blocks.size)
    (hb : b < f.blocks.size) (hnew : b ∉ done) (hnoted : Noted s done state) :
    Yields (regather f entry b state) fun next =>
      next.1 = Reachability.refine f entry b state.1 ∧ Noted s (b :: done) next := by
  rw [regather, Reachability.refine]
  have hgather := gather_eq hf hs hentry hb
  cases hpredecessors : f.predecessors b with
  | nil => exact Yields.pure ⟨rfl, hnoted.skip b⟩
  | cons u us =>
      rw [hpredecessors] at hgather
      show Yields (gather f.blocks.size entry b (u :: us) state.1 >>= _) _
      rw [hgather, pure_bind]
      exact hnoted.put hnew (hs.size_eq ▸ hb) _

/-- A guarded sweep of sets that sweeping comes to does what a sweep does, and notes
    whether it changed anything. -/
theorem sweepSets_yields (hf : f.Built) (hentry : f.entry = some entry)
    (h : Reachability.Growing f entry s) {blocks : List NodeId}
    (hblocks : ∀ b ∈ blocks, b < f.blocks.size) (hnodup : blocks.Nodup) :
    Yields (sweepSets f entry blocks s) fun swept =>
      swept.1 = Reachability.sweep f entry blocks s ∧
        (swept.2 = true ↔ Reachability.sweep f entry blocks s ≠ s) := by
  refine (Yields.foldrM
    (P := fun done state => state.1 = Reachability.sweep f entry done s ∧ Noted s done state)
    ?_ ⟨rfl, Noted.start s⟩).mono ?_
  · rintro b done hsuffix state ⟨hstate, hnoted⟩
    have hdone : ∀ c ∈ b :: done, c < f.blocks.size := fun c hc => hblocks c (hsuffix.subset hc)
    have hnew : b ∉ done := (List.nodup_cons.mp (hnodup.sublist hsuffix.sublist)).1
    have hgrowing := (h.sweep hf hentry done fun c hc => hdone c (List.mem_cons_of_mem b hc)).1
    have hfitting : Reachability.Fitting f.blocks.size state.1 := by
      rw [hstate]
      exact hgrowing.fitting
    refine (regather_yields hf hfitting (hf.entry_lt hentry) (hdone b List.mem_cons_self) hnew
      hnoted).mono ?_
    rintro next ⟨hnext, hnoted'⟩
    refine ⟨?_, hnoted'⟩
    rw [hnext, hstate]
    rfl
  · rintro swept ⟨heq, hnoted⟩
    exact ⟨heq, heq ▸ hnoted.iff_ne⟩

theorem seeded_eq (hentry : entry < count) :
    seeded count entry = pure (Reachability.initial count entry) := by
  have hset : (Reachability.unreached count)[entry]? = some (.empty count) := by
    rw [Reachability.unreached, Array.getElem?_replicate, if_pos hentry]
  have hlt : entry < (Reachability.unreached count).size := by
    rw [Reachability.unreached, Array.size_replicate]
    exact hentry
  rw [seeded, fetch_eq hset, pure_bind, insertBit_eq (BitSet.Fits.empty count) hentry, pure_bind,
    store_eq hlt, Reachability.initial, modify_eq_setIfInBounds hset]

/-- The reachability of a built procedure is computed without an access out of bounds,
    a number that does not fit or sets of different capacities. -/
theorem reachability_eq (hf : f.Built) : reachability f = pure (Reachability.of f) := by
  rw [reachability]
  cases hentry : f.entry with
  | none =>
      rw [Reachability.of, hentry]
  | some entry =>
      obtain ⟨sources, sweeps, hsettle, -, -, hsources, hsweeps⟩ :=
        Reachability.exists_settled hf hentry
      have hblocks : ∀ b ∈ (BlockOrder.of f .forward).postorder, b < f.blocks.size :=
        fun b => BlockOrder.lt_size_of_mem
      obtain ⟨o, ho, hshows⟩ := order_shows f .forward
      have hsettled : settle (sweepSets f entry (BlockOrder.of f .forward).postorder)
          (Reachability.initial f.blocks.size entry) = pure (sources, sweeps) :=
        settle_eq
          (fun s hs => sweepSets_yields hf hentry hs hblocks (BlockOrder.nodup_of f .forward))
          (fun s hs => (hs.sweep hf hentry _ hblocks).1) (Reachability.growing_initial hf hentry)
          hsettle
      have hof : Reachability.of f = ⟨some entry, sources,
          (f.blocks.toList.map (·.successors)).toArray, sweeps⟩ := by
        rw [← hsources, ← hsweeps, Reachability.of, hentry]
      show (seeded f.blocks.size entry >>= _) = _
      rw [seeded_eq (hf.entry_lt hentry), pure_bind, ho, pure_bind, hshows.order_eq, hsettled,
        pure_bind, hof]

end Sweeps

/-! ## Paths -/

/-- Whether control can flow from one block to another. -/
def reaches (r : Reachability) (source target : NodeId) : Guarded Bool :=
  match r.sources[target]? with
  | none => pure false
  | some set => hasBit set source

/-- Whether control can flow from the entry to a block. -/
def isReachable (r : Reachability) (block : NodeId) : Guarded Bool :=
  match r.entry with
  | none => pure false
  | some entry => reaches r entry block

/-- The blocks that can reach a block, in ascending order. -/
def reaching (r : Reachability) (target : NodeId) : Guarded (List NodeId) :=
  match r.sources[target]? with
  | none => pure []
  | some set => members set

/-- A search under way: the blocks still to be expanded, and for every block what it
    was found from and how far it is. -/
structure Search where
  stack : List NodeId
  parent : Array (Option NodeId)
  distance : Array (Option Nat)

/-- Takes up a block, unless it is found already or does not lead to the target. -/
def takeUp (r : Reachability) (target via : NodeId) (distance : Nat) (s : Search) (block : NodeId) :
    Guarded Search := do
  let known ← fetch s.distance block
  if known.isSome then pure s
  else
    if ← reaches r block target then
      let distances ← store s.distance block (some distance)
      let parents ← store s.parent block (some via)
      pure { stack := block :: s.stack, parent := parents, distance := distances }
    else pure s

/-- Expands the block on top of the stack, unless that is the target. -/
def expandNext (r : Reachability) (target : NodeId) (s : Search) : Guarded (Search ⊕ Search) :=
  match s.stack with
  | [] => pure (.inr s)
  | block :: stack =>
      if block = target then pure (.inr s)
      else do
        let distance ← fetch s.distance block
        let successors ← fetch r.successors block
        let next ← successors.foldlM (takeUp r target block (distance.getD 0 + 1))
          { s with stack := stack }
        pure (.inl next)

/-- Goes from a block to the one it was found from, unless it is the source. -/
def stepBack (source : NodeId) (parent : Array (Option NodeId)) (s : NodeId × List NodeId) :
    Guarded ((NodeId × List NodeId) ⊕ List NodeId) :=
  if s.1 = source then pure (.inr s.2)
  else do
    let previous ← fetch parent s.1
    match previous with
    | none => pure (.inr [])
    | some previous => pure (.inl (previous, s.2 ++ [previous]))

/-- A path from one block to another, the target first; empty when there is none. -/
def path (r : Reachability) (source target : NodeId) : Guarded (List NodeId) := do
  if ← reaches r source target then
    let distance ← store (Array.replicate r.sources.size none) source (some 0)
    let s ← loop (expandNext r target)
      { stack := [source], parent := Array.replicate r.sources.size none, distance := distance }
    let length ← fetch s.distance target
    if length.isSome then loop (stepBack source s.parent) (target, [target]) else pure []
  else pure []

/-- The tables show a search: the blocks that have a distance are those found, and
    each has the block it was found from as its parent. -/
structure Search.Shows (s : Search) (size : Nat) (source : NodeId) (q : Reachability.Quest) :
    Prop where
  stack_eq : s.stack = q.stack
  size_parent : s.parent.size = size
  size_distance : s.distance.size = size
  distance : ∀ b, b < size → ∃ known, s.distance[b]? = some known ∧
    (known.isSome = true ↔ b ∈ q.found source)
  parent : ∀ b, b < size → s.parent[b]? = some (q.trail.lookup b)

section Paths

open Reachability (Quest)

variable {f : Procedure} {r : Reachability} {size : Nat} {source target via block : NodeId}
  {s : Search} {q : Quest}

theorem reaches_eq (hr : Reachability.Fitting size r.sources) (source target : NodeId) :
    reaches r source target = pure (r.reaches source target) := by
  rw [reaches, Reachability.reaches]
  cases hset : r.sources[target]? with
  | none => rfl
  | some set => exact hasBit_eq (hr.fits target set hset) source

theorem isReachable_eq (hr : Reachability.Fitting size r.sources) (block : NodeId) :
    isReachable r block = pure (r.isReachable block) := by
  rw [isReachable, Reachability.isReachable]
  cases r.entry with
  | none => rfl
  | some entry => exact reaches_eq hr entry block

theorem reaching_eq (r : Reachability) (target : NodeId) :
    reaching r target = pure (r.reaching target) := by
  rw [reaching, Reachability.reaching]
  cases r.sources[target]? with
  | none => rfl
  | some set => exact members_eq set

theorem shows_start (size : Nat) (source : NodeId) :
    Search.Shows ⟨[source], Array.replicate size none,
      (Array.replicate size none).setIfInBounds source (some 0)⟩ size source ⟨[source], []⟩ where
  stack_eq := rfl
  size_parent := Array.size_replicate
  size_distance := Array.size_setIfInBounds.trans Array.size_replicate
  distance b hb := by
    by_cases heq : source = b
    · subst heq
      refine ⟨some 0, ?_, iff_of_true rfl List.mem_cons_self⟩
      rw [Array.getElem?_setIfInBounds_self_of_lt (by rwa [Array.size_replicate])]
    · refine ⟨none, ?_, iff_of_false Bool.false_ne_true ?_⟩
      · rw [Array.getElem?_setIfInBounds_ne heq, Array.getElem?_replicate, if_pos hb]
      · exact fun hmem => heq (List.mem_singleton.mp hmem).symm
  parent b hb := by
    rw [Array.getElem?_replicate, if_pos hb]
    rfl

/-- A block that is newly found gets its distance and its parent. -/
theorem Search.Shows.find (h : s.Shows size source q) (hblock : block < size) (distance : Nat) :
    Search.Shows ⟨block :: s.stack, s.parent.setIfInBounds block (some via),
      s.distance.setIfInBounds block (some distance)⟩ size source
      ⟨block :: q.stack, (block, via) :: q.trail⟩ where
  stack_eq := by rw [h.stack_eq]
  size_parent := Array.size_setIfInBounds.trans h.size_parent
  size_distance := Array.size_setIfInBounds.trans h.size_distance
  distance b hb := by
    have hfound : b ∈ Quest.found ⟨block :: q.stack, (block, via) :: q.trail⟩ source ↔
        b = block ∨ b ∈ q.found source := by
      simp only [Quest.found, List.map_cons, List.mem_cons]
      exact or_left_comm
    by_cases heq : block = b
    · subst heq
      refine ⟨some distance, ?_, iff_of_true rfl (hfound.mpr (.inl rfl))⟩
      exact Array.getElem?_setIfInBounds_self_of_lt (h.size_distance ▸ hblock)
    · obtain ⟨known, hknown, hiff⟩ := h.distance b hb
      refine ⟨known, (Array.getElem?_setIfInBounds_ne heq).trans hknown, ?_⟩
      rw [hiff, hfound, or_iff_right (Ne.symm heq)]
  parent b hb := by
    rw [List.lookup_cons]
    by_cases heq : block = b
    · subst heq
      rw [Array.getElem?_setIfInBounds_self_of_lt (h.size_parent ▸ hblock), beq_self_eq_true]
    · rw [Array.getElem?_setIfInBounds_ne heq, h.parent b hb, beq_false_of_ne (Ne.symm heq)]

/-- Taking up a block of the procedure, guarded and not. -/
theorem takeUp_yields (hr : Reachability.Fitting size r.sources) (h : s.Shows size source q)
    (hblock : block < size) (distance : Nat) :
    Yields (takeUp r target via distance s block)
      (·.Shows size source (q.push r source target via block)) := by
  obtain ⟨known, hknown, hfound⟩ := h.distance block hblock
  have hfresh : Graph.fresh r.sources.size (q.found source) block = true ↔
      ¬ known.isSome = true := by
    rw [Graph.fresh_iff, hr.size_eq, hfound]
    exact and_iff_right hblock
  rw [takeUp, fetch_eq hknown, pure_bind, Quest.push]
  by_cases hsome : known.isSome = true
  · rw [if_pos hsome, if_neg fun hboth => hfresh.mp (Bool.and_eq_true_iff.mp hboth).1 hsome]
    exact Yields.pure h
  · rw [if_neg hsome, reaches_eq hr, pure_bind, hfresh.mpr hsome, Bool.true_and]
    split
    · rw [store_eq (h.size_distance ▸ hblock), pure_bind, store_eq (h.size_parent ▸ hblock),
        pure_bind]
      exact Yields.pure (h.find hblock distance)
    · exact Yields.pure h

theorem takeUpAll_yields (hr : Reachability.Fitting size r.sources) (h : s.Shows size source q)
    {blocks : List NodeId} (hblocks : ∀ b ∈ blocks, b < size) (distance : Nat) :
    Yields (blocks.foldlM (takeUp r target via distance) s)
      (·.Shows size source (q.pushAll r source target via blocks)) :=
  Yields.foldlM (R := fun s q => Search.Shows s size source q)
    (fun b hb _ _ hs => takeUp_yields hr hs (hblocks b hb) distance) h

/-- There are as many sets and lists of successors as blocks, and they hold nothing but
    blocks. -/
structure Bounded (r : Reachability) (size : Nat) : Prop where
  fitting : Reachability.Fitting size r.sources
  successors : ∀ b, b < size →
    ∃ next, r.successors[b]? = some next ∧ ∀ c ∈ next, c < size

theorem bounded_of (hf : f.Built) : Bounded (.of f) f.blocks.size where
  fitting := Reachability.fitting_sources hf
  successors b hb := by
    have htable : (Reachability.of f).successors = (f.blocks.toList.map (·.successors)).toArray := by
      rw [Reachability.of]
      cases f.entry <;> rfl
    have hlength : b < (Reachability.of f).successors.size := by
      rw [htable, List.size_toArray, List.length_map]
      exact hb
    have hnext := Array.getElem?_eq_getElem hlength
    refine ⟨_, hnext, fun c hc => ?_⟩
    have hflow := Reachability.successors_of f b
    rw [hnext, Option.getD_some] at hflow
    exact hf.linked.bounded b c (hflow ▸ hc)

/-- Only blocks are stacked. -/
theorem lt_of_mem_pushAll {blocks : List NodeId} (hr : Reachability.Fitting size r.sources)
    (hstack : ∀ b ∈ q.stack, b < size) :
    ∀ b ∈ (q.pushAll r source target via blocks).stack, b < size := by
  intro b hb
  rcases (Quest.mem_stack_pushAll q blocks).mp hb with hold | ⟨hnew, hfound⟩
  · exact hstack b hold
  · obtain ⟨-, hlt, -⟩ := ((Quest.mem_found_pushAll q blocks).mp hfound).resolve_left hnew
    exact hr.size_eq ▸ hlt

/-- The search makes its accesses within bounds and ends with the trail it should. -/
theorem loop_expandNext (hr : Bounded r size) (h : s.Shows size source q)
    (hstack : ∀ b ∈ q.stack, b < size) :
    Yields (loop (expandNext r target) s) fun final =>
      ∃ stack, final.Shows size source ⟨stack, q.run r source target⟩ := by
  fun_induction Quest.run r source target q generalizing s with
  | case1 trail =>
      have hdone : expandNext r target s = pure (.inr s) := by rw [expandNext, h.stack_eq]
      rw [loop_done hdone]
      exact Yields.pure ⟨[], h⟩
  | case2 stack trail =>
      have hdone : expandNext r target s = pure (.inr s) := by
        rw [expandNext, h.stack_eq]
        exact if_pos rfl
      rw [loop_done hdone]
      exact Yields.pure ⟨target :: stack, h⟩
  | case3 block stack trail hne ih =>
      have hblock : block < size := hstack block List.mem_cons_self
      obtain ⟨known, hknown, -⟩ := h.distance block hblock
      obtain ⟨next, hnext, hlt⟩ := hr.successors block hblock
      have hshows : Search.Shows { s with stack := stack } size source ⟨stack, trail⟩ :=
        ⟨rfl, h.size_parent, h.size_distance, h.distance, h.parent⟩
      have htaken : Yields (next.foldlM (takeUp r target block (known.getD 0 + 1))
          { s with stack := stack })
          (·.Shows size source (Quest.pushAll r source target block ⟨stack, trail⟩ next)) :=
        takeUpAll_yields hr.fitting hshows hlt (known.getD 0 + 1)
      obtain ⟨s', hs', hshows'⟩ := htaken
      have hstep : expandNext r target s = pure (.inl s') := by
        rw [expandNext, h.stack_eq]
        show (if block = target then _ else _) = _
        rw [if_neg hne, fetch_eq hknown, pure_bind, fetch_eq hnext, pure_bind, hs', pure_bind]
      have hsuccessors : r.successors[block]?.getD [] = next := by rw [hnext, Option.getD_some]
      rw [hsuccessors] at ih ⊢
      rw [loop_next hstep]
      exact ih hshows' (lt_of_mem_pushAll hr.fitting fun b hb =>
        hstack b (List.mem_cons_of_mem block hb))

/-- Going back through the parents is going back along the trail. -/
theorem loop_stepBack {stack : List NodeId} {trail : List (NodeId × NodeId)}
    {next : NodeId → NodeId → Prop} (h : s.Shows size source ⟨stack, trail⟩)
    (htrail : Reachability.Trail next source trail) (hlt : ∀ b ∈ trail.map Prod.fst, b < size)
    (htarget : target ∈ source :: trail.map Prod.fst) :
    loop (stepBack source s.parent) (target, [target]) =
      pure (Reachability.retrace target trail) := by
  -- the blocks listed and the way back from the last of them make up the whole way
  refine Yields.eq_pure (Yields.loop
    (P := fun t => t.1 ∈ source :: trail.map Prod.fst ∧
      t.2 ++ (Reachability.retrace t.1 trail).tail = Reachability.retrace target trail)
    (fun t => (Reachability.retrace t.1 trail).length) ?_ ⟨htarget, ?_⟩)
  · rintro ⟨block, listed⟩ ⟨hblock, hlisted⟩
    dsimp only at hblock hlisted ⊢
    by_cases heq : block = source
    · subst heq
      rw [htrail.retrace_source, List.tail_cons, List.append_nil] at hlisted
      rw [stepBack, if_pos rfl]
      exact Yields.done hlisted
    · have hfound := (List.mem_cons.mp hblock).resolve_left heq
      obtain ⟨via, hlookup, hvia, hretrace⟩ := htrail.retrace_of_mem hfound
      obtain ⟨rest, hrest⟩ := Reachability.retrace_eq_cons via trail
      have hparent : s.parent[block]? = some (some via) := by
        rw [h.parent block (hlt block hfound), hlookup]
      rw [stepBack, if_neg heq, fetch_eq hparent, pure_bind]
      refine Yields.next ?_
      refine ⟨⟨hvia, ?_⟩, ?_⟩
      · rw [hretrace, List.tail_cons] at hlisted
        rw [← hlisted, hrest, List.tail_cons, List.append_assoc, List.singleton_append]
      · show (Reachability.retrace via trail).length < (Reachability.retrace block trail).length
        rw [hretrace, List.length_cons]
        exact Nat.lt_succ_self _
  · obtain ⟨rest, hrest⟩ := Reachability.retrace_eq_cons target trail
    rw [hrest]
    rfl

/-- A path is found without an access out of bounds, and it is the one it should be. -/
theorem path_eq (hf : f.Built) (source target : NodeId) :
    path (.of f) source target = pure ((Reachability.of f).path source target) := by
  have hbounded := bounded_of hf
  have hsize := hbounded.fitting.size_eq
  rw [path, reaches_eq hbounded.fitting, pure_bind, Reachability.path]
  split
  · rename_i hreaches
    obtain ⟨hsource, hflow⟩ := (Reachability.reaches_iff hf).mp hreaches
    obtain ⟨hsource_lt, htarget_lt⟩ := hbounded.fitting.lt_of_holds
      ((Reachability.reaches_iff_holds hbounded.fitting).mp hreaches)
    obtain ⟨htrail, htarget⟩ := (Reachability.Searching.start (.of f) source target).run
      (Reachability.reaches_leads hf hsource hflow)
    rw [hsize, store_eq (by rwa [Array.size_replicate]), pure_bind]
    have hstack : ∀ b ∈ [source], b < f.blocks.size := by
      intro b hb
      rw [List.mem_singleton.mp hb]
      exact hsource_lt
    refine Yields.eq_pure ((loop_expandNext hbounded (shows_start f.blocks.size source)
      hstack).bind ?_)
    rintro s ⟨stack, hs⟩
    obtain ⟨known, hknown, hfound⟩ := hs.distance target htarget_lt
    have hlt : ∀ b ∈ (Quest.run (.of f) source target ⟨[source], []⟩).map Prod.fst,
        b < f.blocks.size := by
      intro b hb
      obtain ⟨via, hleads⟩ := htrail.exists_step hb
      exact hsize ▸ hleads.2.1
    rw [fetch_eq hknown, pure_bind, if_pos (hfound.mpr htarget), loop_stepBack hs htrail hlt htarget]
    exact Yields.pure rfl
  · rfl

end Paths

end ControlFlow.Guarded
