import ControlFlow.Proofs.Construction
import ControlFlow.Proofs.DepthFirst

/-!
# The positions of a built procedure's blocks

    Analyses know blocks by their positions in the postorder.  For a procedure
    that was built, exactly the reached blocks have a position, each has one of
    its own, the start has the highest, and every other block has an incoming
    block with a higher one.  The last is all that the order contributes to the
    computation of dominators.

    A step of control goes down in the order unless it is part of a cycle
    (`reaches_of_le`).  This is where the order has to come from a depth-first
    search, and it is what makes sweeps against the postorder settle soon.
-/

namespace ControlFlow.BlockOrder

variable {f : Procedure} {direction : Direction} {start b b' : NodeId} {p : Nat}

theorem size_graph (f : Procedure) (direction : Direction) :
    (direction.graph f).size = f.blocks.size := by
  cases direction <;> rfl

theorem nodup_of (f : Procedure) (direction : Direction) : (of f direction).postorder.Nodup := by
  unfold of
  cases direction.start? f with
  | none => exact List.nodup_nil
  | some start => exact Graph.nodup_postorder (direction.graph f) start

theorem postorder_of (hstart : direction.start? f = some start) :
    (of f direction).postorder = (direction.graph f).postorder start := by
  unfold of
  rw [hstart]

theorem lt_size_of_mem (h : b ∈ (of f direction).postorder) : b < f.blocks.size := by
  unfold of at h
  cases hstart : direction.start? f with
  | none =>
      rw [hstart] at h
      exact absurd h List.not_mem_nil
  | some start =>
      rw [hstart] at h
      rw [← size_graph f direction]
      exact Graph.lt_size_of_mem_postorder h

/-- Where no block is listed twice, a block is found where it stands. -/
theorem idxOf?_of_nodup {blocks : List NodeId} (h : blocks.Nodup) :
    blocks.idxOf? b = some p ↔ blocks[p]? = some b := by
  rw [List.idxOf?_eq_some_iff, List.getElem?_eq_some_iff]
  constructor
  · rintro ⟨hlt, heq, -⟩
    exact ⟨hlt, heq⟩
  · rintro ⟨hlt, heq⟩
    refine ⟨hlt, heq, ?_⟩
    intro j hj hjb
    have hsame : blocks[p]? = blocks[j]? := by
      rw [List.getElem?_eq_getElem hlt, List.getElem?_eq_getElem (by omega), heq, hjb]
    have := (List.getElem?_inj hlt h).mp hsame
    omega

/-- The position of a block is where it stands. -/
theorem position?_of : (of f direction).position? b = some p ↔
    (of f direction).postorder[p]? = some b :=
  idxOf?_of_nodup (nodup_of f direction)

theorem block_eq_of_position? (h : (of f direction).position? b = some p)
    (h' : (of f direction).position? b' = some p) : b = b' := by
  rw [position?_of] at h h'
  exact Option.some.inj (h.symm.trans h')

theorem position?_lt (h : (of f direction).position? b = some p) : p < (of f direction).size :=
  (List.getElem?_eq_some_iff.mp (position?_of.mp h)).1

theorem exists_block (h : p < (of f direction).size) :
    ∃ b, (of f direction).position? b = some p :=
  ⟨_, position?_of.mpr (List.getElem?_eq_getElem h)⟩

theorem mem_postorder_iff_position? :
    b ∈ (of f direction).postorder ↔ ∃ p, (of f direction).position? b = some p := by
  rw [List.mem_iff_getElem?]
  exact exists_congr fun p => position?_of.symm

/-- The blocks at some positions. -/
theorem mem_filterMap_blocks {positions : List Nat} :
    b ∈ positions.filterMap (fun p => (of f direction).postorder[p]?) ↔
      ∃ p ∈ positions, (of f direction).position? b = some p := by
  rw [List.mem_filterMap]
  exact exists_congr fun p => and_congr_right fun _ => position?_of.symm

/-! ## Built procedures -/

/-- The edges of the graph are the steps of the flow. -/
theorem edge_graph (hf : f.Built) : (direction.graph f).Edge = direction.Flow f := by
  funext u v
  exact propext hf.linked.mem_successors_graph

/-- The blocks in the order are the reached ones. -/
theorem mem_postorder_iff_reached (hf : f.Built) :
    b ∈ (of f direction).postorder ↔ direction.Reached f b := by
  cases hstart : direction.start? f with
  | none =>
      have hempty : (of f direction).postorder = [] := by
        unfold of
        rw [hstart]
      rw [hempty]
      refine iff_of_false List.not_mem_nil ?_
      rintro ⟨start, hsome, -⟩
      rw [hstart] at hsome
      exact nomatch hsome
  | some start =>
      rw [postorder_of hstart, Graph.mem_postorder_iff]
      · rw [edge_graph hf]
        constructor
        · exact fun h => ⟨start, hstart, h⟩
        · rintro ⟨start', hstart', h⟩
          rw [hstart] at hstart'
          exact Option.some.inj hstart' ▸ h
      · rw [size_graph]
        exact hf.start_lt hstart
      · intro u v huv
        rw [size_graph]
        exact hf.linked.flow_lt (hf.linked.mem_successors_graph.mp huv)

/-- Exactly the reached blocks have a position. -/
theorem exists_position?_iff (hf : f.Built) :
    (∃ p, (of f direction).position? b = some p) ↔ direction.Reached f b := by
  rw [← mem_postorder_iff_position?]
  exact mem_postorder_iff_reached hf

theorem contains_iff (hf : f.Built) : (of f direction).contains b = true ↔ direction.Reached f b := by
  unfold contains
  rw [Option.isSome_iff_exists]
  exact exists_position?_iff hf

/-- The start has the highest position. -/
theorem position?_start (hf : f.Built) (hstart : direction.start? f = some start) :
    (of f direction).position? start = some ((of f direction).size - 1) := by
  have hlt : start < (direction.graph f).size := by
    rw [size_graph]
    exact hf.start_lt hstart
  obtain ⟨below, hbelow⟩ := Graph.postorder_eq_append hlt
  rw [position?_of]
  unfold size
  rw [postorder_of hstart, hbelow, List.length_append, List.length_singleton,
    Nat.add_sub_cancel, List.getElem?_append_right (Nat.le_refl _), Nat.sub_self]
  rfl

/-- Every other block has an incoming block with a higher position. -/
theorem exists_higher (hf : f.Built) (hstart : direction.start? f = some start)
    (hb : (of f direction).position? b = some p) (hne : b ≠ start) :
    ∃ u q, direction.Flow f u b ∧ (of f direction).position? u = some q ∧ p < q := by
  have hmem := mem_postorder_iff_position?.mpr ⟨p, hb⟩
  rw [postorder_of hstart] at hmem
  obtain ⟨u, hedge, hsub⟩ := Graph.parent_of_mem_postorder hmem hne
  rw [← postorder_of hstart] at hsub
  -- the order splits between the two
  obtain ⟨front, back, heq, hfront, hback⟩ := List.cons_sublist_iff.mp hsub
  obtain ⟨i, hi⟩ := List.mem_iff_getElem?.mp hfront
  obtain ⟨j, hj⟩ := List.mem_iff_getElem?.mp (List.singleton_sublist.mp hback)
  have hilt := (List.getElem?_eq_some_iff.mp hi).1
  have hpi : p = i := by
    have hat : (of f direction).position? b = some i := by
      rw [position?_of, heq, List.getElem?_append_left hilt]
      exact hi
    exact Option.some.inj (hb.symm.trans hat)
  refine ⟨u, front.length + j, hf.linked.mem_successors_graph.mp hedge, ?_, by omega⟩
  rw [position?_of, heq, List.getElem?_append_right (Nat.le_add_right _ _), Nat.add_sub_cancel_left]
  exact hj

/-- A step to a block of the same or a higher position has a way back. -/
theorem reaches_of_le {u v : NodeId} {q : Nat} (hf : f.Built) (hflow : direction.Flow f u v)
    (hu : (of f direction).position? u = some p) (hv : (of f direction).position? v = some q)
    (hle : p ≤ q) : Reaches (direction.Flow f) v u := by
  rcases Nat.eq_or_lt_of_le hle with rfl | hlt
  · rw [block_eq_of_position? hu hv]
    exact Reaches.refl v
  · obtain ⟨start, hstart, -⟩ := (exists_position?_iff hf).mp ⟨p, hu⟩
    obtain ⟨hp, rfl⟩ := List.getElem?_eq_some_iff.mp (position?_of.mp hu)
    obtain ⟨hq, rfl⟩ := List.getElem?_eq_some_iff.mp (position?_of.mp hv)
    have hpairs : (of f direction).postorder.Pairwise
        fun u v => direction.Flow f u v → Reaches (direction.Flow f) v u := by
      rw [postorder_of hstart, Graph.postorder_eq_postorder_depthFirst, ← edge_graph hf]
      exact Graph.pairwise_postorder_explore [] [start]
    exact List.pairwise_iff_getElem.mp hpairs p q hp hq hlt hflow

/-- The positions of a built procedure's blocks invert its postorder, and the reached
    blocks are those that have one.  The start has the last, every other block is entered
    from a higher one, and a step that does not go down has a way back; so without cycles
    every step goes down. -/
theorem positions_follow_depthFirst (hf : f.Built) (direction : Direction) :
    (∀ b i, (of f direction).position? b = some i ↔ (of f direction).postorder[i]? = some b) ∧
      (∀ b, (∃ i, (of f direction).position? b = some i) ↔ direction.Reached f b) ∧
      (∀ start, direction.start? f = some start →
        (of f direction).position? start = some ((of f direction).size - 1)) ∧
      (∀ b p, (of f direction).position? b = some p → direction.start? f ≠ some b →
        ∃ u q, direction.Flow f u b ∧ (of f direction).position? u = some q ∧ p < q) ∧
      (∀ u v p q, direction.Flow f u v → (of f direction).position? u = some p →
        (of f direction).position? v = some q → p ≤ q → Reaches (direction.Flow f) v u) ∧
      (direction.Acyclic f → ∀ u v p q, direction.Flow f u v →
        (of f direction).position? u = some p → (of f direction).position? v = some q → q < p) := by
  refine ⟨fun b i => position?_of, fun b => exists_position?_iff hf,
    fun start => position?_start hf, ?_, ?_, ?_⟩
  · intro b p hb hne
    obtain ⟨start, hstart, -⟩ := (exists_position?_iff hf).mp ⟨p, hb⟩
    exact exists_higher hf hstart hb fun heq => hne (heq ▸ hstart)
  · intro u v p q hflow hu hv hle
    exact reaches_of_le hf hflow hu hv hle
  · intro hacyclic u v p q hflow hu hv
    refine Nat.lt_of_not_le fun hle => ?_
    exact hacyclic u v ((exists_position?_iff hf).mp ⟨p, hu⟩) hflow (reaches_of_le hf hflow hu hv hle)

/-- A branch whose two ways meet again. -/
def branch.steps : List Draft.Step :=
  [.block 0, .block 1, .block 2, .block 3, .edge 0 1, .edge 0 2, .edge 1 3, .edge 2 3, .entry 0,
    .exit 3]

def branch : Procedure :=
  (Draft.start "branch").run branch.steps

theorem built_branch : branch.Built :=
  ⟨"branch", branch.steps, rfl⟩

theorem rising_branch : ∀ u < branch.blocks.size, ∀ v ∈ branch.successors u, u < v := by
  decide +kernel

theorem acyclic_branch : Direction.forward.Acyclic branch := by
  refine Direction.acyclic_of_rank (fun b => b) fun u v huv => ?_
  have hlt : u < branch.blocks.size :=
    built_branch.linked.flow_lt (show Direction.backward.Flow branch v u from huv)
  exact rising_branch u hlt v huv

/-- Inside the loop the step from block 2 to block 1 goes up, and control gets back; in the
    branch all steps go down, also the one from block 2 to the end, which is reached and so
    has a position. -/
theorem positions_twoEntryLoop_and_branch :
    (Procedure.twoEntryLoop.Built ∧ Direction.forward.Flow .twoEntryLoop 2 1 ∧
      (of .twoEntryLoop .forward).position? 2 = some 1 ∧
      (of .twoEntryLoop .forward).position? 1 = some 2 ∧
      Reaches (Direction.forward.Flow .twoEntryLoop) 1 2) ∧
    branch.Built ∧ Direction.forward.Acyclic branch ∧ Direction.forward.Reached branch 2 ∧
      Direction.forward.Flow branch 2 3 ∧
      ∃ p q, (of branch .forward).position? 2 = some p ∧
        (of branch .forward).position? 3 = some q ∧ q < p := by
  have hloop : Direction.forward.Flow .twoEntryLoop 2 1 := by
    show 1 ∈ Procedure.twoEntryLoop.successors 2
    decide +kernel
  have htwo : (of .twoEntryLoop .forward).position? 2 = some 1 := by decide +kernel
  have hone : (of .twoEntryLoop .forward).position? 1 = some 2 := by decide +kernel
  have hstep : Direction.forward.Flow branch 2 3 := by
    show 3 ∈ branch.successors 2
    decide +kernel
  have hreached : Direction.forward.Reached branch 2 := by
    refine ⟨0, rfl, (Reaches.refl 0).tail ?_⟩
    show 2 ∈ branch.successors 0
    decide +kernel
  have hend : Direction.forward.Reached branch 3 := by
    obtain ⟨start, hstart, hwalk⟩ := hreached
    exact ⟨start, hstart, hwalk.tail hstep⟩
  obtain ⟨-, -, -, -, hback, -⟩ :=
    positions_follow_depthFirst Procedure.built_twoEntryLoop .forward
  obtain ⟨-, hordered, -, -, -, hdown⟩ := positions_follow_depthFirst built_branch .forward
  obtain ⟨p, hp⟩ := (hordered 2).mpr hreached
  obtain ⟨q, hq⟩ := (hordered 3).mpr hend
  exact ⟨⟨Procedure.built_twoEntryLoop, hloop, htwo, hone,
      hback 2 1 1 2 hloop htwo hone (by decide)⟩,
    built_branch, acyclic_branch, hreached, hstep, p, q, hp, hq,
    hdown acyclic_branch 2 3 p q hstep hp hq⟩

end ControlFlow.BlockOrder
