import ControlFlow.Proofs.Chains
import ControlFlow.Proofs.Frontier
import Mathlib.Data.List.Induction

/-!
# Frontiers in postorder

    Joins are taken one after the other, in postorder, and each is entered in the
    frontiers of the blocks that its runners pass.  Runners of one join may pass the
    same block; the join is entered there once.  So a join adds itself to the end of a
    frontier or leaves it as it was (`frontier_join`), and a frontier is the part of
    the postorder that has been added to it (`frontier_joins`).

    Which part that is can be asked of the dominators themselves: the joins where the
    dominance of the block ends (`EndsAt`).
-/

namespace ControlFlow.Frontier

variable {f : Procedure} {d : Dominance} {direction : Direction} {options : Dominance.Options}
  {x y : NodeId} {members : Array (List NodeId)}

/-! ## One join -/

/-- Recording a member for a block adds it to the end of what the block has, unless it
    is there, and leaves the other blocks alone. -/
theorem getD_record (hx : x < members.size) (block : NodeId) :
    (record members (block, y))[x]?.getD [] =
      if block = x ∧ y ∉ members[x]?.getD [] then members[x]?.getD [] ++ [y]
      else members[x]?.getD [] := by
  rw [record, Array.getElem?_modify, Array.getElem?_eq_getElem hx]
  by_cases hblock : block = x
  · by_cases hmem : y ∈ members[x]
    · simp [hblock, hmem]
    · simp [hblock, hmem]
  · simp [hblock]

/-- A join that is not in a frontier is added to its end, once, or not at all. -/
theorem frontier_join {entries : List (NodeId × NodeId)} (hjoin : ∀ entry ∈ entries, entry.2 = y)
    (hx : x < members.size) (hnew : y ∉ members[x]?.getD []) :
    (entries.foldl record members)[x]?.getD [] =
      if (x, y) ∈ entries then members[x]?.getD [] ++ [y] else members[x]?.getD [] := by
  induction entries using List.reverseRecOn with
  | nil => simp
  | append_singleton entries entry ih =>
      obtain ⟨block, member⟩ := entry
      obtain rfl : member = y := hjoin (block, member) (List.mem_append_right _ (List.mem_singleton_self _))
      have hbefore := ih fun entry hentry => hjoin entry (List.mem_append_left _ hentry)
      have hsize : x < (entries.foldl record members).size := by rwa [size_foldl_record]
      rw [List.foldl_concat, getD_record hsize, hbefore]
      by_cases hmem : (x, member) ∈ entries
      · simp [hmem]
      · by_cases hblock : block = x
        · simp [hmem, hblock, hnew]
        · simp [hmem, hblock, Ne.symm hblock]

/-! ## All joins -/

/-- Taken one after the other, the joins in a frontier stand in the order they were
    taken. -/
theorem frontier_joins {size : Nat} (hx : x < size) {joins : List NodeId} (hnodup : joins.Nodup) :
    ((joins.flatMap (entriesAt f d)).foldl record (Array.replicate size []))[x]?.getD [] =
      joins.filter fun y => decide ((x, y) ∈ entriesAt f d y) := by
  induction joins using List.reverseRecOn with
  | nil =>
      show (Array.replicate size [])[x]?.getD [] = []
      rw [Array.getElem?_replicate, if_pos hx, Option.getD_some]
  | append_singleton joins y ih =>
      obtain ⟨hjoins, -, hapart⟩ := List.nodup_append.mp hnodup
      have hbefore := ih hjoins
      have hnew : y ∉ joins.filter fun y => decide ((x, y) ∈ entriesAt f d y) :=
        fun hmem => hapart y (List.mem_filter.mp hmem).1 y (List.mem_singleton_self y) rfl
      have hsize : x < ((joins.flatMap (entriesAt f d)).foldl record (Array.replicate size [])).size := by
        rwa [size_foldl_record, Array.size_replicate]
      rw [List.flatMap_append, List.flatMap_singleton, List.foldl_append,
        frontier_join (fun _ => snd_of_mem_entriesAt) hsize (hbefore ▸ hnew), hbefore,
        List.filter_append]
      by_cases hmem : (x, y) ∈ entriesAt f d y
      · simp [hmem]
      · simp [hmem]

/-! ## Where dominance ends -/

/-- The dominance of a block ends at a join: two or more reachable blocks lead into the
    join, the block dominates one of them, and it does not strictly dominate the join. -/
def EndsAt (f : Procedure) (d : Dominance) (x y : NodeId) : Prop :=
  2 ≤ ((d.direction.incoming f y).filter d.isReachable).length ∧
    (∃ r ∈ (d.direction.incoming f y).filter d.isReachable, d.dominates x r = true) ∧
    d.strictlyDominates x y = false

instance : Decidable (EndsAt f d x y) :=
  inferInstanceAs (Decidable (_ ∧ _ ∧ _))

/-- A join is entered for the blocks whose dominance ends there. -/
theorem mem_entriesAt_iff_endsAt (hf : f.Built) :
    (x, y) ∈ entriesAt f (.of f direction options) y ↔ EndsAt f (.of f direction options) x y := by
  have hstrict : (Dominance.of f direction options).strictlyDominates x y = false ↔
      ¬ (x ≠ y ∧ direction.Dominates f x y) := by
    rw [Dominance.strictlyDominates, ← Bool.not_eq_true, Bool.and_eq_true, bne_iff_ne,
      Dominance.dominates_iff hf]
    exact not_congr (and_congr_right fun hne => or_iff_right hne)
  have hdominates : ∀ r ∈ runners f (.of f direction options) y,
      ((Dominance.of f direction options).dominates x r = true ↔ direction.Dominates f x r) := by
    intro r hr
    rw [Dominance.dominates_iff hf]
    refine or_iff_right_of_imp ?_
    rintro rfl
    exact ((mem_runners hf).mp hr).2.dominates_self
  rw [mem_entriesAt, EndsAt, hstrict]
  refine and_congr_right fun _ => ?_
  constructor
  · rintro ⟨r, hr, hx⟩
    obtain ⟨hdom, hnot⟩ := (mem_passed hf hr).mp hx
    exact ⟨⟨r, hr, (hdominates r hr).mpr hdom⟩, hnot⟩
  · rintro ⟨⟨r, hr, hdom⟩, hnot⟩
    exact ⟨r, hr, (mem_passed hf hr).mpr ⟨(hdominates r hr).mp hdom, hnot⟩⟩

/-- Only dominance of blocks of the procedure can end anywhere. -/
theorem EndsAt.lt_size (hf : f.Built) (h : EndsAt f (.of f direction options) x y) :
    x < f.blocks.size := by
  obtain ⟨-, r, hr, hx⟩ := mem_entriesAt.mp ((mem_entriesAt_iff_endsAt hf).mpr h)
  obtain ⟨hdom, -⟩ := (mem_passed hf hr).mp hx
  exact BlockOrder.lt_size_of_mem ((BlockOrder.mem_postorder_iff_reached hf).mpr hdom.reached.1)

theorem frontier_of (hf : f.Built) (x : NodeId) :
    (of f (.of f direction options)).frontier x =
      (Dominance.of f direction options).order.postorder.filter
        fun y => decide (EndsAt f (.of f direction options) x y) := by
  by_cases hx : x < f.blocks.size
  · have hnodup : (Dominance.of f direction options).order.postorder.Nodup := by
      rw [Dominance.order_of]
      exact BlockOrder.nodup_of f direction
    rw [frontier, of, entries_eq, frontier_joins hx hnodup]
    exact List.filter_congr fun y _ => decide_eq_decide.mpr (mem_entriesAt_iff_endsAt hf)
  · have hnone : (of f (.of f direction options)).members[x]? = none := by
      refine Array.getElem?_eq_none ?_
      rw [of, size_foldl_record, Array.size_replicate]
      exact Nat.le_of_not_lt hx
    rw [frontier, hnone, Option.getD_none, eq_comm, List.filter_eq_nil_iff]
    intro y _ hends
    exact hx ((of_decide_eq_true hends).lt_size hf)

/-- The frontier of a block is the part of the postorder where its dominance ends, in
    that order and without repetition.  Said of the ways control takes: the joins that it
    comes to from two different reached blocks, one of them dominated by the block, but
    not strictly dominated themselves. -/
theorem frontier_eq_filter_postorder (hf : f.Built) (direction : Direction)
    (options : Dominance.Options) :
    ∃ t, checked f (.of f direction options) = .ok t ∧ ∀ x,
      t.frontier x = (Dominance.of f direction options).order.postorder.filter
          (fun y => decide (EndsAt f (.of f direction options) x y)) ∧
        (t.frontier x).Nodup ∧
        ∀ y, y ∈ t.frontier x ↔
          (∃ r r', r ≠ r' ∧ (direction.Flow f r y ∧ direction.Reached f r) ∧
            direction.Flow f r' y ∧ direction.Reached f r') ∧
          (∃ r, (direction.Flow f r y ∧ direction.Reached f r) ∧ direction.Dominates f x r) ∧
          ¬ (x ≠ y ∧ direction.Dominates f x y) := by
  refine ⟨_, checked_of f direction options, fun x => ⟨frontier_of hf x, ?_, fun y => ?_⟩⟩
  · rw [frontier_of hf x, Dominance.order_of]
    exact (BlockOrder.nodup_of f direction).filter _
  · have hjoin : (of f (.of f direction options)).contains x y = true ↔ _ := contains_iff_join hf
    rw [contains, List.contains_iff_mem] at hjoin
    exact hjoin

/-- A block with two ways on, and a shortcut past it to both. -/
def shortcuts.steps : List Draft.Step :=
  [.block 0, .block 1, .block 2, .block 3, .edge 0 1, .edge 0 2, .edge 0 3, .edge 1 3, .edge 1 2,
    .entry 0]

def shortcuts : Procedure :=
  (Draft.start "shortcuts").run shortcuts.steps

/-- The frontier of the block holds both ends, the later number first. -/
theorem frontier_shortcuts :
    shortcuts.Built ∧ (BlockOrder.of shortcuts .forward).postorder = [3, 2, 1, 0] ∧
      ∃ t, checked shortcuts (.of shortcuts .forward ⟨false, false⟩) = .ok t ∧
        t.frontier 1 = [3, 2] ∧ t.frontier 0 = [] := by
  have hbuilt : shortcuts.Built := ⟨"shortcuts", shortcuts.steps, rfl⟩
  obtain ⟨t, ht, hfrontier⟩ := frontier_eq_filter_postorder hbuilt .forward ⟨false, false⟩
  refine ⟨hbuilt, by decide +kernel, t, ht, ?_, ?_⟩
  · rw [(hfrontier 1).1]
    decide +kernel
  · rw [(hfrontier 0).1]
    decide +kernel

end ControlFlow.Frontier
