import ControlFlow.Proofs.Guarded.BitSet
import Mathlib.Data.Finset.Basic
import Mathlib.Logic.Function.Basic

/-!
# Packed sets are finite sets

    Sets that begin empty and grow by single members and by unions are worked on side
    by side, once packed into words and once as finite sets of numbers.  Every operation
    that stays within the capacity goes through, and whatever the packed sets can be
    asked they answer as the finite sets do (`Represents`): membership of any number,
    emptiness, the members in order, equality, and whether a union adds something.

    All of it comes down to the bits: a packed set `Collects` the members of its finite
    set, which leaves it no bit at or above the capacity.
-/

namespace ControlFlow.BitSet

variable {s t : BitSet} {capacity : Nat} {M N : Finset Nat}

/-! ## One set -/

/-- A packed set of the given capacity answers as the finite set does.  Taking the lowest
    bit off its words again and again comes to an end and lists the members. -/
structure Represents (s : BitSet) (capacity : Nat) (M : Finset Nat) : Prop where
  lt_capacity : ∀ i ∈ M, i < capacity
  contains_iff : ∀ i, s.contains i = true ↔ i ∈ M
  isEmpty_iff : s.isEmpty = true ↔ M = ∅
  members_eq : Guarded.members s = pure s.toList
  ascending : s.toList.Pairwise (· < ·)
  mem_toList_iff : ∀ i, i ∈ s.toList ↔ i ∈ M

namespace Collects

theorem represents (hs : s.Collects capacity (· ∈ M)) : s.Represents capacity M where
  lt_capacity i hi := hs.fits.lt_capacity i ((hs.bit_iff i).mpr hi)
  contains_iff i := by
    rw [hs.fits.contains_eq_bit]
    exact hs.bit_iff i
  isEmpty_iff := by
    rw [hs.isEmpty_iff]
    exact Finset.eq_empty_iff_forall_notMem.symm
  members_eq := Guarded.members_eq s
  ascending := s.pairwise_toList
  mem_toList_iff i := by
    rw [mem_toList]
    exact hs.bit_iff i

/-- Packed sets are equal if what they hold is. -/
theorem beq_iff (hs : s.Collects capacity (· ∈ M)) (ht : t.Collects capacity (· ∈ N)) :
    (s == t) = true ↔ M = N := by
  rw [beq_iff_eq]
  constructor
  · rintro rfl
    ext i
    exact (hs.bit_iff i).symm.trans (ht.bit_iff i)
  · rintro rfl
    refine hs.fits.ext ht.fits fun i => Bool.eq_iff_iff.mpr ?_
    exact (hs.bit_iff i).trans (ht.bit_iff i).symm

theorem insert {i : Nat} (hs : s.Collects capacity (· ∈ M)) (hi : i < capacity) :
    ∃ u, s.insert i = .ok u ∧ u.Collects capacity (· ∈ Insert.insert i M) := by
  refine ⟨s.add i, ?_, (hs.add hi).congr fun j => ?_⟩
  · rw [BitSet.insert, if_pos (hs.fits.capacity_eq ▸ hi)]
  · rw [Finset.mem_insert, or_comm, eq_comm]

/-- A union is larger than the first set if a word of it has changed. -/
theorem union (hs : s.Collects capacity (· ∈ M)) (ht : t.Collects capacity (· ∈ N)) :
    ∃ u grew, s.union t = .ok (u, grew) ∧ u.Collects capacity (· ∈ M ∪ N) ∧
      (grew = true ↔ M ⊂ M ∪ N) := by
  have hu : (s.merge t).Collects capacity (· ∈ M ∪ N) :=
    (hs.merge ht).congr fun i => Finset.mem_union.symm
  refine ⟨s.merge t, s.merge t != s, ?_, hu, ?_⟩
  · rw [BitSet.union, if_pos (hs.fits.capacity_eq.trans ht.fits.capacity_eq.symm)]
  · rw [bne, Bool.not_eq_true', ← Bool.not_eq_true, hu.beq_iff hs, Finset.ssubset_iff_subset_ne,
      and_iff_right Finset.subset_union_left, ne_comm]

end Collects

/-! ## Sets side by side -/

/-- An operation on one of several sets. -/
inductive Op where
  | insert (target i : Nat)
  | union (target source : Nat)
  deriving DecidableEq, Repr

namespace Op

/-- A number to be inserted is below the capacity. -/
def Within (capacity : Nat) : Op → Prop
  | insert _ i => i < capacity
  | union _ _ => True

instance (capacity : Nat) (op : Op) : Decidable (op.Within capacity) :=
  match op with
  | insert _ i => inferInstanceAs (Decidable (i < capacity))
  | union _ _ => inferInstanceAs (Decidable True)

/-- The packed sets after an operation. -/
def apply (sets : Nat → BitSet) : Op → Except Fault (Nat → BitSet)
  | insert k i => do return Function.update sets k (← (sets k).insert i)
  | union k l => do return Function.update sets k (← (sets k).union (sets l)).1

/-- The finite sets after the same operation. -/
def model (sets : Nat → Finset Nat) : Op → Nat → Finset Nat
  | insert k i => Function.update sets k (Insert.insert i (sets k))
  | union k l => Function.update sets k (sets k ∪ sets l)

/-- The packed sets after a series of operations, all of the given capacity and empty at
    first. -/
def run (capacity : Nat) (ops : List Op) : Except Fault (Nat → BitSet) :=
  ops.foldlM apply fun _ => empty capacity

/-- The finite sets after a series of operations. -/
def models (ops : List Op) : Nat → Finset Nat :=
  ops.foldl model fun _ => ∅

variable {sets : Nat → BitSet} {finite : Nat → Finset Nat}

theorem collects_update (h : ∀ k, (sets k).Collects capacity (· ∈ finite k)) {k : Nat} {u : BitSet}
    {U : Finset Nat} (hu : u.Collects capacity (· ∈ U)) (l : Nat) :
    (Function.update sets k u l).Collects capacity (· ∈ Function.update finite k U l) := by
  by_cases hl : l = k
  · subst hl
    rw [Function.update_self, Function.update_self]
    exact hu
  · rw [Function.update_of_ne hl, Function.update_of_ne hl]
    exact h l

/-- An operation within the capacity goes through and keeps the two in step. -/
theorem exists_apply (h : ∀ k, (sets k).Collects capacity (· ∈ finite k)) {op : Op}
    (hop : op.Within capacity) :
    ∃ sets', op.apply sets = .ok sets' ∧
      ∀ k, (sets' k).Collects capacity (· ∈ op.model finite k) := by
  cases op with
  | insert k i =>
      obtain ⟨u, hinsert, hu⟩ := (h k).insert hop
      refine ⟨Function.update sets k u, ?_, collects_update h hu⟩
      rw [apply, hinsert]
      rfl
  | union k l =>
      obtain ⟨u, grew, hunion, hu, -⟩ := (h k).union (h l)
      refine ⟨Function.update sets k u, ?_, collects_update h hu⟩
      rw [apply, hunion]
      rfl

/-- So does a series of operations. -/
theorem exists_foldlM (ops : List Op) (hops : ∀ op ∈ ops, op.Within capacity)
    (h : ∀ k, (sets k).Collects capacity (· ∈ finite k)) :
    ∃ sets', ops.foldlM apply sets = .ok sets' ∧
      ∀ k, (sets' k).Collects capacity (· ∈ ops.foldl model finite k) := by
  induction ops generalizing sets finite with
  | nil => exact ⟨sets, rfl, h⟩
  | cons op rest ih =>
      obtain ⟨next, happly, hnext⟩ := exists_apply h (hops op List.mem_cons_self)
      have hlater : ∀ op' ∈ rest, op'.Within capacity :=
        fun op' hop' => hops op' (List.mem_cons_of_mem op hop')
      obtain ⟨last, hrest, hlast⟩ := ih hlater hnext
      refine ⟨last, ?_, hlast⟩
      rw [List.foldlM_cons, happly]
      exact hrest

end Op

/-- Whatever is inserted below the capacity and united, in any order, nothing is refused, and
    afterwards every packed set answers as its finite set does; two of them are equal
    exactly if their finite sets are, and uniting two gives their union and says whether
    the first one grew. -/
theorem run_represents_finite_sets (capacity : Nat) (ops : List Op)
    (hops : ∀ op ∈ ops, op.Within capacity) :
    ∃ sets, Op.run capacity ops = .ok sets ∧
      (∀ k, (sets k).Represents capacity (Op.models ops k)) ∧
      (∀ k l, (sets k == sets l) = true ↔ Op.models ops k = Op.models ops l) ∧
      ∀ k l, ∃ u grew, (sets k).union (sets l) = .ok (u, grew) ∧
        u.Represents capacity (Op.models ops k ∪ Op.models ops l) ∧
        (grew = true ↔ Op.models ops k ⊂ Op.models ops k ∪ Op.models ops l) := by
  have hempty : ∀ _ : Nat, (empty capacity).Collects capacity (· ∈ (∅ : Finset Nat)) := by
    intro _
    refine (Collects.empty capacity).congr fun i => ?_
    exact iff_of_false id (Finset.notMem_empty i)
  obtain ⟨sets, hrun, hsets⟩ := Op.exists_foldlM ops hops hempty
  refine ⟨sets, hrun, fun k => (hsets k).represents, fun k l => (hsets k).beq_iff (hsets l), ?_⟩
  intro k l
  obtain ⟨u, grew, hunion, hu, hgrew⟩ := (hsets k).union (hsets l)
  exact ⟨u, grew, hunion, hu.represents, hgrew⟩

/-- Two words, the second with the one number that it has room for. -/
theorem run_represents_two_words :
    ∃ sets, Op.run 65 [.insert 0 64, .insert 0 3, .insert 1 3, .union 2 1, .union 1 0] = .ok sets ∧
      (sets 1).contains 64 = true ∧ (sets 1).contains 65 = false ∧
      (sets 0 == sets 1) = true ∧ (sets 1 == sets 2) = false ∧ (sets 3).isEmpty = true ∧
      ∃ u, (sets 2).union (sets 0) = .ok (u, true) := by
  obtain ⟨sets, hrun, hsets, hequal, hunion⟩ := run_represents_finite_sets 65
    [.insert 0 64, .insert 0 3, .insert 1 3, .union 2 1, .union 1 0] (by decide)
  obtain ⟨u, grew, hu, -, hgrew⟩ := hunion 2 0
  refine ⟨sets, hrun, ((hsets 1).contains_iff 64).mpr (by decide), ?_, (hequal 0 1).mpr (by decide),
    ?_, (hsets 3).isEmpty_iff.mpr (by decide), u, ?_⟩
  · rw [← Bool.not_eq_true, (hsets 1).contains_iff]
    decide
  · rw [← Bool.not_eq_true, hequal]
    decide
  · rw [hu, hgrew.mpr (by decide)]

end ControlFlow.BitSet
