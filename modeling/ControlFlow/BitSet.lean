import ControlFlow.Error

/-!
# Sets of small numbers

    A set of numbers below a fixed capacity, packed into words of 64 bits:
    number `i` is bit `i % 64` of word `i / 64`.  Numbers at or above the
    capacity are never members.  Two sets are equal when they have the same
    capacity and the same members, which is equality of their words because no
    bit above the capacity is ever set.

    `insert` and `union` refuse what does not fit; `add` and `merge` are their
    unguarded cores, for callers that know the capacity.
-/

namespace ControlFlow

/-- How many members one word holds. -/
abbrev BitSet.wordBits : Nat := 64

/-- A set of numbers below `capacity`. -/
structure BitSet where
  capacity : Nat
  words : List (BitVec BitSet.wordBits)
  deriving DecidableEq, Repr

namespace BitSet

/-- The empty set of the given capacity, in as few words as hold it. -/
def empty (capacity : Nat) : BitSet where
  capacity := capacity
  words := List.replicate ((capacity + (wordBits - 1)) / wordBits) 0

/-- The bit of a number, whatever the capacity. -/
def bit (s : BitSet) (i : Nat) : Bool :=
  (s.words[i / wordBits]?.getD 0).getLsbD (i % wordBits)

/-- Whether a number is a member. -/
def contains (s : BitSet) (i : Nat) : Bool :=
  decide (i < s.capacity) && s.bit i

/-- Whether there are no members. -/
def isEmpty (s : BitSet) : Bool :=
  s.words.all (· == 0)

/-- Sets the bit of a number. -/
def add (s : BitSet) (i : Nat) : BitSet :=
  { s with
    words := s.words.modify (i / wordBits) (· ||| BitVec.twoPow wordBits (i % wordBits)) }

/-- Sets every bit that is set in the other set. -/
def merge (s t : BitSet) : BitSet :=
  { s with words := List.zipWith (· ||| ·) s.words t.words }

/-- The set with one more member; refused at or above the capacity. -/
def insert (s : BitSet) (i : Nat) : Except Fault BitSet :=
  if i < s.capacity then .ok (s.add i) else .error (.outOfBounds i s.capacity)

/-- The union of two sets of one capacity, and whether the first one grew. -/
def union (s t : BitSet) : Except Fault (BitSet × Bool) :=
  if s.capacity = t.capacity then
    let u := s.merge t
    .ok (u, u != s)
  else
    .error (.capacityMismatch s.capacity t.capacity)

/-- The members in ascending order, read off word by word. -/
def toList (s : BitSet) : List Nat :=
  s.words.zipIdx.flatMap fun (word, k) =>
    ((List.range wordBits).filter word.getLsbD).map (wordBits * k + ·)

/-- The members between braces, separated by commas. -/
def text (s : BitSet) : String :=
  "\x7b" ++ ", ".intercalate (s.toList.map toString) ++ "\x7d"

/-! ## Bits under the operations -/

@[simp]
theorem bit_empty (capacity i : Nat) : (empty capacity).bit i = false := by
  simp only [bit, empty, List.getElem?_replicate]
  split <;> simp

/-- Adding a number sets its bit and no other. -/
theorem bit_add (s : BitSet) {i : Nat} (hi : i / wordBits < s.words.length) (j : Nat) :
    (s.add i).bit j = (s.bit j || decide (i = j)) := by
  simp only [bit, add, List.getElem?_modify]
  by_cases hword : i / wordBits = j / wordBits
  · -- The same word: one more bit of it is set.
    have hj : j / wordBits < s.words.length := hword ▸ hi
    have hbit : i % wordBits < wordBits := Nat.mod_lt _ (by decide)
    have hiff : (i % wordBits = j % wordBits) ↔ i = j := by
      simp only [wordBits] at hword ⊢
      omega
    simp [hword, hj, BitVec.getLsbD_or, BitVec.getLsbD_twoPow, hbit, hiff]
  · have hne : i ≠ j := fun h => hword (h ▸ rfl)
    simp [hword, hne]

/-- Merging sets the bits of both sets. -/
theorem bit_merge (s t : BitSet) (h : s.words.length = t.words.length) (j : Nat) :
    (s.merge t).bit j = (s.bit j || t.bit j) := by
  simp only [bit, merge, List.getElem?_zipWith]
  by_cases hj : j / wordBits < s.words.length
  · have ht : j / wordBits < t.words.length := h ▸ hj
    simp [hj, ht]
  · have ht : ¬ j / wordBits < t.words.length := h ▸ hj
    simp [List.getElem?_eq_none (Nat.le_of_not_lt hj), List.getElem?_eq_none (Nat.le_of_not_lt ht)]

end BitSet

end ControlFlow
