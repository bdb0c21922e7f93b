import ControlFlow.Proofs.BitSet
import ControlFlow.Proofs.Guarded.Basic

/-!
# Sets with every access checked

    A set is packed into words, and a number below its capacity has a word in it
    because a set that `Fits` a capacity has all the words that capacity calls for.
    Sets can be merged only if their capacities are the same.

    The members of a set are listed by taking the lowest bit off a word until nothing
    is left of it.  The number below a word is taken only of a word that is not zero.
-/

namespace ControlFlow.Guarded

/-- The set with one more member. -/
def insertBit (s : BitSet) (i : Nat) : Guarded BitSet := do
  if i < s.capacity then
    let word ← fetch s.words.toArray (i / BitSet.wordBits)
    let words ← store s.words.toArray (i / BitSet.wordBits)
      (word ||| BitVec.twoPow BitSet.wordBits (i % BitSet.wordBits))
    pure { s with words := words.toList }
  else throw (.outOfBounds i s.capacity)

/-- Whether a number is a member. -/
def hasBit (s : BitSet) (i : Nat) : Guarded Bool := do
  if i < s.capacity then
    let word ← fetch s.words.toArray (i / BitSet.wordBits)
    pure (word.getLsbD (i % BitSet.wordBits))
  else pure false

/-- The union of two sets of one capacity. -/
def mergeBits (s t : BitSet) : Guarded BitSet :=
  if s.capacity = t.capacity then pure (s.merge t)
  else throw (.capacityMismatch s.capacity t.capacity)

/-- A listing under way: the word it is at, what is left of that word, and the members
    listed. -/
structure Listing where
  index : Nat
  left : BitVec BitSet.wordBits
  listed : List Nat

/-- Lists the lowest bit of what is left, or goes on to the next word. -/
def listNext (words : List (BitVec BitSet.wordBits)) (s : Listing) :
    Guarded (Listing ⊕ List Nat) :=
  if s.left ≠ 0 then do
    let below ← minus s.left.toNat 1
    pure (.inl
      { s with
        left := s.left &&& BitVec.ofNat BitSet.wordBits below
        listed := s.listed ++ [s.index * BitSet.wordBits + s.left.ctz.toNat] })
  else
    match words[s.index + 1]? with
    | none => pure (.inr s.listed)
    | some word => pure (.inl { s with index := s.index + 1, left := word })

/-- The members in ascending order. -/
def members (s : BitSet) : Guarded (List Nat) :=
  loop (listNext s.words) { index := 0, left := s.words.head?.getD 0, listed := [] }

variable {s t : BitSet} {capacity i : Nat}

/-- A number below the capacity has its word. -/
theorem fetch_word (hs : s.Fits capacity) (hi : i < capacity) :
    ∃ word, s.words[i / BitSet.wordBits]? = some word ∧
      fetch s.words.toArray (i / BitSet.wordBits) = pure word := by
  have hlt : i / BitSet.wordBits < s.words.length := by
    rw [hs.length_eq]
    show i / 64 < (capacity + 63) / 64
    omega
  have hword := List.getElem?_eq_getElem hlt
  exact ⟨_, hword, fetch_eq ((List.getElem?_toArray ..).trans hword)⟩

theorem insertBit_eq (hs : s.Fits capacity) (hi : i < capacity) :
    insertBit s i = pure (s.add i) := by
  obtain ⟨word, hword, hfetch⟩ := fetch_word hs hi
  obtain ⟨hlt, rfl⟩ := List.getElem?_eq_some_iff.mp hword
  rw [insertBit, if_pos (hs.capacity_eq ▸ hi), hfetch, pure_bind,
    store_eq (by rwa [List.size_toArray]), pure_bind, BitSet.add, List.setIfInBounds_toArray]
  congr 2
  exact (List.modify_eq_set_get (· ||| BitVec.twoPow _ _) hlt).symm

theorem hasBit_eq (hs : s.Fits capacity) (i : Nat) : hasBit s i = pure (s.contains i) := by
  rw [hasBit, BitSet.contains]
  split
  · rename_i hi
    obtain ⟨word, hword, hfetch⟩ := fetch_word hs (hs.capacity_eq ▸ hi)
    rw [hfetch, pure_bind, decide_eq_true hi, BitSet.bit, hword]
    rfl
  · rename_i hi
    rw [decide_eq_false hi, Bool.false_and]

theorem mergeBits_eq (hs : s.Fits capacity) (ht : t.Fits capacity) :
    mergeBits s t = pure (s.merge t) := by
  rw [mergeBits, if_pos (hs.capacity_eq.trans ht.capacity_eq.symm)]

/-! ## Listing -/

/-- The members that the bits of a word stand for. -/
def wordMembers (word : BitVec BitSet.wordBits) (index : Nat) : List Nat :=
  ((List.range BitSet.wordBits).filter word.getLsbD).map (BitSet.wordBits * index + ·)

/-- The members that a listing has still to list. -/
def Listing.rest (words : List (BitVec BitSet.wordBits)) (s : Listing) : List Nat :=
  wordMembers s.left s.index ++
    ((words.drop (s.index + 1)).zipIdx (s.index + 1)).flatMap fun c => wordMembers c.1 c.2

theorem wordMembers_zero (index : Nat) : wordMembers 0 index = [] := by
  have hnone : (List.range BitSet.wordBits).filter
      (0 : BitVec BitSet.wordBits).getLsbD = [] := by
    refine List.filter_eq_nil_iff.mpr fun j _ => ?_
    exact ne_true_of_eq_false BitVec.getLsbD_zero
  rw [wordMembers, hnone, List.map_nil]

/-- The lowest bit of a word stands for the first of its members. -/
theorem wordMembers_of_ne_zero {word : BitVec BitSet.wordBits} (h : word ≠ 0) (index : Nat) :
    wordMembers word index = (index * BitSet.wordBits + word.ctz.toNat) ::
      wordMembers (word &&& BitVec.ofNat BitSet.wordBits (word.toNat - 1)) index := by
  rw [wordMembers, BitSet.filter_getLsbD h, List.map_cons, Nat.mul_comm index]
  rfl

/-- A member listed is one less to list. -/
theorem Listing.rest_bit (words : List (BitVec BitSet.wordBits)) {s : Listing} (hleft : s.left ≠ 0)
    (listed : List Nat) :
    s.rest words = (s.index * BitSet.wordBits + s.left.ctz.toNat) :: Listing.rest words
      ⟨s.index, s.left &&& BitVec.ofNat BitSet.wordBits (s.left.toNat - 1), listed⟩ := by
  rw [Listing.rest, wordMembers_of_ne_zero hleft]
  rfl

/-- Going on to the next word leaves the same members to list. -/
theorem Listing.rest_next {words : List (BitVec BitSet.wordBits)} {s : Listing}
    {word : BitVec BitSet.wordBits} (hleft : s.left = 0) (hword : words[s.index + 1]? = some word) :
    Listing.rest words { s with index := s.index + 1, left := word } = s.rest words := by
  obtain ⟨hlt, rfl⟩ := List.getElem?_eq_some_iff.mp hword
  rw [Listing.rest, Listing.rest, hleft, wordMembers_zero, List.nil_append,
    List.drop_eq_getElem_cons hlt, List.zipIdx_cons, List.flatMap_cons]

/-- At the last word, nothing is left to list when nothing is left of the word. -/
theorem Listing.rest_last {words : List (BitVec BitSet.wordBits)} {s : Listing}
    (hleft : s.left = 0) (hword : words[s.index + 1]? = none) : s.rest words = [] := by
  rw [Listing.rest, hleft, wordMembers_zero, List.nil_append,
    List.drop_of_length_le (List.getElem?_eq_none_iff.mp hword)]
  rfl

theorem rest_start (s : BitSet) :
    Listing.rest s.words { index := 0, left := s.words.head?.getD 0, listed := [] } =
      s.toList := by
  rw [Listing.rest, BitSet.toList]
  cases s.words with
  | nil => exact congrArg (· ++ []) (wordMembers_zero 0)
  | cons word words => rfl

/-- The members of a set are listed without taking anything from zero. -/
theorem members_eq (s : BitSet) : members s = pure s.toList := by
  -- every step lists a member or goes on to the next word
  refine Yields.eq_pure (Yields.loop
    (P := fun l => l.listed ++ l.rest s.words = s.toList)
    (fun l => s.words.length - l.index + (l.rest s.words).length) ?_ (rest_start s))
  intro l hl
  rw [listNext]
  split
  · rename_i hleft
    have hpos : 1 ≤ l.left.toNat := by
      refine Nat.one_le_iff_ne_zero.mpr fun hzero => hleft ?_
      exact BitVec.eq_of_toNat_eq hzero
    rw [minus_eq hpos, pure_bind]
    refine Yields.next ?_
    have hrest := Listing.rest_bit s.words hleft
      (l.listed ++ [l.index * BitSet.wordBits + l.left.ctz.toNat])
    rw [hrest] at hl ⊢
    refine ⟨?_, ?_⟩
    · rw [List.append_assoc]
      exact hl
    · rw [List.length_cons]
      exact Nat.lt_succ_self _
  · rename_i hleft
    have hzero := Classical.not_not.mp hleft
    cases hword : s.words[l.index + 1]? with
    | none =>
        refine Yields.done ?_
        rw [Listing.rest_last hzero hword, List.append_nil] at hl
        exact hl
    | some word =>
        refine Yields.next ?_
        have hlt : l.index + 1 < s.words.length := (List.getElem?_eq_some_iff.mp hword).1
        rw [Listing.rest_next hzero hword]
        refine ⟨hl, ?_⟩
        show s.words.length - (l.index + 1) + _ < _
        omega

end ControlFlow.Guarded
