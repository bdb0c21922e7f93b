import ControlFlow.BitSet

/-!
# Sets as what is in them

    A set `Fits` a capacity when it has that capacity, just as many words as
    hold it, and no bit at or above it.  Fitting sets are told apart by their
    bits, so that comparing words is comparing members.  `Collects` says what
    the members of a fitting set are, and every operation on sets of one capacity
    comes with what its result collects.
-/

namespace ControlFlow.BitSet

variable {s t : BitSet} {capacity i : Nat}

/-- The set has the capacity, the words for it, and no bit beyond it. -/
structure Fits (s : BitSet) (capacity : Nat) : Prop where
  capacity_eq : s.capacity = capacity
  length_eq : s.words.length = (capacity + (wordBits - 1)) / wordBits
  lt_capacity : ∀ i, s.bit i = true → i < capacity

/-! ## Words and bits -/

/-- The bits of a word are bits of the set. -/
theorem bit_of_word {k j : Nat} (hk : k < s.words.length) (hj : j < wordBits) :
    s.bit (wordBits * k + j) = s.words[k].getLsbD j := by
  unfold bit
  rw [Nat.mul_add_div (by decide), Nat.div_eq_of_lt hj, Nat.add_zero, Nat.mul_add_mod,
    Nat.mod_eq_of_lt hj, List.getElem?_eq_getElem hk]
  rfl

/-- Sets with the same bits in the same number of words have the same words. -/
theorem words_eq_of_bit (hlength : s.words.length = t.words.length)
    (h : ∀ i, s.bit i = t.bit i) : s.words = t.words := by
  refine List.ext_getElem hlength ?_
  intro k hks hkt
  refine BitVec.eq_of_getLsbD_eq ?_
  intro j hj
  rw [← bit_of_word hks hj, ← bit_of_word hkt hj]
  exact h _

/-- A set is empty when no bit is set. -/
theorem isEmpty_iff : s.isEmpty = true ↔ ∀ i, s.bit i = false := by
  unfold isEmpty
  rw [List.all_eq_true]
  constructor
  · intro h i
    unfold bit
    -- beyond the last word there are no bits
    cases hword : s.words[i / wordBits]? with
    | none => exact BitVec.getLsbD_zero
    | some word =>
        have hzero := eq_of_beq (h word (List.mem_of_getElem? hword))
        rw [hzero]
        exact BitVec.getLsbD_zero
  · intro h word hword
    obtain ⟨k, hk, heq⟩ := List.mem_iff_getElem.mp hword
    have hzero : word = 0 := by
      refine BitVec.eq_of_getLsbD_eq ?_
      intro j hj
      rw [← heq, ← bit_of_word hk hj, h]
      exact BitVec.getLsbD_zero.symm
    exact beq_iff_eq.mpr hzero

/-! ## Members in order -/

/-- A word other than zero is an odd number shifted by its trailing zeros. -/
theorem exists_odd_shift {w : BitVec wordBits} (hw : w ≠ 0) :
    ∃ q, w.toNat = (2 * q + 1) <<< w.ctz.toNat := by
  have hbit := BitVec.getLsbD_true_ctz_of_ne_zero hw
  have hlow : w.toNat % 2 ^ w.ctz.toNat = 0 := by
    refine Nat.eq_of_testBit_eq fun j => ?_
    rw [Nat.testBit_mod_two_pow, Nat.zero_testBit]
    by_cases hj : j < w.ctz.toNat
    · rw [BitVec.testBit_toNat, BitVec.getLsbD_false_of_lt_ctz hj, Bool.and_false]
    · rw [decide_eq_false hj, Bool.false_and]
  have hodd : w.toNat / 2 ^ w.ctz.toNat % 2 = 1 := by
    rw [← BitVec.testBit_toNat, Nat.testBit_eq_decide_div_mod_eq] at hbit
    exact of_decide_eq_true hbit
  refine ⟨w.toNat / 2 ^ w.ctz.toNat / 2, ?_⟩
  have hdiv := Nat.div_add_mod' w.toNat (2 ^ w.ctz.toNat)
  have hhalf := Nat.div_add_mod (w.toNat / 2 ^ w.ctz.toNat) 2
  rw [hodd] at hhalf
  rw [Nat.shiftLeft_eq, hhalf]
  omega

/-- The bits that a word shares with the number below it are all but its lowest one. -/
theorem getLsbD_and_pred {w : BitVec wordBits} (hw : w ≠ 0) (j : Nat) :
    (w &&& BitVec.ofNat wordBits (w.toNat - 1)).getLsbD j =
      (w.getLsbD j && decide (j ≠ w.ctz.toNat)) := by
  obtain ⟨q, hq⟩ := exists_odd_shift hw
  generalize w.ctz.toNat = k at hq ⊢
  have hpow : 0 < 2 ^ k := Nat.two_pow_pos k
  rw [Nat.shiftLeft_eq, Nat.mul_comm] at hq
  have hpred : w.toNat - 1 = 2 ^ k * (2 * q) + (2 ^ k - 1) := by
    rw [hq, Nat.mul_add, Nat.mul_one, Nat.add_sub_assoc hpow]
  rw [BitVec.getLsbD_and, BitVec.getLsbD_ofNat, hpred,
    Nat.testBit_two_pow_mul_add _ (Nat.sub_lt hpow Nat.one_pos), ← BitVec.testBit_toNat]
  by_cases hj : j < wordBits
  · rw [decide_eq_true hj, Bool.true_and, hq, Nat.testBit_two_pow_mul]
    rcases Nat.lt_trichotomy j k with hlt | rfl | hgt
    · rw [decide_eq_false (Nat.not_le_of_lt hlt), Bool.false_and, Bool.false_and, Bool.false_and]
    · rw [if_neg (Nat.lt_irrefl j), Nat.sub_self, Nat.testBit_zero, Nat.testBit_zero,
        Nat.mul_mod_right, decide_eq_false (not_not_intro rfl)]
      exact (Bool.and_false _).trans (Bool.and_false _).symm
    · -- above the lowest bit, the two numbers agree
      obtain ⟨i, rfl⟩ := Nat.exists_eq_add_of_lt hgt
      have hsub : k + i + 1 - k = i + 1 := by omega
      have hhalves : (2 * q + 1) / 2 = 2 * q / 2 := by omega
      rw [if_neg (Nat.lt_asymm hgt), hsub, Nat.testBit_add_one, Nat.testBit_add_one, hhalves,
        decide_eq_true (Nat.ne_of_gt hgt), Bool.and_true, Bool.and_assoc, Bool.and_self]
  · rw [BitVec.testBit_toNat, BitVec.getLsbD_of_ge w j (Nat.le_of_not_lt hj), Bool.false_and,
      Bool.false_and]

/-- The bits of a word are its lowest one and those it has without it. -/
theorem filter_getLsbD {w : BitVec wordBits} (hw : w ≠ 0) :
    (List.range wordBits).filter w.getLsbD = w.ctz.toNat ::
      (List.range wordBits).filter (w &&& BitVec.ofNat wordBits (w.toNat - 1)).getLsbD := by
  have hbit := BitVec.getLsbD_true_ctz_of_ne_zero hw
  have hcleared := getLsbD_and_pred hw
  obtain ⟨before, after, hsplit⟩ :=
    List.append_of_mem (List.mem_range.mpr (BitVec.lt_of_getLsbD hbit))
  have hsorted : (before ++ w.ctz.toNat :: after).Pairwise (· < ·) :=
    hsplit ▸ List.pairwise_lt_range
  obtain ⟨-, hafter, hbefore⟩ := List.pairwise_append.mp hsorted
  have hlow : ∀ j ∈ before, w.getLsbD j = false := fun j hj =>
    BitVec.getLsbD_false_of_lt_ctz (hbefore j hj _ List.mem_cons_self)
  have hnone : before.filter w.getLsbD = [] := by
    refine List.filter_eq_nil_iff.mpr fun j hj => ?_
    rw [hlow j hj]
    exact Bool.false_ne_true
  have hcleared_none :
      before.filter (w &&& BitVec.ofNat wordBits (w.toNat - 1)).getLsbD = [] := by
    refine List.filter_eq_nil_iff.mpr fun j hj => ?_
    rw [hcleared, hlow j hj]
    exact Bool.false_ne_true
  have hself : (w &&& BitVec.ofNat wordBits (w.toNat - 1)).getLsbD w.ctz.toNat = false := by
    rw [hcleared, decide_eq_false (not_not_intro rfl), Bool.and_false]
  rw [hsplit, List.filter_append, List.filter_append, hnone, hcleared_none, List.nil_append,
    List.nil_append, List.filter_cons_of_pos hbit,
    List.filter_cons_of_neg (Bool.not_eq_true _ ▸ hself)]
  congr 1
  refine List.filter_congr fun j hj => ?_
  have hne : j ≠ w.ctz.toNat := Nat.ne_of_gt ((List.pairwise_cons.mp hafter).1 j hj)
  rw [hcleared, decide_eq_true hne, Bool.and_true]

/-- Listed are the numbers whose bits are set. -/
theorem mem_toList : i ∈ s.toList ↔ s.bit i = true := by
  rw [toList, List.mem_flatMap]
  constructor
  · rintro ⟨⟨word, k⟩, hword, hi⟩
    have hget : s.words[k]? = some word := List.mem_zipIdx_iff_getElem?.mp hword
    obtain ⟨hk, rfl⟩ := List.getElem?_eq_some_iff.mp hget
    obtain ⟨j, hj, rfl⟩ := List.mem_map.mp hi
    obtain ⟨hlt, hbit⟩ := List.mem_filter.mp hj
    rw [bit_of_word hk (List.mem_range.mp hlt)]
    exact hbit
  · intro hbit
    have hj : i % wordBits < wordBits := Nat.mod_lt i (by decide)
    have hi : wordBits * (i / wordBits) + i % wordBits = i := Nat.div_add_mod i wordBits
    rw [bit] at hbit
    cases hword : s.words[i / wordBits]? with
    | none =>
        rw [hword] at hbit
        exact absurd (BitVec.getLsbD_zero.symm.trans hbit) Bool.false_ne_true
    | some word =>
        rw [hword] at hbit
        refine ⟨(word, i / wordBits), List.mem_zipIdx_iff_getElem?.mpr hword, ?_⟩
        exact List.mem_map.mpr
          ⟨i % wordBits, List.mem_filter.mpr ⟨List.mem_range.mpr hj, hbit⟩, hi⟩

/-- Each member is listed before the greater ones. -/
theorem pairwise_toList (s : BitSet) : s.toList.Pairwise (· < ·) := by
  rw [toList, List.pairwise_flatMap]
  constructor
  · intro c _
    refine (List.pairwise_lt_range.filter _).map _ fun j j' hlt => ?_
    exact Nat.add_lt_add_left hlt _
  · -- every bit of an earlier word stands for less than the first bit of a later one
    rw [List.pairwise_iff_getElem]
    intro k k' hk hk' hlt i hi i' hi'
    rw [List.getElem_zipIdx] at hi hi'
    obtain ⟨j, hj, rfl⟩ := List.mem_map.mp hi
    obtain ⟨j', -, rfl⟩ := List.mem_map.mp hi'
    have hbit : j < 64 := List.mem_range.mp (List.mem_filter.mp hj).1
    show 64 * (0 + k) + j < 64 * (0 + k') + j'
    omega

/-! ## Fitting sets -/

namespace Fits

/-- Fitting sets with the same bits are equal. -/
theorem ext (hs : s.Fits capacity) (ht : t.Fits capacity) (h : ∀ i, s.bit i = t.bit i) :
    s = t := by
  have hwords := words_eq_of_bit (hs.length_eq.trans ht.length_eq.symm) h
  have hcapacity := hs.capacity_eq.trans ht.capacity_eq.symm
  cases s
  cases t
  subst hwords hcapacity
  rfl

/-- Membership is the bit. -/
theorem contains_eq_bit (hs : s.Fits capacity) (i : Nat) : s.contains i = s.bit i := by
  unfold contains
  cases hbit : s.bit i with
  | false => exact Bool.and_false _
  | true =>
      rw [hs.capacity_eq, decide_eq_true (hs.lt_capacity i hbit)]
      rfl

theorem bit_add (hs : s.Fits capacity) (hi : i < capacity) (j : Nat) :
    (s.add i).bit j = true ↔ s.bit j = true ∨ i = j := by
  have hword : i / wordBits < s.words.length := by
    -- the words hold the capacity, the last one perhaps in part
    rw [hs.length_eq]
    show i / 64 < (capacity + 63) / 64
    omega
  rw [BitSet.bit_add s hword, Bool.or_eq_true, decide_eq_true_iff]

theorem bit_merge (hs : s.Fits capacity) (ht : t.Fits capacity) (j : Nat) :
    (s.merge t).bit j = true ↔ s.bit j = true ∨ t.bit j = true := by
  rw [BitSet.bit_merge s t (hs.length_eq.trans ht.length_eq.symm), Bool.or_eq_true]

protected theorem empty (capacity : Nat) : (empty capacity).Fits capacity where
  capacity_eq := rfl
  length_eq := List.length_replicate
  lt_capacity i h := by
    rw [bit_empty] at h
    exact nomatch h

theorem add (hs : s.Fits capacity) (hi : i < capacity) : (s.add i).Fits capacity where
  capacity_eq := hs.capacity_eq
  length_eq := (List.length_modify ..).trans hs.length_eq
  lt_capacity j hj := by
    rcases (hs.bit_add hi j).mp hj with hold | rfl
    · exact hs.lt_capacity j hold
    · exact hi

theorem merge (hs : s.Fits capacity) (ht : t.Fits capacity) : (s.merge t).Fits capacity where
  capacity_eq := hs.capacity_eq
  length_eq := by
    show (List.zipWith _ s.words t.words).length = _
    rw [List.length_zipWith, hs.length_eq, ht.length_eq, Nat.min_self]
  lt_capacity j hj := by
    rcases (hs.bit_merge ht j).mp hj with hold | hnew
    · exact hs.lt_capacity j hold
    · exact ht.lt_capacity j hnew

end Fits

/-! ## Sets described by a property -/

/-- The set fits, and its members are the numbers with the property. -/
structure Collects (s : BitSet) (capacity : Nat) (P : Nat → Prop) : Prop where
  fits : s.Fits capacity
  bit_iff : ∀ i, s.bit i = true ↔ P i

namespace Collects

variable {P Q : Nat → Prop}

theorem congr (hs : s.Collects capacity P) (h : ∀ i, P i ↔ Q i) : s.Collects capacity Q :=
  ⟨hs.fits, fun i => (hs.bit_iff i).trans (h i)⟩

protected theorem empty (capacity : Nat) : (empty capacity).Collects capacity fun _ => False where
  fits := Fits.empty capacity
  bit_iff i := by
    rw [bit_empty]
    exact iff_of_false Bool.false_ne_true id

theorem add (hs : s.Collects capacity P) (hi : i < capacity) :
    (s.add i).Collects capacity fun j => P j ∨ i = j where
  fits := hs.fits.add hi
  bit_iff j := by rw [hs.fits.bit_add hi, hs.bit_iff]

theorem merge (hs : s.Collects capacity P) (ht : t.Collects capacity Q) :
    (s.merge t).Collects capacity fun i => P i ∨ Q i where
  fits := hs.fits.merge ht.fits
  bit_iff i := by rw [hs.fits.bit_merge ht.fits, hs.bit_iff, ht.bit_iff]

theorem isEmpty_iff (hs : s.Collects capacity P) : s.isEmpty = true ↔ ∀ i, ¬ P i := by
  rw [BitSet.isEmpty_iff]
  refine forall_congr' fun i => ?_
  rw [← hs.bit_iff i, Bool.not_eq_true]

end Collects

end ControlFlow.BitSet
