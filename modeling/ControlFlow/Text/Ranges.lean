/-!
# Ranges of code points

    A set of characters is written down as the closed ranges of its code points,
    in ascending order.  The look-up stops at the first range that begins above
    the code point, so early characters are decided early.
-/

namespace ControlFlow.Text

/-- Closed ranges of code points, meant to ascend without touching. -/
abbrev Ranges := List (Nat × Nat)

namespace Ranges

/-- Whether a code point lies in one of the ranges. -/
def covers : Ranges → Nat → Bool
  | [], _ => false
  | (low, high) :: rest, n =>
      if n < low then false else if n ≤ high then true else covers rest n

/-- Whether every range is inhabited and ends before the next one begins. -/
def isAscending : Ranges → Bool
  | [] => true
  | [(low, high)] => decide (low ≤ high)
  | (low, high) :: (low', high') :: rest =>
      decide (low ≤ high) && decide (high < low') && isAscending ((low', high') :: rest)

/-- The ranges behind the first one ascend as well. -/
theorem isAscending_tail {r : Nat × Nat} {rs : Ranges} (h : isAscending (r :: rs) = true) :
    isAscending rs = true := by
  cases rs with
  | nil => rfl
  | cons s rest =>
      simp only [isAscending, Bool.and_eq_true] at h
      exact h.2

/-- In ascending ranges nothing begins below the first one. -/
theorem low_le_of_mem {r : Nat × Nat} {rs : Ranges} (h : isAscending (r :: rs) = true)
    {s : Nat × Nat} (hs : s ∈ r :: rs) : r.1 ≤ s.1 := by
  induction rs generalizing r with
  | nil => exact Nat.le_of_eq (congrArg Prod.fst (List.mem_singleton.1 hs).symm)
  | cons t rest ih =>
      rcases List.mem_cons.1 hs with rfl | hs
      · exact Nat.le_refl _
      · have ht := ih (isAscending_tail h) hs
        simp only [isAscending, Bool.and_eq_true, decide_eq_true_eq] at h
        omega

/-- The look-up misses nothing by stopping early. -/
theorem covers_iff {rs : Ranges} (h : isAscending rs = true) (n : Nat) :
    rs.covers n = true ↔ ∃ r ∈ rs, r.1 ≤ n ∧ n ≤ r.2 := by
  induction rs with
  | nil => simp [covers]
  | cons r rest ih =>
      unfold covers
      split
      · rename_i below
        constructor
        · intro absurdity
          exact absurd absurdity (by decide)
        · rintro ⟨s, hs, low, _⟩
          have := low_le_of_mem h hs
          omega
      · split
        · rename_i low high
          exact ⟨fun _ => ⟨r, List.mem_cons_self, by omega, high⟩, fun _ => rfl⟩
        · rename_i low high
          rw [ih (isAscending_tail h)]
          constructor
          · rintro ⟨s, hs, hn⟩
            exact ⟨s, List.mem_cons_of_mem _ hs, hn⟩
          · rintro ⟨s, hs, hn⟩
            rcases List.mem_cons.1 hs with rfl | hs
            · exact absurd hn.2 high
            · exact ⟨s, hs, hn⟩

end Ranges

end ControlFlow.Text
