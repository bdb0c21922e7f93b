/-!
# The weight of what remains

    A search that takes up every element of a finite list at most once ends,
    whatever it adds to its agenda on the way, if what an element adds is
    counted as its weight beforehand: taking it up then trades weight for
    agenda entries.  `remaining` is the weight of the elements still to come.
-/

namespace ControlFlow

variable {α : Type}

/-- The total weight of the elements of a list that pass a test. -/
def remaining (weight : α → Nat) (p : α → Bool) (xs : List α) : Nat :=
  xs.foldr (fun x total => (if p x then weight x else 0) + total) 0

@[simp]
theorem remaining_nil (weight : α → Nat) (p : α → Bool) : remaining weight p [] = 0 := rfl

@[simp]
theorem remaining_cons (weight : α → Nat) (p : α → Bool) (x : α) (xs : List α) :
    remaining weight p (x :: xs) = (if p x then weight x else 0) + remaining weight p xs := rfl

theorem remaining_append (weight : α → Nat) (p : α → Bool) (xs ys : List α) :
    remaining weight p (xs ++ ys) = remaining weight p xs + remaining weight p ys := by
  induction xs with
  | nil => rw [List.nil_append, remaining_nil, Nat.zero_add]
  | cons x xs ih => rw [List.cons_append, remaining_cons, remaining_cons, ih, Nat.add_assoc]

/-- A stricter test leaves no more weight. -/
theorem remaining_le (weight : α → Nat) {p q : α → Bool} (xs : List α)
    (h : ∀ x, q x = true → p x = true) : remaining weight q xs ≤ remaining weight p xs := by
  induction xs with
  | nil => exact Nat.le_refl _
  | cons x xs ih =>
      rw [remaining_cons, remaining_cons]
      by_cases hq : q x = true
      · rw [if_pos hq, if_pos (h x hq)]
        omega
      · rw [if_neg hq]
        omega

/-- A stricter test that fails an element takes its weight away. -/
theorem remaining_add_le (weight : α → Nat) {p q : α → Bool} {xs : List α} {x : α} (hx : x ∈ xs)
    (hp : p x = true) (hq : q x = false) (h : ∀ y, q y = true → p y = true) :
    remaining weight q xs + weight x ≤ remaining weight p xs := by
  obtain ⟨pre, post, rfl⟩ := List.append_of_mem hx
  have hpre := remaining_le weight pre h
  have hpost := remaining_le weight post h
  rw [remaining_append, remaining_append, remaining_cons, remaining_cons, hp, hq]
  simp only [if_true, Bool.false_eq_true, if_false]
  omega

end ControlFlow
