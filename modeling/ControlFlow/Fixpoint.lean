/-!
# Sweeping to a fixed point

    A sweep is repeated until it changes nothing.  The sweeps are counted, the
    last one included.  The number of sweeps allowed is part of the call, and
    running out of them is a result of its own, so that a bound derived from
    the size of the problem can be proved sufficient.
-/

namespace ControlFlow

/-- Sweeps until a sweep changes nothing: the settled state and the number of
    sweeps, or `none` when the bound is used up first. -/
def settleWithin {σ : Type} [DecidableEq σ] (sweep : σ → σ) : (bound : Nat) → σ → Option (σ × Nat)
  | 0, _ => none
  | bound + 1, s =>
      if sweep s = s then some (s, 1)
      else (settleWithin sweep bound (sweep s)).map fun (settled, count) => (settled, count + 1)

/-- Sweeps until a sweep changes nothing, within a bound that the caller knows
    to suffice. -/
def settle {σ : Type} [DecidableEq σ] (sweep : σ → σ) (bound : Nat) (s : σ) : σ × Nat :=
  (settleWithin sweep bound s).getD (s, 0)

/-- What `settleWithin` returns does not change under another sweep. -/
theorem settleWithin_stable {σ : Type} [DecidableEq σ] {sweep : σ → σ} {bound : Nat} {s t : σ}
    {count : Nat} (h : settleWithin sweep bound s = some (t, count)) : sweep t = t := by
  induction bound generalizing s count with
  | zero => simp [settleWithin] at h
  | succ bound ih =>
      unfold settleWithin at h
      split at h
      · rename_i hs
        simp only [Option.some.injEq, Prod.mk.injEq] at h
        exact h.1 ▸ hs
      · obtain ⟨⟨u, n⟩, hu, heq⟩ := Option.map_eq_some_iff.1 h
        simp only [Prod.mk.injEq] at heq
        exact ih (heq.1 ▸ hu)

/-- What every sweep keeps is kept to the end. -/
theorem settleWithin_invariant {σ : Type} [DecidableEq σ] {sweep : σ → σ} {P : σ → Prop}
    (hstep : ∀ s, P s → P (sweep s)) {bound : Nat} {s t : σ} {count : Nat} (hs : P s)
    (h : settleWithin sweep bound s = some (t, count)) : P t := by
  induction bound generalizing s count with
  | zero => simp [settleWithin] at h
  | succ bound ih =>
      unfold settleWithin at h
      split at h
      · simp only [Option.some.injEq, Prod.mk.injEq] at h
        exact h.1 ▸ hs
      · obtain ⟨⟨u, n⟩, hu, heq⟩ := Option.map_eq_some_iff.1 h
        simp only [Prod.mk.injEq] at heq
        exact ih (hstep s hs) (heq.1 ▸ hu)

/-- Where the second sweep changes nothing, at most two sweeps are counted, and only
    one when the first changes nothing either. -/
theorem settleWithin_count {σ : Type} [DecidableEq σ] {sweep : σ → σ} {bound : Nat} {s t : σ}
    {count : Nat} (hagain : sweep (sweep s) = sweep s)
    (h : settleWithin sweep bound s = some (t, count)) :
    count = if sweep s = s then 1 else 2 := by
  cases bound with
  | zero => simp [settleWithin] at h
  | succ bound =>
      by_cases hsame : sweep s = s
      · rw [settleWithin, if_pos hsame] at h
        rw [if_pos hsame]
        exact (congrArg Prod.snd (Option.some.inj h)).symm
      · rw [settleWithin, if_neg hsame] at h
        rw [if_neg hsame]
        cases bound with
        | zero => cases h
        | succ bound =>
            rw [settleWithin, if_pos hagain] at h
            exact (congrArg Prod.snd (Option.some.inj h)).symm

/-- A bound suffices when every sweep that changes something adds to a measure
    and the measure has a limit: what comes out is settled, and it has whatever
    every sweep keeps. -/
theorem settleWithin_of_rising {σ : Type} [DecidableEq σ] {sweep : σ → σ} {P : σ → Prop}
    {measure : σ → Nat} {limit : Nat} (hstep : ∀ s, P s → P (sweep s))
    (hrise : ∀ s, P s → sweep s ≠ s → measure s < measure (sweep s))
    (hlimit : ∀ s, P s → measure s ≤ limit) {bound : Nat} {s : σ} (hs : P s)
    (hbound : limit < bound + measure s) :
    ∃ t count, settleWithin sweep bound s = some (t, count) ∧ P t ∧ sweep t = t := by
  have hsome : ∃ t count, settleWithin sweep bound s = some (t, count) := by
    induction bound generalizing s with
    | zero =>
        have := hlimit s hs
        omega
    | succ bound ih =>
        by_cases hsame : sweep s = s
        · exact ⟨s, 1, by rw [settleWithin, if_pos hsame]⟩
        · have hlt := hrise s hs hsame
          obtain ⟨t, count, ht⟩ := ih (hstep s hs) (by omega)
          exact ⟨t, count + 1, by rw [settleWithin, if_neg hsame, ht]; rfl⟩
  obtain ⟨t, count, ht⟩ := hsome
  exact ⟨t, count, ht, settleWithin_invariant hstep hs ht, settleWithin_stable ht⟩

end ControlFlow
