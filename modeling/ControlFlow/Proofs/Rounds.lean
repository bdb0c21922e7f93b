import ControlFlow.Fixpoint
import Mathlib.Data.List.Induction
import Mathlib.Logic.Function.Iterate

/-!
# Sweeps under way

    A sweep refines a state at the members of a list, the last one first, and sweeps are
    repeated until one changes nothing.  What such a computation comes to is known once
    it has settled.  `Underway` follows it from one refinement to the next, so that more
    can be said: what holds at every moment, and what each refinement does.

    The computation is the one that `settleWithin` makes: it comes to the state that this
    returns (`Underway.last`), and never begins more sweeps than this counts
    (`Underway.lt_count`).
-/

namespace ControlFlow

variable {α σ : Type} {refine : α → σ → σ} {order rest : List α} {initial before now s t : σ}
  {a : α} {n count bound : Nat}

/-- Where repeated sweeps stand: a number of them are complete, and the one under way began
    with the state `before`, has still to refine at the members of `rest`, and has got to
    the state `now`.  Another sweep begins only if the last one changed something. -/
inductive Underway (refine : α → σ → σ) (order : List α) (initial : σ) :
    (sweeps : Nat) → (before : σ) → (rest : List α) → (now : σ) → Prop where
  | start : Underway refine order initial 0 initial order initial
  | refine {n : Nat} {before now : σ} {rest : List α} {a : α} :
      Underway refine order initial n before (rest ++ [a]) now →
        Underway refine order initial n before rest (refine a now)
  | again {n : Nat} {before now : σ} :
      Underway refine order initial n before [] now → now ≠ before →
        Underway refine order initial (n + 1) now order now

namespace Underway

/-- What is left of a sweep is the front of the list. -/
theorem rest_isPrefix (h : Underway refine order initial n before rest now) : rest <+: order := by
  induction h with
  | start => exact List.prefix_rfl
  | refine _ ih => exact (List.prefix_append _ _).trans ih
  | again _ _ _ => exact List.prefix_rfl

/-- What is left of a sweep completes it. -/
theorem foldr_rest (h : Underway refine order initial n before rest now) :
    rest.foldr refine now = order.foldr refine before := by
  induction h with
  | start => rfl
  | refine _ ih =>
      rw [List.foldr_append] at ih
      exact ih
  | again _ _ _ => rfl

/-- A sweep is completed. -/
theorem complete (h : Underway refine order initial n before rest now) :
    Underway refine order initial n before [] (rest.foldr refine now) := by
  induction rest using List.reverseRecOn generalizing now with
  | nil => exact h
  | append_singleton rest a ih =>
      rw [List.foldr_append]
      exact ih h.refine

/-- Every sweep begins with what the earlier ones have come to, and each of those changed
    something. -/
theorem iterate (h : Underway refine order initial n before rest now) :
    before = (order.foldr refine)^[n] initial ∧
      ∀ m < n, (order.foldr refine)^[m + 1] initial ≠ (order.foldr refine)^[m] initial := by
  induction h with
  | start => exact ⟨rfl, fun m hm => absurd hm (Nat.not_lt_zero m)⟩
  | refine _ ih => exact ih
  | @again n before now h hne ih =>
      obtain ⟨hbefore, hchanged⟩ := ih
      have hnow : now = (order.foldr refine)^[n + 1] initial := by
        rw [Function.iterate_succ_apply', ← hbefore]
        exact h.foldr_rest
      refine ⟨hnow, fun m hm => ?_⟩
      rcases Nat.lt_succ_iff_lt_or_eq.mp hm with hlt | rfl
      · exact hchanged m hlt
      · rw [← hnow, ← hbefore]
        exact hne

section Settle

variable [DecidableEq σ]

/-- The computation comes to what settling returns: the last sweep changes nothing. -/
theorem settled (hs : settleWithin (order.foldr refine) bound s = some (t, count))
    (h : Underway refine order initial n s order s) :
    ∃ k, count = k + 1 ∧ Underway refine order initial (n + k) t [] t := by
  induction bound generalizing n s count with
  | zero => cases hs
  | succ bound ih =>
      have hswept := h.complete
      rw [settleWithin] at hs
      split at hs
      · rename_i hsame
        obtain ⟨rfl, rfl⟩ := Prod.mk.inj (Option.some.inj hs)
        rw [hsame] at hswept
        exact ⟨0, rfl, hswept⟩
      · rename_i hchanged
        obtain ⟨⟨u, rounds⟩, hrest, heq⟩ := Option.map_eq_some_iff.mp hs
        obtain ⟨rfl, rfl⟩ := Prod.mk.inj heq
        obtain ⟨k, rfl, hsettled⟩ := ih hrest (hswept.again hchanged)
        refine ⟨k + 1, rfl, ?_⟩
        rwa [Nat.add_assoc, Nat.add_comm 1 k] at hsettled

/-- The last of the counted sweeps begins and ends with what settling returns. -/
theorem last (hs : settleWithin (order.foldr refine) bound initial = some (t, count)) :
    ∃ k, Underway refine order initial k t [] t ∧ count = k + 1 := by
  obtain ⟨k, hcount, hsettled⟩ := settled hs .start
  rw [Nat.zero_add] at hsettled
  exact ⟨k, hsettled, hcount⟩

/-- There are never more sweeps than settling counts. -/
theorem lt_count (hs : settleWithin (order.foldr refine) bound initial = some (t, count))
    (h : Underway refine order initial n before rest now) : n < count := by
  obtain ⟨k, hsettled, rfl⟩ := last hs
  by_contra hge
  -- the sweep after the last one would have changed something
  refine h.iterate.2 k (by omega) ?_
  rw [Function.iterate_succ_apply', ← hsettled.iterate.1]
  exact hsettled.foldr_rest.symm

end Settle

end Underway

end ControlFlow
