import ControlFlow.Dominance.Slots
import Mathlib.Data.List.Induction
import Mathlib.Logic.Relation

/-!
# Climbing from slot to slot

    Slots are `Rising` when the start holds itself and every other known slot
    holds a higher position that is known too.  Then every climb from a known
    position goes up all the way to the start, two positions on one climb lie
    one above the other, and what two climbs have in common is the climb from
    the lowest position on both.  `meet` finds that position, `candidate` does
    the same for any number of positions, `dominates` decides whether a position
    lies on a climb, and `climb` lists one.

    `NearestCommon` says what such a position is, for any set of positions.
    Nothing in this file knows where the slots come from.
-/

namespace ControlFlow.Slots

variable {s : Slots} {start p q a b : Nat}

/-- One gets from `p` to `a` by going from slot to slot. -/
def Climbs (s : Slots) : Nat → Nat → Prop :=
  Relation.ReflTransGen fun p q => s.slot? p = some q

/-- The last slot, the start's, holds the start, and every other known slot holds
    a higher position that is known as well. -/
structure Rising (s : Slots) (start : Nat) : Prop where
  size_eq : s.size = start + 1
  slot_start : s.slot? start = some start
  slot_lt : ∀ p q, p < start → s.slot? p = some q → p < q
  slot_known : ∀ p q, s.slot? p = some q → s.isKnown q = true

/-- `m` lies on the climbs of all positions of a set, and whatever else lies on
    all of them lies on the climb of `m`. -/
structure NearestCommon (s : Slots) (among : Nat → Prop) (m : Nat) : Prop where
  common : ∀ p, among p → s.Climbs p m
  nearest : ∀ c, (∀ p, among p → s.Climbs p c) → s.Climbs m c

/-! ## Slots -/

theorem isKnown_iff : s.isKnown p = true ↔ ∃ q, s.slot? p = some q := by
  unfold isKnown
  rw [Option.isSome_iff_exists]

theorem isKnown_of_slot (h : s.slot? p = some q) : s.isKnown p = true :=
  isKnown_iff.mpr ⟨q, h⟩

theorem lt_size_of_isKnown (h : s.isKnown p = true) : p < s.size := by
  obtain ⟨q, hq⟩ := isKnown_iff.mp h
  refine Nat.lt_of_not_le fun hge => ?_
  unfold slot? at hq
  rw [Array.getElem?_eq_none hge] at hq
  exact nomatch hq

/-- Writing one slot changes that slot and no other. -/
theorem slot?_setIfInBounds (h : p < s.size) (m : Nat) (q : Nat) :
    slot? (s.setIfInBounds p (some m)) q = if p = q then some m else s.slot? q := by
  unfold slot?
  rw [Array.getElem?_setIfInBounds]
  by_cases hpq : p = q
  · subst hpq
    rw [if_pos rfl, if_pos h, if_pos rfl]
    rfl
  · rw [if_neg hpq, if_neg hpq]

/-! ## Climbs -/

theorem Climbs.refl (s : Slots) (p : Nat) : s.Climbs p p :=
  Relation.ReflTransGen.refl

theorem Climbs.trans (h₁ : s.Climbs p q) (h₂ : s.Climbs q a) : s.Climbs p a :=
  Relation.ReflTransGen.trans h₁ h₂

theorem Climbs.head (h₁ : s.slot? p = some q) (h₂ : s.Climbs q a) : s.Climbs p a :=
  Relation.ReflTransGen.head h₁ h₂

/-- A climb either stays where it is or begins with the slot of its position. -/
theorem Climbs.cases_slot (h : s.Climbs p a) : p = a ∨ ∃ q, s.slot? p = some q ∧ s.Climbs q a :=
  Relation.ReflTransGen.cases_head h

/-- A climb that leads somewhere else goes through the slot. -/
theorem Climbs.of_slot (h : s.Climbs p a) (hne : p ≠ a) (hq : s.slot? p = some q) :
    s.Climbs q a := by
  rcases h.cases_slot with heq | ⟨q', hq', hclimb⟩
  · exact absurd heq hne
  · rw [hq] at hq'
    exact Option.some.inj hq' ▸ hclimb

namespace Rising

theorem isKnown_start (h : Rising s start) : s.isKnown start = true :=
  isKnown_of_slot h.slot_start

theorem le_start (h : Rising s start) (hp : s.isKnown p = true) : p ≤ start := by
  have hlt := lt_size_of_isKnown hp
  rw [h.size_eq] at hlt
  exact Nat.le_of_lt_succ hlt

theorem slot_le (h : Rising s start) (hq : s.slot? p = some q) : p ≤ q := by
  rcases Nat.lt_or_eq_of_le (h.le_start (isKnown_of_slot hq)) with hlt | heq
  · exact Nat.le_of_lt (h.slot_lt p q hlt hq)
  · rw [heq, h.slot_start] at hq
    exact Nat.le_of_eq (heq.trans (Option.some.inj hq))

theorem le_of_climbs (h : Rising s start) (hclimb : s.Climbs p a) : p ≤ a := by
  induction hclimb with
  | refl => exact Nat.le_refl p
  | tail _ hslot ih => exact Nat.le_trans ih (h.slot_le hslot)

theorem known_of_climbs (h : Rising s start) (hp : s.isKnown p = true) (hclimb : s.Climbs p a) :
    s.isKnown a = true := by
  induction hclimb with
  | refl => exact hp
  | tail _ hslot _ => exact h.slot_known _ _ hslot

/-- From the start there is nowhere to climb. -/
theorem eq_start_of_climbs (h : Rising s start) (hclimb : s.Climbs start a) : a = start := by
  induction hclimb with
  | refl => rfl
  | tail _ hslot ih =>
      rw [ih, h.slot_start] at hslot
      exact (Option.some.inj hslot).symm

/-- Every climb from a known position gets to the start. -/
theorem climbs_start (h : Rising s start) (hp : s.isKnown p = true) : s.Climbs p start := by
  induction hn : start - p using Nat.strongRecOn generalizing p with
  | _ n ih =>
      rcases Nat.lt_or_eq_of_le (h.le_start hp) with hlt | heq
      · obtain ⟨q, hq⟩ := isKnown_iff.mp hp
        have hpq := h.slot_lt p q hlt hq
        have hrec := ih (start - q) (by omega) (h.slot_known p q hq) rfl
        exact hrec.head hq
      · rw [heq]
        exact Climbs.refl s start

/-- Of two positions on one climb, the higher one lies on the climb of the lower. -/
theorem climbs_of_le (h : Rising s start) (ha : s.Climbs p a) (hb : s.Climbs p b) (hab : a ≤ b) :
    s.Climbs a b := by
  have hunique : Relator.RightUnique fun p q => s.slot? p = some q := by
    intro x y z hy hz
    rw [hy] at hz
    exact Option.some.inj hz
  rcases Relation.ReflTransGen.total_of_right_unique hunique ha hb with hclimb | hclimb
  · exact hclimb
  · have hba := h.le_of_climbs hclimb
    exact Nat.le_antisymm hab hba ▸ Climbs.refl s a

end Rising

/-! ## The nearest common position -/

/-- One position more: what it has in common with what the others have in
    common. -/
theorem NearestCommon.insert {among : Nat → Prop} {current m : Nat}
    (h : NearestCommon s among current) (hm : NearestCommon s (fun x => x = p ∨ x = current) m) :
    NearestCommon s (fun x => among x ∨ x = p) m where
  common x hx := by
    rcases hx with hamong | rfl
    · exact (h.common x hamong).trans (hm.common current (Or.inr rfl))
    · exact hm.common x (Or.inl rfl)
  nearest c hc := by
    refine hm.nearest c ?_
    rintro x (rfl | rfl)
    · exact hc x (Or.inr rfl)
    · exact h.nearest c fun y hy => hc y (Or.inl hy)

theorem NearestCommon.congr {among among' : Nat → Prop} {m : Nat}
    (h : NearestCommon s among m) (hiff : ∀ x, among' x ↔ among x) :
    NearestCommon s among' m where
  common x hx := h.common x ((hiff x).mp hx)
  nearest c hc := h.nearest c fun x hx => hc x ((hiff x).mpr hx)

/-- A position has itself in common with itself. -/
theorem NearestCommon.self (s : Slots) (c : Nat) : NearestCommon s (fun x => x = c ∨ x = c) c where
  common x hx := by
    rcases hx with rfl | rfl <;> exact Climbs.refl s x
  nearest d hd := hd c (Or.inl rfl)

/-- There is only one nearest common position. -/
theorem NearestCommon.unique {among : Nat → Prop} {m m' : Nat} (h : Rising s start)
    (hm : NearestCommon s among m) (hm' : NearestCommon s among m') : m = m' :=
  Nat.le_antisymm (h.le_of_climbs (hm.nearest m' hm'.common))
    (h.le_of_climbs (hm'.nearest m hm.common))

/-- The lower of two climbers can move up: they have the same in common as
    before. -/
theorem NearestCommon.of_up {a' m : Nat} (h : Rising s start) (hab : a < b)
    (ha' : s.slot? a = some a') (hm : NearestCommon s (fun x => x = a' ∨ x = b) m) :
    NearestCommon s (fun x => x = a ∨ x = b) m where
  common x hx := by
    rcases hx with rfl | rfl
    · exact (hm.common a' (Or.inl rfl)).head ha'
    · exact hm.common x (Or.inr rfl)
  nearest c hc := by
    refine hm.nearest c ?_
    rintro x (rfl | rfl)
    · -- what the higher one climbs to is above the lower one
      have hbc := h.le_of_climbs (hc b (Or.inr rfl))
      have hne : a ≠ c := by omega
      exact (hc a (Or.inl rfl)).of_slot hne ha'
    · exact hc x (Or.inr rfl)

/-- Two climbers meet, within as many moves as there are positions above them. -/
theorem Rising.meetWithin_eq_some (h : Rising s start) (steps a b : Nat)
    (ha : s.isKnown a = true) (hb : s.isKnown b = true)
    (hsteps : (start - a) + (start - b) ≤ steps) :
    ∃ m, s.meetWithin start steps a b = some m ∧
      NearestCommon s (fun x => x = a ∨ x = b) m := by
  have ha_le := h.le_start ha
  have hb_le := h.le_start hb
  induction steps generalizing a b with
  | zero =>
      have heq : a = b := by omega
      subst heq
      exact ⟨a, by rw [meetWithin, if_pos rfl], NearestCommon.self s a⟩
  | succ steps ih =>
      rcases Nat.lt_trichotomy a b with hlt | heq | hgt
      · obtain ⟨a', ha'⟩ := isKnown_iff.mp ha
        have hup : s.up start a = a' := by unfold up; rw [ha']; rfl
        have haa' := h.slot_lt a a' (by omega) ha'
        have hknown := h.slot_known a a' ha'
        obtain ⟨m, hm, hnearest⟩ := ih a' b hknown hb (by omega) (h.le_start hknown) hb_le
        refine ⟨m, ?_, hnearest.of_up h hlt ha'⟩
        rw [meetWithin, if_neg (Nat.ne_of_lt hlt), if_pos hlt, hup]
        exact hm
      · subst heq
        exact ⟨a, by rw [meetWithin, if_pos rfl], NearestCommon.self s a⟩
      · obtain ⟨b', hb'⟩ := isKnown_iff.mp hb
        have hup : s.up start b = b' := by unfold up; rw [hb']; rfl
        have hbb' := h.slot_lt b b' (by omega) hb'
        have hknown := h.slot_known b b' hb'
        obtain ⟨m, hm, hnearest⟩ := ih a b' ha hknown (by omega) ha_le (h.le_start hknown)
        refine ⟨m, ?_, ?_⟩
        · rw [meetWithin, if_neg (Nat.ne_of_gt hgt), if_neg (Nat.lt_asymm hgt), hup]
          exact hm
        · have hswap := (hnearest.congr fun x => or_comm).of_up h hgt hb'
          exact hswap.congr fun x => or_comm

/-- `meet` is the nearest common position of two known ones. -/
theorem Rising.nearestCommon_meet (h : Rising s start) (ha : s.isKnown a = true)
    (hb : s.isKnown b = true) :
    NearestCommon s (fun x => x = a ∨ x = b) (s.meet start a b) := by
  have hsize := h.size_eq
  obtain ⟨m, hm, hnearest⟩ := h.meetWithin_eq_some (2 * s.size) a b ha hb (by omega)
  unfold meet
  rw [hm]
  exact hnearest

theorem Rising.isKnown_meet (h : Rising s start) (ha : s.isKnown a = true)
    (hb : s.isKnown b = true) : s.isKnown (s.meet start a b) = true :=
  h.known_of_climbs ha ((h.nearestCommon_meet ha hb).common a (Or.inl rfl))

theorem candidate_append (ps : List Nat) (p : Nat) :
    s.candidate start (ps ++ [p]) =
      if s.isKnown p then
        match s.candidate start ps with
        | none => some p
        | some current => some (s.meet start p current)
      else s.candidate start ps := by
  unfold candidate
  rw [List.foldl_append]
  rfl

/-- The candidate is the nearest common position of the known ones among the
    incoming positions, and it is missing only when none of them is known. -/
theorem Rising.candidate_cases (h : Rising s start) (ps : List Nat) :
    (s.candidate start ps = none ∧ ∀ p ∈ ps, s.isKnown p = false) ∨
      ∃ m, s.candidate start ps = some m ∧ (∃ p ∈ ps, s.isKnown p = true) ∧
        NearestCommon s (fun p => p ∈ ps ∧ s.isKnown p = true) m := by
  induction ps using List.reverseRecOn with
  | nil => exact Or.inl ⟨rfl, fun p hp => absurd hp List.not_mem_nil⟩
  | append_singleton ps p ih =>
      rw [candidate_append]
      by_cases hp : s.isKnown p = true
      · rw [if_pos hp]
        refine Or.inr ?_
        have hmem : ∃ x ∈ ps ++ [p], s.isKnown x = true := ⟨p, by simp, hp⟩
        rcases ih with ⟨hnone, hall⟩ | ⟨m, hm, ⟨x, hx, hxknown⟩, hnearest⟩
        · -- the first known position of the list
          rw [hnone]
          refine ⟨p, rfl, hmem, ?_, ?_⟩
          · rintro x ⟨hx, hknown⟩
            rcases List.mem_append.mp hx with hx' | hx'
            · rw [hall x hx'] at hknown
              exact nomatch hknown
            · exact List.mem_singleton.mp hx' ▸ Climbs.refl s p
          · intro c hc
            exact hc p ⟨by simp, hp⟩
        · rw [hm]
          have hmknown : s.isKnown m = true :=
            h.known_of_climbs hxknown (hnearest.common x ⟨hx, hxknown⟩)
          refine ⟨s.meet start p m, rfl, hmem, ?_⟩
          refine (hnearest.insert (h.nearestCommon_meet hp hmknown)).congr ?_
          intro y
          rw [List.mem_append, List.mem_singleton]
          constructor
          · rintro ⟨hy | hy, hyknown⟩
            · exact Or.inl ⟨hy, hyknown⟩
            · exact Or.inr hy
          · rintro (⟨hy, hyknown⟩ | rfl)
            · exact ⟨Or.inl hy, hyknown⟩
            · exact ⟨Or.inr rfl, hp⟩
      · rw [if_neg hp]
        rcases ih with ⟨hnone, hall⟩ | ⟨m, hm, ⟨x, hx, hxknown⟩, hnearest⟩
        · refine Or.inl ⟨hnone, ?_⟩
          intro x hx
          rcases List.mem_append.mp hx with hx' | hx'
          · exact hall x hx'
          · rw [List.mem_singleton.mp hx']
            exact Bool.eq_false_iff.mpr hp
        · refine Or.inr ⟨m, hm, ⟨x, List.mem_append_left [p] hx, hxknown⟩, ?_⟩
          refine hnearest.congr ?_
          intro y
          rw [List.mem_append, List.mem_singleton]
          constructor
          · rintro ⟨hy | rfl, hyknown⟩
            · exact ⟨hy, hyknown⟩
            · exact absurd hyknown hp
          · rintro ⟨hy, hyknown⟩
            exact ⟨Or.inl hy, hyknown⟩

/-! ## Questions about climbs -/

theorem Rising.meetsWithin_iff (h : Rising s start) (target steps p : Nat)
    (hp : s.isKnown p = true) (hsteps : start - p ≤ steps) :
    s.meetsWithin target steps p = true ↔ s.Climbs p target := by
  have hp_le := h.le_start hp
  induction steps generalizing p with
  | zero =>
      have heq : p = start := by omega
      subst heq
      unfold meetsWithin
      rw [beq_iff_eq]
      exact ⟨fun heq => heq ▸ Climbs.refl s p, fun hclimb => (h.eq_start_of_climbs hclimb).symm⟩
  | succ steps ih =>
      obtain ⟨next, hnext⟩ := isKnown_iff.mp hp
      unfold meetsWithin
      by_cases hlt : p < target
      · rw [if_pos hlt, hnext]
        show (next != p && s.meetsWithin target steps next) = true ↔ _
        rw [Bool.and_eq_true, bne_iff_ne]
        constructor
        · rintro ⟨hne, hmeets⟩
          have hpnext := h.slot_le hnext
          have hknown := h.slot_known p next hnext
          exact ((ih next hknown (by omega) (h.le_start hknown)).mp hmeets).head hnext
        · intro hclimb
          have hrest := hclimb.of_slot (Nat.ne_of_lt hlt) hnext
          have hknown := h.slot_known p next hnext
          -- only the start's slot holds its own position, and nothing is above it
          have hpstart : p ≠ start := by
            rintro rfl
            have := h.eq_start_of_climbs hclimb
            omega
          have hpnext := h.slot_lt p next (by omega) hnext
          exact ⟨by omega, (ih next hknown (by omega) (h.le_start hknown)).mpr hrest⟩
      · rw [if_neg hlt, beq_iff_eq]
        constructor
        · rintro rfl
          exact Climbs.refl s p
        · intro hclimb
          have := h.le_of_climbs hclimb
          omega

/-- `dominates` decides whether a position lies on a climb. -/
theorem Rising.dominates_iff (h : Rising s start) (hp : s.isKnown p = true) :
    s.dominates a p = true ↔ s.Climbs p a := by
  have hsize := h.size_eq
  exact h.meetsWithin_iff a s.size p hp (by omega)

/-- The list of a climb does not depend on the number of steps, if that is large
    enough. -/
theorem Rising.climbWithin_eq (h : Rising s start) (steps steps' p : Nat)
    (hp : s.isKnown p = true) (hsteps : start - p < steps) (hsteps' : start - p < steps') :
    s.climbWithin start steps p = s.climbWithin start steps' p := by
  have hp_le := h.le_start hp
  induction steps generalizing p steps' with
  | zero => exact absurd hsteps (Nat.not_lt_zero _)
  | succ steps ih =>
      cases steps' with
      | zero => exact absurd hsteps' (Nat.not_lt_zero _)
      | succ steps' =>
          obtain ⟨next, hnext⟩ := isKnown_iff.mp hp
          unfold climbWithin
          by_cases hstart : p = start
          · rw [if_pos hstart, if_pos hstart]
          · have hlt := h.slot_lt p next (by omega) hnext
            have hknown := h.slot_known p next hnext
            have hle := h.le_start hknown
            rw [if_neg hstart, if_neg hstart, hnext]
            exact congrArg (p :: ·) (ih steps' next hknown (by omega) (by omega) hle)

/-- The climb from the start is the start. -/
theorem climb_start (h : Rising s start) : s.climb start start = [start] := by
  unfold climb
  rw [h.size_eq, climbWithin, if_pos rfl]

/-- The climb from any other position begins there and goes on with its slot. -/
theorem climb_of_slot (h : Rising s start) (hp : p ≠ start) (hq : s.slot? p = some q) :
    s.climb start p = p :: s.climb start q := by
  have hpq := h.slot_lt p q (Nat.lt_of_le_of_ne (h.le_start (isKnown_of_slot hq)) hp) hq
  have hknown := h.slot_known p q hq
  have hle := h.le_start hknown
  unfold climb
  rw [h.size_eq, climbWithin, if_neg hp, hq]
  exact congrArg (p :: ·) (h.climbWithin_eq start (start + 1) q hknown (by omega) (by omega))

/-- A climb lists the positions it gets to. -/
theorem Rising.mem_climb (h : Rising s start) (hp : s.isKnown p = true) :
    a ∈ s.climb start p ↔ s.Climbs p a := by
  have hclimb := h.climbs_start hp
  induction hclimb using Relation.ReflTransGen.head_induction_on with
  | refl =>
      rw [climb_start h, List.mem_singleton]
      exact ⟨fun heq => heq ▸ Climbs.refl s start, h.eq_start_of_climbs⟩
  | @head p q hq _ ih =>
      by_cases hstart : p = start
      · rw [hstart, climb_start h, List.mem_singleton]
        exact ⟨fun heq => heq ▸ Climbs.refl s start, h.eq_start_of_climbs⟩
      · have ih' : a ∈ s.climb start q ↔ s.Climbs q a := ih (h.slot_known p q hq)
        rw [climb_of_slot h hstart hq, List.mem_cons, ih']
        constructor
        · rintro (rfl | hrest)
          · exact Climbs.refl s a
          · exact hrest.head hq
        · intro hpa
          by_cases hne : p = a
          · exact Or.inl hne.symm
          · exact Or.inr (hpa.of_slot hne hq)

/-- Before a position that it gets to, a climb lists what does not lie on the
    climb from there. -/
theorem Rising.mem_takeWhile_climb {limit : Nat} (h : Rising s start) (hp : s.isKnown p = true)
    (hlimit : s.Climbs p limit) :
    a ∈ (s.climb start p).takeWhile (· != limit) ↔ s.Climbs p a ∧ ¬ s.Climbs limit a := by
  -- the climb stops at its first position exactly when that is the limit
  have hstop : ∀ rest, ((limit :: rest).takeWhile (· != limit)) = [] := by
    intro rest
    simp
  induction hlimit using Relation.ReflTransGen.head_induction_on with
  | refl =>
      have hempty : (s.climb start limit).takeWhile (· != limit) = [] := by
        by_cases hstart : limit = start
        · rw [hstart, climb_start h, ← hstart]
          exact hstop []
        · obtain ⟨q, hq⟩ := isKnown_iff.mp hp
          rw [climb_of_slot h hstart hq]
          exact hstop _
      rw [hempty]
      constructor
      · intro hmem
        exact absurd hmem List.not_mem_nil
      · rintro ⟨hclimb, hnot⟩
        exact absurd hclimb hnot
  | @head p q hq hclimb ih =>
      by_cases hpl : p = limit
      · -- the start may be left through its own slot without getting anywhere
        have hqp : q = p := by
          have h₁ := h.slot_le hq
          have h₂ := h.le_of_climbs hclimb
          omega
        subst hqp
        exact ih hp
      · have hne : p ≠ start := by
          rintro rfl
          exact hpl (h.eq_start_of_climbs (hclimb.head hq)).symm
        have ih' : a ∈ (s.climb start q).takeWhile (· != limit) ↔
            s.Climbs q a ∧ ¬ s.Climbs limit a := ih (h.slot_known p q hq)
        rw [climb_of_slot h hne hq, List.takeWhile_cons_of_pos (by simpa using hpl), List.mem_cons,
          ih']
        constructor
        · rintro (rfl | ⟨hqa, hnot⟩)
          · refine ⟨Climbs.refl s a, fun hla => hpl ?_⟩
            have h₁ := h.le_of_climbs hla
            have h₂ := h.le_of_climbs (hclimb.head hq)
            omega
          · exact ⟨hqa.head hq, hnot⟩
        · rintro ⟨hpa, hnot⟩
          by_cases hpa' : p = a
          · exact Or.inl hpa'.symm
          · exact Or.inr ⟨hpa.of_slot hpa' hq, hnot⟩

end ControlFlow.Slots
