import ControlFlow.Proofs.Guarded.Slots
import Mathlib.Data.List.Perm.Basic
import Mathlib.Order.Bounds.Defs

/-!
# Where climbs meet

    Of two climbers the lower one moves up, past the other perhaps, then the other one,
    until both are at one position.  On `Rising` slots neither can miss what the two
    climbs have in common: whatever lies on both lies above the lower climber's next
    step (`NearestCommon.of_up`).  So they meet at the least position on both climbs.

    That position is told by the two climbs alone.  Which climber is called the first,
    and in what order more than two are brought together, makes no difference, and a
    candidate depends on which of the incoming positions are known, not on how they are
    listed (`Rising.candidate_congr`).
-/

namespace ControlFlow.Slots

variable {s : Slots} {start m a b c : Nat} {ps qs : List Nat}

/-! ## Rising slots can be recognized -/

theorem rising_iff :
    Rising s start ↔ s.size = start + 1 ∧ s.slot? start = some start ∧
      ∀ p < start, ∀ q ∈ s.slot? p, p < q ∧ s.isKnown q = true := by
  constructor
  · intro h
    exact ⟨h.size_eq, h.slot_start, fun p hp q hq => ⟨h.slot_lt p q hp hq, h.slot_known p q hq⟩⟩
  · rintro ⟨hsize, hstart, hslots⟩
    refine ⟨hsize, hstart, fun p q hp hq => (hslots p hp q hq).1, fun p q hq => ?_⟩
    have hp := lt_size_of_isKnown (isKnown_of_slot hq)
    rw [hsize] at hp
    rcases Nat.lt_or_eq_of_le (Nat.le_of_lt_succ hp) with hlt | rfl
    · exact (hslots p hlt q hq).2
    · -- the start holds itself
      rw [hstart] at hq
      exact Option.some.inj hq ▸ isKnown_of_slot hstart

instance (s : Slots) (start : Nat) : Decidable (Rising s start) :=
  decidable_of_iff _ rising_iff.symm

/-! ## Two climbers -/

/-- What is nearest of all that some climbs have in common is the least of it. -/
theorem NearestCommon.isLeast {among : Nat → Prop} (h : Rising s start)
    (hm : NearestCommon s among m) : IsLeast {c | ∀ p, among p → s.Climbs p c} m :=
  ⟨hm.common, fun c hc => h.le_of_climbs (hm.nearest c hc)⟩

namespace Rising

theorem isLeast_meet (h : Rising s start) (ha : s.isKnown a = true) (hb : s.isKnown b = true) :
    IsLeast {c | s.Climbs a c ∧ s.Climbs b c} (s.meet start a b) := by
  have hleast := (h.nearestCommon_meet ha hb).isLeast h
  simpa only [forall_eq_or_imp, forall_eq] using hleast

theorem meet_comm (h : Rising s start) (ha : s.isKnown a = true) (hb : s.isKnown b = true) :
    s.meet start a b = s.meet start b a :=
  (h.nearestCommon_meet ha hb).unique h
    ((h.nearestCommon_meet hb ha).congr fun _ => or_comm)

/-- However three climbers are brought together, it is where all three climbs meet. -/
theorem meet_assoc (h : Rising s start) (ha : s.isKnown a = true) (hb : s.isKnown b = true)
    (hc : s.isKnown c = true) :
    s.meet start (s.meet start a b) c = s.meet start a (s.meet start b c) := by
  have hleft : NearestCommon s (fun x => (x = a ∨ x = b) ∨ x = c)
      (s.meet start (s.meet start a b) c) := by
    refine (h.nearestCommon_meet ha hb).insert ?_
    exact (h.nearestCommon_meet (h.isKnown_meet ha hb) hc).congr fun _ => or_comm
  have hright : NearestCommon s (fun x => (x = b ∨ x = c) ∨ x = a)
      (s.meet start a (s.meet start b c)) :=
    (h.nearestCommon_meet hb hc).insert (h.nearestCommon_meet ha (h.isKnown_meet hb hc))
  exact hleft.unique h (hright.congr fun _ => by rw [or_assoc, or_comm])

/-! ## Any number of climbers -/

/-- The candidate is told by the known ones among the incoming positions. -/
theorem candidate_eq_some_iff (h : Rising s start) :
    s.candidate start ps = some m ↔
      (∃ p ∈ ps, s.isKnown p = true) ∧
        NearestCommon s (fun p => p ∈ ps ∧ s.isKnown p = true) m := by
  rcases h.candidate_cases ps with ⟨hnone, hunknown⟩ | ⟨m', hm', hknown, hnearest⟩
  · rw [hnone]
    constructor
    · intro hsome
      exact absurd hsome.symm (Option.some_ne_none m)
    · rintro ⟨⟨p, hp, hknown⟩, -⟩
      exact absurd hknown (Bool.eq_false_iff.mp (hunknown p hp))
  · rw [hm', Option.some.injEq]
    constructor
    · rintro rfl
      exact ⟨hknown, hnearest⟩
    · rintro ⟨-, hm⟩
      exact hnearest.unique h hm

/-- Incoming positions that are not known do not matter, nor does how often a known one
    is listed, or where. -/
theorem candidate_congr (h : Rising s start)
    (hknown : ∀ p, s.isKnown p = true → (p ∈ ps ↔ p ∈ qs)) :
    s.candidate start ps = s.candidate start qs := by
  have hamong : ∀ p, (p ∈ ps ∧ s.isKnown p = true) ↔ (p ∈ qs ∧ s.isKnown p = true) :=
    fun p => and_congr_left (hknown p)
  refine Option.ext fun m => ?_
  rw [h.candidate_eq_some_iff, h.candidate_eq_some_iff]
  exact and_congr (exists_congr hamong)
    ⟨fun hm => hm.congr fun p => (hamong p).symm, fun hm => hm.congr hamong⟩

theorem candidate_perm (h : Rising s start) (hperm : ps.Perm qs) :
    s.candidate start ps = s.candidate start qs :=
  h.candidate_congr fun _ _ => hperm.mem_iff

end Rising

/-- On rising slots two climbers from known positions meet, however often each of them has
    to wait for the other, and they meet at the least position on both climbs.  So it does
    not matter which is the first, nor which two of three meet first; and the candidate for
    a slot is found whatever the order of the incoming blocks, and is the same. -/
theorem climbers_meet_at_least_common (h : Rising s start) :
    (∀ a b, s.isKnown a = true → s.isKnown b = true →
      Guarded.meet s start a b = pure (s.meet start a b) ∧
      IsLeast {c | s.Climbs a c ∧ s.Climbs b c} (s.meet start a b)) ∧
    (∀ a b, s.isKnown a = true → s.isKnown b = true → s.meet start a b = s.meet start b a) ∧
    (∀ a b c, s.isKnown a = true → s.isKnown b = true → s.isKnown c = true →
      s.meet start (s.meet start a b) c = s.meet start a (s.meet start b c)) ∧
    (∀ ps qs : List Nat, ps.Perm qs → s.candidate start ps = s.candidate start qs) ∧
    ∀ (o : Guarded.Order) (blocks blocks' : List NodeId),
      (∀ b p, o.position? b = some p → p ≤ start) → blocks.Perm blocks' →
      Guarded.candidate o s start blocks =
        pure (s.candidate start (blocks'.filterMap o.position?)) := by
  refine ⟨fun a b ha hb => ⟨Guarded.meet_eq h ha hb, h.isLeast_meet ha hb⟩,
    fun a b => h.meet_comm, fun a b c => h.meet_assoc, fun ps qs => h.candidate_perm, ?_⟩
  intro o blocks blocks' hposition hperm
  rw [Guarded.candidate_eq h blocks hposition, h.candidate_perm (hperm.filterMap o.position?)]

/-- Slots of which one is not known; the climbs from 0 and from 1 come together at 4. -/
def uneven : Slots := #[some 3, some 4, none, some 4, some 6, some 6, some 6]

/-- Blocks at the positions of these slots; block 4 is not ordered. -/
def unevenOrder : Guarded.Order where
  order := ⟨.forward, some 0, [6, 5, 7, 3, 2, 1, 0]⟩
  positions := #[some 6, some 5, some 4, some 3, none, some 1, some 0, some 2]

/-- The climbers from 0 and 1 pass each other before they meet at 4, the one from 5 meets
    them at the start; and the same candidate is found from either end of a list. -/
theorem climbers_meet_uneven :
    Rising uneven 6 ∧ uneven.isKnown 0 = true ∧ uneven.isKnown 1 = true ∧
      uneven.isKnown 2 = false ∧ uneven.isKnown 5 = true ∧
      Guarded.meet uneven 6 0 1 = pure 4 ∧
      IsLeast {c | uneven.Climbs 0 c ∧ uneven.Climbs 1 c} 4 ∧
      uneven.meet 6 1 0 = 4 ∧ uneven.meet 6 0 (uneven.meet 6 1 5) = 6 ∧
      uneven.candidate 6 [1, 2, 0] = some 4 ∧
      Guarded.candidate unevenOrder uneven 6 [6, 4, 7, 5] = pure (some 4) ∧
      Guarded.candidate unevenOrder uneven 6 [5, 7, 4, 6] = pure (some 4) := by
  have hrising : Rising uneven 6 := by decide
  have hposition : ∀ b p, unevenOrder.position? b = some p → p ≤ 6 := by
    intro b p hp
    have hmem : some p ∈ unevenOrder.positions :=
      Array.mem_of_getElem? (Option.join_eq_some_iff.mp hp)
    have hall : ∀ x ∈ unevenOrder.positions, ∀ p ∈ x, p ≤ 6 := by decide
    exact hall (some p) hmem p rfl
  obtain ⟨hmeet, hcomm, hassoc, hperm, hblocks⟩ := climbers_meet_at_least_common hrising
  have hfirst : uneven.meet 6 0 1 = 4 := by decide
  have hsecond : uneven.meet 6 (uneven.meet 6 0 1) 5 = 6 := by decide
  have hlisted : uneven.candidate 6 [0, 2, 1] = some 4 := by decide
  have hreverse : uneven.candidate 6 [1, 2, 0] = some 4 := (hperm _ _ (by decide)).trans hlisted
  obtain ⟨hmeets, hleast⟩ := hmeet 0 1 (by decide) (by decide)
  rw [hfirst] at hmeets hleast
  refine ⟨hrising, by decide, by decide, by decide, by decide, hmeets, hleast, ?_, ?_, hreverse,
    ?_, ?_⟩
  · rw [hcomm 1 0 (by decide) (by decide), hfirst]
  · rw [← hassoc 0 1 5 (by decide) (by decide) (by decide), hsecond]
  · exact (hblocks unevenOrder _ [5, 7, 4, 6] hposition (by decide)).trans (congrArg pure hreverse)
  · exact (hblocks unevenOrder _ [6, 4, 7, 5] hposition (by decide)).trans (congrArg pure hlisted)

end ControlFlow.Slots
