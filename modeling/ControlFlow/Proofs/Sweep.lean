import ControlFlow.Fixpoint
import ControlFlow.Proofs.Slots
import Mathlib.Algebra.Order.BigOperators.Group.Finset

/-!
# Sweeping the slots until they settle

    Positions have incoming positions, and every position below the start has
    one above it (`Fed`).  A sweep refines the positions from below the start
    downwards.  Two things have to be shown.

    * Sweeping ends.  A refined slot only moves up its own climb, so that climbs
      lose positions and never gain any.  This is not true of slots at large:
      it rests on the order of the sweep.  `Swept s t i` says what the slots `t`
      have to do with the slots `s` at the beginning of a sweep that has got down
      to position `i`; in particular, where the climb of `q` led through `y` and
      still gets to `c`, the climb of `y` does so too (`stays`).

    * What comes out is right.  A relation is `Inherited` when whatever is
      related to a position, other than itself, is related to all its incoming
      positions, and only the start is related to the start.  Every refinement
      retains every inherited relation (`Retains`), hence settled climbs contain
      all of them; and being settled, they are inherited themselves.  So settled
      climbs are the greatest inherited relation.
-/

namespace ControlFlow.Slots

variable {incoming : Nat → List Nat} {start : Nat}

/-- Incoming positions are at most the start, and every position below the start
    has a higher one among them. -/
structure Fed (incoming : Nat → List Nat) (start : Nat) : Prop where
  le_start : ∀ p q, q ∈ incoming p → q ≤ start
  higher : ∀ p, p < start → ∃ q ∈ incoming p, p < q

/-! ## One refinement -/

/-- `t'` is `t` with the nearest common position of the known incoming positions
    of `p` in the slot of `p`. -/
structure Refined (incoming : Nat → List Nat) (t t' : Slots) (p m : Nat) : Prop where
  slot : ∀ q, t'.slot? q = if p = q then some m else t.slot? q
  size_eq : t'.size = t.size
  lt : p < m
  known : t.isKnown m = true
  nearest : NearestCommon t (fun q => q ∈ incoming p ∧ t.isKnown q = true) m

/-- Where everything above a position is known, refining it does that. -/
theorem refined_refine {t : Slots} {p : Nat} (hfed : Fed incoming start) (ht : Rising t start)
    (hknown : ∀ q, p < q → q ≤ start → t.isKnown q = true) (hp : p < start) :
    ∃ m, Refined incoming t (refine incoming start p t) p m := by
  obtain ⟨q, hq, hpq⟩ := hfed.higher p hp
  have hqknown := hknown q hpq (hfed.le_start p q hq)
  rcases ht.candidate_cases (incoming p) with ⟨-, hnone⟩ | ⟨m, hm, -, hnearest⟩
  · rw [hnone q hq] at hqknown
    exact nomatch hqknown
  · have hclimb := hnearest.common q ⟨hq, hqknown⟩
    have hlt : p < t.size := by rw [ht.size_eq]; omega
    refine ⟨m, ?_, ?_, ?_, ht.known_of_climbs hqknown hclimb, hnearest⟩
    · intro r
      unfold refine
      rw [hm]
      exact slot?_setIfInBounds hlt m r
    · unfold refine
      rw [hm]
      exact Array.size_setIfInBounds
    · exact Nat.lt_of_lt_of_le hpq (ht.le_of_climbs hclimb)

namespace Refined

variable {t t' : Slots} {p m q r a : Nat}

theorem slot_self (h : Refined incoming t t' p m) : t'.slot? p = some m := by
  rw [h.slot, if_pos rfl]

theorem slot_other (h : Refined incoming t t' p m) (hne : p ≠ q) : t'.slot? q = t.slot? q := by
  rw [h.slot, if_neg hne]

theorem isKnown (h : Refined incoming t t' p m) (hq : t.isKnown q = true) :
    t'.isKnown q = true := by
  by_cases hpq : p = q
  · exact hpq ▸ isKnown_of_slot h.slot_self
  · obtain ⟨y, hy⟩ := isKnown_iff.mp hq
    exact isKnown_of_slot ((h.slot_other hpq).trans hy)

theorem rising (h : Refined incoming t t' p m) (ht : Rising t start) (hp : p < start) :
    Rising t' start where
  size_eq := h.size_eq.trans ht.size_eq
  slot_start := by
    rw [h.slot_other (Nat.ne_of_lt hp)]
    exact ht.slot_start
  slot_lt q y hq hy := by
    by_cases hpq : p = q
    · subst hpq
      rw [h.slot_self] at hy
      exact Option.some.inj hy ▸ h.lt
    · rw [h.slot_other hpq] at hy
      exact ht.slot_lt q y hq hy
  slot_known q y hy := by
    refine h.isKnown ?_
    by_cases hpq : p = q
    · subst hpq
      rw [h.slot_self] at hy
      exact Option.some.inj hy ▸ h.known
    · rw [h.slot_other hpq] at hy
      exact ht.slot_known q y hy

end Refined

/-! ### Climbs of slots that differ at one position -/

section Differ

variable {t t' : Slots} {p r a : Nat}

/-- A climb that does not come by the position is the same. -/
theorem Climbs.of_avoiding (hsame : ∀ q, p ≠ q → t'.slot? q = t.slot? q) (hnot : ¬ t.Climbs r p)
    (h : t.Climbs r a) : t'.Climbs r a := by
  induction h using Relation.ReflTransGen.head_induction_on with
  | refl => exact Climbs.refl t' a
  | @head r q hslot _ ih =>
      have hne : p ≠ r := by
        rintro rfl
        exact hnot (Climbs.refl t p)
      have hrest : t'.Climbs q a := ih fun hclimb => hnot (hclimb.head hslot)
      exact hrest.head ((hsame r hne).trans hslot)

/-- Up to the position a climb is the same. -/
theorem Climbs.of_below (ht : Rising t start) (hsame : ∀ q, p ≠ q → t'.slot? q = t.slot? q)
    (hle : a ≤ p) (h : t.Climbs r a) : t'.Climbs r a := by
  induction h using Relation.ReflTransGen.head_induction_on with
  | refl => exact Climbs.refl t' a
  | @head r q hslot hclimb ih =>
      by_cases hpr : p = r
      · -- the climb has arrived already
        have hra := ht.le_of_climbs (hclimb.head hslot)
        have heq : r = a := by omega
        exact heq ▸ Climbs.refl t' r
      · have hrest : t'.Climbs q a := ih
        exact hrest.head ((hsame r hpr).trans hslot)

/-- Above the position a climb is the same. -/
theorem climbs_above_iff (ht : Rising t start) (ht' : Rising t' start)
    (hsame : ∀ q, p ≠ q → t'.slot? q = t.slot? q) (hlt : p < r) :
    t'.Climbs r a ↔ t.Climbs r a := by
  constructor
  · refine Climbs.of_avoiding (fun q hq => (hsame q hq).symm) fun hclimb => ?_
    have := ht'.le_of_climbs hclimb
    omega
  · refine Climbs.of_avoiding hsame fun hclimb => ?_
    have := ht.le_of_climbs hclimb
    omega

end Differ

namespace Refined

variable {t t' : Slots} {p m q r a : Nat}

/-- A climb that comes by the refined position goes on above it from the new slot. -/
theorem climbs_through (h : Refined incoming t t' p m) (ht : Rising t start) (ht' : Rising t' start)
    (hrp : t.Climbs r p) (hra : t'.Climbs r a) : a ≤ p ∨ t.Climbs m a := by
  rcases Nat.lt_or_ge p a with hlt | hge
  · have hsame := fun q => h.slot_other (q := q)
    have hrp' : t'.Climbs r p := hrp.of_below ht hsame (Nat.le_refl p)
    have hpa : t'.Climbs p a := ht'.climbs_of_le hrp' hra (Nat.le_of_lt hlt)
    have hma : t'.Climbs m a := hpa.of_slot (Nat.ne_of_lt hlt) h.slot_self
    exact Or.inr ((climbs_above_iff ht ht' hsame h.lt).mp hma)
  · exact Or.inl hge

theorem climbs_of_new (h : Refined incoming t t' p m) (ht : Rising t start) (ht' : Rising t' start)
    (hrp : t.Climbs r p) (hma : t.Climbs m a) : t'.Climbs r a := by
  have hsame := fun q => h.slot_other (q := q)
  have hrp' : t'.Climbs r p := hrp.of_below ht hsame (Nat.le_refl p)
  have hma' : t'.Climbs m a := (climbs_above_iff ht ht' hsame h.lt).mpr hma
  exact hrp'.trans (hma'.head h.slot_self)

/-- If the new slot lies on the climb of the old one, climbs gain nothing. -/
theorem climbs_old (h : Refined incoming t t' p m) (ht : Rising t start) (ht' : Rising t' start)
    (hup : ∀ y, t.slot? p = some y → t.Climbs y m) (hr : t.isKnown r = true)
    (hra : t'.Climbs r a) : t.Climbs r a := by
  have hsame : ∀ q, p ≠ q → t.slot? q = t'.slot? q := fun q hq => (h.slot_other hq).symm
  by_cases hrp : t.Climbs r p
  · rcases h.climbs_through ht ht' hrp hra with hle | hma
    · exact hra.of_below ht' hsame hle
    · obtain ⟨y, hy⟩ := isKnown_iff.mp (ht.known_of_climbs hr hrp)
      exact hrp.trans (((hup y hy).trans hma).head hy)
  · refine hra.of_avoiding hsame fun hrp' => hrp ?_
    exact hrp'.of_below ht' hsame (Nat.le_refl p)

end Refined

/-! ## How high the slots are -/

/-- The height of a slot: nothing when it is empty. -/
def height (s : Slots) (p : Nat) : Nat :=
  ((s.slot? p).map (· + 1)).getD 0

/-- The heights of all slots together. -/
def totalHeight (s : Slots) : Nat :=
  ∑ p ∈ Finset.range s.size, s.height p

theorem height_of_slot {s : Slots} {p q : Nat} (h : s.slot? p = some q) : s.height p = q + 1 := by
  unfold height
  rw [h]
  rfl

theorem Rising.height_le {s : Slots} (h : Rising s start) (p : Nat) : s.height p ≤ start + 1 := by
  unfold height
  cases hq : s.slot? p with
  | none => exact Nat.zero_le _
  | some q =>
      have := h.le_start (h.slot_known p q hq)
      show q + 1 ≤ start + 1
      omega

theorem Rising.totalHeight_le {s : Slots} (h : Rising s start) :
    s.totalHeight ≤ (start + 1) * (start + 1) := by
  unfold totalHeight
  rw [h.size_eq]
  calc ∑ p ∈ Finset.range (start + 1), s.height p
      ≤ ∑ _p ∈ Finset.range (start + 1), (start + 1) := Finset.sum_le_sum fun p _ => h.height_le p
    _ = (start + 1) * (start + 1) := by rw [Finset.sum_const, Finset.card_range]; rfl

/-- A refinement that finds its position in the slot already changes nothing. -/
theorem Refined.eq_of_slot {t t' : Slots} {p m : Nat} (h : Refined incoming t t' p m)
    (hslot : t.slot? p = some m) : t' = t := by
  refine Array.ext_getElem? fun q => ?_
  -- entries beyond the end are missing on both sides
  by_cases hq : q < t.size
  · have hq' : q < t'.size := h.size_eq ▸ hq
    have heq : t'.slot? q = t.slot? q := by
      rw [h.slot]
      split
      · rename_i hpq
        rw [← hpq, hslot]
      · rfl
    unfold slot? at heq
    rw [Array.getElem?_eq_getElem hq, Array.getElem?_eq_getElem hq'] at heq ⊢
    exact congrArg some heq
  · rw [Array.getElem?_eq_none (Nat.le_of_not_lt hq),
      Array.getElem?_eq_none (h.size_eq ▸ Nat.le_of_not_lt hq)]

/-- A refined slot that moves up its climb changes nothing or adds height. -/
theorem Refined.eq_or_totalHeight_lt {t t' : Slots} {p m : Nat} (h : Refined incoming t t' p m)
    (ht : Rising t start) (hp : p < start) (hup : ∀ y, t.slot? p = some y → t.Climbs y m) :
    t' = t ∨ t.totalHeight < t'.totalHeight := by
  have hpsize : p < t.size := by rw [ht.size_eq]; omega
  by_cases hslot : t.slot? p = some m
  · exact Or.inl (h.eq_of_slot hslot)
  · refine Or.inr ?_
    have hlt : t.height p < t'.height p := by
      rw [height_of_slot h.slot_self]
      cases hy : t.slot? p with
      | none =>
          unfold height
          rw [hy]
          exact Nat.succ_pos m
      | some y =>
          rw [height_of_slot hy]
          have hle := ht.le_of_climbs (hup y hy)
          have hne : y ≠ m := fun heq => hslot (heq ▸ hy)
          omega
    unfold totalHeight
    rw [h.size_eq]
    refine Finset.sum_lt_sum ?_ ⟨p, Finset.mem_range.mpr hpsize, hlt⟩
    intro q _
    by_cases hpq : p = q
    · exact hpq ▸ Nat.le_of_lt hlt
    · unfold height
      rw [h.slot_other hpq]

/-! ## One sweep -/

/-- What holds before a sweep and is carried from each position to the next one
    below holds after the sweep. -/
theorem sweep_induction {P : Nat → Slots → Prop} {s : Slots} (hs : P start s)
    (hstep : ∀ p t, p < start → P (p + 1) t → P p (refine incoming start p t)) :
    P 0 (sweep incoming start s) := by
  have hall : ∀ n t, n ≤ start → P n t →
      P 0 ((List.range n).foldr (refine incoming start) t) := by
    intro n
    induction n with
    | zero => intro t _ ht; exact ht
    | succ n ih =>
        intro t hn ht
        rw [List.range_succ, List.foldr_append]
        exact ih (refine incoming start n t) (by omega) (hstep n t hn ht)
  exact hall start s (Nat.le_refl start) hs

/-- The slot of a position lies on the climb of each higher incoming position,
    and not above what the known incoming positions have in common. -/
structure Placed (incoming : Nat → List Nat) (s : Slots) (p : Nat) : Prop where
  above : ∀ y q, s.slot? p = some y → q ∈ incoming p → p < q → s.Climbs q y
  below : ∀ y c, s.slot? p = some y →
    (∀ q ∈ incoming p, s.isKnown q = true → s.Climbs q c) → s.Climbs y c

/-- The slots `t` in the middle of a sweep that began with the slots `s` and has
    refined the positions from `i` upwards. -/
structure Swept (incoming : Nat → List Nat) (start : Nat) (s t : Slots) (i : Nat) : Prop where
  rising : Rising t start
  known : ∀ q, i ≤ q → q ≤ start → t.isKnown q = true
  still_known : ∀ q, s.isKnown q = true → t.isKnown q = true
  untouched : ∀ q, q < i → t.slot? q = s.slot? q
  shrinks : ∀ q a, s.isKnown q = true → t.Climbs q a → s.Climbs q a
  stays : ∀ q y c, s.Climbs q y → s.Climbs y c → t.Climbs q c → t.Climbs y c
  placed : ∀ q, i ≤ q → q < start → Placed incoming t q
  grows : (t = s ∧ ∀ q, i ≤ q → q < start → refine incoming start q s = s) ∨
    s.totalHeight < t.totalHeight

/-- Before anything is refined. -/
theorem Swept.begin {s : Slots} (h : Rising s start) : Swept incoming start s s start where
  rising := h
  known _ hle hge := Nat.le_antisymm hge hle ▸ h.isKnown_start
  still_known _ hq := hq
  untouched _ _ := rfl
  shrinks _ _ _ hclimb := hclimb
  stays _ _ _ _ hyc _ := hyc
  placed _ hle hlt := absurd hlt (Nat.not_lt.mpr hle)
  grows := Or.inl ⟨rfl, fun _ hle hlt => absurd hlt (Nat.not_lt.mpr hle)⟩

namespace Swept

variable {s t t' : Slots} {p m : Nat}

/-- Climbs up to a position that is not refined yet are as at the beginning. -/
theorem climbs_untouched {i q y : Nat} (h : Swept incoming start s t i) (hs : Rising s start)
    (hy : y < i) (hclimb : s.Climbs q y) : t.Climbs q y := by
  induction hclimb using Relation.ReflTransGen.head_induction_on with
  | refl => exact Climbs.refl t y
  | @head q r hslot hrest ih =>
      have hqy := hs.le_of_climbs (Climbs.head hslot hrest)
      have hrest' : t.Climbs r y := ih
      exact hrest'.head ((h.untouched q (by omega)).trans hslot)

/-- The heart of the matter: where the position was known, its new slot lies on
    the climb of its old one.  All known incoming positions climb to the new slot
    now, hence did so at the beginning of the sweep, hence the old slot did; and
    as some higher incoming position used to climb through the old slot, the old
    slot still does. -/
theorem climbs_refined (h : Swept incoming start s t (p + 1)) (hfed : Fed incoming start)
    (hplaced : ∀ q, q < start → s.isKnown q = true → Placed incoming s q) (hp : p < start)
    (href : Refined incoming t t' p m) (y : Nat) (hy : t.slot? p = some y) : t.Climbs y m := by
  have hy' : s.slot? p = some y := (h.untouched p (Nat.lt_succ_self p)).symm.trans hy
  have hold := hplaced p hp (isKnown_of_slot hy')
  obtain ⟨q, hq, hpq⟩ := hfed.higher p hp
  have hym : s.Climbs y m := by
    refine hold.below y m hy' fun r hr hrknown => ?_
    exact h.shrinks r m hrknown (href.nearest.common r ⟨hr, h.still_known r hrknown⟩)
  have hqm : t.Climbs q m :=
    href.nearest.common q ⟨hq, h.known q hpq (hfed.le_start p q hq)⟩
  exact h.stays q y m (hold.above y q hy' hq hpq) hym hqm

/-- The refined position is placed, and what was refined before stays placed. -/
theorem placed_refined (h : Swept incoming start s t (p + 1)) (hfed : Fed incoming start)
    (hp : p < start) (href : Refined incoming t t' p m)
    (hup : ∀ y, t.slot? p = some y → t.Climbs y m) (q : Nat) (hle : p ≤ q) (hlt : q < start) :
    Placed incoming t' q := by
  have ht' := href.rising h.rising hp
  have hsame := fun r => href.slot_other (q := r)
  have habove : ∀ {r a}, p < r → (t'.Climbs r a ↔ t.Climbs r a) := fun hr =>
    climbs_above_iff h.rising ht' hsame hr
  have hcommon : ∀ {c}, (∀ r ∈ incoming q, t'.isKnown r = true → t'.Climbs r c) →
      ∀ r ∈ incoming q, t.isKnown r = true → t.Climbs r c := by
    intro c hc r hr hrknown
    exact href.climbs_old h.rising ht' hup hrknown (hc r hr (href.isKnown hrknown))
  rcases Nat.lt_or_eq_of_le hle with hpq | rfl
  · -- everything about a higher position lies above the refined one
    have hslot : t'.slot? q = t.slot? q := href.slot_other (Nat.ne_of_lt hpq)
    have hold := h.placed q hpq hlt
    constructor
    · intro y r hy hr hqr
      rw [hslot] at hy
      exact (habove (by omega)).mpr (hold.above y r hy hr hqr)
    · intro y c hy hc
      rw [hslot] at hy
      have hqy := h.rising.slot_lt q y hlt hy
      exact (habove (by omega)).mpr (hold.below y c hy (hcommon hc))
  · constructor
    · intro y r hy hr hpr
      rw [href.slot_self] at hy
      obtain rfl := Option.some.inj hy
      have hrknown := h.known r hpr (hfed.le_start p r hr)
      exact (habove hpr).mpr (href.nearest.common r ⟨hr, hrknown⟩)
    · intro y c hy hc
      rw [href.slot_self] at hy
      obtain rfl := Option.some.inj hy
      refine (habove href.lt).mpr (href.nearest.nearest c ?_)
      rintro r ⟨hr, hrknown⟩
      exact hcommon hc r hr hrknown

/-- Refining one more position. -/
theorem step (h : Swept incoming start s t (p + 1)) (hfed : Fed incoming start)
    (hs : Rising s start)
    (hplaced : ∀ q, q < start → s.isKnown q = true → Placed incoming s q) (hp : p < start) :
    Swept incoming start s (refine incoming start p t) p := by
  obtain ⟨m, href⟩ := refined_refine hfed h.rising (fun q hq hle => h.known q hq hle) hp
  have ht' := href.rising h.rising hp
  have hup := h.climbs_refined hfed hplaced hp href
  have hsame := fun r => href.slot_other (q := r)
  refine ⟨ht', ?_, ?_, ?_, ?_, ?_, h.placed_refined hfed hp href hup, ?_⟩
  · intro q hle hge
    rcases Nat.lt_or_eq_of_le hle with hlt | rfl
    · exact href.isKnown (h.known q hlt hge)
    · exact isKnown_of_slot href.slot_self
  · intro q hq
    exact href.isKnown (h.still_known q hq)
  · intro q hq
    exact (href.slot_other (Nat.ne_of_gt hq)).trans (h.untouched q (Nat.lt_succ_of_lt hq))
  · intro q a hq hclimb
    exact h.shrinks q a hq (href.climbs_old h.rising ht' hup (h.still_known q hq) hclimb)
  · intro q y c hqy hyc hqc
    -- a position that was not known is all of its climb
    by_cases hqknown : s.isKnown q = true
    · have hqc' : t.Climbs q c :=
        href.climbs_old h.rising ht' hup (h.still_known q hqknown) hqc
      have hyc' : t.Climbs y c := h.stays q y c hqy hyc hqc'
      by_cases hyp : t.Climbs y p
      · -- both climbs come by the refined position and go on alike
        have hle := h.rising.le_of_climbs hyp
        have hqp : t.Climbs q p := (h.climbs_untouched hs (by omega) hqy).trans hyp
        rcases href.climbs_through h.rising ht' hqp hqc with hcp | hmc
        · exact hyc'.of_below h.rising hsame hcp
        · exact href.climbs_of_new h.rising ht' hyp hmc
      · exact hyc'.of_avoiding hsame hyp
    · rcases hqy.cases_slot with rfl | ⟨r, hr, -⟩
      · exact hqc
      · exact absurd (isKnown_of_slot hr) hqknown
  · have hchange := href.eq_or_totalHeight_lt h.rising hp hup
    rcases h.grows with ⟨rfl, hfixed⟩ | hlt
    · rcases hchange with heq | hlt
      · refine Or.inl ⟨heq, ?_⟩
        intro q hle hlt
        rcases Nat.lt_or_eq_of_le hle with hpq | rfl
        · exact hfixed q hpq hlt
        · exact heq
      · exact Or.inr hlt
    · rcases hchange with heq | hlt'
      · rw [heq]
        exact Or.inr hlt
      · exact Or.inr (Nat.lt_trans hlt hlt')

end Swept

/-! ## Inherited relations -/

/-- Whatever is related to a position, other than itself, is related to all its
    incoming positions, and only the start is related to the start. -/
structure Inherited (incoming : Nat → List Nat) (start : Nat) (R : Nat → Nat → Prop) : Prop where
  at_start : ∀ a, R a start → a = start
  back : ∀ a p q, R a p → a ≠ p → q ∈ incoming p → R a q

/-- Whatever is related to a position, other than itself, is related to its slot. -/
def Retains (R : Nat → Nat → Prop) (s : Slots) : Prop :=
  ∀ a p y, s.slot? p = some y → R a p → a ≠ p → R a y

section Retained

variable {R : Nat → Nat → Prop} {t t' : Slots} {p m a : Nat}

/-- What is related to a known position is met on the climb from it. -/
theorem Retains.climbs (h : Retains R t) (hR : Inherited incoming start R) (ht : Rising t start)
    (hp : t.isKnown p = true) (hap : R a p) : t.Climbs p a := by
  induction hn : start - p using Nat.strongRecOn generalizing p with
  | _ n ih =>
      by_cases hne : a = p
      · exact hne ▸ Climbs.refl t a
      · obtain ⟨y, hy⟩ := isKnown_iff.mp hp
        rcases Nat.lt_or_eq_of_le (ht.le_start hp) with hlt | rfl
        · have hpy := ht.slot_lt p y hlt hy
          have hrest := ih (start - y) (by omega) (ht.slot_known p y hy) (h a p y hy hap hne) rfl
          exact hrest.head hy
        · exact absurd (hR.at_start a hap) hne

/-- Up to where it is met, it is related to the whole climb. -/
theorem Retains.along (h : Retains R t) (ht : Rising t start) {q : Nat} (hqm : t.Climbs q m)
    (hma : t.Climbs m a) (haq : R a q) : R a m := by
  induction hqm using Relation.ReflTransGen.head_induction_on with
  | refl => exact haq
  | @head q y hslot hrest ih =>
      by_cases hne : a = q
      · -- the climb from `q` to `m` would have to come back down
        have hle := ht.le_of_climbs (Climbs.head hslot hrest)
        have hge := ht.le_of_climbs hma
        have heq : q = m := by omega
        exact heq ▸ haq
      · exact ih (h a q y hslot haq hne)

/-- Refining a position retains what was retained. -/
theorem Refined.retains (href : Refined incoming t t' p m) (hfed : Fed incoming start)
    (hknown : ∀ q, p < q → q ≤ start → t.isKnown q = true) (hp : p < start) (ht : Rising t start)
    (hR : Inherited incoming start R) (h : Retains R t) : Retains R t' := by
  intro a r y hy har hne
  by_cases hpr : p = r
  · subst hpr
    rw [href.slot_self] at hy
    obtain rfl := Option.some.inj hy
    obtain ⟨q, hq, hpq⟩ := hfed.higher p hp
    have hqknown := hknown q hpq (hfed.le_start p q hq)
    have hma : t.Climbs m a := by
      refine href.nearest.nearest a ?_
      rintro q' ⟨hq', hq'known⟩
      exact h.climbs hR ht hq'known (hR.back a p q' har hne hq')
    exact h.along ht (href.nearest.common q ⟨hq, hqknown⟩) hma (hR.back a p q har hne hq)
  · rw [href.slot_other hpr] at hy
    exact h a r y hy har hne

end Retained

/-! ## Settling -/

/-- What sweeping keeps. -/
structure Settling (incoming : Nat → List Nat) (start : Nat) (s : Slots) : Prop where
  rising : Rising s start
  placed : ∀ p, p < start → s.isKnown p = true → Placed incoming s p
  retains : ∀ R, Inherited incoming start R → Retains R s

/-- At first only the start is known. -/
theorem slot?_initial (start p : Nat) :
    (initial start).slot? p = if p = start then some start else none := by
  unfold initial slot?
  rw [Array.getElem?_push, Array.size_replicate]
  split
  · rfl
  · rw [Array.getElem?_replicate]
    split <;> rfl

theorem settling_initial (incoming : Nat → List Nat) (start : Nat) :
    Settling incoming start (initial start) := by
  have honly : ∀ {p y}, (initial start).slot? p = some y → p = start ∧ y = start := by
    intro p y hy
    rw [slot?_initial] at hy
    split at hy
    · rename_i hp
      exact ⟨hp, (Option.some.inj hy).symm⟩
    · exact nomatch hy
  have hstart : (initial start).slot? start = some start := by rw [slot?_initial, if_pos rfl]
  refine ⟨⟨?_, hstart, ?_, ?_⟩, ?_, ?_⟩
  · show ((Array.replicate start none).push (some start)).size = start + 1
    rw [Array.size_push, Array.size_replicate]
  · intro p y hlt hy
    exact absurd (honly hy).1 (Nat.ne_of_lt hlt)
  · intro p y hy
    rw [(honly hy).2]
    exact isKnown_of_slot hstart
  · intro p hlt hknown
    obtain ⟨y, hy⟩ := isKnown_iff.mp hknown
    exact absurd (honly hy).1 (Nat.ne_of_lt hlt)
  · intro R hR a p y hy hap hne
    rw [(honly hy).1] at hap hne
    exact absurd (hR.at_start a hap) hne

namespace Settling

variable {s : Slots}

/-- What a whole sweep does. -/
theorem swept (h : Settling incoming start s) (hfed : Fed incoming start) :
    Swept incoming start s (sweep incoming start s) 0 :=
  sweep_induction (P := fun i t => Swept incoming start s t i) (Swept.begin h.rising)
    fun _ _ hp ht => ht.step hfed h.rising h.placed hp

theorem sweep (h : Settling incoming start s) (hfed : Fed incoming start) :
    Settling incoming start (sweep incoming start s) := by
  refine ⟨(h.swept hfed).rising, ?_, ?_⟩
  · intro p hp _
    exact (h.swept hfed).placed p (Nat.zero_le p) hp
  · intro R hR
    refine (sweep_induction (P := fun i t => Swept incoming start s t i ∧ Retains R t)
      ⟨Swept.begin h.rising, h.retains R hR⟩ ?_).2
    rintro p t hp ⟨ht, hretains⟩
    have hknown : ∀ q, p < q → q ≤ start → t.isKnown q = true := fun q hq hle => ht.known q hq hle
    obtain ⟨m, href⟩ := refined_refine hfed ht.rising hknown hp
    exact ⟨ht.step hfed h.rising h.placed hp, href.retains hfed hknown hp ht.rising hR hretains⟩

end Settling

/-- Slots that are done: everything is known, every slot below the start holds
    the nearest common position of the incoming ones, and climbs contain every
    inherited relation. -/
structure Settled (incoming : Nat → List Nat) (start : Nat) (s : Slots) : Prop where
  rising : Rising s start
  known : ∀ p, p ≤ start → s.isKnown p = true
  nearest : ∀ p, p < start → ∃ m, s.slot? p = some m ∧ NearestCommon s (· ∈ incoming p) m
  greatest : ∀ R, Inherited incoming start R → ∀ a p, p ≤ start → R a p → s.Climbs p a

/-- Slots that a sweep does not change are done. -/
theorem Settling.settled {s : Slots} (h : Settling incoming start s) (hfed : Fed incoming start)
    (hfixed : Slots.sweep incoming start s = s) : Settled incoming start s := by
  have hswept := h.swept hfed
  rw [hfixed] at hswept
  have hknown : ∀ p, p ≤ start → s.isKnown p = true := fun p hp => hswept.known p (Nat.zero_le p) hp
  refine ⟨h.rising, hknown, ?_, ?_⟩
  · intro p hp
    have hrefine : refine incoming start p s = s := by
      rcases hswept.grows with ⟨-, hsame⟩ | hlt
      · exact hsame p (Nat.zero_le p) hp
      · exact absurd hlt (Nat.lt_irrefl _)
    obtain ⟨m, href⟩ := refined_refine hfed h.rising (fun q _ hle => hknown q hle) hp
    rw [hrefine] at href
    refine ⟨m, href.slot_self, href.nearest.congr fun q => ?_⟩
    exact ⟨fun hq => ⟨hq, hknown q (hfed.le_start p q hq)⟩, fun hq => hq.1⟩
  · intro R hR a p hp hap
    exact (h.retains R hR).climbs hR h.rising (hknown p hp) hap

/-- Sweeping from the start on settles the slots within the square of their number
    and one. -/
theorem settled_of_initial (hfed : Fed incoming start) {bound : Nat}
    (hbound : (start + 1) * (start + 1) < bound) :
    ∃ s count, settleWithin (sweep incoming start) bound (initial start) = some (s, count) ∧
      Settled incoming start s := by
  have hrise : ∀ s, Settling incoming start s → sweep incoming start s ≠ s →
      s.totalHeight < (sweep incoming start s).totalHeight := by
    intro s hs hne
    rcases (hs.swept hfed).grows with ⟨heq, -⟩ | hlt
    · exact absurd heq hne
    · exact hlt
  obtain ⟨s, count, hs, hsettling, hfixed⟩ := settleWithin_of_rising
    (fun s hs => hs.sweep hfed) hrise (fun s hs => hs.rising.totalHeight_le)
    (settling_initial incoming start) (Nat.lt_add_right _ hbound)
  exact ⟨s, count, hs, hsettling.settled hfed hfixed⟩

/-- Settled climbs are inherited themselves: they are the greatest inherited
    relation. -/
theorem Settled.inherited {s : Slots} (h : Settled incoming start s) :
    Inherited incoming start fun a p => s.Climbs p a := by
  refine ⟨fun a => h.rising.eq_start_of_climbs, ?_⟩
  intro a p q hclimb hne hq
  rcases hclimb.cases_slot with heq | ⟨y, hy, hya⟩
  · exact absurd heq.symm hne
  · rcases Nat.lt_or_eq_of_le (h.rising.le_start (isKnown_of_slot hy)) with hlt | rfl
    · obtain ⟨m, hm, hnearest⟩ := h.nearest p hlt
      rw [hy] at hm
      obtain rfl := Option.some.inj hm
      exact (hnearest.common q hq).trans hya
    · exact absurd (h.rising.eq_start_of_climbs hclimb) hne

end ControlFlow.Slots
