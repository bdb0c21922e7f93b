import ControlFlow.Proofs.Dominance
import ControlFlow.Proofs.Rounds

/-!
# The slots while dominators are computed

    That the slots settle was shown for whole sweeps.  Here the computation is followed
    from one refinement to the next (`Underway`).  At every moment the slots are rising,
    and every refinement leaves what is known known and moves a slot that it changes up
    (`Raises`).  This is not a matter of one refinement: it rests on where the sweep has
    got to, and on what it began with (`Slots.Swept`).

    Climbers that are to be brought together never come by an unknown slot, so it does
    not matter that a climb from there would lead to the start: without any such rule
    (`meetKnown`) the same candidates are found.
-/

namespace ControlFlow

namespace Slots

variable {incoming : Nat → List Nat} {start n p a b : Nat} {s t : Slots} {rest : List Nat}

/-! ## Climbing without a rule for unknown slots -/

/-- Brings two climbers together like `meetWithin`, but gives up at an unknown slot. -/
def meetKnown (s : Slots) : (steps a b : Nat) → Option Nat
  | 0, a, b => if a = b then some a else none
  | steps + 1, a, b =>
      if a = b then some a
      else if a < b then (s.slot? a).bind fun next => s.meetKnown steps next b
      else (s.slot? b).bind fun next => s.meetKnown steps a next

/-- The candidate for a slot, given up where climbers cannot be brought together. -/
def candidateKnown (s : Slots) (incoming : List Nat) : Option (Option Nat) :=
  incoming.foldlM
    (fun found p =>
      if s.isKnown p then
        match found with
        | none => some (some p)
        | some current => (s.meetKnown (2 * s.size) p current).map some
      else some found)
    none

/-- From known positions, climbers only come by known ones. -/
theorem Rising.meetKnown_eq (h : Rising s start) (steps : Nat) (ha : s.isKnown a = true)
    (hb : s.isKnown b = true) : s.meetKnown steps a b = s.meetWithin start steps a b := by
  induction steps generalizing a b with
  | zero => rfl
  | succ steps ih =>
      obtain ⟨a', ha'⟩ := isKnown_iff.mp ha
      obtain ⟨b', hb'⟩ := isKnown_iff.mp hb
      rw [meetKnown, meetWithin, up, up, ha', hb', Option.bind_some, Option.bind_some,
        ih (h.slot_known a a' ha') hb, ih ha (h.slot_known b b' hb')]
      rfl

/-- Known climbers are brought together, and where they should be. -/
theorem Rising.meetKnown_eq_meet (h : Rising s start) (ha : s.isKnown a = true)
    (hb : s.isKnown b = true) : s.meetKnown (2 * s.size) a b = some (s.meet start a b) := by
  have hsize := h.size_eq
  obtain ⟨m, hm, -⟩ := h.meetWithin_eq_some (2 * s.size) a b ha hb (by omega)
  rw [h.meetKnown_eq _ ha hb, meet, hm]
  rfl

/-- Every candidate is found without coming by an unknown slot. -/
theorem Rising.candidateKnown_eq (h : Rising s start) (ps : List Nat) :
    s.candidateKnown ps = some (s.candidate start ps) := by
  induction ps using List.reverseRecOn with
  | nil => rfl
  | append_singleton ps p ih =>
      rw [candidateKnown] at ih ⊢
      rw [List.foldlM_append, ih, candidate_append, Option.bind_eq_bind, Option.bind_some,
        List.foldlM_cons]
      by_cases hp : s.isKnown p = true
      · rw [if_pos hp, if_pos hp]
        -- what was found so far lies on a climb from a known position
        rcases h.candidate_cases ps with ⟨hnone, -⟩ | ⟨m, hm, ⟨q, hq, hknown⟩, hnearest⟩
        · rw [hnone]
          rfl
        · have hmknown := h.known_of_climbs hknown (hnearest.common q ⟨hq, hknown⟩)
          rw [hm]
          show (s.meetKnown (2 * s.size) p m).map some >>= _ = _
          rw [h.meetKnown_eq_meet hp hmknown]
          rfl
      · rw [if_neg hp, if_neg hp]
        rfl

/-! ## One refinement -/

/-- What is known in `t` is known in `t'`, and slots that differ are higher there. -/
structure Raises (t t' : Slots) : Prop where
  still_known : ∀ q, t.isKnown q = true → t'.isKnown q = true
  lt_of_ne : ∀ q y y', t.slot? q = some y → t'.slot? q = some y' → y ≠ y' → y < y'

theorem Swept.raises (h : Swept incoming start s t (p + 1)) (hfed : Fed incoming start)
    (hplaced : ∀ q, q < start → s.isKnown q = true → Placed incoming s q) (hp : p < start) :
    Raises t (refine incoming start p t) := by
  obtain ⟨m, href⟩ := refined_refine hfed h.rising (fun q hq hle => h.known q hq hle) hp
  refine ⟨fun q => href.isKnown, fun q y y' hy hy' hne => ?_⟩
  by_cases hpq : p = q
  · subst hpq
    rw [href.slot_self] at hy'
    obtain rfl := Option.some.inj hy'
    have hle := h.rising.le_of_climbs (h.climbs_refined hfed hplaced hp href y hy)
    exact Nat.lt_of_le_of_ne hle hne
  · rw [href.slot_other hpq, hy] at hy'
    exact absurd (Option.some.inj hy') hne

/-! ## All refinements -/

/-- When a sweep is at a position, the positions below are left. -/
theorem eq_length_of_isPrefix (h : rest ++ [p] <+: List.range start) :
    p = rest.length ∧ p < start := by
  have hlength : rest.length < (rest ++ [p]).length := by simp
  have hat := List.prefix_iff_getElem?.mp h rest.length hlength
  rw [List.getElem_concat_length rfl] at hat
  obtain ⟨hlt, heq⟩ := List.getElem?_eq_some_iff.mp hat
  rw [List.getElem_range] at heq
  rw [List.length_range] at hlt
  exact ⟨heq.symm, heq ▸ hlt⟩

/-- The slots `t` of a sweep under way, after `n` complete ones, and the slots `s` that it
    began with. -/
structure Sweeping (incoming : Nat → List Nat) (start n : Nat) (s : Slots) (rest : List Nat)
    (t : Slots) : Prop where
  settling : Settling incoming start s
  swept : Swept incoming start s t rest.length
  known : 1 ≤ n → ∀ p, p ≤ start → s.isKnown p = true

/-- A sweep begins with all positions left. -/
theorem Sweeping.begin (h : Settling incoming start s)
    (hknown : 1 ≤ n → ∀ p, p ≤ start → s.isKnown p = true) :
    Sweeping incoming start n s (List.range start) s where
  settling := h
  swept := by
    rw [List.length_range]
    exact Swept.begin h.rising
  known := hknown

theorem sweeping_of_underway (hfed : Fed incoming start)
    (h : Underway (refine incoming start) (List.range start) (initial start) n s rest t) :
    Sweeping incoming start n s rest t := by
  induction h with
  | start =>
      exact .begin (settling_initial incoming start) fun hn => absurd hn (Nat.not_succ_le_zero 0)
  | @refine n s t rest p h ih =>
      obtain ⟨rfl, hp⟩ := eq_length_of_isPrefix h.rest_isPrefix
      have hswept := ih.swept
      rw [List.length_append, List.length_singleton] at hswept
      exact ⟨ih.settling, hswept.step hfed ih.settling.rising ih.settling.placed hp, ih.known⟩
  | @again n s t h _ ih =>
      -- a complete sweep leaves nothing unknown
      have hsettling := ih.settling.sweep hfed
      rw [Slots.sweep, ← h.foldr_rest] at hsettling
      exact .begin hsettling fun _ p hp => ih.swept.known p (Nat.zero_le p) hp

/-- From the end of the first sweep on, everything is known. -/
theorem Sweeping.isKnown (h : Sweeping incoming start n s rest t) (hlate : 1 ≤ n ∨ rest = [])
    (hp : p ≤ start) : t.isKnown p = true := by
  rcases hlate with hn | rfl
  · exact h.swept.still_known p (h.known hn p hp)
  · exact h.swept.known p (Nat.zero_le p) hp

end Slots

/-- A loop that is entered at its head and, from the entry, at its end. -/
def Procedure.sideEntry.steps : List Draft.Step :=
  [.block 0, .block 1, .block 2, .block 3, .edge 0 1, .edge 1 2, .edge 2 3, .edge 3 2, .edge 0 3,
    .entry 0]

def Procedure.sideEntry : Procedure :=
  (Draft.start "side entry").run Procedure.sideEntry.steps

theorem Procedure.built_sideEntry : Procedure.sideEntry.Built :=
  ⟨"side entry", Procedure.sideEntry.steps, rfl⟩

namespace Idoms

variable {f : Procedure} {direction : Direction} {start : NodeId}

/-- Where the computation of the immediate dominators of a procedure stands: how many
    sweeps are complete, what the one under way began with, which positions it has still to
    refine, and what the slots are. -/
def SlotsUnderway (f : Procedure) (direction : Direction) :
    (sweeps : Nat) → (before : Slots) → (rest : List Nat) → (now : Slots) → Prop :=
  Underway (Slots.refine (sources f (.of f direction)) ((BlockOrder.of f direction).size - 1))
    (List.range ((BlockOrder.of f direction).size - 1))
    (Slots.initial ((BlockOrder.of f direction).size - 1))

/-- While the immediate dominators of a procedure with a start are computed, the slots are
    rising: the start holds itself, and any other known slot holds a higher position that
    is known as well.  From the end of the first sweep on all slots are known.  A refinement
    leaves what is known known, changes a known slot only to a higher position, and comes by
    no unknown slot on the way.  The last sweep comes, and leaves the slots as they are. -/
theorem slots_rise_until_settled (hf : f.Built) (hstart : direction.start? f = some start) :
    (∀ n s rest t, SlotsUnderway f direction n s rest t →
      n < (of f (.of f direction)).sweeps ∧
      Slots.Rising t ((BlockOrder.of f direction).size - 1) ∧
      (1 ≤ n ∨ rest = [] → ∀ p, p < (BlockOrder.of f direction).size → t.isKnown p = true)) ∧
    (∀ n s rest p t, SlotsUnderway f direction n s (rest ++ [p]) t →
      Slots.Raises t (Slots.refine (sources f (.of f direction))
        ((BlockOrder.of f direction).size - 1) p t) ∧
      t.candidateKnown (sources f (.of f direction) p) =
        some (t.candidate ((BlockOrder.of f direction).size - 1) (sources f (.of f direction) p))) ∧
    ∃ n, SlotsUnderway f direction n (of f (.of f direction)).slots []
        (of f (.of f direction)).slots ∧
      (of f (.of f direction)).sweeps = n + 1 := by
  have hfed := fed_sources hf hstart
  obtain ⟨slots, sweeps, hsettle, -, heq⟩ := exists_settled hf hstart
  rw [heq]
  refine ⟨fun n s rest t h => ?_, fun n s rest p t h => ?_, ?_⟩
  · have hsweeping := Slots.sweeping_of_underway hfed h
    refine ⟨h.lt_count hsettle, hsweeping.swept.rising, fun hlate p hp => ?_⟩
    exact hsweeping.isKnown hlate (Nat.le_sub_one_of_lt hp)
  · have hsweeping := Slots.sweeping_of_underway hfed h
    obtain ⟨rfl, hp⟩ := Slots.eq_length_of_isPrefix h.rest_isPrefix
    have hswept := hsweeping.swept
    rw [List.length_append, List.length_singleton] at hswept
    exact ⟨hswept.raises hfed hsweeping.settling.placed hp, hswept.rising.candidateKnown_eq _⟩
  · exact Underway.last hsettle

/-- The second sweep comes to the head of the loop, which the first one took to be dominated
    by the block before it: at that time nothing was known of the end of the loop. -/
theorem slotsUnderway_sideEntry :
    SlotsUnderway .sideEntry .forward 1 #[some 3, some 2, some 3, some 3] ([0] ++ [1])
      #[some 3, some 2, some 3, some 3] := by
  have hsize : (BlockOrder.of .sideEntry .forward).size - 1 = 3 := by decide +kernel
  rw [SlotsUnderway, hsize]
  have hfirst : Underway (Slots.refine (sources .sideEntry (.of .sideEntry .forward)) 3)
      (List.range 3) (Slots.initial 3) 0 (Slots.initial 3) []
      ((List.range 3).foldr (Slots.refine (sources .sideEntry (.of .sideEntry .forward)) 3)
        (Slots.initial 3)) := Underway.start.complete
  have hswept : (List.range 3).foldr (Slots.refine (sources .sideEntry (.of .sideEntry .forward)) 3)
      (Slots.initial 3) = #[some 3, some 2, some 3, some 3] := by decide +kernel
  rw [hswept] at hfirst
  have hsecond : Underway (Slots.refine (sources .sideEntry (.of .sideEntry .forward)) 3)
      (List.range 3) (Slots.initial 3) 1 #[some 3, some 2, some 3, some 3] (([0] ++ [1]) ++ [2])
      #[some 3, some 2, some 3, some 3] := hfirst.again (by decide)
  have hsame : Slots.refine (sources .sideEntry (.of .sideEntry .forward)) 3 2
      #[some 3, some 2, some 3, some 3] = #[some 3, some 2, some 3, some 3] := by decide +kernel
  have hthird := hsecond.refine
  rw [hsame] at hthird
  exact hthird

/-- It is then moved up to the start, and the third sweep changes nothing. -/
theorem slots_rise_sideEntry :
    Procedure.sideEntry.Built ∧ Direction.forward.start? .sideEntry = some 0 ∧
      (of .sideEntry (.of .sideEntry .forward)).sweeps = 3 ∧
      Slots.Raises #[some 3, some 2, some 3, some 3] #[some 3, some 3, some 3, some 3] := by
  have hstart : Direction.forward.start? .sideEntry = some 0 := rfl
  have hrise := slots_rise_until_settled Procedure.built_sideEntry hstart
  have hraises := (hrise.2.1 _ _ _ _ _ slotsUnderway_sideEntry).1
  have hraised : Slots.refine (sources .sideEntry (.of .sideEntry .forward))
      ((BlockOrder.of .sideEntry .forward).size - 1) 1 #[some 3, some 2, some 3, some 3] =
        #[some 3, some 3, some 3, some 3] := by decide +kernel
  rw [hraised] at hraises
  exact ⟨Procedure.built_sideEntry, hstart, by decide +kernel, hraises⟩

end Idoms

end ControlFlow
