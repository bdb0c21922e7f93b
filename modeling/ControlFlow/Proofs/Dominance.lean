import ControlFlow.Dominance.Basic
import ControlFlow.Proofs.BlockOrder
import ControlFlow.Proofs.Sweep

/-!
# Dominance is what every way leads through

    The slots of a built procedure settle, and a climb from the position of one
    block leads to the position of another exactly when the other is unavoidable
    on the way to the one.  Both are the greatest relation that passes from a
    block back to all its incoming blocks and relates the start to itself only:
    settled climbs by the theory of sweeps, unavoidable blocks by that of walks.

    What is said here about climbs between positions is all that later results
    about immediate dominators, chains and frontiers need to know of the slots.
-/

namespace ControlFlow

variable {f : Procedure} {direction : Direction} {start a b : NodeId} {p q : Nat}

namespace Idoms

/-! ## Incoming positions -/

/-- The incoming positions of a position. -/
def sources (f : Procedure) (order : BlockOrder) (p : Nat) : List Nat :=
  (incoming f order)[p]?.getD []

theorem mem_sources (hf : f.Built) : q ∈ sources f (.of f direction) p ↔
    ∃ u b, direction.Flow f u b ∧ (BlockOrder.of f direction).position? u = some q ∧
      (BlockOrder.of f direction).position? b = some p := by
  unfold sources incoming
  rw [List.getElem?_toArray, List.getElem?_map]
  constructor
  · intro hq
    cases hb : (BlockOrder.of f direction).postorder[p]? with
    | none =>
        rw [hb] at hq
        exact absurd hq List.not_mem_nil
    | some b =>
        rw [hb] at hq
        obtain ⟨u, hu, huq⟩ := List.mem_filterMap.mp hq
        exact ⟨u, b, hf.linked.mem_incoming.mp hu, huq, BlockOrder.position?_of.mpr hb⟩
  · rintro ⟨u, b, hflow, hu, hb⟩
    rw [BlockOrder.position?_of.mp hb]
    exact List.mem_filterMap.mpr ⟨u, hf.linked.mem_incoming.mpr hflow, hu⟩

/-- The positions of a built procedure are fed. -/
theorem fed_sources (hf : f.Built) (hstart : direction.start? f = some start) :
    Slots.Fed (sources f (.of f direction)) ((BlockOrder.of f direction).size - 1) where
  le_start p q hq := by
    obtain ⟨u, b, -, hu, -⟩ := (mem_sources hf).mp hq
    have := BlockOrder.position?_lt hu
    omega
  higher p hp := by
    have hlt : p < (BlockOrder.of f direction).size := by omega
    obtain ⟨b, hb⟩ := BlockOrder.exists_block hlt
    have hne : b ≠ start := by
      rintro rfl
      rw [BlockOrder.position?_start hf hstart] at hb
      have := Option.some.inj hb
      omega
    obtain ⟨u, q, hflow, hu, hpq⟩ := BlockOrder.exists_higher hf hstart hb hne
    exact ⟨q, (mem_sources hf).mpr ⟨u, b, hflow, hu, hb⟩, hpq⟩

/-! ## Settled slots -/

theorem order_of (f : Procedure) (order : BlockOrder) : (of f order).order = order := by
  unfold of
  split <;> rfl

/-- The bound on the number of sweeps is never reached: the immediate dominators of
    a built procedure are what sweeping comes to, and they are settled. -/
theorem exists_settled (hf : f.Built) (hstart : direction.start? f = some start) :
    ∃ slots sweeps,
      settleWithin
          (Slots.sweep (sources f (.of f direction)) ((BlockOrder.of f direction).size - 1))
          ((BlockOrder.of f direction).size * (BlockOrder.of f direction).size + 2)
          (Slots.initial ((BlockOrder.of f direction).size - 1)) = some (slots, sweeps) ∧
        Slots.Settled (sources f (.of f direction)) ((BlockOrder.of f direction).size - 1) slots ∧
        of f (.of f direction) = ⟨.of f direction, slots, sweeps⟩ := by
  have hpos := BlockOrder.position?_lt (BlockOrder.position?_start hf hstart)
  have hne : ¬ (BlockOrder.of f direction).postorder.isEmpty = true := by
    rw [List.isEmpty_iff_length_eq_zero]
    exact Nat.ne_of_gt (Nat.zero_lt_of_lt hpos)
  have hbound : ((BlockOrder.of f direction).size - 1 + 1) *
      ((BlockOrder.of f direction).size - 1 + 1) <
      (BlockOrder.of f direction).size * (BlockOrder.of f direction).size + 2 := by
    rw [Nat.sub_add_cancel (Nat.zero_lt_of_lt hpos)]
    exact Nat.lt_add_of_pos_right Nat.zero_lt_two
  obtain ⟨slots, sweeps, hs, hsettled⟩ := Slots.settled_of_initial (fed_sources hf hstart) hbound
  refine ⟨slots, sweeps, hs, hsettled, ?_⟩
  -- settling within the bound is settling
  have hsettle : settle
      (Slots.sweep (sources f (.of f direction)) ((BlockOrder.of f direction).size - 1))
      ((BlockOrder.of f direction).size * (BlockOrder.of f direction).size + 2)
      (Slots.initial ((BlockOrder.of f direction).size - 1)) = (slots, sweeps) := by
    rw [settle, hs]
    rfl
  rw [of, if_neg hne]
  exact congrArg (fun r : Slots × Nat => Idoms.mk (.of f direction) r.1 r.2) hsettle

/-- The slots of a built procedure are settled. -/
theorem settled_slots (hf : f.Built) (hstart : direction.start? f = some start) :
    Slots.Settled (sources f (.of f direction)) ((BlockOrder.of f direction).size - 1)
      (of f (.of f direction)).slots := by
  obtain ⟨slots, sweeps, -, hsettled, heq⟩ := exists_settled hf hstart
  rw [heq]
  exact hsettled

/-- Every reached block has a known slot. -/
theorem isKnown_of_position? (hf : f.Built) (hstart : direction.start? f = some start)
    (hb : (BlockOrder.of f direction).position? b = some p) :
    (of f (.of f direction)).slots.isKnown p = true := by
  have := BlockOrder.position?_lt hb
  exact (settled_slots hf hstart).known p (by omega)

/-! ## Climbs and walks -/

/-- Unavoidable blocks are met on the climb. -/
theorem climbs_of_unavoidable (hf : f.Built) (hstart : direction.start? f = some start)
    (ha : (BlockOrder.of f direction).position? a = some q)
    (hb : (BlockOrder.of f direction).position? b = some p)
    (h : Unavoidable (direction.Flow f) start a b) :
    (of f (.of f direction)).slots.Climbs p q := by
  have hlt := BlockOrder.position?_lt hb
  have hstartpos := BlockOrder.position?_start hf hstart
  -- read off the positions, unavoidability is an inherited relation
  refine (settled_slots hf hstart).greatest
    (fun q p => ∃ a b, (BlockOrder.of f direction).position? a = some q ∧
      (BlockOrder.of f direction).position? b = some p ∧
      Unavoidable (direction.Flow f) start a b) ⟨?_, ?_⟩ q p (by omega) ⟨a, b, ha, hb, h⟩
  · rintro q ⟨a, b, ha, hb, hab⟩
    obtain rfl := BlockOrder.block_eq_of_position? hb hstartpos
    rw [hab.eq_start, hstartpos] at ha
    exact (Option.some.inj ha).symm
  · rintro q p r ⟨a, b, ha, hb, hab⟩ hne hr
    obtain ⟨u, b', hflow, hu, hb'⟩ := (mem_sources hf).mp hr
    obtain rfl := BlockOrder.block_eq_of_position? hb hb'
    refine ⟨a, u, ha, hu, hab.back ?_ hflow⟩
    rintro rfl
    exact hne (Option.some.inj (ha.symm.trans hb))

/-- What is met on the climb is unavoidable. -/
theorem unavoidable_of_climbs (hf : f.Built) (hstart : direction.start? f = some start)
    (ha : (BlockOrder.of f direction).position? a = some q)
    (hb : (BlockOrder.of f direction).position? b = some p)
    (h : (of f (.of f direction)).slots.Climbs p q) :
    Unavoidable (direction.Flow f) start a b := by
  have hinherited := (settled_slots hf hstart).inherited
  -- and read off the blocks, climbing goes back along every step of a walk
  refine Unavoidable.of_back
    (R := fun _ v => ∃ p, (BlockOrder.of f direction).position? v = some p ∧
      (of f (.of f direction)).slots.Climbs p q) ?_ ?_ ⟨p, hb, h⟩
  · rintro ⟨p, hp, hclimb⟩
    rw [BlockOrder.position?_start hf hstart] at hp
    obtain rfl := Option.some.inj hp
    rw [hinherited.at_start q hclimb] at ha
    exact BlockOrder.block_eq_of_position? ha (BlockOrder.position?_start hf hstart)
  · rintro v w hv hflow ⟨p, hp, hclimb⟩ hne
    obtain ⟨r, hr⟩ := (BlockOrder.exists_position?_iff hf).mpr ⟨start, hstart, hv⟩
    refine ⟨r, hr, hinherited.back q p r hclimb ?_ ((mem_sources hf).mpr ⟨v, w, hflow, hr, hp⟩)⟩
    rintro rfl
    exact hne (BlockOrder.block_eq_of_position? ha hp)

/-- Between positions, climbing is dominance. -/
theorem climbs_iff_dominates (hf : f.Built)
    (ha : (BlockOrder.of f direction).position? a = some q)
    (hb : (BlockOrder.of f direction).position? b = some p) :
    (of f (.of f direction)).slots.Climbs p q ↔ direction.Dominates f a b := by
  obtain ⟨start, hstart, hreach⟩ := (BlockOrder.exists_position?_iff hf).mp ⟨p, hb⟩
  constructor
  · intro h
    exact ⟨start, hstart, hreach, unavoidable_of_climbs hf hstart ha hb h⟩
  · rintro ⟨start', hstart', -, h⟩
    rw [hstart] at hstart'
    obtain rfl := Option.some.inj hstart'
    exact climbs_of_unavoidable hf hstart ha hb h

/-- What is met on the climb from the slot dominates strictly. -/
theorem climbs_slot_iff {m : Nat} (hf : f.Built) (hstart : direction.start? f = some start)
    (ha : (BlockOrder.of f direction).position? a = some q)
    (hb : (BlockOrder.of f direction).position? b = some p)
    (hp : p < (BlockOrder.of f direction).size - 1)
    (hm : (of f (.of f direction)).slots.slot? p = some m) :
    (of f (.of f direction)).slots.Climbs m q ↔ a ≠ b ∧ direction.Dominates f a b := by
  have hrising := (settled_slots hf hstart).rising
  rw [← climbs_iff_dominates hf ha hb]
  constructor
  · intro h
    refine ⟨?_, h.head hm⟩
    -- from its slot a position is not climbed to again
    rintro rfl
    obtain rfl : q = p := Option.some.inj (ha.symm.trans hb)
    have hlt := hrising.slot_lt q m hp hm
    have hle := hrising.le_of_climbs h
    omega
  · rintro ⟨hne, h⟩
    refine h.of_slot ?_ hm
    rintro rfl
    exact hne (BlockOrder.block_eq_of_position? ha hb)

/-! ## Immediate dominators and chains -/

theorem startPosition_of (f : Procedure) (order : BlockOrder) :
    (of f order).startPosition = order.size - 1 := by
  unfold startPosition
  rw [order_of]

/-- The start has no immediate dominator. -/
theorem idom?_start (hf : f.Built) (hstart : direction.start? f = some start) :
    (of f (.of f direction)).idom? start = none := by
  unfold idom?
  rw [order_of, startPosition_of, BlockOrder.position?_start hf hstart]
  exact if_pos rfl

/-- The immediate dominator of any other block stands at its slot. -/
theorem idom?_of_slot (hb : (BlockOrder.of f direction).position? b = some p)
    (hp : p ≠ (BlockOrder.of f direction).size - 1)
    (hq : (of f (.of f direction)).slots.slot? p = some q) :
    (of f (.of f direction)).idom? b = (BlockOrder.of f direction).postorder[q]? := by
  unfold idom? block?
  rw [order_of, startPosition_of, hb, Option.bind_some, if_neg hp, hq, Option.bind_some]

theorem chain_of_none (hb : (BlockOrder.of f direction).position? b = none) :
    (of f (.of f direction)).chain b = [] := by
  unfold chain
  rw [order_of, hb]

/-- The chain of a block lists the blocks on the climb from its position. -/
theorem chain_of_position? (hb : (BlockOrder.of f direction).position? b = some p) :
    (of f (.of f direction)).chain b =
      ((of f (.of f direction)).slots.climb ((BlockOrder.of f direction).size - 1) p).filterMap
        fun q => (BlockOrder.of f direction).postorder[q]? := by
  unfold chain
  rw [order_of, startPosition_of, hb]
  refine List.filterMap_congr fun q _ => ?_
  exact List.getElem?_toArray ..

/-- The chain of a block lists its dominators. -/
theorem mem_chain_iff (hf : f.Built) : a ∈ (of f (.of f direction)).chain b ↔
    direction.Dominates f a b := by
  cases hb : (BlockOrder.of f direction).position? b with
  | none =>
      rw [chain_of_none hb]
      refine iff_of_false List.not_mem_nil fun h => ?_
      obtain ⟨p, hp⟩ := (BlockOrder.exists_position?_iff hf).mpr h.reached.2
      exact nomatch hb.symm.trans hp
  | some p =>
      obtain ⟨start, hstart, -⟩ := (BlockOrder.exists_position?_iff hf).mp ⟨p, hb⟩
      have hrising := (settled_slots hf hstart).rising
      have hknown := isKnown_of_position? hf hstart hb
      rw [chain_of_position? hb, BlockOrder.mem_filterMap_blocks]
      constructor
      · rintro ⟨q, hq, ha⟩
        exact (climbs_iff_dominates hf ha hb).mp ((hrising.mem_climb hknown).mp hq)
      · intro h
        obtain ⟨q, ha⟩ := (BlockOrder.exists_position?_iff hf).mpr h.reached.1
        exact ⟨q, (hrising.mem_climb hknown).mpr ((climbs_iff_dominates hf ha hb).mpr h), ha⟩

end Idoms
namespace Dominance

theorem order_of (f : Procedure) (direction : Direction) (options : Options) :
    (of f direction options).order = .of f direction :=
  Idoms.order_of f (.of f direction)

/-- With a start block the tree is there exactly if it was asked for. -/
theorem tree_of (hf : f.Built) (hstart : direction.start? f = some start) (options : Options) :
    (of f direction options).tree =
      if options.tree then some (.of (.of f direction) (Idoms.of f (.of f direction)).slots)
      else none := by
  have hvalid : (Idoms.of f (.of f direction)).isValid = true := by
    have hlast := BlockOrder.position?_of.mp (BlockOrder.position?_start hf hstart)
    rw [Idoms.isValid, Idoms.order_of, Bool.not_eq_true', List.isEmpty_eq_false_iff]
    intro hempty
    rw [hempty] at hlast
    exact nomatch hlast
  show (if (options.tree && (Idoms.of f (.of f direction)).isValid) = true
    then some (DomTree.of (Idoms.of f (.of f direction)).order _) else none) = _
  rw [hvalid, Bool.and_true, Idoms.order_of]

/-- The dominators of a block are blocks of the procedure, whatever that is. -/
theorem lt_size_of_mem_chain {options : Options} (h : a ∈ (of f direction options).chain b) :
    a < f.blocks.size := by
  have hchain : a ∈ (Idoms.of f (.of f direction)).chain b := h
  cases hb : (BlockOrder.of f direction).position? b with
  | none =>
      rw [Idoms.chain_of_none hb] at hchain
      exact absurd hchain List.not_mem_nil
  | some p =>
      rw [Idoms.chain_of_position? hb, BlockOrder.mem_filterMap_blocks] at hchain
      obtain ⟨q, -, ha⟩ := hchain
      exact BlockOrder.lt_size_of_mem (BlockOrder.mem_postorder_iff_position?.mpr ⟨q, ha⟩)

/-- Without the table, one block dominates another exactly when they are the same
    or the start block is set, control gets from it to the other, and every way
    it takes leads through the one. -/
theorem dominates_iff_unavoidable (hf : f.Built) (direction : Direction) (options : Options)
    (hpairs : options.pairs = false) (a b : NodeId) :
    (of f direction options).dominates a b = true ↔ a = b ∨ direction.Dominates f a b := by
  unfold dominates
  rw [order_of f direction options]
  by_cases hab : a = b
  · rw [if_pos hab]
    exact iff_of_true rfl (Or.inl hab)
  · rw [if_neg hab, or_iff_right hab]
    cases ha : (BlockOrder.of f direction).position? a with
    | none =>
        refine iff_of_false Bool.false_ne_true fun h => ?_
        obtain ⟨q, hq⟩ := (BlockOrder.exists_position?_iff hf).mpr h.reached.1
        exact nomatch ha.symm.trans hq
    | some q =>
        cases hb : (BlockOrder.of f direction).position? b with
        | none =>
            refine iff_of_false Bool.false_ne_true fun h => ?_
            obtain ⟨p, hp⟩ := (BlockOrder.exists_position?_iff hf).mpr h.reached.2
            exact nomatch hb.symm.trans hp
        | some p =>
            obtain ⟨start, hstart, -⟩ := (BlockOrder.exists_position?_iff hf).mp ⟨p, hb⟩
            have hrising := (Idoms.settled_slots hf hstart).rising
            rw [← Idoms.climbs_iff_dominates hf ha hb,
              ← hrising.dominates_iff (Idoms.isKnown_of_position? hf hstart hb)]
            show (if options.pairs then _ else _) = true ↔ _
            rw [hpairs]
            exact Iff.rfl

/-- Of the two blocks of the loop only one is passed on every way out of it, and
    neither on every way into the other. -/
theorem dominates_twoEntryLoop :
    Procedure.twoEntryLoop.Built ∧
      (of .twoEntryLoop .forward ⟨true, false⟩).dominates 2 3 = true ∧
      Direction.forward.Dominates .twoEntryLoop 2 3 ∧
      ¬ Direction.forward.Dominates .twoEntryLoop 1 2 := by
  have hiff := dominates_iff_unavoidable Procedure.built_twoEntryLoop .forward ⟨true, false⟩ rfl
  have hpassed : (of .twoEntryLoop .forward ⟨true, false⟩).dominates 2 3 = true := by
    decide +kernel
  have havoided : (of .twoEntryLoop .forward ⟨true, false⟩).dominates 1 2 ≠ true := by
    decide +kernel
  refine ⟨Procedure.built_twoEntryLoop, hpassed, ?_, ?_⟩
  · exact ((hiff 2 3).mp hpassed).resolve_left (by decide)
  · intro h
    exact havoided ((hiff 1 2).mpr (Or.inr h))

end Dominance

end ControlFlow
