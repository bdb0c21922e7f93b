import ControlFlow.Proofs.Dominance

/-!
# Immediate dominators and what is built on them

    The immediate dominator of a block is the nearest of the blocks that dominate
    it strictly, and the chain of a block lists the block and then the chain of
    its immediate dominator.  Both are said here of blocks, so that no later
    result has to look at slots and positions.

    Dominance itself is asked for in two ways: from a table of all chains, or by a
    climb that is given up as soon as it is past the position looked for.  The one
    needs the chains to be complete, the other needs that a climb never goes down.
    Either comes to what every way leads through (`Dominance.dominates_iff`).
-/

namespace ControlFlow

variable {f : Procedure} {direction : Direction} {start a b c : NodeId} {p : Nat}

/-- Two blocks that dominate each other are one. -/
theorem Direction.Dominates.antisymm (hf : f.Built) (hab : direction.Dominates f a b)
    (hba : direction.Dominates f b a) : a = b := by
  obtain ⟨start, hstart, -⟩ := id hab
  obtain ⟨q, hq⟩ := (BlockOrder.exists_position?_iff hf).mpr hab.reached.1
  obtain ⟨p, hp⟩ := (BlockOrder.exists_position?_iff hf).mpr hab.reached.2
  have hrising := (Idoms.settled_slots hf hstart).rising
  have hpq := hrising.le_of_climbs ((Idoms.climbs_iff_dominates hf hq hp).mpr hab)
  have hqp := hrising.le_of_climbs ((Idoms.climbs_iff_dominates hf hp hq).mpr hba)
  obtain rfl := Nat.le_antisymm hpq hqp
  exact BlockOrder.block_eq_of_position? hq hp

/-- Nothing dominates the start but the start. -/
theorem Direction.Dominates.eq_start (hstart : direction.start? f = some start)
    (h : direction.Dominates f a start) : a = start := by
  obtain ⟨start', hstart', -, hunavoidable⟩ := h
  obtain rfl : start = start' := Option.some.inj (hstart.symm.trans hstart')
  exact hunavoidable.eq_start

namespace Idoms

/-! ## Immediate dominators -/

/-- A block other than the start has its slot, and the block there as its immediate
    dominator. -/
theorem exists_slot (hf : f.Built) (hstart : direction.start? f = some start)
    (hb : (BlockOrder.of f direction).position? b = some p) (hne : b ≠ start) :
    ∃ m c, p < (BlockOrder.of f direction).size - 1 ∧
      (of f (.of f direction)).slots.slot? p = some m ∧
      (BlockOrder.of f direction).position? c = some m ∧
      (of f (.of f direction)).idom? b = some c := by
  have hlt : p < (BlockOrder.of f direction).size - 1 := by
    have hle := BlockOrder.position?_lt hb
    have hpne : p ≠ (BlockOrder.of f direction).size - 1 := by
      rintro rfl
      exact hne (BlockOrder.block_eq_of_position? hb (BlockOrder.position?_start hf hstart))
    omega
  have hrising := (settled_slots hf hstart).rising
  obtain ⟨m, hm⟩ := Slots.isKnown_iff.mp (isKnown_of_position? hf hstart hb)
  have hmle := hrising.le_start (hrising.slot_known p m hm)
  have hmlt : m < (BlockOrder.of f direction).size := by omega
  obtain ⟨c, hc⟩ := BlockOrder.exists_block hmlt
  refine ⟨m, c, hlt, hm, hc, ?_⟩
  rw [idom?_of_slot hb (Nat.ne_of_lt hlt) hm]
  exact BlockOrder.position?_of.mp hc

/-- A block that has an immediate dominator is reached and not the start. -/
theorem reached_of_idom? (hf : f.Built) (h : (of f (.of f direction)).idom? b = some c) :
    ∃ start p, direction.start? f = some start ∧
      (BlockOrder.of f direction).position? b = some p ∧ b ≠ start := by
  cases hb : (BlockOrder.of f direction).position? b with
  | none =>
      rw [idom?, order_of, hb] at h
      exact nomatch h
  | some p =>
      obtain ⟨start, hstart, -⟩ := (BlockOrder.exists_position?_iff hf).mp ⟨p, hb⟩
      refine ⟨start, p, hstart, rfl, ?_⟩
      rintro rfl
      exact nomatch h.symm.trans (idom?_start hf hstart)

/-- The immediate dominator of a block is the one of its strict dominators that
    all others dominate. -/
theorem idom?_eq_some_iff (hf : f.Built) :
    (of f (.of f direction)).idom? b = some c ↔
      (c ≠ b ∧ direction.Dominates f c b) ∧
        ∀ a, a ≠ b → direction.Dominates f a b → direction.Dominates f a c := by
  -- the block in the slot has the property
  have hnearest : ∀ c, (of f (.of f direction)).idom? b = some c →
      (c ≠ b ∧ direction.Dominates f c b) ∧
        ∀ a, a ≠ b → direction.Dominates f a b → direction.Dominates f a c := by
    intro c hc
    obtain ⟨start, p, hstart, hb, hne⟩ := reached_of_idom? hf hc
    obtain ⟨m, c', hlt, hm, hc', hidom⟩ := exists_slot hf hstart hb hne
    obtain rfl : c = c' := Option.some.inj (hc.symm.trans hidom)
    refine ⟨(climbs_slot_iff hf hstart hc' hb hlt hm).mp (Slots.Climbs.refl _ m), ?_⟩
    intro a hab hdom
    obtain ⟨q, ha⟩ := (BlockOrder.exists_position?_iff hf).mpr hdom.reached.1
    have hclimb := (climbs_slot_iff hf hstart ha hb hlt hm).mpr ⟨hab, hdom⟩
    exact (climbs_iff_dominates hf ha hc').mp hclimb
  constructor
  · exact hnearest c
  · rintro ⟨⟨hne, hdom⟩, hall⟩
    obtain ⟨p, hb⟩ := (BlockOrder.exists_position?_iff hf).mpr hdom.reached.2
    obtain ⟨start, hstart, -⟩ := id hdom
    have hbne : b ≠ start := by
      rintro rfl
      exact hne (hdom.eq_start hstart)
    obtain ⟨m, c', -, -, -, hidom⟩ := exists_slot hf hstart hb hbne
    -- and no two blocks have it
    obtain ⟨⟨hne', hdom'⟩, hall'⟩ := hnearest c' hidom
    rw [(hall' c hne hdom).antisymm hf (hall c' hne' hdom')]
    exact hidom

/-! ## Chains -/

/-- The chain of a block goes on with the chain of its immediate dominator. -/
theorem chain_of_idom? (hf : f.Built) (h : (of f (.of f direction)).idom? b = some c) :
    (of f (.of f direction)).chain b = b :: (of f (.of f direction)).chain c := by
  obtain ⟨start, p, hstart, hb, hne⟩ := reached_of_idom? hf h
  obtain ⟨m, c', hlt, hm, hc', hidom⟩ := exists_slot hf hstart hb hne
  obtain rfl : c = c' := Option.some.inj (h.symm.trans hidom)
  rw [chain_of_position? hb, chain_of_position? hc',
    Slots.climb_of_slot (settled_slots hf hstart).rising (Nat.ne_of_lt hlt) hm,
    List.filterMap_cons_some (BlockOrder.position?_of.mp hb)]

/-- A reached block without an immediate dominator is the start. -/
theorem start_of_idom?_none (hf : f.Built) (hb : direction.Reached f b)
    (h : (of f (.of f direction)).idom? b = none) : direction.start? f = some b := by
  obtain ⟨start, hstart, -⟩ := id hb
  obtain ⟨p, hp⟩ := (BlockOrder.exists_position?_iff hf).mpr hb
  by_cases hne : b = start
  · rw [hne]
    exact hstart
  · obtain ⟨m, c, -, -, -, hidom⟩ := exists_slot hf hstart hp hne
    exact nomatch h.symm.trans hidom

/-- The start is a chain by itself. -/
theorem chain_of_idom?_none (hf : f.Built) (hb : direction.Reached f b)
    (h : (of f (.of f direction)).idom? b = none) : (of f (.of f direction)).chain b = [b] := by
  have hstart := start_of_idom?_none hf hb h
  have hpos := BlockOrder.position?_start hf hstart
  rw [chain_of_position? hpos, Slots.climb_start (settled_slots hf hstart).rising,
    List.filterMap_cons_some (BlockOrder.position?_of.mp hpos)]
  rfl

/-- What holds of the start and passes from an immediate dominator to the blocks it
    is that of holds of all reached blocks. -/
theorem idom_induction (hf : f.Built) {P : NodeId → Prop}
    (hstart : ∀ b, direction.Reached f b → (of f (.of f direction)).idom? b = none → P b)
    (hstep : ∀ b c, direction.Reached f b → (of f (.of f direction)).idom? b = some c → P c → P b)
    (hb : direction.Reached f b) : P b := by
  obtain ⟨p, hp⟩ := (BlockOrder.exists_position?_iff hf).mpr hb
  -- positions go up from a block to its immediate dominator, and no further than the start
  induction hn : (BlockOrder.of f direction).size - p using Nat.strongRecOn generalizing b p with
  | _ n ih =>
      cases hidom : (of f (.of f direction)).idom? b with
      | none => exact hstart b hb hidom
      | some c =>
          obtain ⟨start, p', hstart', hp', hne⟩ := reached_of_idom? hf hidom
          obtain rfl : p = p' := Option.some.inj (hp.symm.trans hp')
          obtain ⟨m, c', hlt, hm, hc', hidom'⟩ := exists_slot hf hstart' hp hne
          obtain rfl : c = c' := Option.some.inj (hidom.symm.trans hidom')
          have hup := (settled_slots hf hstart').rising.slot_lt p m hlt hm
          have hc := (BlockOrder.exists_position?_iff hf).mp ⟨m, hc'⟩
          exact hstep b c hb hidom (ih _ (by omega) hc m hc' rfl)

/-! ## The table -/

/-- Every pair of a dominator and a reached block it dominates. -/
def pairs (d : Idoms) : List (NodeId × NodeId) :=
  d.order.postorder.flatMap fun block => (d.chain block).map fun dominator => (dominator, block)

theorem mem_pairs (d : Idoms) : (a, b) ∈ d.pairs ↔ b ∈ d.order.postorder ∧ a ∈ d.chain b := by
  rw [pairs, List.mem_flatMap]
  constructor
  · rintro ⟨block, hblock, hmem⟩
    obtain ⟨dominator, hdominator, heq⟩ := List.mem_map.mp hmem
    obtain ⟨rfl, rfl⟩ := Prod.mk.inj heq
    exact ⟨hblock, hdominator⟩
  · rintro ⟨hb, ha⟩
    exact ⟨b, hb, List.mem_map.mpr ⟨a, ha, rfl⟩⟩

/-- The pairs are those of dominance. -/
theorem mem_pairs_iff (hf : f.Built) :
    (a, b) ∈ (of f (.of f direction)).pairs ↔ direction.Dominates f a b := by
  rw [mem_pairs, order_of, BlockOrder.mem_postorder_iff_reached hf, mem_chain_iff hf]
  exact and_iff_right_of_imp fun h => h.reached.2

/-- The table holds the chain of a block at its position. -/
theorem getElem?_chains (hb : (BlockOrder.of f direction).position? b = some p) :
    (of f (.of f direction)).chains[p]? = some ((of f (.of f direction)).chain b) := by
  rw [chains, order_of, List.getElem?_toArray, List.getElem?_map, BlockOrder.position?_of.mp hb]
  rfl

end Idoms

namespace Dominance

/-- Between reached blocks, the table and the climb answer with dominance. -/
theorem dominates_of_position? {q : Nat} (hf : f.Built) (options : Options) (hne : a ≠ b)
    (ha : (BlockOrder.of f direction).position? a = some q)
    (hb : (BlockOrder.of f direction).position? b = some p) :
    (of f direction options).dominates a b = true ↔ direction.Dominates f a b := by
  obtain ⟨start, hstart, -⟩ := (BlockOrder.exists_position?_iff hf).mp ⟨p, hb⟩
  have hanswer : (of f direction options).dominates a b =
      if options.pairs then ((Idoms.of f (.of f direction)).chains[p]?.getD []).contains a
      else (Idoms.of f (.of f direction)).slots.dominates q p := by
    rw [dominates, if_neg hne, order_of, ha, hb]
    rfl
  rw [hanswer]
  split
  · rw [Idoms.getElem?_chains hb, Option.getD_some, List.contains_iff_mem]
    exact Idoms.mem_chain_iff hf
  · rw [(Idoms.settled_slots hf hstart).rising.dominates_iff
      (Idoms.isKnown_of_position? hf hstart hb)]
    exact Idoms.climbs_iff_dominates hf ha hb

/-- Whatever was prepared, one block dominates another exactly when they are the
    same or every way to the other leads through it. -/
theorem dominates_iff (hf : f.Built) (options : Options) (a b : NodeId) :
    (of f direction options).dominates a b = true ↔ a = b ∨ direction.Dominates f a b := by
  by_cases hab : a = b
  · rw [dominates, if_pos hab]
    exact iff_of_true rfl (.inl hab)
  · rw [or_iff_right hab]
    by_cases hreached : direction.Reached f a ∧ direction.Reached f b
    · obtain ⟨q, ha⟩ := (BlockOrder.exists_position?_iff hf).mpr hreached.1
      obtain ⟨p, hb⟩ := (BlockOrder.exists_position?_iff hf).mpr hreached.2
      exact dominates_of_position? hf options hab ha hb
    · -- a block without a position neither dominates nor is dominated
      refine iff_of_false ?_ fun h => hreached h.reached
      rw [dominates, if_neg hab, order_of]
      split
      · rename_i q p ha hb
        exact absurd ⟨(BlockOrder.exists_position?_iff hf).mp ⟨q, ha⟩,
          (BlockOrder.exists_position?_iff hf).mp ⟨p, hb⟩⟩ hreached
      · exact Bool.false_ne_true

/-- The table answers as the climb does, for all blocks, and what it answers from
    is the set of all pairs of a dominator and a block. -/
theorem dominates_table_eq_climb (hf : f.Built) (direction : Direction) (tree tree' : Bool)
    (a b : NodeId) :
    (of f direction ⟨tree, true⟩).dominates a b = (of f direction ⟨tree', false⟩).dominates a b ∧
      (of f direction ⟨tree, true⟩).strictlyDominates a b =
        (of f direction ⟨tree', false⟩).strictlyDominates a b ∧
      ((of f direction ⟨tree, true⟩).dominates a b = true ↔
        a = b ∨ (a, b) ∈ (of f direction ⟨tree, true⟩).pairs) := by
  have hsame : (of f direction ⟨tree, true⟩).dominates a b =
      (of f direction ⟨tree', false⟩).dominates a b := by
    rw [Bool.eq_iff_iff, dominates_iff hf, dominates_iff hf]
  refine ⟨hsame, ?_, ?_⟩
  · rw [strictlyDominates, strictlyDominates, hsame]
  · rw [dominates_iff hf]
    exact or_congr_right (Idoms.mem_pairs_iff hf).symm

/-- In the loop with two entries the table has the block that every way out leads
    through, and neither block of the loop before the other. -/
theorem dominates_table_twoEntryLoop :
    Procedure.twoEntryLoop.Built ∧
      (of .twoEntryLoop .forward ⟨false, true⟩).dominates 2 3 = true ∧
      (of .twoEntryLoop .forward ⟨false, true⟩).strictlyDominates 1 2 = false ∧
      (2, 3) ∈ (of .twoEntryLoop .forward ⟨false, true⟩).pairs := by
  have hsame := dominates_table_eq_climb Procedure.built_twoEntryLoop .forward false false
  have hclimb : (of .twoEntryLoop .forward ⟨false, false⟩).dominates 2 3 = true := by
    decide +kernel
  have havoided : (of .twoEntryLoop .forward ⟨false, false⟩).strictlyDominates 1 2 = false := by
    decide +kernel
  have htable := (hsame 2 3).1.trans hclimb
  refine ⟨Procedure.built_twoEntryLoop, htable, (hsame 1 2).2.1.trans havoided, ?_⟩
  exact ((hsame 2 3).2.2.mp htable).resolve_left (by decide)

/-! ## The closest block on every way -/

/-- The immediate dominator of a block is the closest of the other blocks that every way
    to it leads through: all of them are on every way to the closest.  Every block that
    control gets to has one, except for the start. -/
theorem idom?_eq_some_iff_closest (hf : f.Built) (direction : Direction) (options : Options)
    (b : NodeId) :
    (∀ c, (of f direction options).idom? b = some c ↔
      ∃ start, direction.start? f = some start ∧ Reaches (direction.Flow f) start b ∧ b ≠ start ∧
        (c ≠ b ∧ Unavoidable (direction.Flow f) start c b) ∧
        ∀ a, a ≠ b → Unavoidable (direction.Flow f) start a b →
          Unavoidable (direction.Flow f) start a c) ∧
      ∀ start, direction.start? f = some start → Reaches (direction.Flow f) start b → b ≠ start →
        ∃ c, (of f direction options).idom? b = some c := by
  constructor
  · intro c
    show (Idoms.of f (.of f direction)).idom? b = some c ↔ _
    rw [Idoms.idom?_eq_some_iff hf]
    constructor
    · rintro ⟨⟨hne, start, hstart, hreach, hunavoidable⟩, hall⟩
      have hother : b ≠ start := by
        rintro rfl
        exact hne hunavoidable.eq_start
      refine ⟨start, hstart, hreach, hother, ⟨hne, hunavoidable⟩, fun a hab ha => ?_⟩
      obtain ⟨start', hstart', -, hac⟩ := hall a hab ⟨start, hstart, hreach, ha⟩
      exact Option.some.inj (hstart'.symm.trans hstart) ▸ hac
    · rintro ⟨start, hstart, hreach, -, ⟨hne, hunavoidable⟩, hall⟩
      refine ⟨⟨hne, start, hstart, hreach, hunavoidable⟩, ?_⟩
      rintro a hab ⟨start', hstart', -, ha⟩
      rw [Option.some.inj (hstart'.symm.trans hstart)] at ha
      exact ⟨start, hstart, hunavoidable.reaches hreach, hall a hab ha⟩
  · intro start hstart hreach hne
    obtain ⟨p, hp⟩ := (BlockOrder.exists_position?_iff hf).mpr ⟨start, hstart, hreach⟩
    obtain ⟨m, c, -, -, -, hidom⟩ := Idoms.exists_slot hf hstart hp hne
    exact ⟨c, hidom⟩

/-- Of the two blocks of the loop neither is before the other, so that both have the
    entry as the closest block; the block behind the loop has one of them. -/
theorem idom?_twoEntryLoop :
    Procedure.twoEntryLoop.Built ∧
      (of .twoEntryLoop .forward ⟨false, false⟩).idom? 1 = some 0 ∧
      (of .twoEntryLoop .forward ⟨false, false⟩).idom? 3 = some 2 ∧
      ¬ Unavoidable (Direction.forward.Flow .twoEntryLoop) 0 2 1 ∧
      ∀ a, a ≠ 3 → Unavoidable (Direction.forward.Flow .twoEntryLoop) 0 a 3 →
        Unavoidable (Direction.forward.Flow .twoEntryLoop) 0 a 2 := by
  have hclosest := idom?_eq_some_iff_closest Procedure.built_twoEntryLoop .forward ⟨false, false⟩
  have hloop : (of .twoEntryLoop .forward ⟨false, false⟩).idom? 1 = some 0 := by decide +kernel
  have hout : (of .twoEntryLoop .forward ⟨false, false⟩).idom? 3 = some 2 := by decide +kernel
  obtain ⟨start, hstart, -, -, -, hbefore⟩ := ((hclosest 1).1 0).mp hloop
  obtain ⟨start', hstart', -, -, -, hbehind⟩ := ((hclosest 3).1 2).mp hout
  obtain rfl : 0 = start := Option.some.inj hstart
  obtain rfl : 0 = start' := Option.some.inj hstart'
  refine ⟨Procedure.built_twoEntryLoop, hloop, hout, fun havoided => ?_, hbehind⟩
  exact absurd (hbefore 2 (by decide) havoided).eq_start (by decide)

end Dominance

end ControlFlow
