import ControlFlow.Dominance.Frontier
import ControlFlow.Proofs.Dominance
import Mathlib.Data.List.TakeWhile

/-!
# Where dominance ends

    The frontier of a block should hold the blocks it does not strictly dominate
    although it dominates a block one step before them.  It does, with one
    exception: the start block is looked at only when two blocks lead into it.

    For any other block the number of incoming blocks makes no difference.  A
    block with a single incoming block has that one as its immediate dominator,
    and then no climb from it passes anything.
-/

namespace ControlFlow.Frontier

variable {f : Procedure} {direction : Direction} {options : Dominance.Options}
  {start x y r : NodeId}

/-! ## Recording members -/

theorem mem_record (members : Array (List NodeId)) (entry : NodeId × NodeId) :
    y ∈ (record members entry)[x]?.getD [] ↔
      y ∈ members[x]?.getD [] ∨ entry = (x, y) ∧ x < members.size := by
  obtain ⟨block, member⟩ := entry
  unfold record
  rw [Array.getElem?_modify, Prod.mk.injEq]
  by_cases hx : block = x
  · subst hx
    rw [if_pos rfl]
    by_cases hlt : block < members.size
    · rw [Array.getElem?_eq_getElem hlt]
      show (y ∈ if member ∈ members[block] then members[block] else members[block] ++ [member]) ↔ _
      split
      · rename_i hmem
        refine ⟨Or.inl, ?_⟩
        rintro (hold | ⟨⟨-, rfl⟩, -⟩)
        · exact hold
        · exact hmem
      · rw [List.mem_append, List.mem_singleton]
        exact or_congr Iff.rfl ⟨fun heq => ⟨⟨rfl, heq.symm⟩, hlt⟩, fun h => h.1.2.symm⟩
    · rw [Array.getElem?_eq_none (Nat.le_of_not_lt hlt)]
      exact ⟨Or.inl, fun h => h.resolve_right fun hnew => hlt hnew.2⟩
  · rw [if_neg hx]
    exact ⟨Or.inl, fun h => h.resolve_right fun hnew => hx hnew.1.1⟩

theorem size_record (members : Array (List NodeId)) (entry : NodeId × NodeId) :
    (record members entry).size = members.size :=
  Array.size_modify

theorem size_foldl_record (entries : List (NodeId × NodeId)) (members : Array (List NodeId)) :
    (entries.foldl record members).size = members.size := by
  induction entries generalizing members with
  | nil => rfl
  | cons entry entries ih => rw [List.foldl_cons, ih, size_record]

/-- After recording, a frontier holds what it held and what was recorded for it. -/
theorem mem_foldl_record (entries : List (NodeId × NodeId)) (members : Array (List NodeId)) :
    y ∈ (entries.foldl record members)[x]?.getD [] ↔
      y ∈ members[x]?.getD [] ∨ (x, y) ∈ entries ∧ x < members.size := by
  induction entries generalizing members with
  | nil => exact ⟨Or.inl, fun h => h.resolve_right fun hnew => absurd hnew.1 List.not_mem_nil⟩
  | cons entry entries ih =>
      rw [List.foldl_cons, ih, mem_record, size_record, List.mem_cons, or_assoc, or_and_right,
        eq_comm]

/-- A frontier contains the entries for blocks of the procedure. -/
theorem contains_of (f : Procedure) (d : Dominance) :
    (of f d).contains x y = true ↔ (x, y) ∈ entries f d ∧ x < f.blocks.size := by
  unfold contains frontier of
  rw [List.contains_iff_mem, mem_foldl_record, Array.size_replicate, Array.getElem?_replicate]
  refine or_iff_right ?_
  split <;> exact List.not_mem_nil

/-- What a join gives rise to. -/
def entriesAt (f : Procedure) (d : Dominance) (join : NodeId) : List (NodeId × NodeId) :=
  if (runners f d join).length < 2 then []
  else (runners f d join).flatMap fun runner => (passed d join runner).map fun block => (block, join)

theorem entries_eq (f : Procedure) (d : Dominance) :
    entries f d = d.order.postorder.flatMap (entriesAt f d) := rfl

/-- If it has two runners or more, it is entered for the blocks that one of them passes. -/
theorem mem_entriesAt {d : Dominance} : (x, y) ∈ entriesAt f d y ↔
    2 ≤ (runners f d y).length ∧ ∃ r ∈ runners f d y, x ∈ passed d y r := by
  rw [entriesAt]
  split
  · rename_i hfew
    exact iff_of_false List.not_mem_nil fun h => Nat.not_le.mpr hfew h.1
  · rename_i hmany
    rw [and_iff_right (Nat.le_of_not_lt hmany), List.mem_flatMap]
    refine exists_congr fun r => and_congr_right fun _ => ?_
    rw [List.mem_map]
    constructor
    · rintro ⟨block, hblock, heq⟩
      exact (Prod.mk.inj heq).1 ▸ hblock
    · exact fun hx => ⟨x, hx, rfl⟩

theorem snd_of_mem_entriesAt {d : Dominance} {entry : NodeId × NodeId} (h : entry ∈ entriesAt f d y) :
    entry.2 = y := by
  rw [entriesAt] at h
  split at h
  · exact absurd h List.not_mem_nil
  · obtain ⟨r, -, hmem⟩ := List.mem_flatMap.mp h
    obtain ⟨block, -, rfl⟩ := List.mem_map.mp hmem
    rfl

/-- The entries are found climbing from the runners of joins. -/
theorem mem_entries (f : Procedure) (d : Dominance) :
    (x, y) ∈ entries f d ↔
      y ∈ d.order.postorder ∧ 2 ≤ (runners f d y).length ∧
        ∃ r ∈ runners f d y, x ∈ passed d y r := by
  rw [entries_eq, List.mem_flatMap]
  constructor
  · rintro ⟨join, hjoin, hmem⟩
    obtain rfl : y = join := snd_of_mem_entriesAt hmem
    exact ⟨hjoin, mem_entriesAt.mp hmem⟩
  · rintro ⟨hjoin, h⟩
    exact ⟨y, hjoin, mem_entriesAt.mpr h⟩

/-! ## Runners -/

theorem mem_runners (hf : f.Built) :
    r ∈ runners f (.of f direction options) y ↔ direction.Flow f r y ∧ direction.Reached f r := by
  unfold runners Dominance.direction Idoms.isReachable
  rw [List.mem_filter, Dominance.order_of]
  exact and_congr hf.linked.mem_incoming (BlockOrder.contains_iff hf)

/-- Being two is being different, as no block leads into another twice. -/
theorem two_le_length_runners (hf : f.Built) :
    2 ≤ (runners f (.of f direction options) y).length ↔
      ∃ r ∈ runners f (.of f direction options) y,
        ∃ r' ∈ runners f (.of f direction options) y, r ≠ r' := by
  have hnodup : (runners f (.of f direction options) y).Nodup :=
    (hf.linked.nodup_incoming _ y).filter _
  cases hlist : runners f (.of f direction options) y with
  | nil =>
      refine iff_of_false (by decide) ?_
      rintro ⟨r, hr, -⟩
      exact absurd hr List.not_mem_nil
  | cons r rest =>
      rw [hlist] at hnodup
      cases rest with
      | nil =>
          refine iff_of_false (Nat.not_le.mpr Nat.one_lt_two) ?_
          rintro ⟨r₁, h₁, r₂, h₂, hne⟩
          exact hne ((List.mem_singleton.mp h₁).trans (List.mem_singleton.mp h₂).symm)
      | cons r' rest =>
          refine iff_of_true (Nat.le_add_left 2 rest.length)
            ⟨r, List.mem_cons_self, r', List.mem_cons_of_mem r List.mem_cons_self, ?_⟩
          rintro rfl
          exact (List.nodup_cons.mp hnodup).1 List.mem_cons_self

/-! ## Blocks passed -/

/-- Towards the start a climb passes everything. -/
theorem passed_start (hf : f.Built) (hstart : direction.start? f = some start) (r : NodeId) :
    passed (.of f direction options) start r = (Idoms.of f (.of f direction)).chain r := by
  show ((Idoms.of f (.of f direction)).chain r).takeWhile
    (fun block => some block != (Idoms.of f (.of f direction)).idom? start) = _
  rw [Idoms.idom?_start hf hstart]
  exact List.takeWhile_eq_self_iff.mpr fun _ _ => rfl

/-- Towards any other join it passes what lies before the slot of the join. -/
theorem passed_of_slot {p q m : Nat} (hf : f.Built)
    (hstart : direction.start? f = some start)
    (hr : (BlockOrder.of f direction).position? r = some p)
    (hy : (BlockOrder.of f direction).position? y = some q)
    (hq : q < (BlockOrder.of f direction).size - 1)
    (hm : (Idoms.of f (.of f direction)).slots.slot? q = some m) :
    passed (.of f direction options) y r =
      (((Idoms.of f (.of f direction)).slots.climb
        ((BlockOrder.of f direction).size - 1) p).takeWhile (· != m)).filterMap
        fun a => (BlockOrder.of f direction).postorder[a]? := by
  have hrising := (Idoms.settled_slots hf hstart).rising
  have hmle := hrising.le_start (hrising.slot_known q m hm)
  have hmlt : m < (BlockOrder.of f direction).size := by omega
  obtain ⟨z, hz⟩ := BlockOrder.exists_block hmlt
  show ((Idoms.of f (.of f direction)).chain r).takeWhile
    (fun block => some block != (Idoms.of f (.of f direction)).idom? y) = _
  rw [Idoms.chain_of_position? hr, Idoms.idom?_of_slot hy (Nat.ne_of_lt hq) hm,
    BlockOrder.position?_of.mp hz, List.takeWhile_filterMap]
  congr 2
  funext a
  -- stopping at the block is stopping at its position
  cases hx : (BlockOrder.of f direction).postorder[a]? with
  | none =>
      have hne : a ≠ m := by
        rintro rfl
        exact nomatch hx.symm.trans (BlockOrder.position?_of.mp hz)
      exact (bne_iff_ne.mpr hne).symm
  | some x =>
      refine Bool.eq_iff_iff.mpr ?_
      show (some x != some z) = true ↔ (a != m) = true
      rw [bne_iff_ne, bne_iff_ne, ne_eq, ne_eq, Option.some.injEq]
      refine not_congr ⟨?_, ?_⟩
      · rintro rfl
        exact Option.some.inj ((BlockOrder.position?_of.mpr hx).symm.trans hz)
      · rintro rfl
        exact BlockOrder.block_eq_of_position? (BlockOrder.position?_of.mpr hx) hz

/-- A climb from a runner passes the dominators of the runner that do not strictly
    dominate the join. -/
theorem mem_passed (hf : f.Built) (hr : r ∈ runners f (.of f direction options) y) :
    x ∈ passed (.of f direction options) y r ↔
      direction.Dominates f x r ∧ ¬ (x ≠ y ∧ direction.Dominates f x y) := by
  obtain ⟨hflow, start, hstart, hreach⟩ := (mem_runners hf).mp hr
  obtain ⟨p, hp⟩ := (BlockOrder.exists_position?_iff hf).mpr ⟨start, hstart, hreach⟩
  obtain ⟨q, hq⟩ := (BlockOrder.exists_position?_iff hf).mpr ⟨start, hstart, hreach.tail hflow⟩
  have hsettled := Idoms.settled_slots hf hstart
  have hstartpos := BlockOrder.position?_start hf hstart
  rcases Nat.lt_or_ge q ((BlockOrder.of f direction).size - 1) with hlt | hge
  · obtain ⟨m, hm, hnearest⟩ := hsettled.nearest q hlt
    have hpm := hnearest.common p ((Idoms.mem_sources hf).mpr ⟨r, y, hflow, hp, hq⟩)
    have hknown := Idoms.isKnown_of_position? hf hstart hp
    rw [passed_of_slot hf hstart hp hq hlt hm, BlockOrder.mem_filterMap_blocks]
    constructor
    · rintro ⟨a, ha, hx⟩
      obtain ⟨hpa, hma⟩ := (hsettled.rising.mem_takeWhile_climb hknown hpm).mp ha
      rw [Idoms.climbs_slot_iff hf hstart hx hq hlt hm] at hma
      exact ⟨(Idoms.climbs_iff_dominates hf hx hp).mp hpa, hma⟩
    · rintro ⟨hdom, hnot⟩
      obtain ⟨a, hx⟩ := (BlockOrder.exists_position?_iff hf).mpr hdom.reached.1
      refine ⟨a, (hsettled.rising.mem_takeWhile_climb hknown hpm).mpr ⟨?_, ?_⟩, hx⟩
      · exact (Idoms.climbs_iff_dominates hf hx hp).mpr hdom
      · rw [Idoms.climbs_slot_iff hf hstart hx hq hlt hm]
        exact hnot
  · -- the join is the start, which nothing dominates strictly
    have hqstart : q = (BlockOrder.of f direction).size - 1 := by
      have := BlockOrder.position?_lt hq
      omega
    rw [hqstart] at hq
    obtain rfl := BlockOrder.block_eq_of_position? hq hstartpos
    rw [passed_start hf hstart, Idoms.mem_chain_iff hf]
    refine ⟨fun hdom => ⟨hdom, ?_⟩, fun h => h.1⟩
    rintro ⟨hne, start', hstart', -, hunavoidable⟩
    obtain rfl : y = start' := Option.some.inj (hstart.symm.trans hstart')
    exact hne hunavoidable.eq_start

/-- Where all the runners of a block other than the start are one, whatever
    dominates it dominates the block strictly. -/
theorem dominates_of_single (hf : f.Built) (hne : direction.start? f ≠ some y)
    (hr : r ∈ runners f (.of f direction options) y)
    (hsingle : ∀ r' ∈ runners f (.of f direction options) y, r' = r)
    (hdom : direction.Dominates f x r) : x ≠ y ∧ direction.Dominates f x y := by
  obtain ⟨hflow, start, hstart, hreach⟩ := (mem_runners hf).mp hr
  obtain ⟨p, hp⟩ := (BlockOrder.exists_position?_iff hf).mpr ⟨start, hstart, hreach⟩
  obtain ⟨q, hq⟩ := (BlockOrder.exists_position?_iff hf).mpr ⟨start, hstart, hreach.tail hflow⟩
  obtain ⟨a, hx⟩ := (BlockOrder.exists_position?_iff hf).mpr hdom.reached.1
  have hlt : q < (BlockOrder.of f direction).size - 1 := by
    have hle := BlockOrder.position?_lt hq
    have hqne : q ≠ (BlockOrder.of f direction).size - 1 := by
      rintro rfl
      have heq := BlockOrder.block_eq_of_position? hq (BlockOrder.position?_start hf hstart)
      exact hne (heq ▸ hstart)
    omega
  obtain ⟨m, hm, hnearest⟩ := (Idoms.settled_slots hf hstart).nearest q hlt
  -- the only incoming position is the nearest common one
  have hmp : (Idoms.of f (.of f direction)).slots.Climbs m p := by
    refine hnearest.nearest p fun p' hp' => ?_
    obtain ⟨u, y', huy, hu, hy'⟩ := (Idoms.mem_sources hf).mp hp'
    obtain rfl := BlockOrder.block_eq_of_position? hq hy'
    have hu' := (BlockOrder.exists_position?_iff hf).mp ⟨p', hu⟩
    obtain rfl := hsingle u ((mem_runners hf).mpr ⟨huy, hu'⟩)
    obtain rfl : p = p' := Option.some.inj (hp.symm.trans hu)
    exact Slots.Climbs.refl _ p
  have hpa := (Idoms.climbs_iff_dominates hf hx hp).mpr hdom
  exact (Idoms.climbs_slot_iff hf hstart hx hq hlt hm).mp (hmp.trans hpa)

/-! ## The frontier -/

/-- Dominators of the procedure itself name no block it does not have: the check
    never fails. -/
theorem checked_of (f : Procedure) (direction : Direction) (options : Dominance.Options) :
    checked f (.of f direction options) = .ok (of f (.of f direction options)) := by
  have hnone : (entries f (.of f direction options)).find? (f.blocks.size ≤ ·.1) = none := by
    rw [List.find?_eq_none]
    rintro ⟨x, y⟩ hmem hle
    obtain ⟨-, -, r, -, hx⟩ := (mem_entries f _).mp hmem
    have hlt := Dominance.lt_size_of_mem_chain (List.takeWhile_subset _ hx)
    exact absurd hlt (Nat.not_lt.mpr (of_decide_eq_true hle))
  unfold checked
  rw [hnone]

/-- A block has a join in its frontier when it dominates a runner of the join and
    not strictly the join itself. -/
theorem contains_iff_join (hf : f.Built) :
    (of f (.of f direction options)).contains x y = true ↔
      (∃ r r', r ≠ r' ∧ (direction.Flow f r y ∧ direction.Reached f r) ∧
        direction.Flow f r' y ∧ direction.Reached f r') ∧
      (∃ r, (direction.Flow f r y ∧ direction.Reached f r) ∧ direction.Dominates f x r) ∧
        ¬ (x ≠ y ∧ direction.Dominates f x y) := by
  rw [contains_of, mem_entries, Dominance.order_of, two_le_length_runners hf]
  constructor
  · rintro ⟨⟨-, ⟨r₁, hr₁, r₂, hr₂, hne⟩, r, hr, hx⟩, -⟩
    obtain ⟨hdom, hnot⟩ := (mem_passed hf hr).mp hx
    exact ⟨⟨r₁, r₂, hne, (mem_runners hf).mp hr₁, (mem_runners hf).mp hr₂⟩,
      ⟨r, (mem_runners hf).mp hr, hdom⟩, hnot⟩
  · rintro ⟨⟨r₁, r₂, hne, hr₁, hr₂⟩, ⟨r, hr, hdom⟩, hnot⟩
    have hy : direction.Reached f y := hr.2.trans ((Reaches.refl r).tail hr.1)
    have hr' : r ∈ runners f (.of f direction options) y := (mem_runners hf).mpr hr
    refine ⟨⟨(BlockOrder.mem_postorder_iff_reached hf).mpr hy,
      ⟨r₁, (mem_runners hf).mpr hr₁, r₂, (mem_runners hf).mpr hr₂, hne⟩,
      r, hr', (mem_passed hf hr').mpr ⟨hdom, hnot⟩⟩, ?_⟩
    exact BlockOrder.lt_size_of_mem ((BlockOrder.mem_postorder_iff_reached hf).mpr hdom.reached.1)

/-- The frontier of a block holds the blocks it does not strictly dominate although
    it dominates a reached block one step before them.  Only the start is held to
    more: two reached blocks must lead into it. -/
theorem contains_iff_dominance_ends (hf : f.Built) (direction : Direction)
    (options : Dominance.Options) :
    ∃ t, checked f (.of f direction options) = .ok t ∧ ∀ x y, t.contains x y = true ↔
      (∃ r, direction.Flow f r y ∧ direction.Reached f r ∧ direction.Dominates f x r) ∧
        ¬ (x ≠ y ∧ direction.Dominates f x y) ∧
        (direction.start? f = some y → ∃ r r', r ≠ r' ∧
          (direction.Flow f r y ∧ direction.Reached f r) ∧
          direction.Flow f r' y ∧ direction.Reached f r') := by
  refine ⟨_, checked_of f direction options, fun x y => ?_⟩
  rw [contains_of, mem_entries, Dominance.order_of, two_le_length_runners hf]
  constructor
  · rintro ⟨⟨-, ⟨r₁, hr₁, r₂, hr₂, hne⟩, r, hr, hx⟩, -⟩
    obtain ⟨hdom, hnot⟩ := (mem_passed hf hr).mp hx
    obtain ⟨hflow, hreached⟩ := (mem_runners hf).mp hr
    exact ⟨⟨r, hflow, hreached, hdom⟩, hnot,
      fun _ => ⟨r₁, r₂, hne, (mem_runners hf).mp hr₁, (mem_runners hf).mp hr₂⟩⟩
  · rintro ⟨⟨r, hflow, hreached, hdom⟩, hnot, htwo⟩
    have hr : r ∈ runners f (.of f direction options) y := (mem_runners hf).mpr ⟨hflow, hreached⟩
    have hy : direction.Reached f y := hreached.trans ((Reaches.refl r).tail hflow)
    have hx := BlockOrder.lt_size_of_mem
      ((BlockOrder.mem_postorder_iff_reached hf).mpr hdom.reached.1)
    refine ⟨⟨(BlockOrder.mem_postorder_iff_reached hf).mpr hy, ?_,
      r, hr, (mem_passed hf hr).mpr ⟨hdom, hnot⟩⟩, hx⟩
    by_cases hstart : direction.start? f = some y
    · obtain ⟨r₁, r₂, hne, hr₁, hr₂⟩ := htwo hstart
      exact ⟨r₁, (mem_runners hf).mpr hr₁, r₂, (mem_runners hf).mpr hr₂, hne⟩
    · -- were there no other runner, the block would be strictly dominated
      refine ⟨r, hr, Classical.byContradiction fun hnone => hnot ?_⟩
      refine dominates_of_single hf hstart hr (fun r' hr' => ?_) hdom
      exact Classical.byContradiction fun hne => hnone ⟨r', hr', Ne.symm hne⟩

/-- Two blocks in a loop, and nothing else. -/
def entryLoop.steps : List Draft.Step :=
  [.block 0, .block 1, .edge 0 1, .edge 1 0, .entry 0]

def entryLoop : Procedure :=
  (Draft.start "entry loop").run entryLoop.steps

/-- The second block dominates itself, leads into the entry and does not dominate
    that, and yet the entry is not in its frontier. -/
theorem contains_entryLoop :
    entryLoop.Built ∧ Direction.forward.Flow entryLoop 1 0 ∧
      Direction.forward.Dominates entryLoop 1 1 ∧ ¬ Direction.forward.Dominates entryLoop 1 0 ∧
      ∃ t, checked entryLoop (.of entryLoop .forward ⟨false, false⟩) = .ok t ∧
        t.contains 1 0 = false := by
  have hbuilt : entryLoop.Built := ⟨"entry loop", entryLoop.steps, rfl⟩
  have hforth : Direction.forward.Flow entryLoop 0 1 := List.mem_singleton.mpr rfl
  have honly : ∀ r, Direction.forward.Flow entryLoop r 0 → r = 1 := fun r hr =>
    List.mem_singleton.mp ((hbuilt.linked.mirrored r 0).mp hr)
  obtain ⟨t, ht, hiff⟩ := contains_iff_dominance_ends hbuilt .forward ⟨false, false⟩
  refine ⟨hbuilt, List.mem_singleton.mpr rfl, ?_, ?_, t, ht, ?_⟩
  · exact ⟨0, rfl, (Reaches.refl 0).tail hforth, Unavoidable.refl 0 1⟩
  · rintro ⟨start, hstart, -, hunavoidable⟩
    obtain rfl : 0 = start := Option.some.inj hstart
    exact absurd hunavoidable.eq_start (by decide)
  · refine Bool.eq_false_iff.mpr fun hcontains => ?_
    obtain ⟨-, -, htwo⟩ := (hiff 1 0).mp hcontains
    obtain ⟨r, r', hne, ⟨hr, -⟩, hr', -⟩ := htwo rfl
    exact hne ((honly r hr).trans (honly r' hr').symm)

end ControlFlow.Frontier
