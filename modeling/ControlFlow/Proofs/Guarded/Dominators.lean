import ControlFlow.Proofs.Chains
import ControlFlow.Proofs.Guarded.Tree

/-!
# Dominators with every access checked

    Without a start block nothing is computed, and the analysis is marked as not
    valid: every question then finds no position and gives up before it looks
    anything up.  Otherwise a question goes from a block to its position and from
    slot to slot, and reads blocks off the positions it comes by.  All of them are
    positions of the order, because a settled slot holds one.

    A dominance question is answered from a table of all pairs or by a climb.  Each
    is shown to decide dominance, so that neither has to be compared with the other
    or with the way the plain analysis does it.
-/

namespace ControlFlow.Guarded

/-! ## The analysis -/

/-- The dominators of one procedure in one direction, in tables. -/
structure Dominators where
  order : Order
  options : Dominance.Options
  /-- Whether there was a start block to compute from. -/
  valid : Bool
  slots : Slots
  sweeps : Nat
  tree : Option Tree

/-- What is left of an analysis that has nowhere to start. -/
def Dominators.degraded (o : Order) (options : Dominance.Options) : Dominators where
  order := o
  options := options
  valid := false
  slots := #[]
  sweeps := 0
  tree := none

/-- Builds the tree if it is asked for. -/
def treeIf (wanted : Bool) (count : Nat) (order : BlockOrder) (slots : Slots) :
    Guarded (Option Tree) :=
  if wanted then some <$> tree count order slots else pure none

/-- Computes the dominators of a procedure. -/
def dominators (f : Procedure) (direction : Direction) (options : Dominance.Options) :
    Guarded Dominators := do
  let o ← order f direction
  match o.order.start with
  | none => pure (.degraded o options)
  | some start =>
      if (o.position? start).isSome then
        let settled ← settledSlots f o
        let tree ← treeIf options.tree f.blocks.size o.order settled.1
        pure
          { order := o, options := options, valid := true, slots := settled.1
            sweeps := settled.2, tree := tree }
      else pure (.degraded o options)

/-- The tables hold what the plain analysis of the procedure holds. -/
structure Dominators.Shows (d : Dominators) (f : Procedure) (direction : Direction)
    (options : Dominance.Options) : Prop where
  order : d.order.Shows (.of f direction)
  options_eq : d.options = options
  valid_iff : d.valid = true ↔ ∃ start, direction.start? f = some start
  slots_eq : d.slots = (Idoms.of f (.of f direction)).slots
  sweeps_eq : d.sweeps = (Idoms.of f (.of f direction)).sweeps
  tree : Option.Rel Tree.Answers d.tree (Dominance.of f direction options).tree

section Build

variable {f : Procedure} {direction : Direction} {start : NodeId} {o : Order}

/-- Without a start block there are no slots, no sweeps and no tree. -/
theorem shows_degraded (hstart : direction.start? f = none) (options : Dominance.Options)
    (ho : o.Shows (.of f direction)) :
    (Dominators.degraded o options).Shows f direction options := by
  have hempty : (BlockOrder.of f direction).postorder = [] := by
    rw [BlockOrder.of, hstart]
  have hidoms : Idoms.of f (.of f direction) = ⟨.of f direction, #[], 0⟩ := by
    rw [Idoms.of, hempty]
    rfl
  have htree : (Dominance.of f direction options).tree = none := by
    rw [Dominance.of, hidoms]
    show (if (options.tree && !(BlockOrder.of f direction).postorder.isEmpty) = true
      then _ else none) = none
    rw [hempty, List.isEmpty_nil, Bool.not_true, Bool.and_false]
    rfl
  refine ⟨ho, rfl, ?_, ?_, ?_, ?_⟩
  · refine iff_of_false Bool.false_ne_true ?_
    rintro ⟨start, hsome⟩
    exact Option.some_ne_none start (hsome.symm.trans hstart)
  · rw [hidoms]
    rfl
  · rw [hidoms]
    rfl
  · rw [htree]
    exact .none

/-- A tree that is asked for is built as the plain one is. -/
theorem treeIf_yields (hf : f.Built) (hstart : direction.start? f = some start)
    (options : Dominance.Options) :
    Yields (treeIf options.tree f.blocks.size (.of f direction)
        (Idoms.of f (.of f direction)).slots)
      (Option.Rel Tree.Answers · (Dominance.of f direction options).tree) := by
  have hsettled := Idoms.settled_slots hf hstart
  have hpos : 0 < (BlockOrder.of f direction).size :=
    Nat.zero_lt_of_lt (BlockOrder.position?_lt (BlockOrder.position?_start hf hstart))
  rw [Dominance.tree_of hf hstart, treeIf]
  cases options.tree with
  | false => exact Yields.pure .none
  | true =>
      refine (tree_answers hsettled.rising hsettled.known hpos
        (fun b => BlockOrder.lt_size_of_mem) (BlockOrder.nodup_of f direction)).bind ?_
      intro t ht
      exact Yields.pure (.some ht)

/-- The dominators of a built procedure are computed without an access out of
    bounds. -/
theorem dominators_shows (hf : f.Built) (direction : Direction) (options : Dominance.Options) :
    Yields (dominators f direction options) (·.Shows f direction options) := by
  refine (order_shows f direction).bind fun o ho => ?_
  have hfirst : o.order.start = direction.start? f := by rw [ho.order_eq]; rfl
  rw [hfirst]
  cases hstart : direction.start? f with
  | none => exact Yields.pure (shows_degraded hstart options ho)
  | some start =>
      have hposition : (o.position? start).isSome = true := by
        rw [ho.position?, BlockOrder.position?_start hf hstart]
        rfl
      show Yields (if (o.position? start).isSome = true then _ else _) _
      rw [if_pos hposition, settledSlots_eq hf hstart ho, pure_bind, ho.order_eq]
      refine (treeIf_yields hf hstart options).bind fun t ht => ?_
      exact Yields.pure ⟨ho, rfl, iff_of_true rfl ⟨start, hstart⟩, rfl, rfl, ht⟩

end Build

/-! ## Questions -/

namespace Dominators

/-- The position of a block; none when there was nowhere to start. -/
def position? (d : Dominators) (block : NodeId) : Option Nat :=
  if d.valid then d.order.position? block else none

/-- The position of the start block. -/
def startPosition? (d : Dominators) : Option Nat :=
  if d.valid && decide (1 ≤ d.order.order.size) then some (d.order.order.size - 1) else none

/-- The block at a position. -/
def blockAt (d : Dominators) (position : Nat) : Guarded NodeId :=
  fetch d.order.order.postorder.toArray position

/-- The start block. -/
def start? (d : Dominators) : Guarded (Option NodeId) :=
  match d.startPosition? with
  | none => pure none
  | some position => some <$> d.blockAt position

/-- Whether a block is reachable from the start block. -/
def isReachable (d : Dominators) (block : NodeId) : Bool :=
  (d.position? block).isSome

/-- The reachable blocks in postorder. -/
def postorder (d : Dominators) : List NodeId :=
  if d.valid then d.order.order.postorder else []

/-- The position in the slot of one; none above the start. -/
def above (d : Dominators) (position : Nat) : Guarded (Option Nat) :=
  if some position = d.startPosition? then pure none else fetch d.slots position

/-- The immediate dominator of a block. -/
def idom? (d : Dominators) (block : NodeId) : Guarded (Option NodeId) :=
  match d.position? block with
  | none => pure none
  | some position => do
      let next ← d.above position
      match next with
      | none => pure none
      | some position => some <$> d.blockAt position

/-- The dominators of a block, from itself up to the start block. -/
def chain (d : Dominators) (block : NodeId) : Guarded (List NodeId) :=
  loop (fun s : Option Nat × List NodeId =>
    match s.1 with
    | none => pure (.inr s.2)
    | some position => do
        let block ← d.blockAt position
        let next ← d.above position
        pure (.inl (next, s.2 ++ [block]))) (d.position? block, [])

/-- How many blocks lie strictly above a reachable block. -/
def depth? (d : Dominators) (block : NodeId) : Guarded (Option Nat) :=
  match d.position? block with
  | none => pure none
  | some _ => do
      let chain ← d.chain block
      some <$> minus chain.length 1

/-- Every pair of a dominator and a reachable block it dominates. -/
def pairs (d : Dominators) : Guarded (List (NodeId × NodeId)) :=
  d.order.order.postorder.foldlM (fun pairs block => do
    let chain ← d.chain block
    pure (pairs ++ chain.map fun dominator => (dominator, block))) []

/-- Whether a climb meets a position, given up as soon as it is past it. -/
def meets (slots : Slots) (target position : Nat) : Guarded Bool :=
  loop (fun p : Nat =>
    if p < target then do
      let slot ← fetch slots p
      match slot with
      | none => pure (.inr false)
      | some next => if next ≠ p then pure (.inl next) else pure (.inr false)
    else pure (.inr (p == target))) position

/-- Whether `a` dominates `b`. -/
def dominates (d : Dominators) (a b : NodeId) : Guarded Bool :=
  if a = b then pure true
  else
    match d.position? a, d.position? b with
    | some target, some position =>
        if d.options.pairs then do
          let pairs ← d.pairs
          pure (pairs.contains (a, b))
        else meets d.slots target position
    | _, _ => pure false

/-- Whether `a` dominates `b` and is another block. -/
def strictlyDominates (d : Dominators) (a b : NodeId) : Guarded Bool :=
  if a != b then d.dominates a b else pure false

/-- The analysis answers every question, without a fault, as another does. -/
structure Answers (d : Dominators) (plain : Dominance) : Prop where
  start? : d.start? = pure plain.start?
  isReachable : ∀ b, d.isReachable b = plain.isReachable b
  postorder : d.postorder = plain.order.postorder
  idom? : ∀ b, d.idom? b = pure (plain.idom? b)
  chain : ∀ b, d.chain b = pure (plain.chain b)
  depth? : ∀ b, d.depth? b = pure (plain.depth? b)
  dominates : ∀ a b, d.dominates a b = pure (plain.dominates a b)
  strictlyDominates : ∀ a b, d.strictlyDominates a b = pure (plain.strictlyDominates a b)
  tree : Option.Rel Tree.Answers d.tree plain.tree

/-- A climb of rising slots from a known position decides what lies on it. -/
theorem meets_yields {s : Slots} {start target p : Nat} (h : Slots.Rising s start)
    (hp : s.isKnown p = true) :
    Yields (meets s target p) fun answer => answer = true ↔ s.Climbs p target := by
  refine Yields.loop
    (P := fun q => s.isKnown q = true ∧ (s.Climbs q target ↔ s.Climbs p target))
    (fun q => start - q) ?_ ⟨hp, Iff.rfl⟩
  rintro q ⟨hq, hiff⟩
  have hq_le := h.le_start hq
  split
  · rename_i hlt
    obtain ⟨next, hnext⟩ := Slots.isKnown_iff.mp hq
    have hknown := h.slot_known q next hnext
    have hnext_le := h.le_start hknown
    rw [fetch_slot (Slots.lt_size_of_isKnown hq), hnext, pure_bind]
    show Yields (if next ≠ q then _ else _) _
    split
    · rename_i hmoves
      refine Yields.next ?_
      have hle := h.slot_le hnext
      refine ⟨⟨hknown, Iff.trans ?_ hiff⟩, by omega⟩
      exact ⟨fun hclimb => hclimb.head hnext, fun hclimb => hclimb.of_slot (Nat.ne_of_lt hlt) hnext⟩
    · -- only the start's slot holds its own position, and nothing is above it
      rename_i hstays
      obtain rfl := Classical.not_not.mp hstays
      refine Yields.done ?_
      rw [← hiff]
      refine iff_of_false Bool.false_ne_true fun hclimb => ?_
      rcases Nat.lt_or_eq_of_le hq_le with hbelow | rfl
      · exact Nat.lt_irrefl _ (h.slot_lt _ _ hbelow hnext)
      · exact Nat.ne_of_gt hlt (h.eq_start_of_climbs hclimb)
  · rename_i hge
    refine Yields.done ?_
    rw [← hiff, beq_iff_eq]
    constructor
    · rintro rfl
      exact Slots.Climbs.refl s q
    · intro hclimb
      have := h.le_of_climbs hclimb
      omega

namespace Shows

variable {d : Dominators} {f : Procedure} {direction : Direction} {options : Dominance.Options}
  {start a b : NodeId} {p : Nat}

/-- Positions are those of the order. -/
theorem position?_eq (h : d.Shows f direction options) (hf : f.Built) (b : NodeId) :
    d.position? b = (BlockOrder.of f direction).position? b := by
  rw [Dominators.position?]
  split
  · exact h.order.position? b
  · rename_i hvalid
    rw [h.valid_iff] at hvalid
    refine (Option.eq_none_iff_forall_ne_some.mpr fun p hp => hvalid ?_).symm
    obtain ⟨start, hstart, -⟩ := (BlockOrder.exists_position?_iff hf).mp ⟨p, hp⟩
    exact ⟨start, hstart⟩

theorem startPosition?_eq (h : d.Shows f direction options) (hf : f.Built)
    (hstart : direction.start? f = some start) :
    d.startPosition? = some ((BlockOrder.of f direction).size - 1) := by
  have hpos : 1 ≤ (BlockOrder.of f direction).size :=
    Nat.zero_lt_of_lt (BlockOrder.position?_lt (BlockOrder.position?_start hf hstart))
  rw [Dominators.startPosition?, h.valid_iff.mpr ⟨start, hstart⟩, h.order.order_eq,
    decide_eq_true hpos]
  rfl

theorem blockAt_eq (h : d.Shows f direction options)
    (hb : (BlockOrder.of f direction).position? b = some p) : d.blockAt p = pure b := by
  rw [Dominators.blockAt, h.order.order_eq]
  exact fetch_eq ((List.getElem?_toArray ..).trans (BlockOrder.position?_of.mp hb))

/-- Above the start there is nothing. -/
theorem above_start (h : d.Shows f direction options) (hf : f.Built)
    (hstart : direction.start? f = some start) :
    d.above ((BlockOrder.of f direction).size - 1) = pure none := by
  rw [Dominators.above, h.startPosition?_eq hf hstart, if_pos rfl]

/-- Above any other position there is its slot. -/
theorem above_slot {q : Nat} (h : d.Shows f direction options) (hf : f.Built)
    (hstart : direction.start? f = some start) (hp : p < (BlockOrder.of f direction).size - 1)
    (hq : (Idoms.of f (.of f direction)).slots.slot? p = some q) : d.above p = pure (some q) := by
  have hne : some p ≠ some ((BlockOrder.of f direction).size - 1) := by
    intro heq
    have := Option.some.inj heq
    omega
  rw [Dominators.above, h.startPosition?_eq hf hstart, if_neg hne, h.slots_eq,
    fetch_slot (Slots.lt_size_of_isKnown (Slots.isKnown_of_slot hq)), hq]

theorem start?_eq (h : d.Shows f direction options) (hf : f.Built) :
    d.start? = pure (Idoms.of f (.of f direction)).start? := by
  rw [Dominators.start?, Idoms.start?, Idoms.order_of]
  cases hstart : direction.start? f with
  | none =>
      have hvalid : d.valid = false := by
        refine Bool.eq_false_iff.mpr fun hvalid => ?_
        obtain ⟨start, hsome⟩ := h.valid_iff.mp hvalid
        exact Option.some_ne_none start (hsome.symm.trans hstart)
      have hempty : (BlockOrder.of f direction).postorder = [] := by rw [BlockOrder.of, hstart]
      rw [Dominators.startPosition?, hvalid, hempty]
      rfl
  | some start =>
      have hlast := BlockOrder.position?_start hf hstart
      rw [h.startPosition?_eq hf hstart, List.getLast?_eq_getElem?]
      show some <$> d.blockAt _ = pure (BlockOrder.of f direction).postorder[_]?
      rw [h.blockAt_eq hlast, map_pure]
      exact congrArg pure (BlockOrder.position?_of.mp hlast).symm

theorem idom?_eq (h : d.Shows f direction options) (hf : f.Built) (b : NodeId) :
    d.idom? b = pure ((Idoms.of f (.of f direction)).idom? b) := by
  rw [Dominators.idom?, h.position?_eq hf]
  cases hb : (BlockOrder.of f direction).position? b with
  | none =>
      rw [Idoms.idom?, Idoms.order_of, hb]
      rfl
  | some p =>
      obtain ⟨start, hstart, -⟩ := (BlockOrder.exists_position?_iff hf).mp ⟨p, hb⟩
      show (d.above p >>= _) = _
      by_cases hne : b = start
      · subst hne
        obtain rfl := Option.some.inj (hb.symm.trans (BlockOrder.position?_start hf hstart))
        rw [h.above_start hf hstart, pure_bind, Idoms.idom?_start hf hstart]
      · obtain ⟨q, c, hlt, hq, hc, hidom⟩ := Idoms.exists_slot hf hstart hb hne
        rw [h.above_slot hf hstart hlt hq, pure_bind, hidom]
        show some <$> d.blockAt q = _
        rw [h.blockAt_eq hc, map_pure]

/-- The chain is put together from the positions that a climb comes by. -/
theorem chain_eq (h : d.Shows f direction options) (hf : f.Built) (b : NodeId) :
    d.chain b = pure ((Idoms.of f (.of f direction)).chain b) := by
  rw [Dominators.chain, h.position?_eq hf]
  -- what is listed so far and what is still to come make up the chain
  refine Yields.eq_pure (Yields.loop
    (P := fun s => s.1 = none ∧ s.2 = (Idoms.of f (.of f direction)).chain b ∨
      ∃ p c, s.1 = some p ∧ (BlockOrder.of f direction).position? c = some p ∧
        s.2 ++ (Idoms.of f (.of f direction)).chain c = (Idoms.of f (.of f direction)).chain b)
    (fun s => (s.1.map fun p => (BlockOrder.of f direction).size + 1 - p).getD 0) ?_ ?_)
  · rintro ⟨next, listed⟩ (⟨rfl, hlisted⟩ | ⟨p, c, rfl, hc, hlisted⟩)
    · exact Yields.done hlisted
    · obtain ⟨start, hstart, -⟩ := (BlockOrder.exists_position?_iff hf).mp ⟨p, hc⟩
      have hp := BlockOrder.position?_lt hc
      show Yields (d.blockAt p >>= _) _
      rw [h.blockAt_eq hc, pure_bind]
      by_cases hne : c = start
      · subst hne
        have hreached := (BlockOrder.exists_position?_iff hf).mp ⟨p, hc⟩
        obtain rfl := Option.some.inj (hc.symm.trans (BlockOrder.position?_start hf hstart))
        rw [Idoms.chain_of_idom?_none hf hreached (Idoms.idom?_start hf hstart)] at hlisted
        rw [h.above_start hf hstart, pure_bind]
        refine Yields.next ?_
        refine ⟨.inl ⟨rfl, hlisted⟩, ?_⟩
        show 0 < (BlockOrder.of f direction).size + 1 - ((BlockOrder.of f direction).size - 1)
        omega
      · obtain ⟨q, c', hlt, hq, hc', hidom⟩ := Idoms.exists_slot hf hstart hc hne
        have hup := (Idoms.settled_slots hf hstart).rising.slot_lt p q hlt hq
        rw [Idoms.chain_of_idom? hf hidom] at hlisted
        rw [h.above_slot hf hstart hlt hq, pure_bind]
        refine Yields.next ?_
        refine ⟨.inr ⟨q, c', rfl, hc', ?_⟩, ?_⟩
        · rw [List.append_assoc]
          exact hlisted
        · show (BlockOrder.of f direction).size + 1 - q < (BlockOrder.of f direction).size + 1 - p
          omega
  · cases hb : (BlockOrder.of f direction).position? b with
    | none => exact .inl ⟨rfl, (Idoms.chain_of_none hb).symm⟩
    | some p => exact .inr ⟨p, b, rfl, hb, rfl⟩

/-- A reachable block is in its own chain, so that one can be taken from its length. -/
theorem depth?_eq (h : d.Shows f direction options) (hf : f.Built) (b : NodeId) :
    d.depth? b = pure ((Idoms.of f (.of f direction)).depth? b) := by
  rw [Dominators.depth?, h.position?_eq hf, Idoms.depth?, Idoms.order_of]
  cases hb : (BlockOrder.of f direction).position? b with
  | none => rfl
  | some p =>
      have hreached := (BlockOrder.exists_position?_iff hf).mp ⟨p, hb⟩
      have hself := (Idoms.mem_chain_iff hf).mpr hreached.dominates_self
      show (d.chain b >>= _) = _
      rw [h.chain_eq hf, pure_bind, minus_eq (List.length_pos_of_mem hself), map_pure]
      rfl

theorem pairs_eq (h : d.Shows f direction options) (hf : f.Built) :
    d.pairs = pure (Idoms.of f (.of f direction)).pairs := by
  rw [Dominators.pairs, h.order.order_eq, Idoms.pairs, Idoms.order_of, List.flatMap_eq_foldl]
  refine Yields.eq_pure (Yields.foldlM (R := fun found plain => found = plain) ?_ rfl)
  rintro block - found _ rfl
  rw [h.chain_eq hf, pure_bind]
  exact Yields.pure rfl

/-- Either way a dominance question decides dominance. -/
theorem dominates_yields (h : d.Shows f direction options) (hf : f.Built) (a b : NodeId) :
    Yields (d.dominates a b) fun answer => answer = true ↔ a = b ∨ direction.Dominates f a b := by
  rw [Dominators.dominates]
  by_cases hab : a = b
  · rw [if_pos hab]
    exact Yields.pure (iff_of_true rfl (.inl hab))
  · rw [if_neg hab, h.position?_eq hf, h.position?_eq hf]
    have hunordered : ¬ (direction.Reached f a ∧ direction.Reached f b) →
        ((false = true) ↔ a = b ∨ direction.Dominates f a b) := by
      intro hnot
      refine iff_of_false Bool.false_ne_true ?_
      rintro (heq | hdom)
      · exact hab heq
      · exact hnot hdom.reached
    cases ha : (BlockOrder.of f direction).position? a with
    | none =>
        refine Yields.pure (hunordered fun hreached => ?_)
        obtain ⟨q, hq⟩ := (BlockOrder.exists_position?_iff hf).mpr hreached.1
        exact nomatch ha.symm.trans hq
    | some q =>
        cases hb : (BlockOrder.of f direction).position? b with
        | none =>
            refine Yields.pure (hunordered fun hreached => ?_)
            obtain ⟨p, hp⟩ := (BlockOrder.exists_position?_iff hf).mpr hreached.2
            exact nomatch hb.symm.trans hp
        | some p =>
            obtain ⟨start, hstart, -⟩ := (BlockOrder.exists_position?_iff hf).mp ⟨p, hb⟩
            show Yields (if d.options.pairs = true then _ else _) _
            rw [or_iff_right hab]
            split
            · rw [h.pairs_eq hf, pure_bind]
              refine Yields.pure ?_
              rw [List.contains_iff_mem]
              exact Idoms.mem_pairs_iff hf
            · rw [h.slots_eq]
              refine (meets_yields (Idoms.settled_slots hf hstart).rising
                (Idoms.isKnown_of_position? hf hstart hb)).mono fun answer hanswer => ?_
              exact hanswer.trans (Idoms.climbs_iff_dominates hf ha hb)

theorem dominates_eq (h : d.Shows f direction options) (hf : f.Built) (a b : NodeId) :
    d.dominates a b = pure ((Dominance.of f direction options).dominates a b) := by
  refine Yields.eq_pure ((h.dominates_yields hf a b).mono fun answer hanswer => ?_)
  rw [Bool.eq_iff_iff, hanswer, Dominance.dominates_iff hf]

/-- Tables that hold what the plain analysis holds answer as it does. -/
theorem answers (h : d.Shows f direction options) (hf : f.Built) :
    d.Answers (Dominance.of f direction options) where
  start? := h.start?_eq hf
  isReachable b := by
    rw [Dominators.isReachable, h.position?_eq hf, Idoms.isReachable, Dominance.order_of]
    rfl
  postorder := by
    rw [Dominators.postorder, Dominance.order_of, h.order.order_eq]
    split
    · rfl
    · rename_i hvalid
      rw [h.valid_iff] at hvalid
      rw [BlockOrder.of]
      cases hstart : direction.start? f with
      | none => rfl
      | some start => exact absurd ⟨start, hstart⟩ hvalid
  idom? := h.idom?_eq hf
  chain := h.chain_eq hf
  depth? := h.depth?_eq hf
  dominates := h.dominates_eq hf
  strictlyDominates a b := by
    rw [Dominators.strictlyDominates, Dominance.strictlyDominates]
    cases a != b with
    | false => rfl
    | true => exact h.dominates_eq hf a b
  tree := h.tree

end Shows

end Dominators

end ControlFlow.Guarded
