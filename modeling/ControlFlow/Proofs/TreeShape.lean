import ControlFlow.Proofs.Guarded.Dominators

/-!
# The shape of a dominator tree

    The nodes of the tree stand for the reached blocks, the start first, and hang
    together as the immediate dominators of the blocks say (`Represents`).

    A block has a position in the postorder and a node in the tree, and the two
    numbers run against each other: `p + i + 1` is the number of blocks.  Going from a
    node to its parent is then going from a position to its slot, except that the root
    has no parent where the start's slot holds the start (`hasParent_iff_slot`).  So
    what is above a node in the tree is what lies on the climb from its position
    (`reflTransGen_iff_climbs`), and climbs are dominance.
-/

namespace ControlFlow

namespace DomTree

/-- A node has another one as its parent. -/
def HasParent (t : DomTree) (i j : Nat) : Prop :=
  ∃ node, t.node? i = some node ∧ node.parent = some j

/-- The node of `a` is the node of `b` or is found above it, going from parent to
    parent. -/
def IsAncestor (t : DomTree) (a b : NodeId) : Prop :=
  ∃ i j, t.block? i = some a ∧ t.block? j = some b ∧ Relation.ReflTransGen t.HasParent j i

/-- The tree has one node for each reached block, and they hang together as the
    dominators of the blocks do. -/
structure Represents (t : DomTree) (f : Procedure) (direction : Direction) (start : NodeId)
    (d : Dominance) : Prop where
  /-- No block has two nodes. -/
  nodup_blocks : (t.nodes.toList.map Node.block).Nodup
  mem_blocks_iff : ∀ b, b ∈ t.nodes.toList.map Node.block ↔ direction.Reached f b
  root : t.root?.map Node.block = some start
  parent_eq_none_iff : ∀ i node, t.node? i = some node → (node.parent = none ↔ i = 0)
  parent_lt : ∀ i node j, t.node? i = some node → node.parent = some j → j < i
  /-- Children are numbered nodes, and know their parent. -/
  mem_children_iff : ∀ i node j, t.node? i = some node →
    (j ∈ node.children ↔ ∃ child, t.node? j = some child ∧ child.parent = some i)
  children_ascending : ∀ i node, t.node? i = some node → node.children.Pairwise (· < ·)
  /-- Asked by block, the tree knows children by their immediate dominators. -/
  mem_children_iff_idom? : ∀ a b, b ∈ t.children a ↔ t.idom? b = some a
  idom?_eq : ∀ b, t.idom? b = d.idom? b
  isAncestor_iff : ∀ a b, direction.Reached f a → direction.Reached f b →
    (t.IsAncestor a b ↔ d.dominates a b = true)

variable {order : BlockOrder} {slots : Slots} {i j p q : Nat} {a b : NodeId} {node : Node}

/-! ## Parents and children by number -/

theorem hasParent_iff : (of order slots).HasParent i j ↔
    i < order.size ∧ parentOf slots order.size i = some j := by
  constructor
  · rintro ⟨node, hnode, hparent⟩
    refine ⟨lt_size_of_node? hnode, ?_⟩
    rw [node?_of] at hnode
    obtain ⟨block, -, rfl⟩ := Option.map_eq_some_iff.mp hnode
    exact hparent
  · rintro ⟨hi, hparent⟩
    rw [← size_of order slots] at hi
    have hnode : (of order slots).node? i = some (of order slots).nodes[i] :=
      Array.getElem?_eq_getElem hi
    refine ⟨_, hnode, ?_⟩
    rw [node?_of] at hnode
    obtain ⟨block, -, heq⟩ := Option.map_eq_some_iff.mp hnode
    rw [← heq]
    exact hparent

/-- The children of a node are the nodes that have it as their parent. -/
theorem mem_children (h : (of order slots).node? i = some node) :
    j ∈ node.children ↔ (of order slots).HasParent j i := by
  rw [hasParent_iff]
  rw [node?_of] at h
  obtain ⟨block, -, rfl⟩ := Option.map_eq_some_iff.mp h
  rw [List.mem_filter, List.mem_range, beq_iff_eq]

theorem pairwise_children (h : (of order slots).node? i = some node) :
    node.children.Pairwise (· < ·) := by
  rw [node?_of] at h
  obtain ⟨block, -, rfl⟩ := Option.map_eq_some_iff.mp h
  exact List.pairwise_lt_range.filter _

/-- The parent of a node is the node of its slot. -/
theorem hasParent_iff_slot (h : Slots.Rising slots (order.size - 1)) (hp : p + i + 1 = order.size)
    (hq : q + j + 1 = order.size) :
    (of order slots).HasParent i j ↔ i ≠ 0 ∧ slots.slot? p = some q := by
  rw [hasParent_iff]
  constructor
  · rintro ⟨hi, hparent⟩
    have hne : i ≠ 0 := by
      rintro rfl
      rw [parentOf, if_pos rfl] at hparent
      cases hparent
    rw [parentOf, if_neg hne, show order.size - 1 - i = p by omega] at hparent
    obtain ⟨r, hr, hrj⟩ := Option.map_eq_some_iff.mp hparent
    -- different positions have different nodes
    have hle := h.le_start (h.slot_known p r hr)
    obtain rfl : r = q := by omega
    exact ⟨hne, hr⟩
  · rintro ⟨hne, hslot⟩
    rw [parentOf_of_slot hp hne hslot, show order.size - 1 - q = j by omega]
    exact ⟨by omega, rfl⟩

/-- Where all slots are known, only the root has no parent. -/
theorem parent_eq_none_iff (h : Slots.Rising slots (order.size - 1))
    (hknown : ∀ p, p ≤ order.size - 1 → slots.isKnown p = true)
    (hnode : (of order slots).node? i = some node) : node.parent = none ↔ i = 0 := by
  have hi := lt_size_of_node? hnode
  constructor
  · intro hnone
    by_contra hne
    obtain ⟨q, hq⟩ := Slots.isKnown_iff.mp (hknown (order.size - 1 - i) (by omega))
    have hle := h.le_start (h.slot_known _ q hq)
    obtain ⟨node', hnode', hparent⟩ :=
      (hasParent_iff_slot h (j := order.size - 1 - q) (by omega) (by omega)).mpr ⟨hne, hq⟩
    obtain rfl : node = node' := Option.some.inj (hnode.symm.trans hnode')
    cases hnone.symm.trans hparent
  · rintro rfl
    rw [node?_of] at hnode
    obtain ⟨block, -, rfl⟩ := Option.map_eq_some_iff.mp hnode
    show parentOf slots order.size 0 = none
    exact if_pos rfl

theorem parent_lt_child (h : Slots.Rising slots (order.size - 1))
    (hparent : (of order slots).HasParent i j) : j < i := by
  obtain ⟨hi, hparentOf⟩ := hasParent_iff.mp hparent
  exact parentOf_lt h hi hparentOf

/-! ## Ancestors -/

/-- What is above a node is what lies on the climb from its position. -/
theorem reflTransGen_iff_climbs (h : Slots.Rising slots (order.size - 1))
    (hp : p + i + 1 = order.size) (hq : q + j + 1 = order.size) :
    Relation.ReflTransGen (of order slots).HasParent i j ↔ slots.Climbs p q := by
  constructor
  · intro habove
    induction habove using Relation.ReflTransGen.head_induction_on generalizing p with
    | refl =>
        obtain rfl : p = q := by omega
        exact Slots.Climbs.refl slots p
    | @head i k hparent _ ih =>
        have hlt := parent_lt_child h hparent
        obtain ⟨-, hslot⟩ :=
          (hasParent_iff_slot h (q := order.size - 1 - k) hp (by omega)).mp hparent
        have hrest : slots.Climbs (order.size - 1 - k) q := ih (by omega)
        exact hrest.head hslot
  · intro hclimb
    induction hclimb using Relation.ReflTransGen.head_induction_on generalizing i with
    | refl =>
        obtain rfl : i = j := by omega
        exact .refl
    | @head p r hslot _ ih =>
        have hle := h.le_start (h.slot_known p r hslot)
        by_cases hi : i = 0
        · -- the start's slot leads nowhere
          obtain rfl : p = order.size - 1 := by omega
          obtain rfl : order.size - 1 = r := Option.some.inj (h.slot_start.symm.trans hslot)
          exact ih hp
        · have hparent : (of order slots).HasParent i (order.size - 1 - r) :=
            (hasParent_iff_slot h hp (by omega)).mpr ⟨hi, hslot⟩
          exact .head hparent (ih (by omega))

/-! ## Questions by block -/

theorem block?_eq_some_iff_node? {t : DomTree} :
    t.block? i = some b ↔ ∃ node, t.node? i = some node ∧ node.block = b :=
  Option.map_eq_some_iff

/-- The immediate dominator in the tree is the block of the parent. -/
theorem idom?_eq_some (h : order.postorder.Nodup) : (of order slots).idom? b = some a ↔
    ∃ i j, (of order slots).block? i = some b ∧ (of order slots).HasParent i j ∧
      (of order slots).block? j = some a := by
  rw [idom?, Option.bind_eq_some_iff]
  constructor
  · rintro ⟨j, hparent, ha⟩
    obtain ⟨node, hnode, hj⟩ := Option.bind_eq_some_iff.mp hparent
    obtain ⟨i, hi, hb⟩ := (nodeOf?_eq_some h).mp hnode
    exact ⟨i, j, block?_eq_some_iff_node?.mpr ⟨node, hi, hb⟩, ⟨node, hi, hj⟩, ha⟩
  · rintro ⟨i, j, hb, ⟨node, hi, hj⟩, ha⟩
    obtain ⟨node', hi', hb'⟩ := block?_eq_some_iff_node?.mp hb
    obtain rfl : node = node' := Option.some.inj (hi.symm.trans hi')
    refine ⟨j, Option.bind_eq_some_iff.mpr ⟨node, ?_, hj⟩, ha⟩
    exact (nodeOf?_eq_some h).mpr ⟨i, hi, hb'⟩

theorem mem_children_iff_idom? (h : order.postorder.Nodup) :
    b ∈ (of order slots).children a ↔ (of order slots).idom? b = some a := by
  rw [idom?_eq_some h, children]
  constructor
  · intro hmem
    cases hnode : (of order slots).nodeOf? a with
    | none =>
        rw [hnode] at hmem
        exact absurd hmem List.not_mem_nil
    | some node =>
        rw [hnode, Option.map_some, Option.getD_some] at hmem
        obtain ⟨i, hchild, hb⟩ := List.mem_filterMap.mp hmem
        obtain ⟨j, hj, ha⟩ := (nodeOf?_eq_some h).mp hnode
        exact ⟨i, j, hb, (mem_children hj).mp hchild, block?_eq_some_iff_node?.mpr ⟨node, hj, ha⟩⟩
  · rintro ⟨i, j, hb, hparent, ha⟩
    obtain ⟨node, hj, hblock⟩ := block?_eq_some_iff_node?.mp ha
    rw [(nodeOf?_eq_some h).mpr ⟨j, hj, hblock⟩, Option.map_some, Option.getD_some]
    exact List.mem_filterMap.mpr ⟨i, (mem_children hj).mpr hparent, hb⟩

end DomTree

/-! ## The tree of a built procedure -/

section Built

variable {f : Procedure} {direction : Direction} {start a b : NodeId} {i : Nat}

/-- The immediate dominator of a block, by positions. -/
theorem Idoms.idom?_eq_some_iff_slot : (of f (.of f direction)).idom? b = some a ↔
    ∃ p q, (BlockOrder.of f direction).position? b = some p ∧
      p ≠ (BlockOrder.of f direction).size - 1 ∧
      (of f (.of f direction)).slots.slot? p = some q ∧
      (BlockOrder.of f direction).position? a = some q := by
  rw [idom?, order_of, startPosition_of, Option.bind_eq_some_iff]
  constructor
  · rintro ⟨p, hp, hidom⟩
    by_cases hne : p = (BlockOrder.of f direction).size - 1
    · rw [if_pos hne] at hidom
      cases hidom
    · rw [if_neg hne, Option.bind_eq_some_iff] at hidom
      obtain ⟨q, hq, ha⟩ := hidom
      rw [block?, order_of] at ha
      exact ⟨p, q, hp, hne, hq, BlockOrder.position?_of.mpr ha⟩
  · rintro ⟨p, q, hp, hne, hq, ha⟩
    refine ⟨p, hp, ?_⟩
    rw [if_neg hne, hq, Option.bind_some, block?, order_of]
    exact BlockOrder.position?_of.mp ha

namespace DomTree

/-- The node of a block and its position. -/
theorem block?_eq_some_iff_position? {slots : Slots} :
    (of (.of f direction) slots).block? i = some b ↔
      ∃ p, p + i + 1 = (BlockOrder.of f direction).size ∧
        (BlockOrder.of f direction).position? b = some p := by
  rw [block?_eq_some]
  exact exists_congr fun p => and_congr_right fun _ => BlockOrder.position?_of.symm

/-- The tree finds the immediate dominators. -/
theorem idom?_eq_idom? (hf : f.Built) (hstart : direction.start? f = some start) (b : NodeId) :
    (of (.of f direction) (Idoms.of f (.of f direction)).slots).idom? b =
      (Idoms.of f (.of f direction)).idom? b := by
  have hrising := (Idoms.settled_slots hf hstart).rising
  refine Option.ext fun a => ?_
  rw [idom?_eq_some (BlockOrder.nodup_of f direction), Idoms.idom?_eq_some_iff_slot]
  constructor
  · rintro ⟨i, j, hi, hparent, hj⟩
    obtain ⟨p, hp, hb⟩ := block?_eq_some_iff_position?.mp hi
    obtain ⟨q, hq, ha⟩ := block?_eq_some_iff_position?.mp hj
    obtain ⟨hne, hslot⟩ := (hasParent_iff_slot hrising hp hq).mp hparent
    exact ⟨p, q, hb, by omega, hslot, ha⟩
  · rintro ⟨p, q, hb, hne, hslot, ha⟩
    have hplt := BlockOrder.position?_lt hb
    have hqlt := BlockOrder.position?_lt ha
    refine ⟨(BlockOrder.of f direction).size - 1 - p, (BlockOrder.of f direction).size - 1 - q,
      block?_eq_some_iff_position?.mpr ⟨p, by omega, hb⟩, ?_,
      block?_eq_some_iff_position?.mpr ⟨q, by omega, ha⟩⟩
    exact (hasParent_iff_slot hrising (by omega) (by omega)).mpr ⟨by omega, hslot⟩

/-- The ancestors in the tree are the dominators. -/
theorem isAncestor_iff_dominates (hf : f.Built) (hstart : direction.start? f = some start)
    (ha : direction.Reached f a) (hb : direction.Reached f b) :
    (of (.of f direction) (Idoms.of f (.of f direction)).slots).IsAncestor a b ↔
      direction.Dominates f a b := by
  have hrising := (Idoms.settled_slots hf hstart).rising
  obtain ⟨q, hq⟩ := (BlockOrder.exists_position?_iff hf).mpr ha
  obtain ⟨p, hp⟩ := (BlockOrder.exists_position?_iff hf).mpr hb
  rw [← Idoms.climbs_iff_dominates hf hq hp]
  constructor
  · rintro ⟨i, j, hi, hj, habove⟩
    obtain ⟨q', hqi, hq'⟩ := block?_eq_some_iff_position?.mp hi
    obtain ⟨p', hpj, hp'⟩ := block?_eq_some_iff_position?.mp hj
    obtain rfl : q = q' := Option.some.inj (hq.symm.trans hq')
    obtain rfl : p = p' := Option.some.inj (hp.symm.trans hp')
    exact (reflTransGen_iff_climbs hrising hpj hqi).mp habove
  · intro hclimb
    have hqlt := BlockOrder.position?_lt hq
    have hplt := BlockOrder.position?_lt hp
    refine ⟨(BlockOrder.of f direction).size - 1 - q, (BlockOrder.of f direction).size - 1 - p,
      block?_eq_some_iff_position?.mpr ⟨q, by omega, hq⟩,
      block?_eq_some_iff_position?.mpr ⟨p, by omega, hp⟩, ?_⟩
    exact (reflTransGen_iff_climbs hrising (by omega) (by omega)).mpr hclimb

theorem represents_of (hf : f.Built) (hstart : direction.start? f = some start)
    (options : Dominance.Options) :
    (of (.of f direction) (Idoms.of f (.of f direction)).slots).Represents f direction start
      (.of f direction options) where
  nodup_blocks := by
    rw [map_block_nodes]
    exact List.nodup_reverse.mpr (BlockOrder.nodup_of f direction)
  mem_blocks_iff b := by
    rw [map_block_nodes, BlockOrder.reversePostorder, List.mem_reverse]
    exact BlockOrder.mem_postorder_iff_reached hf
  root := by
    have hlast := BlockOrder.position?_start hf hstart
    have hpos := BlockOrder.position?_lt hlast
    exact block?_eq_some_iff_position?.mpr ⟨_, by omega, hlast⟩
  parent_eq_none_iff i node hnode :=
    parent_eq_none_iff (Idoms.settled_slots hf hstart).rising (Idoms.settled_slots hf hstart).known
      hnode
  parent_lt i node j hnode hparent :=
    parent_lt_child (Idoms.settled_slots hf hstart).rising ⟨node, hnode, hparent⟩
  mem_children_iff i node j hnode := mem_children hnode
  children_ascending i node hnode := pairwise_children hnode
  mem_children_iff_idom? a b := mem_children_iff_idom? (BlockOrder.nodup_of f direction)
  idom?_eq b := idom?_eq_idom? hf hstart b
  isAncestor_iff a b ha hb := by
    rw [isAncestor_iff_dominates hf hstart ha hb, Dominance.dominates_iff hf]
    constructor
    · exact .inr
    · rintro (rfl | hdom)
      · exact ha.dominates_self
      · exact hdom

end DomTree

namespace Dominance

/-- The tree that is asked for is there whenever the start block is set, and represents
    the dominators; it is the one that comes of attaching node after node. -/
theorem tree_represents_dominators (hf : f.Built) (direction : Direction) (options : Options)
    (htree : options.tree = true) (hstart : direction.start? f = some start) :
    ∃ t, (of f direction options).tree = some t ∧
      t.Represents f direction start (of f direction options) ∧
      Guarded.Yields (Guarded.dominators f direction options) fun d =>
        ∃ attached, d.tree = some attached ∧ attached.Answers t := by
  have heq := tree_of hf hstart options
  rw [if_pos htree] at heq
  refine ⟨_, heq, DomTree.represents_of hf hstart options, ?_⟩
  refine (Guarded.dominators_shows hf direction options).mono fun d hd => ?_
  have hrel := hd.tree
  rw [heq] at hrel
  cases htable : d.tree with
  | none =>
      rw [htable] at hrel
      cases hrel
  | some attached =>
      rw [htable] at hrel
      cases hrel with
      | some hanswers => exact ⟨attached, rfl, hanswers⟩

/-- In the tree of the loop with two entries both blocks of the loop are children of the
    entry, and the block behind the loop is below one of them. -/
theorem tree_twoEntryLoop :
    Procedure.twoEntryLoop.Built ∧ Direction.forward.start? .twoEntryLoop = some 0 ∧
      ∃ t, (of .twoEntryLoop .forward ⟨true, false⟩).tree = some t ∧
        t.Represents .twoEntryLoop .forward 0 (of .twoEntryLoop .forward ⟨true, false⟩) ∧
        t.idom? 1 = some 0 ∧ t.idom? 2 = some 0 ∧ 3 ∈ t.children 2 := by
  have hstart : Direction.forward.start? .twoEntryLoop = some 0 := by decide +kernel
  have hone : (of .twoEntryLoop .forward ⟨true, false⟩).idom? 1 = some 0 := by decide +kernel
  have htwo : (of .twoEntryLoop .forward ⟨true, false⟩).idom? 2 = some 0 := by decide +kernel
  have hthree : (of .twoEntryLoop .forward ⟨true, false⟩).idom? 3 = some 2 := by decide +kernel
  obtain ⟨t, ht, hrepresents, -⟩ :=
    tree_represents_dominators Procedure.built_twoEntryLoop .forward ⟨true, false⟩ rfl hstart
  refine ⟨Procedure.built_twoEntryLoop, hstart, t, ht, hrepresents,
    (hrepresents.idom?_eq 1).trans hone, (hrepresents.idom?_eq 2).trans htwo, ?_⟩
  exact (hrepresents.mem_children_iff_idom? 2 3).mpr ((hrepresents.idom?_eq 3).trans hthree)

end Dominance

end Built

end ControlFlow
