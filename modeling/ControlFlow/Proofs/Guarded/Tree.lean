import ControlFlow.Proofs.Guarded.Slots
import ControlFlow.Proofs.Tree

/-!
# Building the dominator tree with every access checked

    The tree is built in place.  All nodes are there from the beginning, without
    parents and children; then the positions are passed from below the start
    downwards, and each node is attached to the one of its slot.  When the first
    `k` nodes are attached the tree is `grown k`, which says what every node looks
    like by then; attaching node `k` takes it to `grown (k + 1)`, and when all nodes
    are attached it is the dominator tree.

    Slots hold positions up to the start, so that the differences that turn them
    into node numbers are never below zero.
-/

namespace ControlFlow.Guarded

open DomTree (Node parentOf)

/-! ## Attaching nodes -/

/-- A tree with the node of every block in a table. -/
structure Tree where
  nodes : Array Node
  numbers : Array (Option Nat)

/-- The node of a position among `count`. -/
def nodeNumber (count position : Nat) : Guarded Nat := do
  let last ← minus count 1
  minus last position

/-- Attaches the node of a position to the node of its slot. -/
def attach (slots : Slots) (count position : Nat) (nodes : Array Node) : Guarded (Array Node) := do
  let slot ← fetch slots position
  match slot with
  | none => pure nodes
  | some above =>
      let child ← nodeNumber count position
      let parent ← nodeNumber count above
      let node ← fetch nodes child
      let nodes ← store nodes child { node with parent := some parent }
      let node ← fetch nodes parent
      store nodes parent { node with children := node.children ++ [child] }

/-- The dominator tree of an order of some of `count` blocks. -/
def tree (count : Nat) (order : BlockOrder) (slots : Slots) : Guarded Tree := do
  let numbers ← places count order.reversePostorder
  let last ← minus order.size 1
  let nodes ← (List.range last).foldrM (attach slots order.size)
    (order.reversePostorder.map fun block => { block := block, parent := none, children := [] }).toArray
  pure ⟨nodes, numbers⟩

section Attach

variable {order : BlockOrder} {slots : Slots} {i k p q : Nat} {block : NodeId}

/-- A node of the tree when the first `k` nodes are attached. -/
def nodeAt (order : BlockOrder) (slots : Slots) (k i : Nat) (block : NodeId) : Node where
  block := block
  parent := if i < k then parentOf slots order.size i else none
  children := (List.range k).filter fun child => parentOf slots order.size child == some i

/-- The tree when the first `k` nodes are attached. -/
def grown (order : BlockOrder) (slots : Slots) (k : Nat) : Array Node :=
  (order.reversePostorder.mapIdx (nodeAt order slots k)).toArray

theorem getElem?_grown : (grown order slots k)[i]? =
    (order.reversePostorder[i]?).map (nodeAt order slots k i) := by
  rw [grown, List.getElem?_toArray, List.getElem?_mapIdx]

theorem size_grown : (grown order slots k).size = order.size := by
  rw [grown, List.size_toArray, List.length_mapIdx, BlockOrder.reversePostorder, List.length_reverse]
  rfl

theorem exists_block_grown (h : i < order.size) : ∃ block, order.reversePostorder[i]? = some block := by
  refine ⟨_, List.getElem?_eq_getElem ?_⟩
  rw [BlockOrder.reversePostorder, List.length_reverse]
  exact h

/-- Attaching a node leaves a node alone that is neither it nor its parent. -/
theorem nodeAt_other (hk : parentOf slots order.size k ≠ some i) (hik : i ≠ k) :
    nodeAt order slots (k + 1) i block = nodeAt order slots k i block := by
  rw [nodeAt, nodeAt, if_congr (by omega : i < k + 1 ↔ i < k) rfl rfl, List.range_succ,
    List.filter_append, List.filter_singleton, beq_false_of_ne hk]
  simp

/-- Attaching a node gives its parent one child more. -/
theorem nodeAt_parent (hk : parentOf slots order.size k = some q) (hlt : q < k) :
    nodeAt order slots (k + 1) q block =
      { nodeAt order slots k q block with
        children := (nodeAt order slots k q block).children ++ [k] } := by
  rw [nodeAt, nodeAt, if_pos hlt, if_pos (Nat.lt_succ_of_lt hlt), List.range_succ,
    List.filter_append, List.filter_singleton, hk, beq_self_eq_true]
  rfl

/-- Attaching a node gives it its parent. -/
theorem nodeAt_child (hk : parentOf slots order.size k = some q) (hlt : q < k) :
    nodeAt order slots (k + 1) k block =
      { nodeAt order slots k k block with parent := some q } := by
  have hne : parentOf slots order.size k ≠ some k := by
    rw [hk]
    exact fun heq => Nat.ne_of_lt hlt (Option.some.inj heq)
  rw [nodeAt, nodeAt, if_pos (Nat.lt_succ_self k), List.range_succ, List.filter_append,
    List.filter_singleton, beq_false_of_ne hne, hk]
  simp

/-- The root is attached to nothing. -/
theorem grown_one : grown order slots 1 =
    (order.reversePostorder.map fun block =>
      { block := block, parent := none, children := [] }).toArray := by
  have hroot : parentOf slots order.size 0 = none := if_pos rfl
  refine Array.ext_getElem? fun i => ?_
  rw [getElem?_grown, List.getElem?_toArray, List.getElem?_map]
  congr 1
  funext block
  have hparent : (if i < 1 then parentOf slots order.size i else none) = none := by
    split
    · rename_i hi
      rw [Nat.lt_one_iff.mp hi, hroot]
    · rfl
  rw [nodeAt, hparent, List.range_one, List.filter_singleton, hroot]
  rfl

/-- With all nodes attached it is the dominator tree. -/
theorem grown_size : grown order slots order.size = (DomTree.of order slots).nodes := by
  refine Array.ext_getElem? fun i => ?_
  show _ = (DomTree.of order slots).node? i
  rw [getElem?_grown, DomTree.node?_of]
  cases hblock : order.reversePostorder[i]? with
  | none => rfl
  | some block =>
      have hi : i < order.size := by
        have hlt := (List.getElem?_eq_some_iff.mp hblock).1
        rwa [BlockOrder.reversePostorder, List.length_reverse] at hlt
      rw [Option.map_some, Option.map_some, nodeAt, if_pos hi]

/-- Attaching the node of a position takes the tree one node further. -/
theorem attach_grown (h : Slots.Rising slots (order.size - 1)) (hp : p + k + 1 = order.size)
    (hk : k ≠ 0) (hslot : slots.slot? p = some q) :
    attach slots order.size p (grown order slots k) = pure (grown order slots (k + 1)) := by
  have hpq := h.slot_lt p q (by omega) hslot
  have hq := h.le_start (h.slot_known p q hslot)
  have hparent := DomTree.parentOf_of_slot hp hk hslot
  have hchild : order.size - 1 - p = k := by omega
  have hlt : order.size - 1 - q < k := by omega
  obtain ⟨block, hblock⟩ := exists_block_grown (show k < order.size by omega)
  obtain ⟨above, habove⟩ := exists_block_grown (show order.size - 1 - q < order.size by omega)
  have hfetch : (grown order slots k)[k]? = some (nodeAt order slots k k block) := by
    rw [getElem?_grown, hblock, Option.map_some]
  have hfetch' : ∀ node, ((grown order slots k).setIfInBounds k node)[order.size - 1 - q]? =
      some (nodeAt order slots k (order.size - 1 - q) above) := by
    intro node
    rw [Array.getElem?_setIfInBounds_ne (Nat.ne_of_gt hlt), getElem?_grown, habove, Option.map_some]
  have hsize : k < (grown order slots k).size := by rw [size_grown]; omega
  have hsize' : ∀ node, order.size - 1 - q < ((grown order slots k).setIfInBounds k node).size := by
    intro node
    rw [Array.size_setIfInBounds, size_grown]
    omega
  rw [attach, fetch_slot (by rw [h.size_eq]; omega), hslot, pure_bind]
  simp only [nodeNumber, minus_eq (show 1 ≤ order.size by omega), pure_bind,
    minus_eq (show p ≤ order.size - 1 by omega), minus_eq hq, hchild, fetch_eq hfetch,
    store_eq hsize, fetch_eq (hfetch' _), store_eq (hsize' _)]
  congr 1
  refine Array.ext_getElem? fun i => ?_
  rw [getElem?_grown]
  by_cases hiq : order.size - 1 - q = i
  · subst hiq
    rw [Array.getElem?_setIfInBounds_self_of_lt (hsize' _), habove, Option.map_some,
      nodeAt_parent hparent hlt]
  · rw [Array.getElem?_setIfInBounds_ne hiq]
    by_cases hik : k = i
    · subst hik
      rw [Array.getElem?_setIfInBounds_self_of_lt hsize, hblock, Option.map_some,
        nodeAt_child hparent hlt]
    · rw [Array.getElem?_setIfInBounds_ne hik, getElem?_grown]
      congr 1
      funext other
      refine (nodeAt_other ?_ (Ne.symm hik)).symm
      rw [hparent]
      exact fun heq => hiq (Option.some.inj heq)

end Attach

/-! ## Questions -/

namespace Tree

/-- The node with the given number. -/
def node? (t : Tree) (index : Nat) : Option Node :=
  t.nodes[index]?

/-- The node of the start block. -/
def root (t : Tree) : Guarded Node :=
  fetch t.nodes 0

/-- The node of a block; none for blocks that have no entry. -/
def nodeOf? (t : Tree) (block : NodeId) : Option Node :=
  (place? t.numbers block).bind t.node?

/-- The blocks a block dominates immediately. -/
def children (t : Tree) (block : NodeId) : Guarded (List NodeId) :=
  match t.nodeOf? block with
  | none => pure []
  | some node => node.children.mapM fun child => Node.block <$> fetch t.nodes child

/-- The immediate dominator of a block. -/
def idom? (t : Tree) (block : NodeId) : Guarded (Option NodeId) :=
  match (t.nodeOf? block).bind (·.parent) with
  | none => pure none
  | some parent => (fun node => some node.block) <$> fetch t.nodes parent

/-- The tree answers every question, without a fault, as another does. -/
structure Answers (t : Tree) (plain : DomTree) : Prop where
  node? : ∀ index, t.node? index = plain.node? index
  root : ∃ node, plain.root? = some node ∧ t.root = pure node
  nodeOf? : ∀ block, t.nodeOf? block = plain.nodeOf? block
  children : ∀ block, t.children block = pure (plain.children block)
  idom? : ∀ block, t.idom? block = pure (plain.idom? block)

end Tree

section Questions

variable {order : BlockOrder} {slots : Slots} {t : Tree}

/-- Fetching the blocks of nodes that exist. -/
theorem mapM_fetch {nodes : Array Node} {plain : DomTree} (hnodes : nodes = plain.nodes)
    (numbers : List Nat) (h : ∀ i ∈ numbers, i < nodes.size) :
    numbers.mapM (fun i => Node.block <$> fetch nodes i) =
      (pure (numbers.filterMap plain.block?) : Guarded _) := by
  induction numbers with
  | nil => rfl
  | cons i numbers ih =>
      have hlt := h i List.mem_cons_self
      have hi := Array.getElem?_eq_getElem hlt
      have hblock : plain.block? i = some nodes[i].block := by
        rw [DomTree.block?, DomTree.node?, ← hnodes, hi]
        rfl
      rw [List.mapM_cons, fetch_eq hi, map_pure, pure_bind,
        ih fun j hj => h j (List.mem_cons_of_mem i hj), pure_bind,
        List.filterMap_cons_some hblock]

/-- A tree with the nodes and the numbers of a dominator tree on rising slots answers
    as that does. -/
theorem answers_of_nodes (h : Slots.Rising slots (order.size - 1)) (hpos : 0 < order.size)
    (hnodes : t.nodes = (DomTree.of order slots).nodes)
    (hnumbers : ∀ b, place? t.numbers b = order.reversePostorder.idxOf? b) :
    t.Answers (DomTree.of order slots) := by
  have hnode : ∀ i, t.node? i = (DomTree.of order slots).node? i := by
    intro i
    rw [Tree.node?, hnodes]
    rfl
  have hnodeOf : ∀ b, t.nodeOf? b = (DomTree.of order slots).nodeOf? b := by
    intro b
    rw [Tree.nodeOf?, hnumbers, DomTree.nodeOf?_of, funext hnode]
  have hsize : t.nodes.size = order.size := by rw [hnodes, DomTree.size_of]
  -- a node found by its block has a number
  have hnumber : ∀ b node, (DomTree.of order slots).nodeOf? b = some node →
      ∃ i, (DomTree.of order slots).node? i = some node := by
    intro b node hb
    rw [DomTree.nodeOf?_of] at hb
    obtain ⟨i, -, hi⟩ := Option.bind_eq_some_iff.mp hb
    exact ⟨i, hi⟩
  refine ⟨hnode, ?_, hnodeOf, ?_, ?_⟩
  · have hroot := Array.getElem?_eq_getElem (hsize ▸ hpos : 0 < t.nodes.size)
    exact ⟨t.nodes[0], (hnode 0).symm.trans hroot, fetch_eq hroot⟩
  · intro b
    rw [Tree.children, hnodeOf, DomTree.children]
    cases hb : (DomTree.of order slots).nodeOf? b with
    | none => rfl
    | some node =>
        obtain ⟨i, hi⟩ := hnumber b node hb
        exact mapM_fetch hnodes node.children fun j hj => hsize ▸ DomTree.child_lt hi hj
  · intro b
    rw [Tree.idom?, hnodeOf, DomTree.idom?]
    cases hparent : ((DomTree.of order slots).nodeOf? b).bind (·.parent) with
    | none => rfl
    | some j =>
        obtain ⟨node, hb, hj⟩ := Option.bind_eq_some_iff.mp hparent
        obtain ⟨i, hi⟩ := hnumber b node hb
        have hat := Array.getElem?_eq_getElem (hsize ▸ DomTree.parent_lt h hi hj : j < t.nodes.size)
        show (fun node => some node.block) <$> fetch t.nodes j = _
        rw [fetch_eq hat, map_pure, Option.bind_some, DomTree.block?, ← hnode, Tree.node?, hat]
        rfl

/-- Building the tree of settled slots makes no access out of bounds, and the tree
    answers as it should. -/
theorem tree_answers {count : Nat} (h : Slots.Rising slots (order.size - 1))
    (hknown : ∀ p, p ≤ order.size - 1 → slots.isKnown p = true) (hpos : 0 < order.size)
    (hlt : ∀ b ∈ order.postorder, b < count) (hnodup : order.postorder.Nodup) :
    Yields (tree count order slots) (·.Answers (DomTree.of order slots)) := by
  have hplaces : Yields (places count order.reversePostorder)
      fun table => ∀ b, place? table b = order.reversePostorder.idxOf? b :=
    places_eq (fun b hb => hlt b (List.mem_reverse.mp hb)) (List.nodup_reverse.mpr hnodup)
  refine hplaces.bind fun numbers hnumbers => ?_
  rw [minus_eq hpos, pure_bind]
  -- after some positions, as many nodes and the root are attached
  refine (Yields.foldrM (P := fun done nodes => nodes = grown order slots (done.length + 1))
    ?_ grown_one.symm).bind ?_
  · rintro p done hsuffix nodes rfl
    obtain ⟨hat, -⟩ := of_suffix_range hsuffix
    obtain ⟨q, hq⟩ := Slots.isKnown_iff.mp (hknown p (by omega))
    rw [attach_grown h (by omega) (Nat.succ_ne_zero _) hq]
    exact Yields.pure rfl
  · intro nodes hnodes
    rw [List.length_range, Nat.sub_add_cancel hpos, grown_size] at hnodes
    exact Yields.pure (answers_of_nodes h hpos hnodes hnumbers)

end Questions

end ControlFlow.Guarded
