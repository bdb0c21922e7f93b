import ControlFlow.BlockOrder
import ControlFlow.Dominance.Slots
import ControlFlow.Dot

/-!
# Dominator trees

    The tree of immediate dominators has one node per ordered block.  Nodes are
    numbered against the postorder, so the start block is node 0 and a parent
    has a smaller number than its children.
-/

namespace ControlFlow

/-- A block, the node of its immediate dominator, and the nodes it dominates
    immediately. -/
structure DomTree.Node where
  block : NodeId
  parent : Option Nat
  children : List Nat
  deriving DecidableEq, Repr

/-- The nodes of a dominator tree, root first. -/
structure DomTree where
  nodes : Array DomTree.Node
  deriving DecidableEq, Repr

namespace DomTree

/-- The parent of a node among `count`: the node of the position that its slot
    holds.  Position and node number add up to `count - 1`. -/
def parentOf (slots : Slots) (count index : Nat) : Option Nat :=
  if index = 0 then none
  else (slots.slot? (count - 1 - index)).map (count - 1 - ·)

/-- The tree that the slots of an order describe. -/
def of (order : BlockOrder) (slots : Slots) : DomTree where
  nodes :=
    (order.reversePostorder.zipIdx.map fun (block, index) =>
      { block := block
        parent := parentOf slots order.size index
        children := (List.range order.size).filter fun child =>
          parentOf slots order.size child == some index }).toArray

/-- The node with the given number. -/
def node? (t : DomTree) (index : Nat) : Option Node :=
  t.nodes[index]?

/-- The node of the start block. -/
def root? (t : DomTree) : Option Node :=
  t.node? 0

/-- The node of a block. -/
def nodeOf? (t : DomTree) (block : NodeId) : Option Node :=
  t.nodes.toList.find? (·.block == block)

/-- The block of the node with the given number. -/
def block? (t : DomTree) (index : Nat) : Option NodeId :=
  (t.node? index).map (·.block)

/-- The blocks a block dominates immediately. -/
def children (t : DomTree) (block : NodeId) : List NodeId :=
  ((t.nodeOf? block).map fun node => node.children.filterMap t.block?).getD []

/-- The immediate dominator of a block; none for the root and for blocks that
    have no node. -/
def idom? (t : DomTree) (block : NodeId) : Option NodeId :=
  ((t.nodeOf? block).bind (·.parent)).bind t.block?

/-- What a block is called in a drawing: its number and its label, or its index
    where the procedure does not have it. -/
def blockText (f : Procedure) (block : NodeId) : String :=
  match f.block? block with
  | none => IdSort.node.short block
  | some b =>
      match b.label with
      | some label => "bb" ++ toString b.number ++ " (" ++ label ++ ")"
      | none => "bb" ++ toString b.number

/-- The name of a node in a drawing. -/
def nodeText (index : Nat) : String :=
  "t" ++ toString index

/-- The lines of a drawing of the tree, with the blocks named as in the given
    procedure. -/
def lines (t : DomTree) (f : Procedure) : List String :=
  let nodes := t.nodes.toList.zipIdx
  Dot.drawing "DominatorTree" ("dominator tree of " ++ f.name)
    (nodes.map fun (node, index) => Dot.nodeLine (nodeText index) (blockText f node.block) "")
    (nodes.flatMap fun (node, index) =>
      node.children.map fun child => Dot.edgeLine (nodeText index) (nodeText child) none)

/-- The tree as a drawing. -/
def draw (t : DomTree) (f : Procedure) : String :=
  Dot.unlines (t.lines f)

end DomTree

end ControlFlow
