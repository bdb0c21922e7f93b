import ControlFlow.Code.Procedure
import ControlFlow.Direction

/-!
# Block orders

    An analysis visits the blocks it can reach from its start block, in
    postorder or against it.  The position of a block is its place in the
    postorder: the start block comes last, and a block that is left early has a
    low position.
-/

namespace ControlFlow

namespace Direction

/-- The block an analysis starts at. -/
def start? (direction : Direction) (f : Procedure) : Option NodeId :=
  match direction with
  | forward => f.entry
  | backward => f.exit

/-- The control flow as an analysis follows it. -/
def graph (direction : Direction) (f : Procedure) : Graph :=
  match direction with
  | forward => f.toGraph
  | backward => f.toGraph.reverse

/-- The blocks an analysis may come from into a block. -/
def incoming (direction : Direction) (f : Procedure) (block : NodeId) : List NodeId :=
  (direction.graph f).predecessors block

end Direction

/-- The blocks found from a start block, in postorder. -/
structure BlockOrder where
  direction : Direction
  start : Option NodeId
  postorder : List NodeId
  deriving DecidableEq, Repr

namespace BlockOrder

/-- The order of a procedure's blocks in a direction; empty without a start block. -/
def of (f : Procedure) (direction : Direction) : BlockOrder where
  direction := direction
  start := direction.start? f
  postorder :=
    match direction.start? f with
    | some start => (direction.graph f).postorder start
    | none => []

/-- The blocks against their postorder: the start block first. -/
def reversePostorder (o : BlockOrder) : List NodeId :=
  o.postorder.reverse

/-- The place of a block in the postorder. -/
def position? (o : BlockOrder) (block : NodeId) : Option Nat :=
  o.postorder.idxOf? block

/-- Whether a block is ordered. -/
def contains (o : BlockOrder) (block : NodeId) : Bool :=
  (o.position? block).isSome

/-- How many blocks are ordered. -/
def size (o : BlockOrder) : Nat :=
  o.postorder.length

/-- Visits the blocks against their postorder as long as `keepOn` holds: the
    blocks visited, the last of them perhaps a refusal, and whether there was
    none. -/
def walk (o : BlockOrder) (keepOn : NodeId → Bool) : List NodeId × Bool :=
  match o.reversePostorder.span keepOn with
  | (visited, []) => (visited, true)
  | (visited, block :: _) => (visited ++ [block], false)

end BlockOrder

end ControlFlow
