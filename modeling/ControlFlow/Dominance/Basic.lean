import ControlFlow.Dominance.Tree
import ControlFlow.Event
import ControlFlow.Fixpoint

/-!
# Dominators

    A block dominates another when every way from the start block to the other
    leads through it.  Forwards these are the dominators, backwards the
    post-dominators.  The immediate dominators are computed by sweeping the
    slots until they settle; everything else is read off them.

    Without a start block there is nothing to compute: no block is reachable,
    and every question about a block is answered accordingly.
-/

namespace ControlFlow

/-! ## Immediate dominators -/

/-- The immediate dominators of the ordered blocks, as settled slots, and the
    number of sweeps it took. -/
structure Idoms where
  order : BlockOrder
  slots : Slots
  sweeps : Nat

namespace Idoms

/-- The incoming positions of every position: incoming blocks that are not
    ordered are left out. -/
def incoming (f : Procedure) (order : BlockOrder) : Array (List Nat) :=
  (order.postorder.map fun block =>
    (order.direction.incoming f block).filterMap order.position?).toArray

/-- The immediate dominators of an order.  Every sweep but the last raises a
    slot, and there are not more raises than pairs of positions. -/
def of (f : Procedure) (order : BlockOrder) : Idoms :=
  if order.postorder.isEmpty then
    { order := order, slots := #[], sweeps := 0 }
  else
    let start := order.size - 1
    let table := incoming f order
    let (slots, sweeps) :=
      settle (Slots.sweep (fun position => table[position]?.getD []) start)
        (order.size * order.size + 2) (Slots.initial start)
    { order := order, slots := slots, sweeps := sweeps }

/-- Whether there was a start block to compute from. -/
def isValid (d : Idoms) : Bool :=
  !d.order.postorder.isEmpty

/-- The position of the start block. -/
def startPosition (d : Idoms) : Nat :=
  d.order.size - 1

/-- The start block. -/
def start? (d : Idoms) : Option NodeId :=
  d.order.postorder.getLast?

/-- Whether a block is reachable from the start block. -/
def isReachable (d : Idoms) (block : NodeId) : Bool :=
  d.order.contains block

/-- The block at a position. -/
def block? (d : Idoms) (position : Nat) : Option NodeId :=
  d.order.postorder[position]?

/-- The immediate dominator of a block; none for the start block and for blocks
    that are not reachable. -/
def idom? (d : Idoms) (block : NodeId) : Option NodeId :=
  (d.order.position? block).bind fun position =>
    if position = d.startPosition then none
    else (d.slots.slot? position).bind d.block?

/-- The dominators of a block, from itself up to the start block; none when it
    is not reachable. -/
def chain (d : Idoms) (block : NodeId) : List NodeId :=
  match d.order.position? block with
  | some position =>
      let blocks := d.order.postorder.toArray
      (d.slots.climb d.startPosition position).filterMap fun p => blocks[p]?
  | none => []

/-- How many blocks lie strictly above a reachable block. -/
def depth? (d : Idoms) (block : NodeId) : Option Nat :=
  (d.order.position? block).map fun _ => (d.chain block).length - 1

/-- The dominators of every ordered block, by position. -/
def chains (d : Idoms) : Array (List NodeId) :=
  (d.order.postorder.map d.chain).toArray

/-- How many pairs there are of a dominator and a block it dominates. -/
def pairCount (d : Idoms) : Nat :=
  d.order.postorder.foldr (fun block total => (d.chain block).length + total) 0

end Idoms

/-! ## The analysis -/

/-- What to prepare besides the immediate dominators. -/
structure Dominance.Options where
  /-- Build the dominator tree. -/
  tree : Bool
  /-- Answer dominance questions from a table of all dominators. -/
  pairs : Bool
  deriving DecidableEq, Repr

/-- The dominators of one procedure in one direction. -/
structure Dominance extends Idoms where
  options : Dominance.Options
  tree : Option DomTree
  /-- The dominators of every ordered block, put together when first needed. -/
  table : Thunk (Array (List NodeId))

namespace Dominance

/-- Computes the dominators of a procedure. -/
def of (f : Procedure) (direction : Direction) (options : Options) : Dominance :=
  let idoms := Idoms.of f (BlockOrder.of f direction)
  { toIdoms := idoms
    options := options
    tree := if options.tree && idoms.isValid then some (DomTree.of idoms.order idoms.slots) else none
    table := Thunk.mk fun _ => idoms.chains }

/-- The direction dominators were computed in. -/
def direction (d : Dominance) : Direction :=
  d.order.direction

/-- Whether a dominance question is answered from the table. -/
def consultsTable (d : Dominance) (a b : NodeId) : Bool :=
  a != b && d.isReachable a && d.isReachable b && d.options.pairs

/-- Whether `a` dominates `b`.  Every block dominates itself, known or not; of
    two blocks both must be reachable. -/
def dominates (d : Dominance) (a b : NodeId) : Bool :=
  if a = b then true
  else
    match d.order.position? a, d.order.position? b with
    | some pa, some pb =>
        if d.options.pairs then (d.table.get[pb]?.getD []).contains a
        else d.slots.dominates pa pb
    | _, _ => false

/-- Whether `a` dominates `b` and is another block. -/
def strictlyDominates (d : Dominance) (a b : NodeId) : Bool :=
  a != b && d.dominates a b

/-- What computing the dominators of a procedure reports. -/
def event (f : Procedure) (d : Dominance) : Event :=
  match d.order.start with
  | none => .noStart d.direction f.name
  | some start =>
      if d.isValid then
        .dominanceSettled d.direction f.name d.sweeps d.order.size f.blocks.size
      else .unorderedStart d.direction f.name start

/-! ## Series of questions -/

/-- A series of dominance questions: the table is built, and reported, at the
    first question that needs it. -/
structure Inquiry where
  subject : Dominance
  tableBuilt : Bool

/-- A series that has not begun. -/
def Inquiry.start (d : Dominance) : Inquiry :=
  { subject := d, tableBuilt := false }

/-- What the next question reports, and the series after it. -/
def Inquiry.ask (q : Inquiry) (a b : NodeId) : Inquiry × List Event :=
  if !q.tableBuilt && q.subject.consultsTable a b then
    ({ q with tableBuilt := true }, [.pairsBuilt q.subject.direction q.subject.pairCount])
  else (q, [])

end Dominance

end ControlFlow
