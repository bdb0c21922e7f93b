import ControlFlow.Dominance.Basic
import ControlFlow.Error

/-!
# Dominance frontiers

    The frontier of a block holds the blocks where its dominance ends: it
    dominates a block one edge before them, but not strictly the blocks
    themselves.  Frontiers are found from the joins, the blocks with several
    reachable incoming blocks: from each incoming block one climbs the
    dominators up to the immediate dominator of the join, and every block
    passed has the join in its frontier.
-/

namespace ControlFlow

/-- The frontier of every block of a procedure, in the order its members were
    found. -/
structure Frontier where
  direction : Direction
  members : Array (List NodeId)
  deriving DecidableEq, Repr

namespace Frontier

/-- The reachable blocks one may come from into a block. -/
def runners (f : Procedure) (d : Dominance) (block : NodeId) : List NodeId :=
  (d.direction.incoming f block).filter d.isReachable

/-- The blocks passed on the climb from a runner to the immediate dominator of
    a join. -/
def passed (d : Dominance) (join runner : NodeId) : List NodeId :=
  let limit := d.idom? join
  (d.chain runner).takeWhile fun block => some block != limit

/-- All pairs of a block and a member of its frontier, as they are found. -/
def entries (f : Procedure) (d : Dominance) : List (NodeId × NodeId) :=
  d.order.postorder.flatMap fun join =>
    let runners := runners f d join
    if runners.length < 2 then []
    else runners.flatMap fun runner => (passed d join runner).map fun block => (block, join)

/-- Adds a member to the frontier of a block, unless it is there. -/
def record (members : Array (List NodeId)) (entry : NodeId × NodeId) : Array (List NodeId) :=
  members.modify entry.1 fun found =>
    if entry.2 ∈ found then found else found ++ [entry.2]

/-- The frontiers of a procedure with respect to given dominators; entries for
    blocks the procedure does not have are passed over. -/
def of (f : Procedure) (d : Dominance) : Frontier where
  direction := d.direction
  members := (entries f d).foldl record (Array.replicate f.blocks.size [])

/-- The frontiers of a procedure with respect to given dominators.  Dominators
    of another, larger procedure may name a block the procedure does not have;
    the first such block is a fault. -/
def checked (f : Procedure) (d : Dominance) : Except Fault Frontier :=
  match (entries f d).find? (f.blocks.size ≤ ·.1) with
  | some (block, _) => .error (.outOfBounds block f.blocks.size)
  | none => .ok (of f d)

/-- The frontier of a block; empty for unknown blocks. -/
def frontier (t : Frontier) (block : NodeId) : List NodeId :=
  t.members[block]?.getD []

/-- Whether a block is in the frontier of another. -/
def contains (t : Frontier) (block member : NodeId) : Bool :=
  (t.frontier block).contains member

/-- What computing the frontiers of a procedure reports. -/
def event (f : Procedure) (t : Frontier) : Event :=
  .frontierBuilt t.direction f.name

end Frontier

end ControlFlow
