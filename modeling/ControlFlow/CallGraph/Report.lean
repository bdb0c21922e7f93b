import ControlFlow.CallGraph.Basic
import ControlFlow.Dot

/-!
# Counts and drawings of call graphs
-/

namespace ControlFlow.CallGraph

/-- The counts of a call graph. -/
structure Stats where
  functions : Nat
  inside : Nat
  outside : Nat
  callSites : Nat
  uniqueEdges : Nat
  unresolved : Nat
  skipped : Nat
  entries : Nat
  leaves : Nat
  recursive : Nat
  deriving DecidableEq, Repr

/-- Counts a call graph. -/
def stats (g : CallGraph) : Stats :=
  let functions := g.nodes.length
  let inside := g.nodes.countP (·.isInside)
  { functions := functions
    inside := inside
    outside := functions - inside
    callSites := g.sites.length
    uniqueEdges := g.edges.length
    unresolved := g.unresolved
    skipped := g.skipped
    entries := g.entries.length
    leaves := g.nodes.countP (·.isLeaf)
    recursive := g.nodes.countP fun n => n.callees.any (·.isRecursive) }

/-- How many percent of the calls have a known target; all of them when there
    are no calls. -/
def Stats.resolutionRate (s : Stats) : Float :=
  let total := s.callSites + s.unresolved
  if total = 0 then 100.0 else (Float.ofNat s.callSites / Float.ofNat total) * 100.0

/-- How many functions two call graphs know together. -/
def unionSize (g h : CallGraph) : Nat :=
  ((g.nodes ++ h.nodes).map (·.name)).eraseDups.length

/-! ## Drawing -/

/-- How a function looks: outside the module, without calls, or neither. -/
def Node.style (n : Node) : String :=
  if !n.isInside then ", style=filled, fillcolor=lightyellow"
  else if n.isLeaf then ", style=filled, fillcolor=lightblue"
  else ""

/-- How many calls a function makes to a node. -/
def Node.callsTo (n : Node) (target : NodeId) : Nat :=
  n.callees.countP (·.target == target)

/-- The edge from a function to a node it calls; more than one call is a label. -/
def Node.edgeTo (n : Node) (id target : NodeId) : String :=
  let count := n.callsTo target
  Dot.edgeLine (IdSort.node.short id) (IdSort.node.short target)
    (if count > 1 then some count else none)

/-- The lines of a drawing of the call graph. -/
def lines (g : CallGraph) (title : Option String) : List String :=
  let nodes := g.nodes.zipIdx
  Dot.drawing "CallGraph" (title.getD "Call Graph")
    (nodes.map fun (n, id) => Dot.nodeLine (IdSort.node.short id) n.name n.style)
    (nodes.flatMap fun (n, id) => n.uniqueCallees.map (n.edgeTo id))

/-- The call graph as a drawing. -/
def draw (g : CallGraph) (title : Option String) : String :=
  Dot.unlines (g.lines title)

end ControlFlow.CallGraph
