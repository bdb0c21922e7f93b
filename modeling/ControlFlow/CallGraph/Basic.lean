import ControlFlow.Graph.Multigraph
import ControlFlow.Graph.Traversal
import Std.Data.TreeMap

/-!
# Call graphs

    A node stands for a function, known by its name; a call site joins the
    caller's node to the callee's.  Sites are kept as edges of a multigraph and
    listed at both of their ends.
-/

namespace ControlFlow

/-- A call: the instruction, the node called and the node that calls. -/
structure CallSite where
  instr : InstrId
  target : NodeId
  parent : NodeId
  deriving DecidableEq, Repr

namespace CallSite

/-- Whether a function calls itself there. -/
def isRecursive (s : CallSite) : Bool :=
  s.target == s.parent

/-- The site as text: caller, instruction and callee. -/
def text (s : CallSite) : String :=
  IdSort.node.short s.parent ++ "@" ++ IdSort.instr.short s.instr ++ " -> "
    ++ IdSort.node.short s.target

end CallSite

/-- Whether a function belongs to the module or lies outside. -/
inductive CallGraph.Kind where
  | inside
  | outside
  deriving DecidableEq, Repr

/-- A function with the calls it makes and the calls made to it. -/
structure CallGraph.Node where
  name : String
  kind : CallGraph.Kind
  callees : List CallSite
  callers : List CallSite
  deriving DecidableEq, Repr

namespace CallGraph.Node

/-- A function without calls. -/
def fresh (name : String) (kind : CallGraph.Kind) : CallGraph.Node :=
  { name := name, kind := kind, callees := [], callers := [] }

/-- The function, now known to belong to the module. -/
def promote (n : CallGraph.Node) : CallGraph.Node :=
  { n with kind := .inside }

/-- The function with one more call it makes, behind the others. -/
def addCallee (n : CallGraph.Node) (site : CallSite) : CallGraph.Node :=
  { n with callees := n.callees ++ [site] }

/-- The function with one more call made to it, behind the others. -/
def addCaller (n : CallGraph.Node) (site : CallSite) : CallGraph.Node :=
  { n with callers := n.callers ++ [site] }

/-- Whether the function belongs to the module. -/
def isInside (n : CallGraph.Node) : Bool :=
  n.kind == .inside

/-- Whether the function makes no calls. -/
def isLeaf (n : CallGraph.Node) : Bool :=
  n.callees.isEmpty

/-- The nodes called, each once, in the order of their first call. -/
def uniqueCallees (n : CallGraph.Node) : List NodeId :=
  (n.callees.map (·.target)).eraseDups

/-- The nodes that call, each once, in the order of their first call. -/
def uniqueCallers (n : CallGraph.Node) : List NodeId :=
  (n.callers.map (·.parent)).eraseDups

/-- Two nodes stand for the same function when they have the same name. -/
def sameFunction (n m : CallGraph.Node) : Bool :=
  n.name == m.name

end CallGraph.Node

/-- The functions and calls found in a module. -/
structure CallGraph where
  graph : Multigraph CallGraph.Node CallSite := {}
  /-- The node of a name. -/
  index : Std.TreeMap String NodeId := {}
  /-- The functions that call nothing, once a whole module has been read. -/
  entries : List NodeId := []
  /-- How many calls have an unknown target. -/
  unresolved : Nat := 0
  /-- How many listed functions have no body. -/
  skipped : Nat := 0

namespace CallGraph

/-- The call graph without functions. -/
def empty : CallGraph := {}

/-! ## Building -/

/-- The node of a name. -/
def nodeId? (g : CallGraph) (name : String) : Option NodeId :=
  g.index[name]?

/-- The node of a name, added if there is none.  A node once known to lie
    inside stays there. -/
def nodeFor (g : CallGraph) (name : String) (kind : Kind) : CallGraph × NodeId :=
  match g.nodeId? name with
  | some id =>
      match kind with
      | .inside => ({ g with graph := g.graph.modifyNode id (·.promote) }, id)
      | .outside => (g, id)
  | none =>
      let (graph, id) := g.graph.addNode (Node.fresh name kind)
      ({ g with graph := graph, index := g.index.insert name id }, id)

/-- Adds a call site between nodes that exist, and lists it at both ends. -/
def addSite (g : CallGraph) (site : CallSite) : CallGraph :=
  match g.graph.addEdge site.parent site.target site with
  | .error _ => g
  | .ok (graph, _) =>
      let graph := graph.modifyNode site.parent (·.addCallee site)
      let graph := graph.modifyNode site.target (·.addCaller site)
      { g with graph := graph }

/-! ## Views -/

/-- The nodes in the order they were found. -/
def nodes (g : CallGraph) : List Node :=
  g.graph.nodes.toList

/-- The node with the given number. -/
def nodeById? (g : CallGraph) (id : NodeId) : Option Node :=
  g.graph.node? id

/-- The node of a name, with its calls. -/
def node? (g : CallGraph) (name : String) : Option Node :=
  (g.nodeId? name).bind g.nodeById?

/-- The call sites in the order they were found. -/
def sites (g : CallGraph) : List CallSite :=
  g.graph.edgeData

/-- The names of nodes. -/
def names (g : CallGraph) (ids : List NodeId) : List String :=
  ids.filterMap fun id => (g.nodeById? id).map (·.name)

/-- The names of the functions a function calls. -/
def calleesOf (g : CallGraph) (name : String) : List String :=
  ((g.node? name).map fun n => g.names n.uniqueCallees).getD []

/-- The names of the functions that call a function. -/
def callersOf (g : CallGraph) (name : String) : List String :=
  ((g.node? name).map fun n => g.names n.uniqueCallers).getD []

/-- The pairs of a calling and a called function, each once. -/
def edges (g : CallGraph) : List (String × String) :=
  (g.sites.map fun s => (s.parent, s.target)).eraseDups.filterMap fun (parent, target) =>
    match g.nodeById? parent, g.nodeById? target with
    | some caller, some callee => some (caller.name, callee.name)
    | _, _ => none

/-- The functions noted as entries. -/
def entryNodes (g : CallGraph) : List Node :=
  g.entries.filterMap g.nodeById?

/-- The nodes that make no calls. -/
def leaves (g : CallGraph) : List NodeId :=
  (List.range g.graph.nodes.size).filter fun id => (g.nodeById? id).any (·.isLeaf)

end CallGraph

end ControlFlow
