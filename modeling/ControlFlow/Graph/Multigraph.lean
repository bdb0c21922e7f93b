import ControlFlow.Error
import ControlFlow.Graph.Basic

/-!
# Directed multigraphs with data

    Nodes and edges carry data and are numbered in the order they were added.
    Two tables hold, for every node, the numbers of the edges that leave it and
    of those that enter it, so that neighbours come out in the order the edges
    were added, parallel edges once each.  An edge is accepted only between
    nodes that exist; a refused edge leaves the graph as it was.
-/

namespace ControlFlow

/-- An edge with its endpoints and its data. -/
structure Multigraph.Edge (ε : Type) where
  source : NodeId
  target : NodeId
  data : ε
  deriving DecidableEq, Repr

/-- Nodes with data of type `ν` and edges with data of type `ε`. -/
structure Multigraph (ν ε : Type) where
  nodes : Array ν := #[]
  edges : Array (Multigraph.Edge ε) := #[]
  outgoing : Array (List EdgeId) := #[]
  incoming : Array (List EdgeId) := #[]

namespace Multigraph

variable {ν ε : Type}

/-- The graph without nodes. -/
def empty : Multigraph ν ε := {}

/-- Adds a node without edges; its number is the old size. -/
def addNode (g : Multigraph ν ε) (data : ν) : Multigraph ν ε × NodeId :=
  ({ g with
      nodes := g.nodes.push data
      outgoing := g.outgoing.push []
      incoming := g.incoming.push [] },
    g.nodes.size)

/-- Whether a node exists. -/
def contains (g : Multigraph ν ε) (node : NodeId) : Bool :=
  decide (node < g.nodes.size)

/-- Adds an edge behind the ones that are there, if both endpoints exist. -/
def addEdge (g : Multigraph ν ε) (source target : NodeId) (data : ε) :
    Except Error (Multigraph ν ε × EdgeId) :=
  if ¬ g.contains source then
    .error (.missingSource source g.nodes.size)
  else if ¬ g.contains target then
    .error (.missingTarget target g.nodes.size)
  else
    let edge := g.edges.size
    .ok
      ({ g with
          edges := g.edges.push ⟨source, target, data⟩
          outgoing := g.outgoing.modify source (· ++ [edge])
          incoming := g.incoming.modify target (· ++ [edge]) },
        edge)

/-- Changes the data of a node; nothing happens when the node does not exist. -/
def modifyNode (g : Multigraph ν ε) (node : NodeId) (f : ν → ν) : Multigraph ν ε :=
  { g with nodes := g.nodes.modify node f }

/-- The data of a node. -/
def node? (g : Multigraph ν ε) (node : NodeId) : Option ν :=
  g.nodes[node]?

/-- The targets of the edges that leave a node, in the order they were added. -/
def successors (g : Multigraph ν ε) (node : NodeId) : List NodeId :=
  (g.outgoing[node]?.getD []).filterMap fun edge => g.edges[edge]?.map (·.target)

/-- The sources of the edges that enter a node, in the order they were added. -/
def predecessors (g : Multigraph ν ε) (node : NodeId) : List NodeId :=
  (g.incoming[node]?.getD []).filterMap fun edge => g.edges[edge]?.map (·.source)

/-- The data of all edges, in the order they were added. -/
def edgeData (g : Multigraph ν ε) : List ε :=
  g.edges.toList.map (·.data)

/-- The graph as traversals see it. -/
def toGraph (g : Multigraph ν ε) : Graph where
  size := g.nodes.size
  successors := g.successors
  predecessors := g.predecessors

end Multigraph

end ControlFlow
