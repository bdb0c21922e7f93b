import ControlFlow.Ident

/-!
# Directed graphs as seen by a traversal

    A traversal needs three things of a graph: how many nodes there are, and
    for every node the list of its successors and of its predecessors, in the
    order the graph yields them.  Nodes are the numbers below the size.  A list
    may repeat a node (parallel edges) and may name a node outside the graph;
    traversals skip the latter.
-/

namespace ControlFlow

/-- A finite directed graph, given by its size and its two adjacency functions. -/
structure Graph where
  size : Nat
  successors : NodeId → List NodeId
  predecessors : NodeId → List NodeId

namespace Graph

/-- The same graph with every edge turned round. -/
def reverse (g : Graph) : Graph where
  size := g.size
  successors := g.predecessors
  predecessors := g.successors

/-- The nodes of a graph in ascending order. -/
def nodes (g : Graph) : List NodeId :=
  List.range g.size

@[simp]
theorem reverse_size (g : Graph) : g.reverse.size = g.size := rfl

@[simp]
theorem reverse_successors (g : Graph) : g.reverse.successors = g.predecessors := rfl

@[simp]
theorem reverse_predecessors (g : Graph) : g.reverse.predecessors = g.successors := rfl

/-- Turning the edges round twice gives the graph back. -/
@[simp]
theorem reverse_reverse (g : Graph) : g.reverse.reverse = g := rfl

@[simp]
theorem mem_nodes {g : Graph} {v : NodeId} : v ∈ g.nodes ↔ v < g.size :=
  List.mem_range

end Graph

end ControlFlow
