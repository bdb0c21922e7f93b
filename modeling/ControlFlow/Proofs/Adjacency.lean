import ControlFlow.Proofs.Guarded.Basic
import ControlFlow.Proofs.Multigraph

/-!
# Graphs worked on in place

    A refused edge gives an error and no graph, so there is nothing that it could have
    changed.  Worked on in place, a graph is there all the time, and its tables are
    written one after the other.  Nothing in the tables is checked when they are used:
    an edge is filed at nodes that are taken to have a place, and a number found there
    is taken to be the number of an edge.  `InPlace` is a graph used in that way, with
    every such access guarded.

    The guards never stop anything (`perform_run`, `Files.neighbours_eq`): each call
    does the whole of its work, or refuses an edge and leaves the graph as it was.  So
    what a graph shows after any series of calls can be read off the edges that were
    accepted on the way (`Grown`).
-/

namespace ControlFlow.Multigraph

open Guarded (fetch store fetch_eq store_eq modify_eq_setIfInBounds)

variable {ν ε : Type}

/-! ## Calls -/

/-- What a graph that grows is asked for. -/
inductive Call (ν ε : Type) where
  | addNode (data : ν)
  | modifyNode (node : NodeId) (change : ν → ν)
  | addEdge (source target : NodeId) (data : ε)

/-- What it answers: the number of the new node, whether there is a node to change, the
    number of the new edge or why there is none. -/
inductive Reply where
  | node (id : NodeId)
  | changed (found : Bool)
  | edge (id : EdgeId)
  | refused (e : Error)

/-- Whether a call asks for a node. -/
def Call.addsNode : Call ν ε → Bool
  | .addNode _ => true
  | _ => false

/-- The number of the new edge, if there is one. -/
def Reply.edge? : Reply → Option EdgeId
  | .edge id => some id
  | _ => none

/-- The edges that were asked for and accepted. -/
def accepted : List (Call ν ε) → List Reply → List (Edge ε)
  | .addEdge source target data :: calls, .edge _ :: replies =>
      ⟨source, target, data⟩ :: accepted calls replies
  | _ :: calls, _ :: replies => accepted calls replies
  | _, _ => []

/-- The answer to a call and the graph after it, when nothing is done by halves. -/
def answer (g : Multigraph ν ε) : Call ν ε → Reply × Multigraph ν ε
  | .addNode data => (.node (g.addNode data).2, (g.addNode data).1)
  | .modifyNode node change => (.changed (g.contains node), g.modifyNode node change)
  | .addEdge source target data =>
      match g.addEdge source target data with
      | .ok (g', id) => (.edge id, g')
      | .error e => (.refused e, g)

/-! ## Work in place -/

/-- Work on a graph in place, with every access to a table guarded. -/
abbrev InPlace (ν ε α : Type) : Type := StateT (Multigraph ν ε) Guarded α

namespace InPlace

/-- Writes the number of an edge behind those at a node. -/
def file (table : Array (List EdgeId)) (node : NodeId) (edge : EdgeId) :
    Guarded (Array (List EdgeId)) := do
  let numbers ← fetch table node
  store table node (numbers ++ [edge])

/-- Adds a node, and a place for it in both tables. -/
def addNode (data : ν) : InPlace ν ε Reply := do
  let id := (← get).nodes.size
  modify fun g => { g with nodes := g.nodes.push data }
  modify fun g => { g with outgoing := g.outgoing.push [] }
  modify fun g => { g with incoming := g.incoming.push [] }
  return .node id

/-- Changes the data of a node, if it exists. -/
def modifyNode (node : NodeId) (change : ν → ν) : InPlace ν ε Reply := do
  match (← get).nodes[node]? with
  | some data =>
      modify fun g => { g with nodes := g.nodes.setIfInBounds node (change data) }
      return .changed true
  | none => return .changed false

/-- Adds an edge, if both ends exist, and files it at each of them. -/
def addEdge (source target : NodeId) (data : ε) : InPlace ν ε Reply := do
  let g ← get
  if ¬ g.contains source then return .refused (.missingSource source g.nodes.size)
  if ¬ g.contains target then return .refused (.missingTarget target g.nodes.size)
  modify fun g => { g with edges := g.edges.push ⟨source, target, data⟩ }
  let outgoing ← file (← get).outgoing source g.edges.size
  modify fun g => { g with outgoing := outgoing }
  let incoming ← file (← get).incoming target g.edges.size
  modify fun g => { g with incoming := incoming }
  return .edge g.edges.size

/-- The far ends of the edges whose numbers stand at a node. -/
def neighbours (g : Multigraph ν ε) (table : Array (List EdgeId)) (far : Edge ε → NodeId)
    (node : NodeId) : Guarded (List NodeId) :=
  (table[node]?.getD []).mapM fun number => far <$> fetch g.edges number

end InPlace

/-! ## One call -/

variable {g g' : Multigraph ν ε} {calls : List (Call ν ε)} {replies : List Reply}

/-- The graph `g'` is what calls with the given replies make of the graph `g`. -/
structure Grown (g : Multigraph ν ε) (calls : List (Call ν ε)) (replies : List Reply)
    (g' : Multigraph ν ε) : Prop where
  wired : g'.Wired
  length_eq : replies.length = calls.length
  size_eq : g'.nodes.size = g.nodes.size + calls.countP Call.addsNode
  edges_eq : g'.edges.toList = g.edges.toList ++ accepted calls replies
  numbers : replies.filterMap Reply.edge? =
    List.range' g.edges.size (accepted calls replies).length

theorem Grown.refl (h : g.Wired) : Grown g [] [] g where
  wired := h
  length_eq := rfl
  size_eq := rfl
  edges_eq := (List.append_nil _).symm
  numbers := rfl

theorem accepted_cons (c : Call ν ε) (calls : List (Call ν ε)) (r : Reply) (replies : List Reply) :
    accepted (c :: calls) (r :: replies) = accepted [c] [r] ++ accepted calls replies := by
  cases c <;> cases r <;> rfl

/-- One call, and then the others. -/
theorem Grown.cons {c : Call ν ε} {r : Reply} {g₁ : Multigraph ν ε} (h₁ : Grown g [c] [r] g₁)
    (h : Grown g₁ calls replies g') : Grown g (c :: calls) (r :: replies) g' where
  wired := h.wired
  length_eq := congrArg (· + 1) h.length_eq
  size_eq := by
    rw [h.size_eq, h₁.size_eq, List.countP_cons, List.countP_cons, List.countP_nil]
    omega
  edges_eq := by
    rw [h.edges_eq, h₁.edges_eq, accepted_cons c calls r replies, List.append_assoc]
  numbers := by
    have hsize : g₁.edges.size = g.edges.size + (accepted [c] [r]).length := by
      rw [← Array.length_toList, h₁.edges_eq, List.length_append, Array.length_toList]
    have hsplit : (r :: replies).filterMap Reply.edge? =
        [r].filterMap Reply.edge? ++ replies.filterMap Reply.edge? :=
      List.filterMap_append (l := [r])
    rw [hsplit, h₁.numbers, h.numbers, hsize, List.range'_append_1, accepted_cons c calls r replies,
      List.length_append]

/-- The graph shows a list of edges: by number, and at their ends. -/
structure Shows (g : Multigraph ν ε) (edges : List (Edge ε)) : Prop where
  successors_eq : ∀ node, g.successors node =
    (edges.filter fun edge => edge.source == node).map Edge.target
  predecessors_eq : ∀ node, g.predecessors node =
    (edges.filter fun edge => edge.target == node).map Edge.source
  /-- Every number that stands at a node is the number of an edge. -/
  successors_found : ∀ node, InPlace.neighbours g g.outgoing Edge.target node =
    pure (g.successors node)
  predecessors_found : ∀ node, InPlace.neighbours g g.incoming Edge.source node =
    pure (g.predecessors node)
  count_eq : ∀ source target,
    (g.predecessors target).count source = (g.successors source).count target
  numbered : g.edgeData.zipIdx = (edges.map Edge.data).zipIdx

end ControlFlow.Multigraph
