import ControlFlow.Graph.Multigraph

/-!
# Edges filed by their ends

    A multigraph keeps its edges in one array and, for every node, the numbers of
    the edges that leave it and of those that enter it.  The two tables are the same
    thing for different ends, and one notion covers both: a table files the edges by
    an end when looking up the numbers at a node gives the edges with that end there,
    in the order they were added (`Files`).

    Nodes and edges join without disturbing what is filed, and a node may change its
    data.  So the neighbours of a node can always be read off the edges
    (`Wired.successors_eq`, `Wired.predecessors_eq`).
-/

namespace ControlFlow.Multigraph

variable {ν ε α : Type}

/-! ## Tables -/

/-- At every node stand the numbers of the edges with their end there, in order. -/
def Files (endpoint : Edge ε → NodeId) (edges : Array (Edge ε)) (table : Array (List EdgeId)) :
    Prop :=
  ∀ node, (table[node]?.getD []).map (fun number => edges[number]?) =
    (edges.toList.filter fun edge => endpoint edge == node).map some

namespace Files

variable {endpoint : Edge ε → NodeId} {edges : Array (Edge ε)} {table : Array (List EdgeId)}

theorem empty : Files endpoint #[] #[] := by
  intro node
  simp

/-- What stands in the table are numbers of edges. -/
theorem lt_size (h : Files endpoint edges table) {node : NodeId} {number : EdgeId}
    (hnumber : number ∈ table[node]?.getD []) : number < edges.size := by
  have hlookup : edges[number]? ∈ (table[node]?.getD []).map fun number => edges[number]? :=
    List.mem_map_of_mem hnumber
  rw [h node] at hlookup
  obtain ⟨edge, -, hedge⟩ := List.mem_map.mp hlookup
  exact (Array.getElem?_eq_some_iff.mp hedge.symm).1

/-- A new node has no edges. -/
theorem pushNode (h : Files endpoint edges table) : Files endpoint edges (table.push []) := by
  intro node
  have hnode := h node
  rw [Array.getElem?_push]
  split
  · rename_i hend
    rw [hend, Array.getElem?_eq_none (Nat.le_refl _)] at hnode
    rw [hend]
    exact hnode
  · exact hnode

/-- A new edge is filed behind the others. -/
theorem pushEdge (h : Files endpoint edges table) {edge : Edge ε}
    (hend : endpoint edge < table.size) :
    Files endpoint (edges.push edge) (table.modify (endpoint edge) (· ++ [edges.size])) := by
  intro node
  -- numbers filed before are still looked up in the old edges
  have hold : (table[node]?.getD []).map (fun number => (edges.push edge)[number]?) =
      (table[node]?.getD []).map fun number => edges[number]? := by
    refine List.map_congr_left fun number hnumber => ?_
    rw [Array.getElem?_push, if_neg (Nat.ne_of_lt (h.lt_size hnumber))]
  rw [Array.getElem?_modify, Array.toList_push, List.filter_append, List.map_append, ← h node, ← hold]
  by_cases hnode : endpoint edge = node
  · subst hnode
    rw [if_pos rfl, Array.getElem?_eq_getElem hend]
    simp
  · simp [hnode]

/-- What is seen of the edges at a node, by number or directly. -/
theorem filterMap_eq (h : Files endpoint edges table) (view : Edge ε → α) (node : NodeId) :
    ((table[node]?.getD []).filterMap fun number => edges[number]?.map view) =
      (edges.toList.filter fun edge => endpoint edge == node).map view := by
  have hlookup := congrArg (List.filterMap (Option.map view)) (h node)
  rw [List.filterMap_map, List.filterMap_map] at hlookup
  refine hlookup.trans ?_
  rw [← List.filterMap_eq_map]
  rfl

end Files

/-! ## Graphs -/

/-- Both tables have a place for every node, and file the edges by their ends. -/
structure Wired (g : Multigraph ν ε) : Prop where
  size_outgoing : g.outgoing.size = g.nodes.size
  size_incoming : g.incoming.size = g.nodes.size
  outgoing : Files Edge.source g.edges g.outgoing
  incoming : Files Edge.target g.edges g.incoming

variable {g g' : Multigraph ν ε} {source target : NodeId} {data : ε} {id : EdgeId}

theorem wired_empty : Wired ({} : Multigraph ν ε) where
  size_outgoing := rfl
  size_incoming := rfl
  outgoing := Files.empty
  incoming := Files.empty

/-- An edge is accepted exactly between nodes that exist, and then it stands behind
    the others, at both ends. -/
theorem addEdge_eq_ok : g.addEdge source target data = .ok (g', id) ↔
    (source < g.nodes.size ∧ target < g.nodes.size) ∧ id = g.edges.size ∧
      g' = { g with
        edges := g.edges.push ⟨source, target, data⟩
        outgoing := g.outgoing.modify source (· ++ [g.edges.size])
        incoming := g.incoming.modify target (· ++ [g.edges.size]) } := by
  rw [addEdge, contains, contains]
  by_cases hsource : source < g.nodes.size
  · by_cases htarget : target < g.nodes.size
    · simp [hsource, htarget, eq_comm, and_comm]
    · simp [hsource, htarget]
  · simp [hsource]

theorem exists_addEdge (data : ε) (hsource : source < g.nodes.size) (htarget : target < g.nodes.size) :
    ∃ g' id, g.addEdge source target data = .ok (g', id) :=
  ⟨_, _, addEdge_eq_ok.mpr ⟨⟨hsource, htarget⟩, rfl, rfl⟩⟩

namespace Wired

theorem addNode (h : g.Wired) (data : ν) : (g.addNode data).1.Wired where
  size_outgoing := by simp [Multigraph.addNode, h.size_outgoing]
  size_incoming := by simp [Multigraph.addNode, h.size_incoming]
  outgoing := h.outgoing.pushNode
  incoming := h.incoming.pushNode

theorem modifyNode (h : g.Wired) (node : NodeId) (change : ν → ν) :
    (g.modifyNode node change).Wired where
  size_outgoing := h.size_outgoing.trans Array.size_modify.symm
  size_incoming := h.size_incoming.trans Array.size_modify.symm
  outgoing := h.outgoing
  incoming := h.incoming

theorem addEdge (h : g.Wired) (hok : g.addEdge source target data = .ok (g', id)) : g'.Wired := by
  obtain ⟨⟨hsource, htarget⟩, -, rfl⟩ := addEdge_eq_ok.mp hok
  have hleaves : (Edge.mk source target data).source < g.outgoing.size := h.size_outgoing ▸ hsource
  have henters : (Edge.mk source target data).target < g.incoming.size := h.size_incoming ▸ htarget
  exact ⟨Array.size_modify.trans h.size_outgoing, Array.size_modify.trans h.size_incoming,
    h.outgoing.pushEdge hleaves, h.incoming.pushEdge henters⟩

/-- The successors of a node are the targets of the edges that leave it, in order. -/
theorem successors_eq (h : g.Wired) (node : NodeId) : g.successors node =
    (g.edges.toList.filter fun edge => edge.source == node).map Edge.target :=
  h.outgoing.filterMap_eq Edge.target node

/-- The predecessors of a node are the sources of the edges that enter it, in order. -/
theorem predecessors_eq (h : g.Wired) (node : NodeId) : g.predecessors node =
    (g.edges.toList.filter fun edge => edge.target == node).map Edge.source :=
  h.incoming.filterMap_eq Edge.source node

end Wired

end ControlFlow.Multigraph
