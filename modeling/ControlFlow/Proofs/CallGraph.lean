import ControlFlow.CallGraph.Basic
import ControlFlow.Proofs.Multigraph
import ControlFlow.Proofs.Tables

/-!
# Nodes and sites of a call graph

    A call graph grows by nodes and by sites.  For either way of growing this
    module says what becomes of the things that are looked up later: the node of a
    name (`nodeId?`) and the calls listed at a node (`calleesAt`, `callersAt`).
-/

namespace ControlFlow.CallGraph

variable {g : CallGraph}

/-- Names lead to the nodes that have them. -/
def Indexed (g : CallGraph) : Prop :=
  Keyed Node.name g.graph.nodes g.index

/-- The calls listed at a node, in order; none where there is no node. -/
def calleesAt (g : CallGraph) (id : NodeId) : List CallSite :=
  (g.graph.nodes[id]?.map Node.callees).getD []

/-- The calls to a node that are listed there, in order; none where there is no node. -/
def callersAt (g : CallGraph) (id : NodeId) : List CallSite :=
  (g.graph.nodes[id]?.map Node.callers).getD []

theorem indexed_empty : Indexed {} :=
  Keyed.empty

theorem Indexed.lt (h : g.Indexed) {name : String} {id : NodeId} (hid : g.nodeId? name = some id) :
    id < g.graph.nodes.size :=
  Keyed.lt h hid

/-- A name has a node exactly when some node has the name. -/
theorem Indexed.mem_names_iff (h : g.Indexed) {name : String} :
    name ∈ g.nodes.map Node.name ↔ ∃ id, g.nodeId? name = some id :=
  Keyed.mem_map_iff h

theorem Indexed.nodeId?_eq_some (h : g.Indexed) {name : String} {id : NodeId} :
    g.nodeId? name = some id ↔ ∃ node, g.nodeById? id = some node ∧ node.name = name :=
  Keyed.getElem?_eq_some h

/-- A node has one name. -/
theorem Indexed.name_unique (h : g.Indexed) {name other : String} {id : NodeId}
    (hname : g.nodeId? name = some id) (hother : g.nodeId? other = some id) : name = other := by
  obtain ⟨node, hnode, hn⟩ := h.nodeId?_eq_some.mp hname
  obtain ⟨node', hnode', hn'⟩ := h.nodeId?_eq_some.mp hother
  rw [hnode] at hnode'
  rw [← hn, ← hn', Option.some.inj hnode']

/-- Where calls are listed there is a node, and it has a name. -/
theorem Indexed.exists_name (h : g.Indexed) {id : NodeId} (hne : g.calleesAt id ≠ []) :
    ∃ name, g.nodeId? name = some id := by
  rw [calleesAt] at hne
  cases hnode : g.graph.nodes[id]? with
  | none =>
      rw [hnode] at hne
      exact absurd rfl hne
  | some node => exact ⟨node.name, h.nodeId?_eq_some.mpr ⟨node, hnode, rfl⟩⟩

theorem calleesAt_of_node {id : NodeId} {node : Node} (hnode : g.nodeById? id = some node) :
    g.calleesAt id = node.callees := by
  rw [calleesAt, show g.graph.nodes[id]? = some node from hnode]
  rfl

theorem callersAt_of_node {id : NodeId} {node : Node} (hnode : g.nodeById? id = some node) :
    g.callersAt id = node.callers := by
  rw [callersAt, show g.graph.nodes[id]? = some node from hnode]
  rfl

/-- Whatever name had a node keeps it. -/
def Extends (g g' : CallGraph) : Prop :=
  ∀ name id, g.nodeId? name = some id → g'.nodeId? name = some id

theorem Extends.refl (g : CallGraph) : g.Extends g :=
  fun _ _ h => h

theorem Extends.trans {g₁ g₂ g₃ : CallGraph} (h : g₁.Extends g₂) (h' : g₂.Extends g₃) :
    g₁.Extends g₃ :=
  fun name id hid => h' name id (h name id hid)

/-! ## Nodes -/

section NodeFor

variable (g) (name : String) (kind : Kind)

/-- The node of a name is found from then on, and no other name is affected. -/
theorem nodeId?_nodeFor (other : String) : (g.nodeFor name kind).1.nodeId? other =
    if name = other then some (g.nodeFor name kind).2 else g.nodeId? other := by
  rw [nodeFor]
  cases hfound : g.nodeId? name with
  | some id =>
      have hsame : g.nodeId? other = if name = other then some id else g.nodeId? other := by
        split
        · rename_i heq
          rw [← heq, hfound]
        · rfl
      cases kind with
      | inside => exact hsame
      | outside => exact hsame
  | none =>
      show (g.index.insert name g.graph.nodes.size)[other]? = _
      rw [Std.TreeMap.getElem?_insert]
      simp only [Std.compare_eq_iff_eq]
      rfl

theorem nodeId?_nodeFor_self :
    (g.nodeFor name kind).1.nodeId? name = some (g.nodeFor name kind).2 := by
  rw [nodeId?_nodeFor, if_pos rfl]

theorem extends_nodeFor : g.Extends (g.nodeFor name kind).1 := by
  intro other id hid
  rw [nodeId?_nodeFor]
  split
  · rename_i heq
    rw [nodeFor, heq, hid]
    cases kind with
    | inside => rfl
    | outside => rfl
  · exact hid

/-- A node that is looked up or added changes no list that new nodes have empty and
    promoted ones keep. -/
theorem listed_nodeFor {list : Node → List CallSite} (hpromote : ∀ n : Node, list n.promote = list n)
    (hfresh : list (Node.fresh name kind) = []) (id : NodeId) :
    ((g.nodeFor name kind).1.graph.nodes[id]?.map list).getD [] =
      (g.graph.nodes[id]?.map list).getD [] := by
  rw [nodeFor]
  cases hfound : g.nodeId? name with
  | some found =>
      cases kind with
      | inside =>
          exact congrArg (·.getD []) (map_getElem?_modify g.graph.nodes found id hpromote)
      | outside => rfl
  | none =>
      show ((g.graph.nodes.push (Node.fresh name kind))[id]?.map list).getD [] = _
      rw [Array.getElem?_push]
      split
      · rename_i hend
        rw [hend, Array.getElem?_eq_none (Nat.le_refl _)]
        exact hfresh
      · rfl

theorem calleesAt_nodeFor (id : NodeId) :
    (g.nodeFor name kind).1.calleesAt id = g.calleesAt id :=
  g.listed_nodeFor name kind (fun _ => rfl) rfl id

theorem callersAt_nodeFor (id : NodeId) :
    (g.nodeFor name kind).1.callersAt id = g.callersAt id :=
  g.listed_nodeFor name kind (fun _ => rfl) rfl id

theorem calleesAt_new (hnew : g.nodeId? name = none) :
    g.calleesAt (g.nodeFor name kind).2 = [] := by
  rw [nodeFor, hnew]
  show (g.graph.nodes[g.graph.nodes.size]?.map Node.callees).getD [] = []
  rw [Array.getElem?_eq_none (Nat.le_refl _)]
  rfl

variable {g} in
theorem Indexed.nodeFor (h : g.Indexed) : (g.nodeFor name kind).1.Indexed := by
  rw [CallGraph.nodeFor]
  cases hfound : g.nodeId? name with
  | some id =>
      cases kind with
      | inside => exact Keyed.modify h id (·.promote) fun _ => rfl
      | outside => exact h
  | none => exact Keyed.push h hfound

end NodeFor

/-! ## Sites -/

section AddSite

variable {site : CallSite}

theorem index_addSite : (g.addSite site).index = g.index := by
  rw [addSite]
  split <;> rfl

@[simp]
theorem nodeId?_addSite (name : String) : (g.addSite site).nodeId? name = g.nodeId? name := by
  rw [nodeId?, index_addSite]
  rfl

theorem extends_addSite : g.Extends (g.addSite site) :=
  fun name _ hid => (nodeId?_addSite name).trans hid

/-- Between nodes that exist a site becomes an edge. -/
theorem addSite_eq (hparent : site.parent < g.graph.nodes.size)
    (htarget : site.target < g.graph.nodes.size) : ∃ graph id,
      g.graph.addEdge site.parent site.target site = .ok (graph, id) ∧
      g.addSite site = { g with
        graph := (graph.modifyNode site.parent (·.addCallee site)).modifyNode site.target
          (·.addCaller site) } := by
  obtain ⟨graph, id, hok⟩ := Multigraph.exists_addEdge site hparent htarget
  refine ⟨graph, id, hok, ?_⟩
  rw [addSite, hok]

/-- It is then listed at both ends. -/
theorem nodes_addSite (hparent : site.parent < g.graph.nodes.size)
    (htarget : site.target < g.graph.nodes.size) : (g.addSite site).graph.nodes =
      (g.graph.nodes.modify site.parent (·.addCallee site)).modify site.target
        (·.addCaller site) := by
  obtain ⟨graph, id, hok, heq⟩ := addSite_eq hparent htarget
  obtain ⟨-, -, rfl⟩ := Multigraph.addEdge_eq_ok.mp hok
  rw [heq]
  rfl

/-- A site at a node that does not exist is refused. -/
theorem addSite_of_missing (hmissing : ¬ (site.parent < g.graph.nodes.size ∧
    site.target < g.graph.nodes.size)) : g.addSite site = g := by
  rw [addSite, Multigraph.addEdge]
  by_cases hparent : site.parent < g.graph.nodes.size
  · have htarget : ¬ site.target < g.graph.nodes.size := fun h => hmissing ⟨hparent, h⟩
    simp [Multigraph.contains, hparent, htarget]
  · simp [Multigraph.contains, hparent]

theorem Indexed.addSite (h : g.Indexed) (site : CallSite) : (g.addSite site).Indexed := by
  by_cases hends : site.parent < g.graph.nodes.size ∧ site.target < g.graph.nodes.size
  · rw [Indexed, nodes_addSite hends.1 hends.2, index_addSite]
    exact (Keyed.modify h site.parent (·.addCallee site) fun _ => rfl).modify site.target
      (·.addCaller site) fun _ => rfl
  · rw [addSite_of_missing hends]
    exact h

theorem calleesAt_addSite (hparent : site.parent < g.graph.nodes.size)
    (htarget : site.target < g.graph.nodes.size) (id : NodeId) :
    (g.addSite site).calleesAt id =
      if site.parent = id then g.calleesAt id ++ [site] else g.calleesAt id := by
  have hkeep : ∀ n : Node, (n.addCaller site).callees = n.callees := fun _ => rfl
  rw [calleesAt, nodes_addSite hparent htarget, map_getElem?_modify _ site.target id hkeep,
    Array.getElem?_modify, calleesAt]
  split
  · rename_i hid
    rw [← hid, Array.getElem?_eq_getElem hparent]
    rfl
  · rfl

theorem callersAt_addSite (hparent : site.parent < g.graph.nodes.size)
    (htarget : site.target < g.graph.nodes.size) (id : NodeId) :
    (g.addSite site).callersAt id =
      if site.target = id then g.callersAt id ++ [site] else g.callersAt id := by
  have hkeep : ∀ n : Node, (n.addCallee site).callers = n.callers := fun _ => rfl
  have hbefore := map_getElem?_modify g.graph.nodes site.parent id hkeep
  rw [callersAt, nodes_addSite hparent htarget, Array.getElem?_modify, callersAt, ← hbefore]
  split
  · rename_i hid
    rw [← hid, Array.getElem?_eq_getElem (by rwa [Array.size_modify])]
    rfl
  · rfl

end AddSite

end ControlFlow.CallGraph
