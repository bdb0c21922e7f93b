import ControlFlow.Proofs.Census

/-!
# All views of a call graph show the same calls

    A call is kept as an edge between two nodes, in the tables of edges at both nodes,
    and in the lists of both nodes.  Names lead to nodes, and the functions that call
    or are called are looked up by name.  All of it stays in step (`InStep`): whatever
    a discovery does to a graph, each way of keeping a call says what the sites say.

    A discovery does three things to a graph: it looks up or adds a node, it adds a
    site, and it counts.  What all three leave true holds of every graph discovered
    (`Lasting.run`).  Once the ways are in step, each view of the finished graph can be
    read off the sites, and so any two views agree (`Consistent`).
-/

namespace ControlFlow

/-! ## What a discovery leaves true -/

/-- A property of graphs that survives whatever a discovery does to one. -/
structure Lasting (P : CallGraph → Prop) : Prop where
  nodeFor : ∀ {g}, P g → ∀ name kind, P (g.nodeFor name kind).1
  addSite : ∀ {g}, P g → ∀ site, P (g.addSite site)
  recount : ∀ {g}, P g → ∀ unresolved skipped,
    P { g with unresolved := unresolved, skipped := skipped }

namespace Lasting

variable {P : CallGraph → Prop} {d : Discovery} {scope : Scope} {name : String} {f : Procedure}
  {caller : NodeId}

theorem addCall (hP : Lasting P) (h : P d.graph) (i : Instruction) :
    P (d.addCall scope name caller f i).graph := by
  rw [Discovery.addCall]
  cases f.calleeName? i with
  | none => exact hP.recount h (d.graph.unresolved + 1) d.graph.skipped
  | some target => exact hP.addSite (hP.nodeFor h target (scope.kindOf target)) _

theorem foldl_addCall (hP : Lasting P) (calls : List Instruction) (h : P d.graph) :
    P (calls.foldl (Discovery.addCall scope name caller f) d).graph := by
  induction calls generalizing d with
  | nil => exact h
  | cons i calls ih => exact ih (hP.addCall h i)

theorem close (hP : Lasting P) (h : P d.graph) : P (d.close scope name).graph := by
  rw [Discovery.close]
  cases scope.kindOf name with
  | inside =>
      have hnode := hP.nodeFor h name .inside
      exact hP.recount hnode (d.graph.nodeFor name .inside).1.unresolved
        ((d.graph.nodeFor name .inside).1.skipped + 1)
  | outside => exact hP.nodeFor h name .outside

theorem expand (hP : Lasting P) (h : P d.graph) : P (d.expand scope name f).graph :=
  hP.foldl_addCall f.calls (hP.nodeFor h name .inside)

/-- It holds at the end of every run that it holds at the beginning of. -/
theorem run (hP : Lasting P) (scope : Scope) (queue visited : List String) (d : Discovery)
    (h : P d.graph) : P (Discovery.run scope queue visited d).graph := by
  fun_induction Discovery.run scope queue visited d with
  | case1 visited d => exact h
  | case2 visited d name queue hvisited ih => exact ih h
  | case3 visited d name queue hnew hload ih => exact ih (hP.close h)
  | case4 visited d name queue hnew f hload ih => exact ih (hP.expand h)

end Lasting

/-- The edge that a site becomes. -/
def CallSite.edge (s : CallSite) : Multigraph.Edge CallSite :=
  ⟨s.parent, s.target, s⟩

namespace CallGraph

variable {g : CallGraph} {id : NodeId} {node : Node} {name caller callee : String}

/-! ## Calls kept in step -/

/-- Whatever keeps calls keeps the sites: the edges, the tables of edges at the nodes
    and the lists of the nodes. -/
structure InStep (g : CallGraph) : Prop where
  indexed : g.Indexed
  balanced : g.Balanced
  callers : ∀ id, g.callersAt id = g.sites.filter fun s => s.target == id
  wired : g.graph.Wired
  edges : g.graph.edges.toList = g.sites.map CallSite.edge

theorem inStep_empty : InStep {} where
  indexed := indexed_empty
  balanced := balanced_empty
  callers _ := rfl
  wired := Multigraph.wired_empty
  edges := rfl

/-- A node that is looked up or added has no edges by that. -/
theorem wired_nodeFor (h : g.graph.Wired) (name : String) (kind : Kind) :
    (g.nodeFor name kind).1.graph.Wired := by
  rw [nodeFor]
  cases g.nodeId? name with
  | none => exact h.addNode _
  | some found =>
      cases kind with
      | inside => exact h.modifyNode found (·.promote)
      | outside => exact h

namespace InStep

theorem nodeFor (h : g.InStep) (name : String) (kind : Kind) : (g.nodeFor name kind).1.InStep where
  indexed := h.indexed.nodeFor name kind
  balanced := h.balanced.nodeFor name kind
  callers id := by
    rw [callersAt_nodeFor, sites_nodeFor]
    exact h.callers id
  wired := wired_nodeFor h.wired name kind
  edges := by
    rw [edges_nodeFor, sites_nodeFor]
    exact h.edges

/-- A site joins the end of every way that calls are kept, or, refused, none. -/
theorem addSite (h : g.InStep) (site : CallSite) : (g.addSite site).InStep := by
  by_cases hends : site.parent < g.graph.nodes.size ∧ site.target < g.graph.nodes.size
  · obtain ⟨graph, number, hok, heq⟩ := addSite_eq hends.1 hends.2
    refine ⟨h.indexed.addSite site, h.balanced.addSite site, fun id => ?_, ?_, ?_⟩
    · rw [callersAt_addSite hends.1 hends.2, sites_addSite hends.1 hends.2,
        filter_concat CallSite.target, h.callers]
    · rw [heq]
      exact ((h.wired.addEdge hok).modifyNode _ _).modifyNode _ _
    · rw [sites_addSite hends.1 hends.2, List.map_append, ← h.edges, heq]
      obtain ⟨-, -, rfl⟩ := Multigraph.addEdge_eq_ok.mp hok
      exact Array.toList_push
  · rw [addSite_of_missing hends]
    exact h

/-- Counts and entries play no part. -/
theorem recount (h : g.InStep) (entries : List NodeId) (unresolved skipped : Nat) :
    InStep { g with entries := entries, unresolved := unresolved, skipped := skipped } where
  indexed := h.indexed
  balanced := ⟨h.balanced.within, h.balanced.callees⟩
  callers := h.callers
  wired := h.wired
  edges := h.edges

theorem lasting : Lasting InStep where
  nodeFor h name kind := h.nodeFor name kind
  addSite h site := h.addSite site
  recount {g} h unresolved skipped := h.recount g.entries unresolved skipped

/-! ## Views of nodes -/

theorem callees_eq (h : g.InStep) (hnode : g.nodeById? id = some node) :
    node.callees = g.sites.filter fun s => s.parent == id := by
  rw [← calleesAt_of_node hnode]
  exact h.balanced.callees id

theorem callers_eq (h : g.InStep) (hnode : g.nodeById? id = some node) :
    node.callers = g.sites.filter fun s => s.target == id := by
  rw [← callersAt_of_node hnode]
  exact h.callers id

/-- The neighbours in the graph are the nodes called, and the nodes that call. -/
theorem successors_eq (h : g.InStep) (hnode : g.nodeById? id = some node) :
    g.graph.successors id = node.callees.map CallSite.target := by
  rw [h.wired.successors_eq, h.edges, List.filter_map, List.map_map, h.callees_eq hnode]
  rfl

theorem predecessors_eq (h : g.InStep) (hnode : g.nodeById? id = some node) :
    g.graph.predecessors id = node.callers.map CallSite.parent := by
  rw [h.wired.predecessors_eq, h.edges, List.filter_map, List.map_map, h.callers_eq hnode]
  rfl

end InStep

/-! ## Views by name -/

theorem Indexed.mem_names (h : g.Indexed) {ids : List NodeId} :
    name ∈ g.names ids ↔ ∃ id ∈ ids, g.nodeId? name = some id := by
  rw [names, List.mem_filterMap]
  exact exists_congr fun id => and_congr_right fun _ => h.map_name_eq_some

/-- Different nodes have different names. -/
theorem Indexed.nodup_names (h : g.Indexed) {ids : List NodeId} (hids : ids.Nodup) :
    (g.names ids).Nodup := by
  refine List.Nodup.filterMap (fun id id' name hid hid' => ?_) hids
  have hname := h.map_name_eq_some.mp hid
  exact Option.some.inj (hname.symm.trans (h.map_name_eq_some.mp hid'))

/-- The names at the far ends of what a node lists, each once.  Functions called and
    functions that call are looked up in the same way, from different ends. -/
def farNames (g : CallGraph) (list : Node → List CallSite) (far : CallSite → NodeId)
    (name : String) : List String :=
  ((g.node? name).map fun n => g.names ((list n).map far).eraseDups).getD []

theorem calleesOf_eq (g : CallGraph) : g.calleesOf = g.farNames Node.callees CallSite.target := rfl

theorem callersOf_eq (g : CallGraph) : g.callersOf = g.farNames Node.callers CallSite.parent := rfl

section FarNames

variable {list : Node → List CallSite} {near far : CallSite → NodeId} {other : String}

theorem Indexed.nodup_farNames (h : g.Indexed) (name : String) :
    (g.farNames list far name).Nodup := by
  rw [farNames]
  cases g.node? name with
  | none => exact List.nodup_nil
  | some node => exact h.nodup_names (nodup_eraseDups _)

/-- A function is found from another when a site joins their nodes. -/
theorem Indexed.mem_farNames (h : g.Indexed)
    (hlist : ∀ id node, g.nodeById? id = some node →
      list node = g.sites.filter fun s => near s == id) :
    other ∈ g.farNames list far name ↔
      ∃ s ∈ g.sites, g.nodeId? name = some (near s) ∧ g.nodeId? other = some (far s) := by
  rw [farNames, node?]
  cases hid : g.nodeId? name with
  | none =>
      refine iff_of_false List.not_mem_nil ?_
      rintro ⟨s, -, hnear, -⟩
      cases hnear
  | some id =>
      obtain ⟨node, hnode, -⟩ := h.nodeId?_eq_some.mp hid
      rw [Option.bind_some, hnode, Option.map_some, Option.getD_some, h.mem_names,
        hlist id node hnode]
      constructor
      · rintro ⟨target, htarget, hother⟩
        obtain ⟨s, hs, rfl⟩ := List.mem_map.mp (List.mem_eraseDups.mp htarget)
        obtain ⟨hsite, hnear⟩ := List.mem_filter.mp hs
        exact ⟨s, hsite, congrArg some (beq_iff_eq.mp hnear).symm, hother⟩
      · rintro ⟨s, hsite, hnear, hother⟩
        have hs : s ∈ g.sites.filter fun s => near s == id :=
          List.mem_filter.mpr ⟨hsite, beq_iff_eq.mpr (Option.some.inj hnear).symm⟩
        exact ⟨far s, List.mem_eraseDups.mpr (List.mem_map_of_mem hs), hother⟩

end FarNames

theorem InStep.mem_calleesOf (h : g.InStep) : callee ∈ g.calleesOf caller ↔
    ∃ s ∈ g.sites, g.nodeId? caller = some s.parent ∧ g.nodeId? callee = some s.target := by
  rw [calleesOf_eq]
  exact h.indexed.mem_farNames fun _ _ => h.callees_eq

theorem InStep.mem_callersOf (h : g.InStep) : caller ∈ g.callersOf callee ↔
    ∃ s ∈ g.sites, g.nodeId? callee = some s.target ∧ g.nodeId? caller = some s.parent := by
  rw [callersOf_eq]
  exact h.indexed.mem_farNames fun _ _ => h.callers_eq

/-! ## Agreement -/

/-- All views of a graph show the same calls. -/
structure Consistent (g : CallGraph) : Prop where
  /-- Names and nodes belong together one to one. -/
  nodeId?_iff : ∀ name id, g.nodeId? name = some id ↔ (g.nodeById? id).map Node.name = some name
  /-- The lists of all nodes, of either kind, hold the sites. -/
  callees_perm : (g.nodes.flatMap Node.callees).Perm g.sites
  callers_perm : (g.nodes.flatMap Node.callers).Perm g.sites
  /-- A node lists the sites that leave it and those that enter it, in order. -/
  callees_eq : ∀ id node, g.nodeById? id = some node →
    node.callees = g.sites.filter fun s => s.parent == id
  callers_eq : ∀ id node, g.nodeById? id = some node →
    node.callers = g.sites.filter fun s => s.target == id
  /-- The graph has the same neighbours in the same order. -/
  successors_eq : ∀ id node, g.nodeById? id = some node →
    g.graph.successors id = node.callees.map CallSite.target
  predecessors_eq : ∀ id node, g.nodeById? id = some node →
    g.graph.predecessors id = node.callers.map CallSite.parent
  /-- By name, a pair is listed where either function finds the other. -/
  mem_edges_iff_callees : ∀ caller callee,
    (caller, callee) ∈ g.edges ↔ callee ∈ g.calleesOf caller
  mem_edges_iff_callers : ∀ caller callee,
    (caller, callee) ∈ g.edges ↔ caller ∈ g.callersOf callee
  /-- And nothing is listed twice. -/
  nodup_edges : g.edges.Nodup
  nodup_callees : ∀ name, (g.calleesOf name).Nodup
  nodup_callers : ∀ name, (g.callersOf name).Nodup

theorem InStep.consistent (h : g.InStep) : g.Consistent where
  nodeId?_iff _ _ := h.indexed.map_name_eq_some.symm
  callees_perm := h.balanced.perm_sites
  callers_perm := perm_sites_of_listed h.callers fun s hs => (h.balanced.within s hs).2
  callees_eq _ _ := h.callees_eq
  callers_eq _ _ := h.callers_eq
  successors_eq _ _ := h.successors_eq
  predecessors_eq _ _ := h.predecessors_eq
  mem_edges_iff_callees caller callee := by
    rw [h.mem_calleesOf, h.indexed.mem_edges_iff]
  mem_edges_iff_callers caller callee := by
    rw [h.mem_callersOf, h.indexed.mem_edges_iff]
    exact exists_congr fun s => and_congr_right fun _ => and_comm
  nodup_edges := h.indexed.nodup_edges
  nodup_callees := g.calleesOf_eq ▸ h.indexed.nodup_farNames
  nodup_callers := g.callersOf_eq ▸ h.indexed.nodup_farNames

theorem inStep_ofNames (scope : Scope) (seeds : List String) :
    (Discovery.ofNames scope seeds).graph.InStep :=
  InStep.lasting.run scope seeds [] {} inStep_empty

/-- All views of a call graph show the same calls, in the graph without functions and,
    for every source of bodies, in the call graphs of modules and of single functions. -/
theorem consistent_ofModule_and_ofStart (loader : Loader) :
    empty.Consistent ∧ (∀ m, (ofModule m loader).Consistent) ∧
      ∀ start segment, (ofStart start segment loader).Consistent := by
  refine ⟨inStep_empty.consistent, fun m => ?_, fun start segment => ?_⟩
  · exact ((inStep_ofNames { segment := m.segment, listed := m.functions, loader := loader }
      m.functions).recount _ _ _).consistent
  · exact (inStep_ofNames { segment := segment, listed := [], loader := loader } [start]).consistent

/-- Two calls from one function to another are two sites and one caller. -/
example : (ofStart "odd" "text" circle.toLoader).callersOf "even" = ["odd"] ∧
    ((ofStart "odd" "text" circle.toLoader).node? "even").map (·.callers.length) = some 2 := by
  decide +kernel

end CallGraph

end ControlFlow
