import ControlFlow.CallGraph.Report
import ControlFlow.Code.Draft
import ControlFlow.Proofs.Profiles
import Mathlib.Data.List.Nodup

/-!
# Call graphs do not depend on the order of discovery

    The order in which functions are listed, and how often, decides which numbers
    nodes get, when they are found and whether they first count as outside.  None of
    it shows in what a graph says by name (`SameByName`).

    A graph that agrees with the profiles of its names (`Profiled`) says nothing
    else: every view of it is computed here from the profiles and the set of names.
    That set is what calls lead to, and the profiles ask of the list only who is in
    it.
-/

namespace ControlFlow

/-- More seeds lead to no less. -/
theorem ReachedByCalls.mono {load : String → Option Procedure} {seeds seeds' : List String}
    {name : String} (h : ReachedByCalls load seeds name) (hseeds : ∀ name ∈ seeds, name ∈ seeds') :
    ReachedByCalls load seeds' name := by
  induction h with
  | seed hseed => exact .seed (hseeds _ hseed)
  | call _ hload hi hnames ih => exact .call ih hload hi hnames

namespace CallGraph

variable {g g' : CallGraph} {profile : String → Profile} {node : Node} {name : String}

/-! ## Views by name -/

theorem Indexed.node?_eq_some (h : g.Indexed) :
    g.node? name = some node ↔ node ∈ g.nodes ∧ node.name = name := by
  rw [node?, Option.bind_eq_some_iff, mem_nodes_iff]
  constructor
  · rintro ⟨id, hid, hnode⟩
    obtain ⟨node', hnode', hname⟩ := h.nodeId?_eq_some.mp hid
    rw [hnode, Option.some.injEq] at hnode'
    exact ⟨⟨id, hnode⟩, hnode' ▸ hname⟩
  · rintro ⟨⟨id, hnode⟩, hname⟩
    exact ⟨id, h.nodeId?_eq_some.mpr ⟨node, hnode, hname⟩, hnode⟩

/-- What a node shows is found under its name, if the name decides it. -/
theorem Indexed.map_node? (h : g.Indexed) {α : Type} {view : Node → α} (known : String → α)
    (hknown : ∀ node ∈ g.nodes, view node = known node.name) (name : String) :
    (g.node? name).map view =
      if name ∈ g.nodes.map Node.name then some (known name) else none := by
  split
  · rename_i hmem
    obtain ⟨node, hnode, rfl⟩ := List.mem_map.mp hmem
    rw [h.node?_eq_some.mpr ⟨hnode, rfl⟩, Option.map_some, hknown node hnode]
  · rename_i hmem
    rw [Option.map_eq_none_iff, Option.eq_none_iff_forall_ne_some]
    intro node hfound
    obtain ⟨hnode, hname⟩ := h.node?_eq_some.mp hfound
    exact hmem (List.mem_map.mpr ⟨node, hnode, hname⟩)

/-- Nodes are counted by their names, if the names decide what is counted. -/
theorem countP_nodes {p : Node → Bool} (known : String → Bool)
    (hknown : ∀ node ∈ g.nodes, p node = known node.name) :
    g.nodes.countP p = (g.nodes.map Node.name).countP known := by
  rw [List.countP_map]
  refine List.countP_congr fun node hnode => ?_
  rw [hknown node hnode, Function.comp]

theorem filterMap_range : (List.range g.graph.nodes.size).filterMap g.nodeById? = g.nodes := by
  have hmap := congrArg (List.filterMap id) g.map_nodeById?_range
  rw [List.filterMap_map, List.filterMap_map] at hmap
  exact hmap.trans List.filterMap_some

/-- The leaves are the nodes without calls. -/
theorem filterMap_leaves : g.leaves.filterMap g.nodeById? = g.nodes.filter Node.isLeaf := by
  rw [← filterMap_range, leaves, List.filterMap_filter, List.filter_filterMap]
  refine List.filterMap_congr fun id _ => ?_
  cases g.nodeById? id with
  | none => simp
  | some node => simp [Option.filter]

theorem length_leaves : g.leaves.length = g.nodes.countP Node.isLeaf := by
  rw [List.countP_eq_length_filter, ← filterMap_leaves, List.length_filterMap_eq_countP, eq_comm,
    List.countP_eq_length]
  intro id hid
  exact Option.isSome_of_any (List.mem_filter.mp hid).2

theorem Indexed.map_name_eq_some (h : g.Indexed) {id : NodeId} :
    (g.nodeById? id).map Node.name = some name ↔ g.nodeId? name = some id := by
  rw [Option.map_eq_some_iff]
  exact h.nodeId?_eq_some.symm

/-- The pair of names at two nodes. -/
theorem Indexed.namedPair_eq_some (h : g.Indexed) {parent target : NodeId}
    {pair : String × String} :
    (match g.nodeById? parent, g.nodeById? target with
      | some caller, some callee => some (caller.name, callee.name)
      | _, _ => none) = some pair ↔
      g.nodeId? pair.1 = some parent ∧ g.nodeId? pair.2 = some target := by
  rw [← h.map_name_eq_some, ← h.map_name_eq_some]
  cases g.nodeById? parent with
  | none => simp
  | some caller =>
      cases g.nodeById? target with
      | none => simp
      | some callee => simp [Prod.ext_iff]

/-- A pair of functions is listed once. -/
theorem Indexed.nodup_edges (h : g.Indexed) : g.edges.Nodup := by
  refine List.Nodup.filterMap ?_ (nodup_eraseDups _)
  rintro ⟨parent, target⟩ ⟨parent', target'⟩ pair hends hends'
  obtain ⟨hcaller, hcallee⟩ := h.namedPair_eq_some.mp hends
  obtain ⟨hcaller', hcallee'⟩ := h.namedPair_eq_some.mp hends'
  rw [Option.some.inj (hcaller.symm.trans hcaller'), Option.some.inj (hcallee.symm.trans hcallee')]

/-- A pair of functions is listed when a site joins their nodes. -/
theorem Indexed.mem_edges_iff (h : g.Indexed) {pair : String × String} : pair ∈ g.edges ↔
    ∃ s ∈ g.sites, g.nodeId? pair.1 = some s.parent ∧ g.nodeId? pair.2 = some s.target := by
  rw [edges, List.mem_filterMap]
  constructor
  · rintro ⟨⟨parent, target⟩, hends, hpair⟩
    obtain ⟨s, hs, heq⟩ := List.mem_map.mp (List.mem_eraseDups.mp hends)
    obtain ⟨rfl, rfl⟩ := Prod.mk.inj heq
    have hnames := h.namedPair_eq_some.mp hpair
    exact ⟨s, hs, hnames⟩
  · rintro ⟨s, hs, hnames⟩
    have hpair := h.namedPair_eq_some.mpr hnames
    exact ⟨(s.parent, s.target), List.mem_eraseDups.mpr (List.mem_map_of_mem hs), hpair⟩

/-! ## Graphs that agree with profiles -/

namespace Profiled

theorem isInside_eq (h : g.Profiled profile) (hnode : node ∈ g.nodes) :
    node.isInside = ((profile node.name).kind == .inside) := by
  rw [Node.isInside, h.kind node hnode]

theorem isLeaf_eq (h : g.Profiled profile) (hnode : node ∈ g.nodes) :
    node.isLeaf = (profile node.name).calls.isEmpty := by
  rw [Node.isLeaf, ← h.calls node hnode, List.isEmpty_map]

/-- A function calls itself when its profile lists a call to its name. -/
theorem any_isRecursive_eq (h : g.Profiled profile) (hnode : node ∈ g.nodes) :
    node.callees.any (·.isRecursive) =
      (profile node.name).calls.any fun call => call.2 == some node.name := by
  obtain ⟨id, hid⟩ := mem_nodes_iff.mp hnode
  have hself := h.indexed.nodeId?_eq_some.mpr ⟨node, hid, rfl⟩
  rw [← h.calls node hnode, List.any_map, Bool.eq_iff_iff, List.any_eq_true, List.any_eq_true]
  refine exists_congr fun s => and_congr_right fun hs => ?_
  have hparent := h.balanced.parent_eq hid hs
  rw [CallSite.isRecursive, beq_iff_eq, hparent, Function.comp, callByName, beq_iff_eq,
    h.indexed.map_name_eq_some, hself, Option.some.injEq]
  exact eq_comm

/-- The sites are the calls of all profiles. -/
theorem perm_sites (h : g.Profiled profile) :
    ((g.nodes.map Node.name).flatMap fun name => (profile name).calls).Perm
      (g.sites.map g.callByName) := by
  refine .trans (.of_eq ?_) (h.balanced.perm_sites.map g.callByName)
  rw [List.flatMap_map, List.map_flatMap]
  exact List.flatMap_congr fun node hnode => (h.calls node hnode).symm

/-- One function calls another when its profile lists a call to the other's name. -/
theorem mem_edges_iff_calls (h : g.Profiled profile) {pair : String × String} :
    pair ∈ g.edges ↔
      pair.1 ∈ g.nodes.map Node.name ∧ ∃ i, (i, some pair.2) ∈ (profile pair.1).calls := by
  rw [h.indexed.mem_edges_iff]
  constructor
  · rintro ⟨s, hs, hcaller, hcallee⟩
    obtain ⟨node, hid, hlisted⟩ := h.balanced.mem_sites_iff.mp hs
    have hnode := mem_nodes_iff.mpr ⟨s.parent, hid⟩
    have hname : node.name = pair.1 :=
      h.indexed.name_unique (h.indexed.nodeId?_eq_some.mpr ⟨node, hid, rfl⟩) hcaller
    have hcall : g.callByName s = (s.instr, some pair.2) :=
      congrArg (Prod.mk s.instr) (h.indexed.map_name_eq_some.mpr hcallee)
    rw [← hname, ← h.calls node hnode]
    exact ⟨List.mem_map_of_mem hnode, s.instr, hcall ▸ List.mem_map_of_mem hlisted⟩
  · rintro ⟨hmem, i, hcall⟩
    obtain ⟨node, hnode, hname⟩ := List.mem_map.mp hmem
    obtain ⟨id, hid⟩ := mem_nodes_iff.mp hnode
    rw [← hname, ← h.calls node hnode] at hcall
    obtain ⟨s, hlisted, hs⟩ := List.mem_map.mp hcall
    have hparent := h.balanced.parent_eq hid hlisted
    refine ⟨s, h.balanced.mem_sites_iff.mpr ⟨node, hparent ▸ hid, hlisted⟩, ?_, ?_⟩
    · exact h.indexed.nodeId?_eq_some.mpr ⟨node, hparent ▸ hid, hname⟩
    · exact h.indexed.map_name_eq_some.mp (congrArg Prod.snd hs)

/-- The counts of two graphs that agree with the same profiles and have the same
    names. -/
theorem stats_eq (h : g.Profiled profile) (h' : g'.Profiled profile)
    (hnames : (g.nodes.map Node.name).Perm (g'.nodes.map Node.name))
    (hedges : g.edges.Perm g'.edges)
    (hentries : g.entries = g.leaves) (hentries' : g'.entries = g'.leaves) :
    g.stats = g'.stats := by
  have hcount : ∀ {p : Node → Bool} (known : String → Bool),
      (∀ node ∈ g.nodes, p node = known node.name) →
      (∀ node ∈ g'.nodes, p node = known node.name) → g.nodes.countP p = g'.nodes.countP p := by
    intro p known hknown hknown'
    rw [countP_nodes known hknown, countP_nodes known hknown', hnames.countP_eq]
  have hfunctions : g.nodes.length = g'.nodes.length := by
    rw [← List.length_map Node.name, hnames.length_eq, List.length_map]
  have hinside := hcount (fun name => (profile name).kind == .inside)
    (fun _ => h.isInside_eq) (fun _ => h'.isInside_eq)
  have hleaves := hcount (fun name => (profile name).calls.isEmpty)
    (fun _ => h.isLeaf_eq) (fun _ => h'.isLeaf_eq)
  have hrecursive := hcount (fun name => (profile name).calls.any fun call => call.2 == some name)
    (fun _ => h.any_isRecursive_eq) (fun _ => h'.any_isRecursive_eq)
  have hsites : g.sites.length = g'.sites.length := by
    rw [← List.length_map g.callByName, ← h.perm_sites.length_eq,
      (hnames.flatMap_right _).length_eq, h'.perm_sites.length_eq, List.length_map]
  have hunresolved : g.unresolved = g'.unresolved := by
    rw [h.unresolved, h'.unresolved, (hnames.flatMap_right _).length_eq]
  have hskipped : g.skipped = g'.skipped := by
    rw [h.skipped, h'.skipped, hnames.countP_eq]
  simp only [stats, hfunctions, hinside, hsites, hedges.length_eq, hunresolved, hskipped, hentries,
    hentries', length_leaves, hleaves, hrecursive]

end Profiled

/-! ## Comparing graphs by name -/

/-- Two graphs say the same by name. -/
structure SameByName (g g' : CallGraph) : Prop where
  names : ∀ name, name ∈ g.nodes.map Node.name ↔ name ∈ g'.nodes.map Node.name
  kind : ∀ name, (g.node? name).map Node.kind = (g'.node? name).map Node.kind
  /-- The same calls in the same order, each with its instruction and the name called. -/
  callees : ∀ name, (g.node? name).map (fun node => node.callees.map g.callByName) =
    (g'.node? name).map fun node => node.callees.map g'.callByName
  edges : ∀ pair, pair ∈ g.edges ↔ pair ∈ g'.edges
  entries : ∀ name, name ∈ g.entryNodes.map Node.name ↔ name ∈ g'.entryNodes.map Node.name
  stats : g.stats = g'.stats

theorem Profiled.mem_entries_iff (h : g.Profiled profile) (hentries : g.entries = g.leaves) :
    name ∈ g.entryNodes.map Node.name ↔
      name ∈ g.nodes.map Node.name ∧ (profile name).calls.isEmpty = true := by
  rw [entryNodes, hentries, filterMap_leaves, List.mem_map, List.mem_map]
  constructor
  · rintro ⟨node, hmem, rfl⟩
    obtain ⟨hnode, hleaf⟩ := List.mem_filter.mp hmem
    exact ⟨⟨node, hnode, rfl⟩, h.isLeaf_eq hnode ▸ hleaf⟩
  · rintro ⟨⟨node, hnode, rfl⟩, hcalls⟩
    exact ⟨node, List.mem_filter.mpr ⟨hnode, (h.isLeaf_eq hnode).trans hcalls⟩, rfl⟩

/-- The names of a graph and their profiles decide what it says by name. -/
theorem Profiled.sameByName (h : g.Profiled profile) (h' : g'.Profiled profile)
    (hentries : g.entries = g.leaves) (hentries' : g'.entries = g'.leaves)
    (hnames : ∀ name, name ∈ g.nodes.map Node.name ↔ name ∈ g'.nodes.map Node.name) :
    SameByName g g' := by
  have hedges : ∀ pair, pair ∈ g.edges ↔ pair ∈ g'.edges := by
    intro pair
    rw [h.mem_edges_iff_calls, h'.mem_edges_iff_calls, hnames]
  refine ⟨hnames, fun name => ?_, fun name => ?_, hedges, fun name => ?_, ?_⟩
  · rw [h.indexed.map_node? (fun name => (profile name).kind) h.kind,
      h'.indexed.map_node? (fun name => (profile name).kind) h'.kind]
    exact if_congr (hnames name) rfl rfl
  · rw [h.indexed.map_node? (fun name => (profile name).calls) h.calls,
      h'.indexed.map_node? (fun name => (profile name).calls) h'.calls]
    exact if_congr (hnames name) rfl rfl
  · rw [h.mem_entries_iff hentries, h'.mem_entries_iff hentries', hnames]
  · refine h.stats_eq h' ?_ ?_ hentries hentries'
    · exact (List.perm_ext_iff_of_nodup (Keyed.nodup_map h.indexed)
        (Keyed.nodup_map h'.indexed)).mpr hnames
    · exact (List.perm_ext_iff_of_nodup h.indexed.nodup_edges h'.indexed.nodup_edges).mpr hedges

end CallGraph

/-- The profiles ask of the list only who is in it. -/
theorem Scope.profile_eq_of_listed (s : Scope) {listed : List String}
    (h : ∀ name, name ∈ listed ↔ name ∈ s.listed) :
    Scope.profile { s with listed := listed } = s.profile := by
  funext name
  have hkind : Scope.kindOf { s with listed := listed } name = s.kindOf name :=
    if_congr (h name) rfl rfl
  rw [profile, profile, hkind]
  rfl

namespace CallGraph

theorem profiled_ofModule (m : Listing) (loader : Loader) : (ofModule m loader).Profiled
    (Scope.profile { segment := m.segment, listed := m.functions, loader := loader }) := by
  obtain ⟨hindexed, hbalanced, hkind, hcalls, hunresolved, hskipped⟩ := Discovery.profiled_ofNames
    { segment := m.segment, listed := m.functions, loader := loader } m.functions
  exact ⟨hindexed, ⟨hbalanced.within, hbalanced.callees⟩, hkind, hcalls, hunresolved, hskipped⟩

theorem mem_names_ofModule (m : Listing) (loader : Loader) (name : String) :
    name ∈ (ofModule m loader).nodes.map Node.name ↔
      ReachedByCalls (loader.load · m.segment) m.functions name :=
  (Discovery.complete_ofNames
    { segment := m.segment, listed := m.functions, loader := loader } m.functions).mem_names_iff name

/-- Listing the functions of a module in another order, or some of them again, gives
    a call graph that says the same by name. -/
theorem sameByName_of_same_functions (m : Listing) (loader : Loader) (functions : List String)
    (h : ∀ name, name ∈ functions ↔ name ∈ m.functions) :
    SameByName (ofModule { m with functions := functions } loader) (ofModule m loader) := by
  have hprofiled := profiled_ofModule { m with functions := functions } loader
  have hprofile := Scope.profile_eq_of_listed
    { segment := m.segment, listed := m.functions, loader := loader } h
  refine Profiled.sameByName (hprofile ▸ hprofiled) (profiled_ofModule m loader) rfl rfl ?_
  intro name
  rw [mem_names_ofModule, mem_names_ofModule]
  constructor
  · exact fun hreached => hreached.mono fun seed => (h seed).mp
  · exact fun hreached => hreached.mono fun seed => (h seed).mpr

/-- Two functions that call each other, and one that calls into them, outside and to
    an unknown target. -/
def circle : Archive :=
  let body (name : String) (steps : List Draft.Step) : Body :=
    ⟨name, none, (Draft.start name).run (.block 0 :: steps)⟩
  [body "main" [.call 0 "even", .call 0 "print", .instr 0 "call" true],
    body "even" [.call 0 "odd"],
    body "odd" [.call 0 "even", .call 0 "even"]]

/-- Listed differently, the functions are found in another order, and the graphs say the
    same. -/
theorem sameByName_circle :
    (∀ name, name ∈ ["ghost", "odd", "main", "odd"] ↔ name ∈ ["main", "odd", "ghost"]) ∧
      (ofModule ⟨"text", ["ghost", "odd", "main", "odd"]⟩ circle.toLoader).nodes.map Node.name ≠
        (ofModule ⟨"text", ["main", "odd", "ghost"]⟩ circle.toLoader).nodes.map Node.name ∧
      SameByName (ofModule ⟨"text", ["ghost", "odd", "main", "odd"]⟩ circle.toLoader)
        (ofModule ⟨"text", ["main", "odd", "ghost"]⟩ circle.toLoader) := by
  have h : ∀ name, name ∈ ["ghost", "odd", "main", "odd"] ↔ name ∈ ["main", "odd", "ghost"] := by
    intro name
    simp only [List.mem_cons, List.not_mem_nil, or_false]
    tauto
  refine ⟨h, by decide +kernel, ?_⟩
  exact sameByName_of_same_functions ⟨"text", ["main", "odd", "ghost"]⟩ circle.toLoader _ h

end CallGraph

end ControlFlow
