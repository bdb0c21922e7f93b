import ControlFlow.CallGraph.Report
import ControlFlow.Proofs.Dot
import ControlFlow.Proofs.Views
import Mathlib.Algebra.BigOperators.Group.List.Lemmas
import Mathlib.Algebra.GroupWithZero.Nat

/-!
# What the drawing of a call graph says

    The drawing of a call graph has a line for every function and a line for every pair
    of functions of which one calls the other.  Names and titles may hold any characters,
    and the count at an edge is taken from the list of the caller, in which calls to one
    function may stand anywhere.

    Read back (`Dot.readNode`, `Dot.readEdge`), the drawing names every function once, in
    order, and counts the sites between any two of them (`Depicts`).  The pairs are not
    compared with the list of the caller but with the sites, so that it matters that the
    two are kept in step (`Balanced`).
-/

namespace ControlFlow

/-- The lines of a drawing, up to the closing brace. -/
structure Drawing where
  opening : List (List Char)
  nodes : List (List Char)
  edges : List (List Char)

/-- All lines of a drawing. -/
def Drawing.lines (d : Drawing) : List (List Char) :=
  d.opening ++ d.nodes ++ [[]] ++ d.edges ++ [['\x7d']]

namespace CallGraph

variable {g : CallGraph}

/-! ## Pairs of functions -/

/-- How many sites join a calling and a called node. -/
def sitesBetween (g : CallGraph) (pair : NodeId × NodeId) : Nat :=
  g.sites.countP fun s => (s.parent, s.target) == pair

/-- The pairs of nodes that a drawing has an edge for, in the order of the edges. -/
def drawnPairs (g : CallGraph) : List (NodeId × NodeId) :=
  g.nodes.zipIdx.flatMap fun n => n.1.uniqueCallees.map fun target => (n.2, target)

theorem mem_zipIdx_nodes {n : Node × NodeId} :
    n ∈ g.nodes.zipIdx ↔ g.nodeById? n.2 = some n.1 := by
  rw [List.mem_zipIdx_iff_getElem?, nodes, Array.getElem?_toList]
  rfl

/-- A pair is drawn if a site joins it. -/
theorem Balanced.mem_drawnPairs (h : g.Balanced) {pair : NodeId × NodeId} :
    pair ∈ g.drawnPairs ↔ ∃ s ∈ g.sites, (s.parent, s.target) = pair := by
  rw [drawnPairs, List.mem_flatMap]
  constructor
  · rintro ⟨⟨node, id⟩, hn, hpair⟩
    obtain ⟨target, htarget, rfl⟩ := List.mem_map.mp hpair
    obtain ⟨s, hs, rfl⟩ := List.mem_map.mp (List.mem_eraseDups.mp htarget)
    have hnode := mem_zipIdx_nodes.mp hn
    obtain rfl := h.parent_eq hnode hs
    exact ⟨s, h.mem_sites_iff.mpr ⟨node, hnode, hs⟩, rfl⟩
  · rintro ⟨s, hs, rfl⟩
    obtain ⟨node, hnode, hcallee⟩ := h.mem_sites_iff.mp hs
    have htarget : s.target ∈ node.uniqueCallees :=
      List.mem_eraseDups.mpr (List.mem_map_of_mem hcallee)
    exact ⟨(node, s.parent), mem_zipIdx_nodes.mpr hnode, List.mem_map_of_mem htarget⟩

/-- No pair is drawn twice: a node has one number, and lists what it calls once. -/
theorem nodup_drawnPairs (g : CallGraph) : g.drawnPairs.Nodup := by
  have hnumbers : g.nodes.zipIdx.Pairwise fun n m => n.2 ≠ m.2 := by
    rw [← List.pairwise_map (f := Prod.snd) (R := (· ≠ ·)), List.zipIdx_map_snd]
    exact List.nodup_range'
  rw [drawnPairs, List.nodup_flatMap]
  refine ⟨fun n _ => ?_, hnumbers.imp fun {n m} hne pair hn hm => ?_⟩
  · exact (nodup_eraseDups _).map fun a b hab => congrArg Prod.snd hab
  · obtain ⟨target, -, rfl⟩ := List.mem_map.mp hn
    obtain ⟨other, -, hpair⟩ := List.mem_map.mp hm
    exact hne (congrArg Prod.fst hpair).symm

/-- What the list of a node counts are the sites between the two nodes. -/
theorem Balanced.callsTo_eq (h : g.Balanced) {id target : NodeId} {node : Node}
    (hnode : g.nodeById? id = some node) : node.callsTo target = g.sitesBetween (id, target) := by
  rw [Node.callsTo, ← calleesAt_of_node hnode, h.callees, List.countP_filter, sitesBetween]
  refine List.countP_congr fun s _ => ?_
  simp [and_comm]

/-- All sites are counted, and none of them twice. -/
theorem Balanced.sum_sitesBetween (h : g.Balanced) :
    (g.drawnPairs.map g.sitesBetween).sum = g.sites.length := by
  have hperm : g.drawnPairs.Perm (g.sites.map fun s => (s.parent, s.target)).dedup := by
    rw [List.perm_ext_iff_of_nodup g.nodup_drawnPairs (List.nodup_dedup _)]
    intro pair
    rw [h.mem_drawnPairs, List.mem_dedup, List.mem_map]
  have hsum := List.sum_map_count_dedup_eq_length (g.sites.map fun s => (s.parent, s.target))
  rw [List.length_map] at hsum
  rw [(hperm.map _).sum_nat, ← hsum]
  refine congrArg List.sum (List.map_congr_left fun pair _ => ?_)
  simp only [sitesBetween, List.count_eq_countP, List.countP_map]
  refine List.countP_congr fun s _ => ?_
  simp

/-! ## Reading the drawing -/

/-- The parts of a drawing say what the graph has. -/
structure Depicts (g : CallGraph) (title : String) (d : Drawing) (pairs : List (NodeId × NodeId)) :
    Prop where
  length_opening : d.opening.length = 7
  getLast?_opening : d.opening.getLast? = some []
  title : d.opening[1]?.bind Dot.readTitle = some (Dot.withoutReturns title, ";".toList)
  /-- A line for every node, in the order of their numbers, with its name for a label; after
      the label there is nothing but the style of the node. -/
  nodes : d.nodes.map Dot.readNode = g.nodes.zipIdx.map fun n =>
    some (n.2, Dot.withoutReturns n.1.name, (n.1.style ++ "];").toList)
  /-- A line for every pair of nodes that a site joins, with the number of such sites. -/
  edges : d.edges.map Dot.readEdge = pairs.map fun pair =>
    some (pair.1, pair.2, g.sitesBetween pair)
  nodup_pairs : pairs.Nodup
  mem_pairs : ∀ pair, pair ∈ pairs ↔ ∃ s ∈ g.sites, (s.parent, s.target) = pair
  sum_sites : (pairs.map g.sitesBetween).sum = g.stats.callSites

theorem newline_not_mem_style (n : Node) : '\n' ∉ n.style.toList := by
  rw [Node.style]
  split
  · decide
  · split <;> decide

/-- An edge that is drawn says how often the one node calls the other. -/
theorem readEdge_edgeTo {node : Node} {target : NodeId} (id : NodeId)
    (hcallee : target ∈ node.uniqueCallees) :
    Dot.readEdge (node.edgeTo id target).toList = some (id, target, node.callsTo target) := by
  have hcalls : 0 < node.callsTo target := by
    obtain ⟨s, hs, rfl⟩ := List.mem_map.mp (List.mem_eraseDups.mp hcallee)
    exact List.countP_pos_iff.mpr ⟨s, hs, beq_self_eq_true _⟩
  rw [Node.edgeTo, Dot.readEdge_edgeLine]
  split
  · rfl
  · -- a single call has no label
    have hone : node.callsTo target = 1 := by omega
    rw [hone]
    rfl

/-- The lines of the drawing of a graph, part by part. -/
def drawing (g : CallGraph) (title : String) : Drawing where
  opening := (Dot.opening "CallGraph" title).map String.toList
  nodes := g.nodes.zipIdx.map fun n =>
    (Dot.nodeLine (IdSort.node.short n.2) n.1.name n.1.style).toList
  edges := g.nodes.zipIdx.flatMap fun n =>
    n.1.uniqueCallees.map fun target => (n.1.edgeTo n.2 target).toList

theorem newline_not_mem_lines (g : CallGraph) (title : Option String) :
    ∀ line ∈ g.lines title, '\n' ∉ line.toList := by
  intro line hline
  simp only [lines, Dot.drawing, List.mem_append, List.mem_singleton] at hline
  rcases hline with (((hopening | hnode) | rfl) | hedge) | rfl
  · exact Dot.newline_not_mem_opening _ (by decide) line hopening
  · obtain ⟨n, -, rfl⟩ := List.mem_map.mp hnode
    exact Dot.newline_not_mem_nodeLine n.2 n.1.name (newline_not_mem_style n.1)
  · decide
  · obtain ⟨n, -, hedges⟩ := List.mem_flatMap.mp hedge
    obtain ⟨target, -, rfl⟩ := List.mem_map.mp hedges
    exact Dot.newline_not_mem_edgeLine n.2 target _
  · decide

/-- Whatever names and title hold, the lines of the drawing end where they were written
    to end. -/
theorem splitOn_draw (g : CallGraph) (title : Option String) :
    (g.draw title).toList.splitOn '\n' = (g.drawing (title.getD "Call Graph")).lines ++ [[]] := by
  rw [draw, Dot.splitOn_unlines (g.newline_not_mem_lines title)]
  simp only [lines, Dot.drawing, drawing, Drawing.lines, List.map_append, List.map_flatMap,
    List.map_map]
  rfl

theorem Balanced.depicts (h : g.Balanced) (title : String) :
    g.Depicts title (g.drawing title) g.drawnPairs where
  length_opening := rfl
  getLast?_opening := rfl
  title := by
    show (some ("    label=" ++ Dot.quoted title ++ ";").toList).bind Dot.readTitle = _
    rw [Option.bind_some, Dot.readTitle_titleLine]
  nodes := by
    rw [drawing, List.map_map]
    refine List.map_congr_left fun n _ => ?_
    rw [Function.comp_apply, Dot.readNode_nodeLine]
  edges := by
    rw [drawing, drawnPairs, List.map_flatMap, List.map_flatMap]
    refine List.flatMap_congr fun n hn => ?_
    rw [List.map_map, List.map_map]
    refine List.map_congr_left fun target htarget => ?_
    rw [Function.comp_apply, Function.comp_apply, readEdge_edgeTo n.2 htarget,
      h.callsTo_eq (mem_zipIdx_nodes.mp hn)]
  nodup_pairs := g.nodup_drawnPairs
  mem_pairs _ := h.mem_drawnPairs
  sum_sites := h.sum_sitesBetween

/-- Whatever its names and its title hold, the drawing of a call graph consists of lines,
    each ended by a line feed: seven of them open it, the last of these empty, and after the
    nodes there is an empty one, after the edges the closing brace.  Read back, the nodes
    have their names, less carriage returns, and the edges tell for each pair of nodes that
    a site joins how many do, and so count all sites. -/
theorem draw_read_back (loader : Loader) (title : Option String) :
    (∀ m, ∃ d pairs, ((ofModule m loader).draw title).toList.splitOn '\n' = d.lines ++ [[]] ∧
      (ofModule m loader).Depicts (title.getD "Call Graph") d pairs) ∧
    ∀ start segment, ∃ d pairs,
      ((ofStart start segment loader).draw title).toList.splitOn '\n' = d.lines ++ [[]] ∧
      (ofStart start segment loader).Depicts (title.getD "Call Graph") d pairs := by
  refine ⟨fun m => ?_, fun start segment => ?_⟩
  · have hstep : (ofModule m loader).InStep := (inStep_ofNames
      { segment := m.segment, listed := m.functions, loader := loader } m.functions).recount _ _ _
    exact ⟨_, _, splitOn_draw _ title, hstep.balanced.depicts _⟩
  · have hstep : (ofStart start segment loader).InStep := inStep_ofNames
      { segment := segment, listed := [], loader := loader } [start]
    exact ⟨_, _, splitOn_draw _ title, hstep.balanced.depicts _⟩

/-- A quote, a backslash, a line feed and a carriage return in a name. -/
example : ((ofStart "a\"\\\n\rb" "text" circle.toLoader).lines none).drop 7 =
    ["    n0 [label=\"a\\\"\\\\\\nb\", style=filled, fillcolor=lightyellow];", "", "\x7d"] := by
  decide +kernel

end CallGraph

end ControlFlow
