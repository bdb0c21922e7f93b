import ControlFlow.Proofs.CallGraph
import Mathlib.Data.List.Perm.Basic

/-!
# Sites and the lists at their nodes

    A call is kept twice: as an edge between two nodes, and in the list of the node
    that calls.  The two are kept in step (`Balanced`): the list of a node holds, in
    order, the sites that leave it.  As every site leaves some node, the lists of
    all nodes together are the sites, sorted by where they leave.
-/

namespace ControlFlow

/-- Sorted into classes by a number below a bound, the elements of a list are the
    same. -/
theorem perm_flatMap_filter {α : Type} (key : α → Nat) (bound : Nat) (xs : List α)
    (h : ∀ a ∈ xs, key a < bound) :
    ((List.range bound).flatMap fun k => xs.filter fun a => key a == k).Perm xs := by
  induction bound generalizing xs with
  | zero =>
      have hnil : xs = [] := List.eq_nil_iff_forall_not_mem.mpr fun a ha => Nat.not_lt_zero _ (h a ha)
      rw [hnil]
      exact .nil
  | succ bound ih =>
      -- the classes below the last one are those of the elements below
      have hbelow : ((List.range bound).flatMap fun k => xs.filter fun a => key a == k).Perm
          (xs.filter fun a => decide (key a < bound)) := by
        have hlow : ∀ a ∈ xs.filter fun a => decide (key a < bound), key a < bound :=
          fun a ha => of_decide_eq_true (List.mem_filter.mp ha).2
        refine .trans (List.Perm.flatMap_left _ fun k hk => ?_) (ih _ hlow)
        rw [List.filter_filter]
        refine .of_eq (List.filter_congr fun a _ => ?_)
        by_cases hkey : key a = k
        · simp [hkey, List.mem_range.mp hk]
        · simp [hkey]
      have hlast : (xs.filter fun a => key a == bound) =
          xs.filter fun a => !decide (key a < bound) := by
        refine List.filter_congr fun a ha => ?_
        have hlt := h a ha
        rw [Bool.eq_iff_iff, beq_iff_eq, Bool.not_eq_true', decide_eq_false_iff_not]
        omega
      rw [List.range_succ, List.flatMap_append, List.flatMap_singleton, hlast]
      exact (hbelow.append_right _).trans (List.filter_append_perm _ xs)

/-- One more element joins the end of its own class, and no other. -/
theorem filter_concat {α : Type} (key : α → Nat) (xs : List α) (a : α) (k : Nat) :
    ((xs ++ [a]).filter fun b => key b == k) =
      if key a = k then (xs.filter fun b => key b == k) ++ [a] else xs.filter fun b => key b == k := by
  rw [List.filter_append]
  split
  · rename_i hkey
    simp [hkey]
  · rename_i hkey
    simp [hkey]

namespace CallGraph

variable {g : CallGraph} {site : CallSite} {id : NodeId} {node : Node}

/-- Sites join nodes that exist, and every node lists those that leave it. -/
structure Balanced (g : CallGraph) : Prop where
  within : ∀ s ∈ g.sites, s.parent < g.graph.nodes.size ∧ s.target < g.graph.nodes.size
  callees : ∀ id, g.calleesAt id = g.sites.filter fun s => s.parent == id

theorem balanced_empty : Balanced {} where
  within := nofun
  callees _ := rfl

/-! ## Growing -/

theorem edges_nodeFor (g : CallGraph) (name : String) (kind : Kind) :
    (g.nodeFor name kind).1.graph.edges = g.graph.edges := by
  rw [nodeFor]
  cases g.nodeId? name with
  | none => rfl
  | some id => cases kind <;> rfl

theorem sites_nodeFor (g : CallGraph) (name : String) (kind : Kind) :
    (g.nodeFor name kind).1.sites = g.sites := by
  rw [sites, Multigraph.edgeData, edges_nodeFor]
  rfl

theorem size_le_nodeFor (g : CallGraph) (name : String) (kind : Kind) :
    g.graph.nodes.size ≤ (g.nodeFor name kind).1.graph.nodes.size := by
  rw [nodeFor]
  cases g.nodeId? name with
  | none =>
      show _ ≤ (g.graph.nodes.push (Node.fresh name kind)).size
      rw [Array.size_push]
      exact Nat.le_succ _
  | some id =>
      cases kind with
      | inside =>
          show _ ≤ (g.graph.nodes.modify id (·.promote)).size
          exact Nat.le_of_eq Array.size_modify.symm
      | outside => exact Nat.le_refl _

theorem Balanced.nodeFor (h : g.Balanced) (name : String) (kind : Kind) :
    (g.nodeFor name kind).1.Balanced where
  within s hs := by
    rw [sites_nodeFor] at hs
    have hsize := g.size_le_nodeFor name kind
    exact ⟨Nat.lt_of_lt_of_le (h.within s hs).1 hsize, Nat.lt_of_lt_of_le (h.within s hs).2 hsize⟩
  callees id := by
    rw [sites_nodeFor, calleesAt_nodeFor]
    exact h.callees id

theorem sites_addSite (hparent : site.parent < g.graph.nodes.size)
    (htarget : site.target < g.graph.nodes.size) : (g.addSite site).sites = g.sites ++ [site] := by
  obtain ⟨graph, id, hok, heq⟩ := addSite_eq hparent htarget
  obtain ⟨-, -, rfl⟩ := Multigraph.addEdge_eq_ok.mp hok
  rw [heq]
  show (g.graph.edges.push ⟨site.parent, site.target, site⟩).toList.map (·.data) = _
  rw [Array.toList_push, List.map_append]
  rfl

/-- A site joins the end of both lists, or, refused, neither. -/
theorem Balanced.addSite (h : g.Balanced) (site : CallSite) : (g.addSite site).Balanced := by
  by_cases hends : site.parent < g.graph.nodes.size ∧ site.target < g.graph.nodes.size
  · refine ⟨fun s hs => ?_, fun id => ?_⟩
    · rw [nodes_addSite hends.1 hends.2, Array.size_modify, Array.size_modify]
      rw [sites_addSite hends.1 hends.2, List.mem_append, List.mem_singleton] at hs
      rcases hs with hold | rfl
      · exact h.within s hold
      · exact hends
    · rw [calleesAt_addSite hends.1 hends.2, sites_addSite hends.1 hends.2,
        filter_concat CallSite.parent, h.callees]
  · rw [addSite_of_missing hends]
    exact h

/-! ## Reading the lists -/

theorem Balanced.parent_eq (h : g.Balanced) (hnode : g.nodeById? id = some node)
    (hsite : site ∈ node.callees) : site.parent = id := by
  rw [← calleesAt_of_node hnode, h.callees] at hsite
  exact beq_iff_eq.mp (List.mem_filter.mp hsite).2

/-- Every site is found in the list of the node that it leaves. -/
theorem Balanced.mem_sites_iff (h : g.Balanced) :
    site ∈ g.sites ↔ ∃ node, g.nodeById? site.parent = some node ∧ site ∈ node.callees := by
  constructor
  · intro hsite
    have hlt := (h.within site hsite).1
    have hnode : g.nodeById? site.parent = some g.graph.nodes[site.parent] :=
      Array.getElem?_eq_getElem hlt
    refine ⟨_, hnode, ?_⟩
    rw [← calleesAt_of_node hnode, h.callees]
    exact List.mem_filter.mpr ⟨hsite, beq_self_eq_true _⟩
  · rintro ⟨node, hnode, hsite⟩
    rw [← calleesAt_of_node hnode, h.callees] at hsite
    exact (List.mem_filter.mp hsite).1

theorem map_nodeById?_range (g : CallGraph) :
    (List.range g.graph.nodes.size).map g.nodeById? = g.nodes.map some := by
  refine List.ext_getElem? fun id => ?_
  have hnode : g.nodes[id]? = g.nodeById? id := Array.getElem?_toList
  rw [List.getElem?_map, List.getElem?_map, hnode]
  by_cases hid : id < g.graph.nodes.size
  · have hsome : g.nodeById? id = some g.graph.nodes[id] := Array.getElem?_eq_getElem hid
    rw [List.getElem?_range hid, Option.map_some, hsome, Option.map_some]
  · have hnone : g.nodeById? id = none := Array.getElem?_eq_none (Nat.le_of_not_lt hid)
    rw [List.getElem?_eq_none (by simpa using hid), hnone]
    rfl

/-- Where every node lists the sites that it is one end of, the lists of all nodes
    together are the sites. -/
theorem perm_sites_of_listed {list : Node → List CallSite} {endpoint : CallSite → NodeId}
    (hlisted : ∀ id, (g.graph.nodes[id]?.map list).getD [] = g.sites.filter fun s => endpoint s == id)
    (hwithin : ∀ s ∈ g.sites, endpoint s < g.graph.nodes.size) :
    (g.nodes.flatMap list).Perm g.sites := by
  have hlists : g.nodes.map list = (List.range g.graph.nodes.size).map fun id =>
      (g.graph.nodes[id]?.map list).getD [] := by
    have hmap := congrArg (List.map fun node? => (node?.map list).getD []) g.map_nodeById?_range
    rw [List.map_map, List.map_map] at hmap
    exact hmap.symm
  rw [List.flatMap_def, hlists, funext hlisted, ← List.flatMap_def]
  exact perm_flatMap_filter endpoint _ g.sites hwithin

theorem Balanced.perm_sites (h : g.Balanced) : (g.nodes.flatMap Node.callees).Perm g.sites :=
  perm_sites_of_listed h.callees fun s hs => (h.within s hs).1

end CallGraph

end ControlFlow
