import ControlFlow.Proofs.Census
import Mathlib.Data.Finset.Card

/-!
# What the counts of a call graph amount to

    While a graph is discovered, counters are raised on several branches of one
    loop, and a function may count as outside before its body is found.  In the
    end the counts are those of the bodies: every call instruction of every body
    that was found is either a site or a call with an unknown target, and it is so
    once, whether its function is listed twice, called before it is looked up, or
    calls itself.

    The profiles of the names (`Profiled`) say all that is needed for it.  What
    remains is to add up the calls of a body, and to see that every listed name
    has one node.
-/

namespace ControlFlow

/-! ## Adding up -/

/-- The lengths of two lists that are put together piece by piece add up when those
    of the pieces do. -/
theorem length_flatMap_add {α β γ δ : Type} {left : α → List β} {right : α → List γ}
    {whole : α → List δ} (h : ∀ a, (left a).length + (right a).length = (whole a).length)
    (xs : List α) :
    (xs.flatMap left).length + (xs.flatMap right).length = (xs.flatMap whole).length := by
  induction xs with
  | nil => rfl
  | cons a xs ih =>
      simp only [List.flatMap_cons, List.length_append]
      have ha := h a
      omega

namespace Procedure

/-- A call has a known target or an unknown one. -/
theorem length_knownCalls_add (f : Procedure) :
    f.knownCalls.length + f.unknownCalls.length =
      (f.instrs.toList.filter (·.isCall)).length := by
  rw [knownCalls, List.length_map, ← filter_resolvable_calls, ← filter_unresolvable_calls]
  exact (List.length_eq_length_filter_add fun i => decide (f.Resolvable i)).symm

end Procedure

namespace CallGraph

variable {g : CallGraph}

/-! ## The bodies of a graph -/

/-- The bodies of the functions of a graph, as far as they have one. -/
def bodies (g : CallGraph) (loader : Loader) (segment : String) : List Procedure :=
  g.nodes.filterMap fun node => loader.load node.name segment

theorem flatMap_bodies {α : Type} (g : CallGraph) (loader : Loader) (segment : String)
    (view : Procedure → List α) :
    (g.bodies loader segment).flatMap view = (g.nodes.map Node.name).flatMap fun name =>
      ((loader.load name segment).map view).getD [] := by
  rw [bodies, List.filterMap_eq_flatMap_toList, List.flatMap_assoc, List.flatMap_map]
  refine List.flatMap_congr fun node _ => ?_
  cases loader.load node.name segment with
  | none => rfl
  | some f => exact List.append_nil (view f)

/-- Every pair of joined nodes is counted once. -/
theorem Balanced.length_edges (h : g.Balanced) :
    g.edges.length = (g.sites.map fun s => (s.parent, s.target)).toFinset.card := by
  have hnodes : ∀ id, id < g.graph.nodes.size → ∃ node, g.nodeById? id = some node := fun id hid =>
    ⟨_, Array.getElem?_eq_getElem hid⟩
  have hall : g.edges.length = (g.sites.map fun s => (s.parent, s.target)).eraseDups.length := by
    rw [edges, List.length_filterMap_eq_countP, List.countP_eq_length]
    intro pair hpair
    obtain ⟨s, hs, rfl⟩ := List.mem_map.mp (List.mem_eraseDups.mp hpair)
    obtain ⟨caller, hcaller⟩ := hnodes s.parent (h.within s hs).1
    obtain ⟨callee, hcallee⟩ := hnodes s.target (h.within s hs).2
    simp only [hcaller, hcallee, Option.isSome_some]
  rw [hall, ← List.toFinset_card_of_nodup (nodup_eraseDups _)]
  congr 1
  ext pair
  rw [List.mem_toFinset, List.mem_toFinset, List.mem_eraseDups]

/-- The functions that are not inside are outside. -/
theorem countP_inside_add_outside (g : CallGraph) :
    g.nodes.countP Node.isInside + g.nodes.countP (fun node => node.kind == .outside) =
      g.nodes.length := by
  rw [List.length_eq_countP_add_countP Node.isInside, Nat.add_left_cancel_iff]
  refine List.countP_congr fun node _ => ?_
  rw [Node.isInside]
  cases node.kind with
  | inside => decide
  | outside => decide

/-! ## Graphs that agree with the profiles of a scope -/

namespace Profiled

variable {s : Scope}

/-- The sites are the calls of the bodies that have a known target. -/
theorem length_sites (h : g.Profiled s.profile) :
    g.sites.length = ((g.bodies s.loader s.segment).flatMap Procedure.knownCalls).length := by
  rw [flatMap_bodies, ← List.length_map g.callByName, ← h.perm_sites.length_eq]
  exact congrArg List.length (List.flatMap_congr fun name _ => s.profile_calls name)

theorem unresolved_eq (h : g.Profiled s.profile) :
    g.unresolved = ((g.bodies s.loader s.segment).flatMap Procedure.unknownCalls).length := by
  rw [flatMap_bodies, h.unresolved]
  exact congrArg List.length (List.flatMap_congr fun name _ => s.profile_unknown name)

/-- Where every listed function has a node, those without a body are skipped, each
    once. -/
theorem skipped_eq (h : g.Profiled s.profile)
    (hlisted : ∀ name ∈ s.listed, name ∈ g.nodes.map Node.name) :
    g.skipped = (s.listed.toFinset.filter fun name => s.load name = none).card := by
  have hnodup : (g.nodes.map Node.name).Nodup := Keyed.nodup_map h.indexed
  rw [h.skipped, List.countP_eq_length_filter, ← List.toFinset_card_of_nodup (hnodup.filter _)]
  congr 1
  ext name
  rw [List.mem_toFinset, List.mem_filter, Scope.profile_missing, Finset.mem_filter,
    List.mem_toFinset]
  constructor
  · intro hname
    exact hname.2
  · intro hname
    exact ⟨hlisted name hname.1, hname⟩

end Profiled

/-! ## The counts of a module -/

/-- The graph accounts for the functions listed and the bodies on offer. -/
structure Accounted (m : Listing) (loader : Loader) (g : CallGraph) : Prop where
  /-- No function has two nodes, so that no body is counted twice. -/
  nodup_names : (g.nodes.map Node.name).Nodup
  inside_iff : ∀ node ∈ g.nodes, node.kind = .inside ↔
    node.name ∈ m.functions ∨ (loader.load node.name m.segment).isSome = true
  functions : g.stats.inside + g.stats.outside = g.stats.functions
  outside : g.stats.outside = g.nodes.countP fun node => node.kind == .outside
  calls : g.stats.callSites + g.stats.unresolved =
    ((g.bodies loader m.segment).flatMap fun f => f.instrs.toList.filter (·.isCall)).length
  unresolved : g.stats.unresolved = ((g.bodies loader m.segment).flatMap fun f =>
    f.instrs.toList.filter fun i => i.isCall && !decide (f.Resolvable i)).length
  skipped : g.stats.skipped =
    (m.functions.toFinset.filter fun name => loader.load name m.segment = none).card
  uniqueEdges : g.stats.uniqueEdges = (g.sites.map fun s => (s.parent, s.target)).toFinset.card
  entries : g.entryNodes = g.nodes.filter fun node => node.callees.isEmpty

/-- The call graph of a module accounts for every call of every body found, every
    listed function without one, and every function by where it lies; its entries are
    the functions without calls, in the order they were found. -/
theorem ofModule_accounts_for_bodies (m : Listing) (loader : Loader) :
    Accounted m loader (ofModule m loader) := by
  have hprofiled := profiled_ofModule m loader
  have hinside := countP_inside_add_outside (ofModule m loader)
  have hcalls := length_flatMap_add Procedure.length_knownCalls_add
    ((ofModule m loader).bodies loader m.segment)
  have hsites := hprofiled.length_sites
  have hunresolved := hprofiled.unresolved_eq
  refine ⟨Keyed.nodup_map hprofiled.indexed, ?_, ?_, ?_, ?_, hunresolved, ?_,
    hprofiled.balanced.length_edges, filterMap_leaves⟩
  · intro node hnode
    rw [hprofiled.kind node hnode]
    exact Scope.profile_kind_eq_inside
  · exact Nat.add_sub_cancel' List.countP_le_length
  · exact Nat.sub_eq_of_eq_add' hinside.symm
  · exact (congrArg₂ (· + ·) hsites hunresolved).trans hcalls
  · refine hprofiled.skipped_eq ?_
    intro name hname
    exact (mem_names_ofModule m loader name).mpr (.seed hname)

/-- Two functions of the circle are listed, one of them twice, and one that has no body;
    of the six calls one has an unknown target, and two are made to the same function. -/
example :
    (ofModule ⟨"text", ["ghost", "odd", "main", "odd"]⟩ circle.toLoader).stats =
      { functions := 5, inside := 4, outside := 1, callSites := 5, uniqueEdges := 4,
        unresolved := 1, skipped := 1, entries := 2, leaves := 2, recursive := 0 } := by
  decide +kernel

end CallGraph

end ControlFlow
