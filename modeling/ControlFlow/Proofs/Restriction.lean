import ControlFlow.Proofs.Census
import Mathlib.Logic.Relation

/-!
# The call graph of one function is part of the call graph of its module

    A discovery that starts from a single function of a module visits other names,
    in another order, and knows of no list that would place functions inside.  Still
    it finds a part of what the discovery of the whole module finds: the functions
    that calls lead to from its start, with the same calls.

    Both graphs agree with profiles (`Profiled`), and what a profile says of the calls
    of a name depends on the body alone.  So the edges of either graph are the calls in
    the bodies of its functions (`mem_edges_iff_body`), and following calls through the
    bodies is following edges of the larger graph (`reachedByCalls_iff_edges`).
-/

namespace ControlFlow

/-! ## Calls with the names called -/

/-- The calls with a known target, each with the name called, in order. -/
def Procedure.namedCalls (f : Procedure) : List (InstrId × String) :=
  f.instrs.toList.filterMap fun i => (f.calleeName? i).map fun name => (i.id, name)

theorem Procedure.knownCalls_eq (f : Procedure) :
    f.knownCalls = f.namedCalls.map fun call : InstrId × String => (call.1, some call.2) := by
  rw [knownCalls, namedCalls]
  induction f.instrs.toList with
  | nil => rfl
  | cons i instrs ih =>
      cases hname : f.calleeName? i with
      | none =>
          have hnot : ¬ f.Resolvable i := calleeName?_eq_none.mp hname
          rw [List.filter_cons_of_neg (by simpa using hnot),
            List.filterMap_cons_none (by rw [hname]; rfl)]
          exact ih
      | some name =>
          have hresolvable : f.Resolvable i := ⟨name, calleeName?_eq_some.mp hname⟩
          rw [List.filter_cons_of_pos (by simpa using hresolvable),
            List.filterMap_cons_some (by rw [hname]; rfl), List.map_cons, List.map_cons, ih, hname]

theorem Procedure.mem_knownCalls {f : Procedure} {id : InstrId} {name : String} :
    (id, some name) ∈ f.knownCalls ↔ ∃ i ∈ f.instrs.toList, i.id = id ∧ f.Names i name := by
  rw [knownCalls, List.mem_map]
  constructor
  · rintro ⟨i, hi, hcall⟩
    obtain ⟨hid, hname⟩ := Prod.mk.inj hcall
    exact ⟨i, (List.mem_filter.mp hi).1, hid, calleeName?_eq_some.mp hname⟩
  · rintro ⟨i, hi, hid, hnames⟩
    have hresolvable : f.Resolvable i := ⟨name, hnames⟩
    refine ⟨i, List.mem_filter.mpr ⟨hi, by simpa using hresolvable⟩, ?_⟩
    rw [hid, calleeName?_eq_some.mpr hnames]

namespace CallGraph

variable {g : CallGraph} {scope : Scope} {seeds : List String} {start name : String}

/-! ## Edges and bodies -/

/-- One function calls another when a call in its body names the other. -/
theorem Profiled.mem_edges_iff_body (h : g.Profiled scope.profile) {pair : String × String} :
    pair ∈ g.edges ↔ pair.1 ∈ g.nodes.map Node.name ∧
      ∃ f, scope.load pair.1 = some f ∧ ∃ i ∈ f.instrs.toList, f.Names i pair.2 := by
  rw [h.mem_edges_iff_calls, Scope.profile_calls]
  refine and_congr_right fun _ => ?_
  cases scope.load pair.1 with
  | none => simp
  | some f =>
      simp only [Option.map_some, Option.getD_some, Procedure.mem_knownCalls, Option.some.injEq,
        exists_eq_left']
      constructor
      · rintro ⟨id, i, hi, -, hnames⟩
        exact ⟨i, hi, hnames⟩
      · rintro ⟨i, hi, hnames⟩
        exact ⟨i.id, i, hi, rfl, hnames⟩

/-- From a function of the graph, calls through the bodies lead where the edges lead. -/
theorem reachedByCalls_iff_edges (h : g.Profiled scope.profile)
    (hnames : ∀ name, name ∈ g.nodes.map Node.name ↔ ReachedByCalls scope.load seeds name)
    (hstart : start ∈ g.nodes.map Node.name) :
    ReachedByCalls scope.load [start] name ↔
      Relation.ReflTransGen (fun caller callee => (caller, callee) ∈ g.edges) start name := by
  constructor
  · intro hreached
    -- every name on the way is one of the graph, so that the next call is an edge of it
    suffices hboth : name ∈ g.nodes.map Node.name ∧
        Relation.ReflTransGen (fun caller callee => (caller, callee) ∈ g.edges) start name from
      hboth.2
    induction hreached with
    | seed hseed =>
        rw [List.mem_singleton.mp hseed]
        exact ⟨hstart, .refl⟩
    | call hcaller hload hi hnamed ih =>
        obtain ⟨hmem, hpath⟩ := ih
        refine ⟨(hnames _).mpr (.call ((hnames _).mp hmem) hload hi hnamed), hpath.tail ?_⟩
        exact h.mem_edges_iff_body.mpr ⟨hmem, _, hload, _, hi, hnamed⟩
  · intro hpath
    induction hpath with
    | refl => exact .seed (List.mem_singleton_self start)
    | tail _ hedge ih =>
        obtain ⟨-, f, hload, i, hi, hnamed⟩ := h.mem_edges_iff_body.mp hedge
        exact .call ih hload hi hnamed

/-- The calls of a function, read by name. -/
theorem Profiled.exists_node? (h : g.Profiled scope.profile) (hmem : name ∈ g.nodes.map Node.name) :
    ∃ node, g.node? name = some node ∧ node.callees.map g.callByName =
      (((scope.load name).map Procedure.namedCalls).getD []).map
        fun call : InstrId × String => (call.1, some call.2) := by
  obtain ⟨node, hnode, rfl⟩ := List.mem_map.mp hmem
  refine ⟨node, h.indexed.node?_eq_some.mpr ⟨hnode, rfl⟩, ?_⟩
  rw [h.calls node hnode, Scope.profile_calls]
  cases scope.load node.name with
  | none => rfl
  | some f => exact f.knownCalls_eq

/-! ## Two discoveries -/

/-- A graph is what another one shows from one of its functions on: it has the
    functions that the edges of the other lead to from there, each once, and each has
    the same calls in both, read as instructions and names called. -/
structure Restricts (whole : CallGraph) (start : String) (part : CallGraph) : Prop where
  mem_names_iff : ∀ name, name ∈ part.nodes.map Node.name ↔
    Relation.ReflTransGen (fun caller callee => (caller, callee) ∈ whole.edges) start name
  nodup_names : (part.nodes.map Node.name).Nodup
  same_calls : ∀ name ∈ part.nodes.map Node.name,
    ∃ node node', part.node? name = some node ∧ whole.node? name = some node' ∧
      ∃ calls : List (InstrId × String),
        node.callees.map part.callByName = calls.map (fun call => (call.1, some call.2)) ∧
        node'.callees.map whole.callByName = calls.map fun call => (call.1, some call.2)

theorem profiled_ofStart (start segment : String) (loader : Loader) :
    (ofStart start segment loader).Profiled
      (Scope.profile { segment := segment, listed := [], loader := loader }) :=
  Discovery.profiled_ofNames { segment := segment, listed := [], loader := loader } [start]

theorem mem_names_ofStart (start segment : String) (loader : Loader) (name : String) :
    name ∈ (ofStart start segment loader).nodes.map Node.name ↔
      ReachedByCalls (loader.load · segment) [start] name :=
  (Discovery.complete_ofNames
    { segment := segment, listed := [], loader := loader } [start]).mem_names_iff name

/-- The call graph found from a function listed in a module is what the call graph of
    the module shows from that function on. -/
theorem restricts_ofModule_ofStart (m : Listing) (loader : Loader) (start : String)
    (hlisted : start ∈ m.functions) :
    Restricts (ofModule m loader) start (ofStart start m.segment loader) := by
  have hwhole := profiled_ofModule m loader
  have hpart := profiled_ofStart start m.segment loader
  have hstart := (mem_names_ofModule m loader start).mpr (.seed hlisted)
  refine ⟨?_, Keyed.nodup_map hpart.indexed, ?_⟩
  · intro name
    rw [mem_names_ofStart]
    exact reachedByCalls_iff_edges hwhole (mem_names_ofModule m loader) hstart
  · intro name hname
    have hreached := ((mem_names_ofStart start m.segment loader name).mp hname).mono
      (List.forall_mem_singleton.mpr hlisted)
    obtain ⟨node, hnode, hcalls⟩ := hpart.exists_node? hname
    obtain ⟨node', hnode', hcalls'⟩ :=
      hwhole.exists_node? ((mem_names_ofModule m loader name).mpr hreached)
    exact ⟨node, node', hnode, hnode', _, hcalls, hcalls'⟩

/-- From one of two functions that call each other both are found, but neither the
    function that calls into them nor the one outside. -/
theorem restricts_circle :
    "odd" ∈ ["main", "odd", "ghost"] ∧
      (ofStart "odd" "text" circle.toLoader).nodes.map Node.name = ["odd", "even"] ∧
      Restricts (ofModule ⟨"text", ["main", "odd", "ghost"]⟩ circle.toLoader) "odd"
        (ofStart "odd" "text" circle.toLoader) := by
  have hlisted : "odd" ∈ ["main", "odd", "ghost"] := by simp
  refine ⟨hlisted, by decide +kernel, ?_⟩
  exact restricts_ofModule_ofStart ⟨"text", ["main", "odd", "ghost"]⟩ circle.toLoader "odd" hlisted

end CallGraph

end ControlFlow
