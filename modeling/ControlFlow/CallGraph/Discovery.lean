import ControlFlow.CallGraph.Basic
import ControlFlow.Code.Procedure
import ControlFlow.Event
import ControlFlow.Remaining

/-!
# Discovering a call graph

    Starting from some names, every function is looked up once with a loader of
    bodies, its calls become sites, and the functions it calls are looked up in
    their turn, first come first served.  Names without a body end there.

    The discovery ends because a loader has bodies for finitely many names: a
    body uses up its name, and in between the queue shrinks.
-/

namespace ControlFlow

/-! ## Bodies on offer -/

/-- Where bodies come from: a look-up by name and section that finds something
    for finitely many names only. -/
structure Loader where
  load : (name segment : String) → Option Procedure
  names : List String
  mem_names : ∀ name segment f, load name segment = some f → name ∈ names

/-- A body on offer: the name it is found by, the section it belongs to (any,
    when none is given) and its code. -/
structure Body where
  key : String
  segment : Option String
  code : Procedure

/-- Whether a body is on offer for a name in a section. -/
def Body.offers (b : Body) (name segment : String) : Bool :=
  b.key == name && b.segment.all (· == segment)

/-- The bodies on offer. -/
abbrev Archive := List Body

namespace Archive

/-- The first body on offer for a name in a section. -/
def load (a : Archive) (name segment : String) : Option Procedure :=
  (a.find? (·.offers name segment)).map (·.code)

/-- An archive has bodies for the names they are found by. -/
def toLoader (a : Archive) : Loader where
  load := a.load
  names := a.map (·.key)
  mem_names name segment f hload := by
    obtain ⟨b, hfind, -⟩ := Option.map_eq_some_iff.1 hload
    have hoffers := List.find?_some hfind
    simp only [Body.offers, Bool.and_eq_true, beq_iff_eq] at hoffers
    exact List.mem_map.2 ⟨b, List.mem_of_find?_eq_some hfind, hoffers.1⟩

instance : Coe Archive Loader := ⟨toLoader⟩

end Archive

/-! ## Calls in a body -/

namespace Procedure

/-- The function a call names: its first source, when that is an address or a
    label with a name. -/
def calleeName? (f : Procedure) (i : Instruction) : Option String :=
  (i.callTarget?.bind f.operand?).bind fun target =>
    if target.kind.isSymbolic && !target.name.isEmpty then some target.name else none

/-- The functions that the calls of a body name, in instruction order. -/
def calleeNames (f : Procedure) : List String :=
  f.calls.filterMap f.calleeName?

/-- Those of them that have not been visited. -/
def calleesBeyond (f : Procedure) (visited : List String) : List String :=
  f.calleeNames.filter fun name => !visited.contains name

theorem length_calleesBeyond_le (f : Procedure) (visited : List String) :
    (f.calleesBeyond visited).length ≤ f.calleeNames.length :=
  List.length_filter_le _ _

end Procedure

/-! ## What is left to visit -/

/-- What a discovery looks into: a section, the functions listed in it, and
    where bodies come from. -/
structure Scope where
  segment : String
  listed : List String
  loader : Loader

namespace Scope

/-- The body of a name. -/
def load (s : Scope) (name : String) : Option Procedure :=
  s.loader.load name s.segment

/-- Where a function lies as far as the list tells. -/
def kindOf (s : Scope) (name : String) : CallGraph.Kind :=
  if name ∈ s.listed then .inside else .outside

/-- What a name adds to the queue at most, and one more. -/
def weight (s : Scope) (name : String) : Nat :=
  ((s.load name).map (·.calleeNames.length)).getD 0 + 1

/-- The total weight of the names with a body that have not been visited. -/
def unvisited (s : Scope) (visited : List String) : Nat :=
  remaining s.weight (fun name => !visited.contains name) s.loader.names

theorem unvisited_cons_le (s : Scope) (visited : List String) (name : String) :
    s.unvisited (name :: visited) ≤ s.unvisited visited := by
  refine remaining_le s.weight s.loader.names ?_
  intro other hother
  simp_all

/-- Visiting a name takes the weight of its body away. -/
theorem unvisited_cons_weight {s : Scope} {visited : List String} {name : String} {f : Procedure}
    (hload : s.load name = some f) (hnot : name ∉ visited) :
    s.unvisited (name :: visited) + (f.calleeNames.length + 1) ≤ s.unvisited visited := by
  have hweight : s.weight name = f.calleeNames.length + 1 := by
    rw [weight, hload, Option.map_some, Option.getD_some]
  rw [← hweight]
  refine remaining_add_le s.weight (s.loader.mem_names name s.segment f hload) ?_ ?_ ?_
  · simp [hnot]
  · simp
  · intro other hother
    simp_all

end Scope

/-! ## The run -/

/-- The graph found so far, the bodies asked for and what was reported. -/
structure Discovery where
  graph : CallGraph := {}
  loads : Array String := #[]
  events : Array Event := #[]

namespace Discovery

/-- Notes a name that has no body. -/
def close (scope : Scope) (name : String) (d : Discovery) : Discovery :=
  let kind := scope.kindOf name
  let graph := (d.graph.nodeFor name kind).1
  match kind with
  | .inside =>
      { graph := { graph with skipped := graph.skipped + 1 }
        loads := d.loads.push name
        events := d.events.push (.bodyMissing name scope.segment) }
  | .outside =>
      { graph := graph
        loads := d.loads.push name
        events := d.events.push (.outside name scope.segment) }

/-- Notes one call of a body. -/
def addCall (scope : Scope) (name : String) (caller : NodeId) (f : Procedure) (d : Discovery)
    (i : Instruction) : Discovery :=
  match f.calleeName? i with
  | none =>
      { d with
        graph := { d.graph with unresolved := d.graph.unresolved + 1 }
        events := d.events.push (.unresolvedCall i.id name) }
  | some target =>
      let (graph, callee) := d.graph.nodeFor target (scope.kindOf target)
      { d with graph := graph.addSite { instr := i.id, target := callee, parent := caller } }

/-- Notes a name with its body: a node inside, and one site per resolvable call. -/
def expand (scope : Scope) (name : String) (f : Procedure) (d : Discovery) : Discovery :=
  let (graph, caller) := d.graph.nodeFor name .inside
  f.calls.foldl (addCall scope name caller f)
    { d with graph := graph, loads := d.loads.push name }

/-- Works off a queue of names, each once. -/
def run (scope : Scope) (queue visited : List String) (d : Discovery) : Discovery :=
  match queue with
  | [] => d
  | name :: queue =>
      if _hv : name ∈ visited then run scope queue visited d
      else
        match _hl : scope.load name with
        | none => run scope queue (name :: visited) (d.close scope name)
        | some f =>
            run scope (queue ++ f.calleesBeyond (name :: visited)) (name :: visited)
              (d.expand scope name f)
termination_by scope.unvisited visited + queue.length
decreasing_by
  · simp
  · have := scope.unvisited_cons_le visited name
    simp only [List.length_cons]
    omega
  · have := Scope.unvisited_cons_weight _hl _hv
    have := f.length_calleesBeyond_le (name :: visited)
    simp only [List.length_append, List.length_cons]
    omega

/-- A discovery from the given names. -/
def ofNames (scope : Scope) (seeds : List String) : Discovery :=
  run scope seeds [] {}

end Discovery

/-! ## Modules and single functions -/

/-- What is known of a module: a section and the functions listed in it. -/
structure Listing where
  segment : String
  functions : List String

/-- The discovery of a whole module; what calls nothing is noted as an entry. -/
def Listing.discover (m : Listing) (loader : Loader) : Discovery :=
  let d := Discovery.ofNames
    { segment := m.segment, listed := m.functions, loader := loader } m.functions
  { d with
    graph := { d.graph with entries := d.graph.leaves }
    events := d.events.push
      (.callGraphBuilt m.segment d.graph.graph.nodes.size d.graph.graph.edges.size
        d.graph.unresolved d.graph.skipped) }

/-- The discovery from a single function. -/
def Discovery.ofStart (start segment : String) (loader : Loader) : Discovery :=
  Discovery.ofNames { segment := segment, listed := [], loader := loader } [start]

/-- The call graph of a module. -/
def CallGraph.ofModule (m : Listing) (loader : Loader) : CallGraph :=
  (m.discover loader).graph

/-- The call graph of what a single function reaches. -/
def CallGraph.ofStart (start segment : String) (loader : Loader) : CallGraph :=
  (Discovery.ofStart start segment loader).graph

end ControlFlow
