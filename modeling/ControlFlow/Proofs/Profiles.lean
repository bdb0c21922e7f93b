import ControlFlow.Proofs.Discovery
import ControlFlow.Proofs.Ledger

/-!
# What a call graph says of a function

    A graph says of a function where it lies and whom it calls, and counts the calls
    with an unknown target and the listed functions without a body.  All of it is
    fixed by the name, before any discovery (`Scope.profile`).

    The route: a node lies inside as soon as its name is listed or its body has been
    found (`Filed`), and the counts are those of the names looked up (`Surveyed`).
    Both hold along the whole run.  At its end every name of the graph has been
    looked up once, so that the graph agrees with the profiles (`Profiled`).
-/

namespace ControlFlow

/-- What is known of a function by its name: where it lies, its calls with the names
    called, its calls with an unknown target, and whether its body is missing though
    it is listed. -/
structure Profile where
  kind : CallGraph.Kind
  calls : List (InstrId × Option String)
  unknown : List Instruction
  missing : Bool

/-- The calls with a known target, in order. -/
def Procedure.knownCalls (f : Procedure) : List (InstrId × Option String) :=
  (f.instrs.toList.filter (f.Resolvable ·)).map fun i => (i.id, f.calleeName? i)

/-- The calls with an unknown target, in order. -/
def Procedure.unknownCalls (f : Procedure) : List Instruction :=
  f.instrs.toList.filter fun i => i.isCall && !decide (f.Resolvable i)

theorem Procedure.filter_unresolvable_calls (f : Procedure) :
    (f.calls.filter fun i => !decide (f.Resolvable i)) = f.unknownCalls := by
  rw [calls, List.filter_filter, unknownCalls]
  exact List.filter_congr fun i _ => Bool.and_comm _ _

/-- A discovery finds no name for these calls and for no others. -/
theorem Procedure.countP_calls_nameless (f : Procedure) :
    f.calls.countP (fun i => (f.calleeName? i).isNone) = f.unknownCalls.length := by
  rw [← filter_unresolvable_calls, ← List.countP_eq_length_filter]
  refine List.countP_congr fun i _ => ?_
  rw [Option.isNone_iff_eq_none, calleeName?_eq_none, Bool.not_eq_true', decide_eq_false_iff_not]

/-- A function lies inside when it has a body or is listed, and calls what its body
    calls. -/
def Scope.profile (s : Scope) (name : String) : Profile :=
  match s.load name with
  | some f => { kind := .inside, calls := f.knownCalls, unknown := f.unknownCalls, missing := false }
  | none =>
      { kind := s.kindOf name, calls := [], unknown := [], missing := s.kindOf name == .inside }

namespace Scope

variable {s : Scope} {name : String}

theorem kindOf_eq_inside : s.kindOf name = .inside ↔ name ∈ s.listed := by
  rw [kindOf]
  split
  · rename_i h
    exact iff_of_true rfl h
  · rename_i h
    exact iff_of_false nofun h

/-- A function lies inside when it is listed or has a body. -/
theorem profile_kind_eq_inside :
    (s.profile name).kind = .inside ↔ name ∈ s.listed ∨ (s.load name).isSome = true := by
  rw [profile]
  cases s.load name with
  | some f => exact iff_of_true rfl (Or.inr rfl)
  | none => simpa using kindOf_eq_inside

theorem profile_missing :
    (s.profile name).missing = true ↔ name ∈ s.listed ∧ s.load name = none := by
  rw [profile]
  cases s.load name with
  | some f => simp
  | none => simpa using kindOf_eq_inside

/-- The calls of a name: those of its body, and none without a body. -/
theorem profile_calls (s : Scope) (name : String) :
    (s.profile name).calls = ((s.load name).map Procedure.knownCalls).getD [] := by
  rw [profile]
  cases s.load name with
  | none => rfl
  | some f => rfl

theorem profile_unknown (s : Scope) (name : String) :
    (s.profile name).unknown = ((s.load name).map Procedure.unknownCalls).getD [] := by
  rw [profile]
  cases s.load name with
  | none => rfl
  | some f => rfl

end Scope

namespace CallGraph

variable {g : CallGraph}

/-- A call by name: the instruction, and the function called. -/
def callByName (g : CallGraph) (s : CallSite) : InstrId × Option String :=
  (s.instr, (g.nodeById? s.target).map Node.name)

/-- The graph agrees with the profiles of the names it has. -/
structure Profiled (profile : String → Profile) (g : CallGraph) : Prop where
  indexed : g.Indexed
  balanced : g.Balanced
  kind : ∀ node ∈ g.nodes, node.kind = (profile node.name).kind
  calls : ∀ node ∈ g.nodes, node.callees.map g.callByName = (profile node.name).calls
  unresolved : g.unresolved =
    ((g.nodes.map Node.name).flatMap fun name => (profile name).unknown).length
  skipped : g.skipped = (g.nodes.map Node.name).countP fun name => (profile name).missing

theorem mem_nodes_iff {node : Node} : node ∈ g.nodes ↔ ∃ id, g.nodeById? id = some node := by
  rw [nodes, List.mem_iff_getElem?]
  exact exists_congr fun id => Eq.congr_left Array.getElem?_toList

/-! ## Where functions lie -/

/-- The function with the name is known to lie inside. -/
def Inside (g : CallGraph) (name : String) : Prop :=
  ∃ id, (g.nodeById? id).map (fun n => (n.name, n.kind)) = some (name, .inside)

theorem Indexed.inside_iff (h : g.Indexed) {node : Node} (hnode : node ∈ g.nodes) :
    g.Inside node.name ↔ node.kind = .inside := by
  obtain ⟨id, hid⟩ := mem_nodes_iff.mp hnode
  constructor
  · rintro ⟨id', hinside⟩
    obtain ⟨node', hid', heq⟩ := Option.map_eq_some_iff.mp hinside
    obtain ⟨hname, hkind⟩ := Prod.mk.inj heq
    -- both nodes have the name, so they are one
    have hself := h.nodeId?_eq_some.mpr ⟨node, hid, rfl⟩
    have hother := h.nodeId?_eq_some.mpr ⟨node', hid', hname⟩
    rw [hself, Option.some.injEq] at hother
    rw [← hother, hid, Option.some.injEq] at hid'
    rw [hid', hkind]
  · intro hkind
    refine ⟨id, ?_⟩
    rw [hid, Option.map_some, hkind]

/-- Promoting a node makes its function lie inside, and no other. -/
theorem inside_promote {found : NodeId} {node : Node} (hnode : g.nodeById? found = some node)
    (other : String) :
    Inside { g with graph := g.graph.modifyNode found (·.promote) } other ↔
      g.Inside other ∨ node.name = other := by
  have hmodify : ∀ id, (g.graph.modifyNode found (·.promote)).node? id =
      if found = id then (g.graph.node? id).map (·.promote) else g.graph.node? id :=
    fun _ => Array.getElem?_modify
  rw [nodeById?] at hnode
  simp only [Inside, nodeById?, Option.map_eq_some_iff, Prod.mk.injEq, hmodify]
  constructor
  · rintro ⟨id, n, hn, rfl, hkind⟩
    split at hn
    · rename_i hid
      rw [← hid, hnode, Option.map_some, Option.some.injEq] at hn
      rw [← hn]
      exact .inr rfl
    · exact .inl ⟨id, n, hn, rfl, hkind⟩
  · rintro (⟨id, n, hn, rfl, hkind⟩ | rfl)
    · by_cases hid : found = id
      · refine ⟨id, n.promote, ?_, rfl, rfl⟩
        rw [if_pos hid, hn, Option.map_some]
      · refine ⟨id, n, ?_, rfl, hkind⟩
        rw [if_neg hid, hn]
    · refine ⟨found, node.promote, ?_, rfl, rfl⟩
      rw [if_pos rfl, hnode, Option.map_some]

/-- A new function lies where it is put. -/
theorem inside_addNode (index : Std.TreeMap String NodeId) (name : String) (kind : Kind)
    (other : String) :
    Inside { g with graph := (g.graph.addNode (Node.fresh name kind)).1, index := index } other ↔
      g.Inside other ∨ name = other ∧ kind = .inside := by
  have hpush : ∀ id, (g.graph.addNode (Node.fresh name kind)).1.node? id =
      if id = g.graph.nodes.size then some (Node.fresh name kind) else g.graph.node? id :=
    fun _ => Array.getElem?_push
  simp only [Inside, nodeById?, Option.map_eq_some_iff, Prod.mk.injEq, hpush]
  constructor
  · rintro ⟨id, n, hn, rfl, hkind⟩
    split at hn
    · rw [← Option.some.inj hn] at hkind ⊢
      exact .inr ⟨rfl, hkind⟩
    · exact .inl ⟨id, n, hn, rfl, hkind⟩
  · rintro (⟨id, n, hn, rfl, hkind⟩ | ⟨rfl, hkind⟩)
    · have hlt : id < g.graph.nodes.size := (Array.getElem?_eq_some_iff.mp hn).1
      refine ⟨id, n, ?_, rfl, hkind⟩
      rw [if_neg (Nat.ne_of_lt hlt), hn]
    · exact ⟨g.graph.nodes.size, Node.fresh name kind, if_pos rfl, rfl, hkind⟩

/-- A look-up makes nothing but its own node lie inside. -/
theorem inside_nodeFor (h : g.Indexed) (name : String) (kind : Kind) (other : String) :
    (g.nodeFor name kind).1.Inside other ↔ g.Inside other ∨ name = other ∧ kind = .inside := by
  rw [nodeFor]
  cases hfound : g.nodeId? name with
  | none => exact inside_addNode _ name kind other
  | some found =>
      cases kind with
      | outside => simp
      | inside =>
          obtain ⟨node, hnode, rfl⟩ := h.nodeId?_eq_some.mp hfound
          simpa using inside_promote hnode other

theorem inside_addSite (site : CallSite) (name : String) :
    (g.addSite site).Inside name ↔ g.Inside name := by
  by_cases hends : site.parent < g.graph.nodes.size ∧ site.target < g.graph.nodes.size
  · have hcaller : ∀ n : Node, ((n.addCaller site).name, (n.addCaller site).kind) = (n.name, n.kind) :=
      fun _ => rfl
    have hcallee : ∀ n : Node, ((n.addCallee site).name, (n.addCallee site).kind) = (n.name, n.kind) :=
      fun _ => rfl
    refine exists_congr fun id => Eq.congr_left ?_
    show (g.addSite site).graph.nodes[id]?.map _ = _
    rw [nodes_addSite hends.1 hends.2, map_getElem?_modify _ site.target id hcaller,
      map_getElem?_modify _ site.parent id hcallee]
    rfl
  · rw [addSite_of_missing hends]

/-- A graph under way: of the names it has, those listed lie inside from the start,
    the others once their body has been found. -/
structure Filed (scope : Scope) (visited : List String) (g : CallGraph) : Prop where
  indexed : g.Indexed
  balanced : g.Balanced
  inside : ∀ name, g.Inside name ↔ (∃ id, g.nodeId? name = some id) ∧ name ∈ scope.listed ∨
    name ∈ visited ∧ (scope.profile name).kind = .inside

namespace Filed

variable {scope : Scope} {visited : List String}

theorem start : Filed scope [] {} where
  indexed := indexed_empty
  balanced := balanced_empty
  inside name := by
    refine iff_of_false ?_ ?_
    · rintro ⟨id, hid⟩
      cases hid
    · rintro (⟨⟨id, hid⟩, -⟩ | ⟨hvisited, -⟩)
      · cases hid
      · cases hvisited

/-- A function that is called lies where the list tells. -/
theorem nodeFor (h : Filed scope visited g) (name : String) :
    Filed scope visited (g.nodeFor name (scope.kindOf name)).1 where
  indexed := h.indexed.nodeFor name _
  balanced := h.balanced.nodeFor name _
  inside other := by
    rw [inside_nodeFor h.indexed, h.inside, nodeId?_nodeFor, Scope.kindOf_eq_inside]
    by_cases heq : name = other
    · subst heq
      simp only [if_true, true_and]
      grind
    · simp only [heq, if_false, false_and, or_false]

/-- A function that has been looked up lies where its profile tells. -/
theorem visit (h : Filed scope visited g) (name : String) :
    Filed scope (visited ++ [name]) (g.nodeFor name (scope.profile name).kind).1 where
  indexed := h.indexed.nodeFor name _
  balanced := h.balanced.nodeFor name _
  inside other := by
    rw [inside_nodeFor h.indexed, h.inside, nodeId?_nodeFor, List.mem_append, List.mem_singleton]
    by_cases heq : name = other
    · subst heq
      have hlisted : name ∈ scope.listed → (scope.profile name).kind = .inside :=
        fun hlisted => Scope.profile_kind_eq_inside.mpr (Or.inl hlisted)
      simp only [if_true, true_and]
      grind
    · simp only [heq, Ne.symm heq, if_false, false_and, or_false]

/-- The counts play no part. -/
theorem recount (h : Filed scope visited g) (unresolved skipped : Nat) :
    Filed scope visited { g with unresolved := unresolved, skipped := skipped } where
  indexed := h.indexed
  balanced := ⟨h.balanced.within, h.balanced.callees⟩
  inside := h.inside

theorem addSite (h : Filed scope visited g) (site : CallSite) :
    Filed scope visited (g.addSite site) where
  indexed := h.indexed.addSite site
  balanced := h.balanced.addSite site
  inside name := by
    rw [inside_addSite, nodeId?_addSite]
    exact h.inside name

/-- Once looked up, a function is on the right side. -/
theorem kind_eq (h : Filed scope visited g) {node : Node} (hnode : node ∈ g.nodes)
    (hvisited : node.name ∈ visited) : node.kind = (scope.profile node.name).kind := by
  have hinside : node.kind = .inside ↔ (scope.profile node.name).kind = .inside := by
    rw [← h.indexed.inside_iff hnode, h.inside]
    constructor
    · rintro (⟨-, hlisted⟩ | ⟨-, hkind⟩)
      · exact Scope.profile_kind_eq_inside.mpr (Or.inl hlisted)
      · exact hkind
    · exact fun hkind => .inr ⟨hvisited, hkind⟩
  revert hinside
  cases node.kind <;> cases (scope.profile node.name).kind <;> simp

end Filed

/-! ## Counts -/

/-- The calls with an unknown target and the listed functions without a body. -/
def counts (g : CallGraph) : Nat × Nat :=
  (g.unresolved, g.skipped)

theorem counts_nodeFor (name : String) (kind : Kind) :
    (g.nodeFor name kind).1.counts = g.counts := by
  rw [nodeFor]
  cases g.nodeId? name with
  | none => rfl
  | some id => cases kind <;> rfl

theorem counts_addSite (site : CallSite) : (g.addSite site).counts = g.counts := by
  rw [addSite]
  split <;> rfl

end CallGraph

namespace Discovery

variable {d : Discovery} {scope : Scope} {name : String} {f : Procedure} {caller : NodeId}

theorem filed_addCall {visited : List String} (h : d.graph.Filed scope visited) (i : Instruction) :
    (d.addCall scope name caller f i).graph.Filed scope visited := by
  rw [addCall]
  cases f.calleeName? i with
  | none => exact h.recount _ _
  | some target => exact (h.nodeFor target).addSite _

theorem filed_foldl {visited : List String} (calls : List Instruction)
    (h : d.graph.Filed scope visited) :
    (calls.foldl (addCall scope name caller f) d).graph.Filed scope visited := by
  induction calls generalizing d with
  | nil => exact h
  | cons i calls ih => exact ih (filed_addCall h i)

theorem counts_addCall (i : Instruction) : (d.addCall scope name caller f i).graph.counts =
    (d.graph.unresolved + [i].countP fun i => (f.calleeName? i).isNone, d.graph.skipped) := by
  rw [addCall]
  cases hname : f.calleeName? i with
  | none => simp [CallGraph.counts, hname]
  | some target =>
      show ((d.graph.nodeFor target _).1.addSite _).counts = _
      rw [CallGraph.counts_addSite, CallGraph.counts_nodeFor]
      simp [CallGraph.counts, hname]

/-- A body adds its calls with an unknown target to the count. -/
theorem counts_foldl (calls : List Instruction) :
    (calls.foldl (addCall scope name caller f) d).graph.counts =
      (d.graph.unresolved + calls.countP fun i => (f.calleeName? i).isNone, d.graph.skipped) := by
  induction calls using List.reverseRecOn with
  | nil => rfl
  | append_singleton calls i ih =>
      have hunresolved := congrArg Prod.fst ih
      have hskipped := congrArg Prod.snd ih
      simp only [CallGraph.counts] at hunresolved hskipped
      rw [List.foldl_concat, counts_addCall, hunresolved, hskipped, List.countP_append,
        Nat.add_assoc]

/-! ## The run -/

/-- The graph and its counts are those of the names looked up. -/
structure Surveyed (scope : Scope) (d : Discovery) : Prop where
  filed : d.graph.Filed scope d.loads.toList
  unresolved : d.graph.unresolved =
    (d.loads.toList.flatMap fun name => (scope.profile name).unknown).length
  skipped : d.graph.skipped = d.loads.toList.countP fun name => (scope.profile name).missing

namespace Surveyed

variable {d' : Discovery}

theorem start : Surveyed scope {} where
  filed := .start
  unresolved := rfl
  skipped := rfl

/-- A name looked up adds what its profile tells. -/
theorem visit (h : d.Surveyed scope) (name : String) (hloads : d'.loads = d.loads.push name)
    (hfiled : d'.graph.Filed scope (d.loads.toList ++ [name]))
    (hcounts : d'.graph.counts = (d.graph.unresolved + (scope.profile name).unknown.length,
      d.graph.skipped + [name].countP fun name => (scope.profile name).missing)) :
    d'.Surveyed scope := by
  have hnames : d'.loads.toList = d.loads.toList ++ [name] := by rw [hloads, Array.toList_push]
  refine ⟨hnames ▸ hfiled, (congrArg Prod.fst hcounts).trans ?_, (congrArg Prod.snd hcounts).trans ?_⟩
  · rw [hnames, List.flatMap_append, List.length_append, ← h.unresolved, List.flatMap_singleton]
  · rw [hnames, List.countP_append, ← h.skipped]

/-- A name without a body adds one to the count if it is listed. -/
theorem close (h : d.Surveyed scope) (hload : scope.load name = none) :
    (d.close scope name).Surveyed scope := by
  have hprofile : scope.profile name =
      ⟨scope.kindOf name, [], [], scope.kindOf name == .inside⟩ := by
    rw [Scope.profile, hload]
  have hfiled := h.filed.visit name
  rw [hprofile] at hfiled
  rw [Discovery.close]
  cases hkind : scope.kindOf name with
  | inside =>
      rw [hkind] at hfiled hprofile
      refine h.visit name rfl (hfiled.recount _ _) ?_
      rw [List.countP_singleton, hprofile]
      exact congrArg (fun counts : Nat × Nat => (counts.1, counts.2 + 1))
        (d.graph.counts_nodeFor name .inside)
  | outside =>
      rw [hkind] at hfiled hprofile
      refine h.visit name rfl hfiled ?_
      rw [List.countP_singleton, hprofile]
      exact d.graph.counts_nodeFor name .outside

/-- A body adds its calls with an unknown target. -/
theorem expand (h : d.Surveyed scope) (hload : scope.load name = some f) :
    (d.expand scope name f).Surveyed scope := by
  have hprofile : scope.profile name = ⟨.inside, f.knownCalls, f.unknownCalls, false⟩ := by
    rw [Scope.profile, hload]
  have hopened := h.filed.visit name
  rw [hprofile] at hopened
  refine h.visit name (loads_foldl_addCall f.calls _) (filed_foldl f.calls hopened) ?_
  rw [Discovery.expand, counts_foldl, hprofile, f.countP_calls_nameless, List.countP_singleton,
    hprofile]
  exact congrArg (fun counts : Nat × Nat => (counts.1 + f.unknownCalls.length, counts.2))
    (d.graph.counts_nodeFor name .inside)

end Surveyed

/-- The names looked up account for the graph at any point of a run. -/
theorem surveyed_run (scope : Scope) (queue visited : List String) (d : Discovery)
    (h : d.Surveyed scope) : (run scope queue visited d).Surveyed scope := by
  fun_induction run scope queue visited d with
  | case1 visited d => exact h
  | case2 visited d name queue hvisited ih => exact ih h
  | case3 visited d name queue hnew hload ih => exact ih (h.close hload)
  | case4 visited d name queue hnew f hload ih => exact ih (h.expand hload)

theorem Complete.calls_eq {seeds : List String} (h : d.Complete scope.load seeds)
    {node : CallGraph.Node} (hnode : node ∈ d.graph.nodes) :
    node.callees.map d.graph.callByName = (scope.profile node.name).calls := by
  obtain ⟨id, hid⟩ := CallGraph.mem_nodes_iff.mp hnode
  rw [Scope.profile]
  cases hload : scope.load node.name with
  | none =>
      rw [h.callees_without_body id node hid hload]
      rfl
  | some f =>
      symm
      show f.knownCalls = _
      rw [Procedure.knownCalls, ← List.forall₂_eq_eq_eq, List.forall₂_map_left_iff,
        List.forall₂_map_right_iff]
      refine (h.callees_of_body id node f hid hload).imp ?_
      rintro i site ⟨hinstr, -, target, htarget, hnames⟩
      rw [CallGraph.callByName, htarget, hinstr, Procedure.calleeName?_eq_some.mpr hnames,
        Option.map_some]

/-- A call graph agrees with the profiles of the functions found. -/
theorem profiled_ofNames (scope : Scope) (seeds : List String) :
    (ofNames scope seeds).graph.Profiled scope.profile := by
  have hcomplete := complete_ofNames scope seeds
  obtain ⟨hfiled, hunresolved, hskipped⟩ := surveyed_run scope seeds [] {} .start
  refine ⟨hfiled.indexed, hfiled.balanced, ?_, ?_, ?_, ?_⟩
  · intro node hnode
    exact hfiled.kind_eq hnode (hcomplete.loads_perm.mem_iff.mpr (List.mem_map_of_mem hnode))
  · exact fun node hnode => hcomplete.calls_eq hnode
  · exact hunresolved.trans (hcomplete.loads_perm.flatMap_right _).length_eq
  · exact hskipped.trans (hcomplete.loads_perm.countP_eq _)

end Discovery

end ControlFlow
