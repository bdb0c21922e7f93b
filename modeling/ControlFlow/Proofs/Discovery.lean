import ControlFlow.CallGraph.Discovery
import ControlFlow.Proofs.CallGraph
import Mathlib.Data.List.Forall2
import Mathlib.Data.List.Induction
import Mathlib.Data.List.Perm.Basic

/-!
# A discovery is complete

    The functions of a call graph are those that calls lead to from the names it
    starts with, each on one node, and every node lists the calls of its body.

    The route: a visit gives one name a node, its calls and one look-up, and
    leaves the calls of all others as they are (`Visit`).  Two things hold along
    the whole run.  Names not yet visited but called by a visited one wait in the
    queue (`Exploring`), so that nothing is left out once the queue is empty; and
    the graph lists the calls of exactly the names visited (`Charted`).
-/

namespace ControlFlow

/-! ## What a body calls -/

namespace Procedure

variable {f : Procedure} {i : Instruction} {name : String}

/-- The instruction is a call, and its first source is an address or a label with
    that name, which is not empty. -/
def Names (f : Procedure) (i : Instruction) (name : String) : Prop :=
  i.isCall = true ∧ ∃ o target, i.sources.head? = some o ∧ f.operand? o = some target ∧
    (target.kind = .address ∨ target.kind = .label) ∧ target.name = name ∧ name ≠ ""

theorem calleeName?_eq_some : f.calleeName? i = some name ↔ f.Names i name := by
  have hsymbolic : ∀ kind : Operand.Kind,
      kind.isSymbolic = true ↔ kind = .address ∨ kind = .label := by
    intro kind
    cases kind <;> simp [Operand.Kind.isSymbolic]
  rw [calleeName?, Instruction.callTarget?, Names]
  cases hcall : i.isCall with
  | false => simp
  | true =>
      simp only [if_true, true_and, Option.bind_eq_some_iff]
      constructor
      · rintro ⟨target, ⟨o, ho, htarget⟩, hname⟩
        rw [Option.ite_none_right_eq_some] at hname
        simp only [Bool.and_eq_true, Bool.not_eq_true', ← Bool.not_eq_true, String.isEmpty_iff,
          hsymbolic, Option.some.injEq] at hname
        obtain ⟨⟨hkind, hne⟩, rfl⟩ := hname
        exact ⟨o, target, ho, htarget, hkind, rfl, hne⟩
      · rintro ⟨o, target, ho, htarget, hkind, rfl, hne⟩
        refine ⟨target, ⟨o, ho, htarget⟩, ?_⟩
        rw [(hsymbolic target.kind).mpr hkind]
        simp [hne]

/-- Whom an instruction calls is known. -/
def Resolvable (f : Procedure) (i : Instruction) : Prop :=
  ∃ name, f.Names i name

instance (f : Procedure) (i : Instruction) : Decidable (f.Resolvable i) :=
  decidable_of_iff ((f.calleeName? i).isSome = true)
    (Option.isSome_iff_exists.trans (exists_congr fun _ => calleeName?_eq_some))

theorem calleeName?_eq_none : f.calleeName? i = none ↔ ¬ f.Resolvable i := by
  rw [Option.eq_none_iff_forall_ne_some, Resolvable, not_exists]
  exact forall_congr' fun _ => not_congr calleeName?_eq_some

theorem mem_calleeNames : name ∈ f.calleeNames ↔ ∃ i ∈ f.instrs.toList, f.Names i name := by
  rw [calleeNames, List.mem_filterMap]
  constructor
  · rintro ⟨i, hi, hname⟩
    exact ⟨i, (List.mem_filter.mp hi).1, calleeName?_eq_some.mp hname⟩
  · rintro ⟨i, hi, hname⟩
    exact ⟨i, List.mem_filter.mpr ⟨hi, hname.1⟩, calleeName?_eq_some.mpr hname⟩

theorem mem_calleesBeyond {visited : List String} :
    name ∈ f.calleesBeyond visited ↔ name ∈ f.calleeNames ∧ name ∉ visited := by
  simp [calleesBeyond]

/-- Only calls can be resolved. -/
theorem filter_resolvable_calls :
    f.calls.filter (f.Resolvable ·) = f.instrs.toList.filter (f.Resolvable ·) := by
  rw [calls, List.filter_filter]
  refine List.filter_congr fun i _ => ?_
  by_cases h : f.Resolvable i
  · obtain ⟨name, hname⟩ := h
    rw [hname.1, Bool.and_true]
  · simp [h]

end Procedure

/-- The names that calls lead to from some names, through the bodies on offer. -/
inductive ReachedByCalls (load : String → Option Procedure) (seeds : List String) : String → Prop
  | seed {name : String} : name ∈ seeds → ReachedByCalls load seeds name
  | call {caller name : String} {f : Procedure} {i : Instruction} :
      ReachedByCalls load seeds caller → load caller = some f → i ∈ f.instrs.toList →
        f.Names i name → ReachedByCalls load seeds name

/-! ## Names in the queue -/

section Waiting

variable {queue visited added : List String} {name other : String}

/-- A name visited before is not missed in the queue. -/
theorem waiting_skip (hvisited : name ∈ visited) (h : other ∈ visited ∨ other ∈ name :: queue) :
    other ∈ visited ∨ other ∈ queue := by
  rcases h with hold | hnext
  · exact .inl hold
  · rcases List.mem_cons.mp hnext with rfl | hqueue
    · exact .inl hvisited
    · exact .inr hqueue

/-- A visit takes a name from the queue to the names visited. -/
theorem waiting_visit (h : other ∈ visited ∨ other ∈ name :: queue) :
    other ∈ name :: visited ∨ other ∈ queue ++ added := by
  rcases h with hold | hnext
  · exact .inl (List.mem_cons_of_mem name hold)
  · rcases List.mem_cons.mp hnext with rfl | hqueue
    · exact .inl List.mem_cons_self
    · exact .inr (List.mem_append_left added hqueue)

end Waiting

/-- The names visited, and the queue of those that are still to come. -/
structure Exploring (load : String → Option Procedure) (seeds queue visited : List String) :
    Prop where
  nodup : visited.Nodup
  seeded : ∀ name ∈ seeds, name ∈ visited ∨ name ∈ queue
  sound : ∀ name, name ∈ visited ∨ name ∈ queue → ReachedByCalls load seeds name
  closed : ∀ caller ∈ visited, ∀ f, load caller = some f →
    ∀ name ∈ f.calleeNames, name ∈ visited ∨ name ∈ queue

namespace Exploring

variable {load : String → Option Procedure} {seeds queue visited : List String} {name : String}

theorem start : Exploring load seeds seeds [] where
  nodup := List.nodup_nil
  seeded _ h := .inr h
  sound _ h := .seed (h.resolve_left nofun)
  closed := nofun

/-- A name visited before may leave the queue. -/
theorem skip (h : Exploring load seeds (name :: queue) visited) (hvisited : name ∈ visited) :
    Exploring load seeds queue visited where
  nodup := h.nodup
  seeded other hother := waiting_skip hvisited (h.seeded other hother)
  sound other hother := h.sound other (hother.imp_right (List.mem_cons_of_mem name))
  closed caller hcaller f hload other hother :=
    waiting_skip hvisited (h.closed caller hcaller f hload other hother)

/-- A name is visited, and the names it calls that were not join the queue. -/
theorem visit (h : Exploring load seeds (name :: queue) visited) (hnew : name ∉ visited)
    {added : List String}
    (hadded : ∀ other ∈ added, ∃ f, load name = some f ∧ other ∈ f.calleeNames)
    (hcovered : ∀ f, load name = some f → ∀ other ∈ f.calleeNames,
      other ∈ name :: visited ∨ other ∈ added) :
    Exploring load seeds (queue ++ added) (name :: visited) := by
  have hreached : ReachedByCalls load seeds name := h.sound name (.inr List.mem_cons_self)
  refine ⟨List.nodup_cons.mpr ⟨hnew, h.nodup⟩,
    fun other hother => waiting_visit (h.seeded other hother), ?_, ?_⟩
  · rintro other (hother | hother)
    · rcases List.mem_cons.mp hother with rfl | hold
      · exact hreached
      · exact h.sound other (.inl hold)
    · rcases List.mem_append.mp hother with hold | hnext
      · exact h.sound other (.inr (List.mem_cons_of_mem name hold))
      · obtain ⟨f, hload, hcalled⟩ := hadded other hnext
        obtain ⟨i, hi, hnames⟩ := Procedure.mem_calleeNames.mp hcalled
        exact .call hreached hload hi hnames
  · intro caller hcaller f hload other hother
    rcases List.mem_cons.mp hcaller with rfl | hold
    · exact (hcovered f hload other hother).imp_right (List.mem_append_right queue)
    · exact waiting_visit (h.closed caller hold f hload other hother)

/-- Once nothing waits, the names visited are the names reached. -/
theorem mem_visited_iff (h : Exploring load seeds [] visited) :
    name ∈ visited ↔ ReachedByCalls load seeds name := by
  constructor
  · exact fun hname => h.sound name (.inl hname)
  · intro hreached
    induction hreached with
    | seed hseed => exact (h.seeded _ hseed).resolve_right nofun
    | call _ hload hi hnames ih =>
        exact (h.closed _ ih _ hload _ (Procedure.mem_calleeNames.mpr ⟨_, hi, hnames⟩)).resolve_right
          nofun

end Exploring

/-! ## One visit -/

/-- The sites of a caller: one for each instruction whose callee is known, in order. -/
def SitesOf (g : CallGraph) (caller : NodeId) (f : Procedure) (instrs : List Instruction)
    (sites : List CallSite) : Prop :=
  List.Forall₂ (fun i site => site.instr = i.id ∧ site.parent = caller ∧
    ∃ name, g.nodeId? name = some site.target ∧ f.Names i name)
    (instrs.filter (f.Resolvable ·)) sites

namespace SitesOf

variable {g g' : CallGraph} {caller : NodeId} {f : Procedure} {instrs : List Instruction}
  {sites : List CallSite} {i : Instruction}

theorem nil : SitesOf g caller f [] [] :=
  List.Forall₂.nil

/-- Sites stay as good when the graph grows. -/
theorem mono (h : SitesOf g caller f instrs sites) (hkept : g.Extends g') :
    SitesOf g' caller f instrs sites :=
  List.Forall₂.imp (fun _ _ ⟨hinstr, hparent, name, htarget, hnames⟩ =>
    ⟨hinstr, hparent, name, hkept name _ htarget, hnames⟩) h

theorem concat_unresolvable (h : SitesOf g caller f instrs sites) (hnot : ¬ f.Resolvable i) :
    SitesOf g caller f (instrs ++ [i]) sites := by
  rw [SitesOf, List.filter_append, List.filter_cons_of_neg (by simpa using hnot), List.filter_nil,
    List.append_nil]
  exact h

theorem concat (h : SitesOf g caller f instrs sites) {name : String} (hnames : f.Names i name)
    {callee : NodeId} (hcallee : g.nodeId? name = some callee) :
    SitesOf g caller f (instrs ++ [i])
      (sites ++ [{ instr := i.id, target := callee, parent := caller }]) := by
  have hresolvable : f.Resolvable i := ⟨name, hnames⟩
  rw [SitesOf, List.filter_append, List.filter_cons_of_pos (by simpa using hresolvable),
    List.filter_nil]
  exact List.rel_append h (.cons ⟨rfl, rfl, name, hcallee, hnames⟩ .nil)

end SitesOf

namespace Discovery

variable {d d' : Discovery} {scope : Scope} {name : String}

/-- What noting calls of a body does to a graph. -/
structure Noted (f : Procedure) (caller : NodeId) (calls : List Instruction) (g g' : CallGraph) :
    Prop where
  indexed : g'.Indexed
  kept : g.Extends g'
  named : ∀ name id, g'.nodeId? name = some id →
    (∃ old, g.nodeId? name = some old) ∨ ∃ i ∈ calls, f.Names i name
  sites : ∃ sites, SitesOf g' caller f calls sites ∧ ∀ id, g'.calleesAt id =
    if caller = id then g.calleesAt id ++ sites else g.calleesAt id

section Noted

variable {f : Procedure} {caller : NodeId} {calls : List Instruction} {g g' : CallGraph}

theorem Noted.nil (h : g.Indexed) : Noted f caller [] g g where
  indexed := h
  kept := .refl g
  named _ id hid := .inl ⟨id, hid⟩
  sites := ⟨[], .nil, fun _ => by rw [List.append_nil, ite_self]⟩

theorem Noted.named_concat (h : Noted f caller calls g g') {i : Instruction} {other : String}
    {id : NodeId} (hid : g'.nodeId? other = some id) :
    (∃ old, g.nodeId? other = some old) ∨ ∃ j ∈ calls ++ [i], f.Names j other := by
  refine (h.named other id hid).imp_right ?_
  rintro ⟨j, hj, hnames⟩
  exact ⟨j, List.mem_append_left _ hj, hnames⟩

theorem Noted.unresolvable (h : Noted f caller calls g g') {i : Instruction}
    (hnot : ¬ f.Resolvable i) : Noted f caller (calls ++ [i]) g g' := by
  obtain ⟨sites, hsites, hcallees⟩ := h.sites
  exact ⟨h.indexed, h.kept, fun _ _ => h.named_concat, sites, hsites.concat_unresolvable hnot,
    hcallees⟩

/-- A call whose callee is known is noted behind the others. -/
theorem Noted.call (h : Noted f caller calls g g') (hcaller : g.nodeId? name = some caller)
    {i : Instruction} {target : String} (hnames : f.Names i target) (kind : CallGraph.Kind) :
    Noted f caller (calls ++ [i]) g ((g'.nodeFor target kind).1.addSite
      { instr := i.id, target := (g'.nodeFor target kind).2, parent := caller }) := by
  obtain ⟨sites, hsites, hcallees⟩ := h.sites
  have hindexed := h.indexed.nodeFor target kind
  have hkept := g'.extends_nodeFor target kind
  have hself := g'.nodeId?_nodeFor_self target kind
  have hparent := hindexed.lt (hkept name caller (h.kept name caller hcaller))
  have htarget := hindexed.lt hself
  refine ⟨hindexed.addSite _, (h.kept.trans hkept).trans CallGraph.extends_addSite, ?_, ?_⟩
  · intro other id hid
    rw [CallGraph.nodeId?_addSite, CallGraph.nodeId?_nodeFor] at hid
    split at hid
    · rename_i heq
      exact .inr ⟨i, List.mem_append_right _ (List.mem_singleton_self i), heq ▸ hnames⟩
    · exact h.named_concat hid
  · refine ⟨_, (hsites.mono (hkept.trans CallGraph.extends_addSite)).concat hnames
      ((CallGraph.nodeId?_addSite target).trans hself), fun id => ?_⟩
    rw [CallGraph.calleesAt_addSite hparent htarget, CallGraph.calleesAt_nodeFor, hcallees]
    split
    · exact List.append_assoc _ _ _
    · rfl

theorem Noted.addCall (h : Noted f caller calls g d.graph)
    (hcaller : g.nodeId? name = some caller) (i : Instruction) :
    Noted f caller (calls ++ [i]) g (d.addCall scope name caller f i).graph := by
  rw [Discovery.addCall]
  cases hname : f.calleeName? i with
  | none =>
      obtain ⟨hindexed, hkept, hnamed, hsites⟩ :=
        h.unresolvable (Procedure.calleeName?_eq_none.mp hname)
      exact ⟨hindexed, hkept, hnamed, hsites⟩
  | some target => exact h.call hcaller (Procedure.calleeName?_eq_some.mp hname) (scope.kindOf target)

theorem noted_foldl (scope : Scope) (f : Procedure) (h : d.graph.Indexed)
    (hcaller : d.graph.nodeId? name = some caller) (calls : List Instruction) :
    Noted f caller calls d.graph (calls.foldl (addCall scope name caller f) d).graph := by
  induction calls using List.reverseRecOn with
  | nil => exact .nil h
  | append_singleton calls i ih =>
      rw [List.foldl_concat]
      exact ih.addCall hcaller i

theorem loads_foldl_addCall (calls : List Instruction) (d : Discovery) :
    (calls.foldl (addCall scope name caller f) d).loads = d.loads := by
  induction calls generalizing d with
  | nil => rfl
  | cons i calls ih =>
      rw [List.foldl_cons, ih, addCall]
      split <;> rfl

end Noted

/-- A visit to a name that had no calls so far: one look-up, a node, its sites, and
    perhaps nodes for the functions called. -/
structure Visit (name : String) (caller : NodeId) (sites : List CallSite) (callees : List String)
    (d d' : Discovery) : Prop where
  indexed : d'.graph.Indexed
  kept : d.graph.Extends d'.graph
  found : d'.graph.nodeId? name = some caller
  named : ∀ other id, d'.graph.nodeId? other = some id →
    (∃ old, d.graph.nodeId? other = some old) ∨ other = name ∨ other ∈ callees
  sites : ∀ id, d'.graph.calleesAt id = if caller = id then sites else d.graph.calleesAt id
  loads : d'.loads = d.loads.push name

/-- A visit goes on with the calls of the body. -/
theorem Visit.noted {caller : NodeId} {start : Discovery} (h : Visit name caller [] [] d start)
    {f : Procedure} (hnoted : Noted f caller f.calls start.graph d'.graph)
    (hloads : d'.loads = start.loads) :
    ∃ sites, Visit name caller sites f.calleeNames d d' ∧
      SitesOf d'.graph caller f f.instrs.toList sites := by
  obtain ⟨sites, hsites, hcallees⟩ := hnoted.sites
  rw [SitesOf, Procedure.filter_resolvable_calls] at hsites
  refine ⟨sites, ⟨hnoted.indexed, h.kept.trans hnoted.kept, hnoted.kept name caller h.found, ?_, ?_,
    hloads.trans h.loads⟩, hsites⟩
  · intro other id hid
    rcases hnoted.named other id hid with ⟨old, hold⟩ | ⟨i, hi, hnames⟩
    · exact (h.named other old hold).imp_right (.inl ∘ (·.resolve_right nofun))
    · exact .inr (.inr (Procedure.mem_calleeNames.mpr ⟨i, (List.mem_filter.mp hi).1, hnames⟩))
  · intro id
    rw [hcallees, h.sites]
    split
    · rfl
    · rfl

section Visit

variable (hfresh : ∀ id, d.graph.nodeId? name = some id → d.graph.calleesAt id = [])

include hfresh

/-- The node of a name not visited lists no calls. -/
theorem calleesAt_nodeFor_fresh (kind : CallGraph.Kind) :
    d.graph.calleesAt (d.graph.nodeFor name kind).2 = [] := by
  cases hid : d.graph.nodeId? name with
  | none => exact d.graph.calleesAt_new name kind hid
  | some id =>
      have hsame := d.graph.extends_nodeFor name kind name id hid
      rw [d.graph.nodeId?_nodeFor_self, Option.some.injEq] at hsame
      rw [hsame]
      exact hfresh id hid

/-- What is common to all visits. -/
theorem visit_nodeFor (h : d.graph.Indexed) (kind : CallGraph.Kind) (events : Array Event) :
    Visit name (d.graph.nodeFor name kind).2 [] [] d
      ⟨(d.graph.nodeFor name kind).1, d.loads.push name, events⟩ where
  indexed := h.nodeFor name kind
  kept := d.graph.extends_nodeFor name kind
  found := d.graph.nodeId?_nodeFor_self name kind
  named other id hid := by
    rw [d.graph.nodeId?_nodeFor] at hid
    split at hid
    · rename_i heq
      exact .inr (.inl heq.symm)
    · exact .inl ⟨id, hid⟩
  sites id := by
    rw [d.graph.calleesAt_nodeFor]
    split
    · rename_i heq
      rw [← heq]
      exact calleesAt_nodeFor_fresh hfresh kind
    · rfl
  loads := rfl

theorem visit_close (h : d.graph.Indexed) (scope : Scope) :
    ∃ caller, Visit name caller [] [] d (d.close scope name) := by
  refine ⟨(d.graph.nodeFor name (scope.kindOf name)).2, ?_⟩
  rw [close]
  cases scope.kindOf name with
  | inside =>
      obtain ⟨hindexed, hkept, hfound, hnamed, hsites, hloads⟩ :=
        visit_nodeFor hfresh h .inside (d.events.push (.bodyMissing name scope.segment))
      exact ⟨hindexed, hkept, hfound, hnamed, hsites, hloads⟩
  | outside => exact visit_nodeFor hfresh h .outside _

theorem visit_expand (h : d.graph.Indexed) (scope : Scope) (f : Procedure) : ∃ caller sites,
    Visit name caller sites f.calleeNames d (d.expand scope name f) ∧
      SitesOf (d.expand scope name f).graph caller f f.instrs.toList sites := by
  have hopened := visit_nodeFor hfresh h .inside d.events
  have hnoted := noted_foldl scope f hopened.indexed hopened.found f.calls
  exact ⟨_, hopened.noted hnoted (loads_foldl_addCall f.calls _)⟩

end Visit

/-! ## The run -/

/-- The calls listed at the node of a name are those of its body. -/
def Listed (load : String → Option Procedure) (g : CallGraph) (name : String) (id : NodeId) : Prop :=
  (load name = none → g.calleesAt id = []) ∧
    ∀ f, load name = some f → SitesOf g id f f.instrs.toList (g.calleesAt id)

/-- The graph of a run under way: the names visited have their calls listed, and
    nodes of other names stand for names in the queue. -/
structure Charted (load : String → Option Procedure) (queue visited : List String) (d : Discovery) :
    Prop where
  indexed : d.graph.Indexed
  named : ∀ name id, d.graph.nodeId? name = some id → name ∈ visited ∨ name ∈ queue
  listed : ∀ name ∈ visited, ∃ id, d.graph.nodeId? name = some id ∧ Listed load d.graph name id
  unlisted : ∀ name id, d.graph.nodeId? name = some id → name ∉ visited → d.graph.calleesAt id = []
  loads : d.loads.toList = visited.reverse

namespace Charted

variable {load : String → Option Procedure} {queue visited : List String}

theorem start : Charted load queue [] {} where
  indexed := CallGraph.indexed_empty
  named _ _ hid := nomatch hid
  listed := nofun
  unlisted _ _ hid := nomatch hid
  loads := rfl

theorem skip (h : Charted load (name :: queue) visited d) (hvisited : name ∈ visited) :
    Charted load queue visited d where
  indexed := h.indexed
  named other id hid := waiting_skip hvisited (h.named other id hid)
  listed := h.listed
  unlisted := h.unlisted
  loads := h.loads

/-- A visit lists the calls of the name visited and touches no other list. -/
theorem visit (h : Charted load (name :: queue) visited d) (hnew : name ∉ visited)
    {caller : NodeId} {sites : List CallSite} {callees added : List String}
    (hvisit : Visit name caller sites callees d d')
    (hnone : load name = none → sites = [])
    (hsome : ∀ f, load name = some f → SitesOf d'.graph caller f f.instrs.toList sites)
    (hcovered : ∀ other ∈ callees, other ∈ name :: visited ∨ other ∈ added) :
    Charted load (queue ++ added) (name :: visited) d' := by
  have hself : d'.graph.calleesAt caller = sites := by rw [hvisit.sites, if_pos rfl]
  have hother : ∀ other id, d'.graph.nodeId? other = some id → other ≠ name →
      d'.graph.calleesAt id = d.graph.calleesAt id := by
    intro other id hid hne
    rw [hvisit.sites, if_neg]
    rintro rfl
    exact hne (hvisit.indexed.name_unique hid hvisit.found)
  refine ⟨hvisit.indexed, ?_, ?_, ?_, ?_⟩
  · intro other id hid
    rcases hvisit.named other id hid with ⟨old, hold⟩ | rfl | hcallee
    · exact waiting_visit (h.named other old hold)
    · exact .inl List.mem_cons_self
    · exact (hcovered other hcallee).imp_right (List.mem_append_right queue)
  · intro other hmem
    by_cases heq : other = name
    · subst heq
      refine ⟨caller, hvisit.found, ?_⟩
      rw [Listed, hself]
      exact ⟨hnone, hsome⟩
    · have hbefore := (List.mem_cons.mp hmem).resolve_left heq
      obtain ⟨id, hid, hlisted⟩ := h.listed other hbefore
      have hid' := hvisit.kept other id hid
      refine ⟨id, hid', ?_⟩
      rw [Listed, hother other id hid' heq]
      exact ⟨hlisted.1, fun f hload => (hlisted.2 f hload).mono hvisit.kept⟩
  · intro other id hid hmem
    have hne : other ≠ name := fun heq => hmem (heq ▸ List.mem_cons_self)
    rw [hother other id hid hne]
    by_contra hcalls
    -- calls were listed there before, so that the node had its name before
    obtain ⟨old, hold⟩ := h.indexed.exists_name hcalls
    have hsame : old = other := hvisit.indexed.name_unique (hvisit.kept old id hold) hid
    exact hcalls (h.unlisted old id hold fun hbefore =>
      hmem (List.mem_cons_of_mem name (hsame ▸ hbefore)))
  · rw [hvisit.loads, Array.toList_push, h.loads, List.reverse_cons]

end Charted

/-- Everything there is to find is in the graph, once: the names that calls lead to,
    and at every name the calls of its body. -/
structure Complete (load : String → Option Procedure) (seeds : List String) (d : Discovery) :
    Prop where
  mem_names_iff : ∀ name,
    name ∈ d.graph.nodes.map CallGraph.Node.name ↔ ReachedByCalls load seeds name
  nodup_names : (d.graph.nodes.map CallGraph.Node.name).Nodup
  /-- Every name has been looked up once. -/
  loads_perm : d.loads.toList.Perm (d.graph.nodes.map CallGraph.Node.name)
  callees_of_body : ∀ id node f, d.graph.nodeById? id = some node → load node.name = some f →
    List.Forall₂ (fun i site => site.instr = i.id ∧ site.parent = id ∧
      ∃ target, d.graph.nodeById? site.target = some target ∧ f.Names i target.name)
      (f.instrs.toList.filter (f.Resolvable ·)) node.callees
  callees_without_body : ∀ id node, d.graph.nodeById? id = some node → load node.name = none →
    node.callees = []

theorem complete_of_charted {load : String → Option Procedure} {seeds visited : List String}
    (hexploring : Exploring load seeds [] visited) (h : Charted load [] visited d) :
    d.Complete load seeds := by
  have hmem : ∀ name, name ∈ d.graph.nodes.map CallGraph.Node.name ↔ name ∈ visited := by
    intro name
    rw [h.indexed.mem_names_iff]
    constructor
    · rintro ⟨id, hid⟩
      exact (h.named name id hid).resolve_right nofun
    · intro hvisited
      obtain ⟨id, hid, -⟩ := h.listed name hvisited
      exact ⟨id, hid⟩
  have hnodup : (d.graph.nodes.map CallGraph.Node.name).Nodup := Keyed.nodup_map h.indexed
  have hlisted : ∀ id node, d.graph.nodeById? id = some node →
      Listed load d.graph node.name id := by
    intro id node hnode
    have hid := h.indexed.nodeId?_eq_some.mpr ⟨node, hnode, rfl⟩
    obtain ⟨id', hid', hlisted⟩ := h.listed node.name
      ((h.named node.name id hid).resolve_right nofun)
    rw [hid, Option.some.injEq] at hid'
    exact hid' ▸ hlisted
  refine ⟨fun name => (hmem name).trans hexploring.mem_visited_iff, hnodup, ?_, ?_, ?_⟩
  · rw [h.loads]
    refine (List.reverse_perm visited).trans ?_
    exact (List.perm_ext_iff_of_nodup hexploring.nodup hnodup).mpr fun name => (hmem name).symm
  · intro id node f hnode hload
    have hsites := (hlisted id node hnode).2 f hload
    rw [CallGraph.calleesAt_of_node hnode] at hsites
    refine List.Forall₂.imp ?_ hsites
    rintro i site ⟨hinstr, hparent, name, htarget, hnames⟩
    obtain ⟨target, hfound, rfl⟩ := h.indexed.nodeId?_eq_some.mp htarget
    exact ⟨hinstr, hparent, target, hfound, hnames⟩
  · intro id node hnode hload
    rw [← CallGraph.calleesAt_of_node hnode]
    exact (hlisted id node hnode).1 hload

/-- A run that is under way ends complete. -/
theorem complete_run {seeds : List String} (scope : Scope) (queue visited : List String)
    (d : Discovery) (hexploring : Exploring scope.load seeds queue visited)
    (h : Charted scope.load queue visited d) :
    (run scope queue visited d).Complete scope.load seeds := by
  fun_induction run scope queue visited d with
  | case1 visited d => exact complete_of_charted hexploring h
  | case2 visited d name queue hvisited ih => exact ih (hexploring.skip hvisited) (h.skip hvisited)
  | case3 visited d name queue hnew hload ih =>
      obtain ⟨caller, hvisit⟩ := visit_close (fun id hid => h.unlisted name id hid hnew) h.indexed scope
      have hexploring' := hexploring.visit hnew (List.forall_mem_nil _)
        fun f hbody => nomatch hload.symm.trans hbody
      have hcharted' := h.visit hnew hvisit (fun _ => rfl) (fun f hbody => nomatch hload.symm.trans hbody)
        (List.forall_mem_nil fun other => other ∈ name :: visited ∨ other ∈ [])
      rw [List.append_nil] at hexploring' hcharted'
      exact ih hexploring' hcharted'
  | case4 visited d name queue hnew f hload ih =>
      obtain ⟨caller, sites, hvisit, hsites⟩ :=
        visit_expand (fun id hid => h.unlisted name id hid hnew) h.indexed scope f
      have hbody : ∀ f', scope.load name = some f' → f' = f :=
        fun f' hload' => (Option.some.inj (hload.symm.trans hload')).symm
      have hcovered : ∀ other ∈ f.calleeNames,
          other ∈ name :: visited ∨ other ∈ f.calleesBeyond (name :: visited) := by
        intro other hcallee
        by_cases hvisited : other ∈ name :: visited
        · exact .inl hvisited
        · exact .inr (Procedure.mem_calleesBeyond.mpr ⟨hcallee, hvisited⟩)
      refine ih (hexploring.visit hnew ?_ ?_) (h.visit hnew hvisit ?_ ?_ hcovered)
      · exact fun other hother => ⟨f, hload, (Procedure.mem_calleesBeyond.mp hother).1⟩
      · intro f' hload'
        exact hbody f' hload' ▸ hcovered
      · intro hnone
        exact nomatch hload.symm.trans hnone
      · intro f' hload'
        exact hbody f' hload' ▸ hsites

theorem complete_ofNames (scope : Scope) (seeds : List String) :
    (ofNames scope seeds).Complete scope.load seeds :=
  complete_run scope seeds [] {} .start .start

/-- For every source of bodies, the call graphs of a module and of a single function
    are complete: the one for the functions listed, the other for its start. -/
theorem complete_discover_and_ofStart (loader : Loader) :
    (∀ m : Listing, (m.discover loader).Complete (loader.load · m.segment) m.functions) ∧
      ∀ start segment, (ofStart start segment loader).Complete (loader.load · segment) [start] := by
  constructor
  · intro m
    obtain ⟨hnames, hnodup, hloads, hbody, hnobody⟩ := complete_ofNames
      { segment := m.segment, listed := m.functions, loader := loader } m.functions
    exact ⟨hnames, hnodup, hloads, hbody, hnobody⟩
  · intro start segment
    exact complete_ofNames { segment := segment, listed := [], loader := loader } [start]

end Discovery

end ControlFlow
