import ControlFlow.Proofs.Changes

/-!
# Construction in place

    A refused step returns an error and no draft, so there is nothing that it could
    have changed.  Worked on in place, a draft is there all the time: an operation
    checks and writes in turn, one table after the other, and when it breaks off, what
    it has written stays written.  `InPlace` is construction read in that way.

    The two readings agree (`InPlace.step_run`): an operation does the whole of its
    work, or breaks off and leaves the draft as it was.  Most operations make all their
    checks before they write.  A call of a named target does not: it adds an instruction
    and then an operand to it, and the second part checks again.  But that check does
    not fail, because the instruction it asks for has just been added.

    What a step is refused for is the first thing it names that is not there
    (`step_eq_error_iff`).
-/

namespace ControlFlow.Draft

variable {d d' : Draft} {e : Error}

/-! ## What a step names -/

/-- How many things of a sort a draft has.  Its edges are not numbered. -/
def count (d : Draft) : IdSort → Nat
  | .node => d.blocks.size
  | .instr => d.instrs.size
  | .operand => d.operands.size
  | .edge => 0

/-- What a step names and must find, in the order in which it looks for it.  A block
    named as entry or exit is looked for when the draft is finished. -/
def Step.names : Step → List (IdSort × Nat)
  | .label b _ => [(.node, b)]
  | .edge b c => [(.node, b), (.node, c)]
  | .instr b _ _ => [(.node, b)]
  | .call b _ => [(.node, b)]
  | .operand i kind _ _ => (.instr, i) :: kind.base?.toList.map (Prod.mk .operand)
  | .type o _ => [(.operand, o)]
  | .define o _ => [(.operand, o)]
  | .use u e => [(.operand, u), (.operand, e)]
  | .block _ | .entry _ | .exit _ => []

/-- The error that says that a thing is not there. -/
def absent (d : Draft) : IdSort × Nat → Error
  | (.instr, instr) => .missingInstr instr d.name
  | (.operand, operand) => .missingOperand operand d.name
  | (.node, block) | (.edge, block) => .missingBlock block d.name d.blocks.size

/-- That error, unless the thing is there. -/
def absence? (d : Draft) (c : IdSort × Nat) : Option Error :=
  if c.2 < d.count c.1 then none else some (d.absent c)

/-- The definition that a step links to, unless it is registered. -/
def unregistered? (d : Draft) : Step → Option OperandId
  | .use _ e => if (d.ssa.definition? e).isSome then none else some e
  | _ => none

/-- What a step is refused with: the first thing that is not there, and if all are there,
    a definition that is not registered. -/
def refusal? (d : Draft) (s : Step) : Option Error :=
  (s.names.findSome? d.absence?).or ((d.unregistered? s).map .notADefinition)

theorem absence?_eq_none {c : IdSort × Nat} : d.absence? c = none ↔ c.2 < d.count c.1 := by
  rw [absence?]
  split <;> simp_all

theorem findSome?_absence?_cons (d : Draft) (c : IdSort × Nat) (cs : List (IdSort × Nat)) :
    (c :: cs).findSome? d.absence? = (d.absence? c).or (cs.findSome? d.absence?) := by
  rw [List.findSome?_cons]
  cases d.absence? c <;> rfl

theorem unregistered?_eq_some {s : Step} {definition : OperandId} :
    d.unregistered? s = some definition ↔
      ∃ use, s = .use use definition ∧ d.ssa.definition? definition = none := by
  cases s with
  | use u e =>
      rw [unregistered?]
      cases hfound : d.ssa.definition? e with
      | none =>
          constructor
          · intro heq
            obtain rfl : e = definition := Option.some.inj heq
            exact ⟨u, rfl, hfound⟩
          · rintro ⟨use, heq, -⟩
            cases heq
            rfl
      | some found =>
          refine iff_of_false (Option.some_ne_none definition).symm ?_
          rintro ⟨use, heq, hnone⟩
          cases heq
          exact Option.some_ne_none found (hfound.symm.trans hnone)
  | _ =>
      refine iff_of_false (Option.some_ne_none definition).symm ?_
      rintro ⟨use, heq, -⟩
      cases heq

/-- A step is refused if anything it names is not there, or a definition not registered. -/
theorem exists_refusal?_iff {s : Step} :
    (∃ e, d.refusal? s = some e) ↔
      (∃ c ∈ s.names, d.count c.1 ≤ c.2) ∨
        ∃ use definition, s = .use use definition ∧ d.ssa.definition? definition = none := by
  have habsent : (s.names.findSome? d.absence?).isSome ↔ ∃ c ∈ s.names, d.count c.1 ≤ c.2 := by
    rw [List.findSome?_isSome_iff]
    refine exists_congr fun c => and_congr_right fun _ => ?_
    rw [Option.isSome_iff_ne_none, Ne, absence?_eq_none, Nat.not_lt]
  rw [← Option.isSome_iff_exists, refusal?, Option.isSome_or, Bool.or_eq_true, habsent,
    Option.isSome_map, Option.isSome_iff_exists]
  refine or_congr_right ?_
  simp only [unregistered?_eq_some]
  exact exists_comm

/-! ## Refusals -/

theorem ok_ne_error {α : Type} {a : α} : (.ok a : Except Error α) ≠ .error e := by
  intro h
  cases h

theorem andThen_eq_error {α β : Type} {first : Except Error α} {second : α → Except Error β} :
    first >>= second = .error e ↔ first = .error e ∨ ∃ a, first = .ok a ∧ second a = .error e := by
  cases first with
  | error e' =>
      show Except.error e' = Except.error e ↔ _
      simp
  | ok a =>
      show second a = .error e ↔ _
      simp

/-- Steps pass on the errors of what they are made of. -/
theorem return_eq_error {α β : Type} {first : Except Error α} {outcome : α → β} :
    (first >>= fun a => pure (outcome a)) = .error e ↔ first = .error e := by
  rw [andThen_eq_error, or_iff_left_iff_imp]
  rintro ⟨a, -, hpure⟩
  exact absurd hpure ok_ne_error

theorem checkBlock_eq_error {block : NodeId} :
    d.checkBlock block = .error e ↔ d.absence? (.node, block) = some e := by
  rw [checkBlock, absence?]
  show _ ↔ (if block < d.blocks.size then _ else _) = _
  split <;> simp [absent]

theorem checkInstr_eq_error {instr : InstrId} :
    d.checkInstr instr = .error e ↔ d.absence? (.instr, instr) = some e := by
  rw [checkInstr, absence?]
  show _ ↔ (if instr < d.instrs.size then _ else _) = _
  split <;> simp [absent]

theorem checkOperand_eq_error {operand : OperandId} :
    d.checkOperand operand = .error e ↔ d.absence? (.operand, operand) = some e := by
  rw [checkOperand, absence?]
  show _ ↔ (if operand < d.operands.size then _ else _) = _
  split <;> simp [absent]

theorem addEdge_eq_error {source target : NodeId} :
    d.addEdge source target = .error e ↔
      (d.absence? (.node, source)).or (d.absence? (.node, target)) = some e := by
  rw [addEdge, Option.or_eq_some_iff]
  simp only [andThen_eq_error, checkBlock_eq_error, checkBlock_eq_ok, absence?_eq_none, count,
    exists_const]
  refine or_congr_right (and_congr_right fun _ => ?_)
  rw [or_iff_left_iff_imp]
  rintro ⟨-, hwrite⟩
  split at hwrite <;> cases hwrite

theorem addOperand_eq_error {instr : InstrId} {kind : Operand.Kind} {role : Operand.Role}
    {name : String} :
    d.addOperand instr kind role name = .error e ↔
      (d.absence? (.instr, instr)).or
        ((kind.base?.toList.map (Prod.mk IdSort.operand)).findSome? d.absence?) = some e := by
  rw [addOperand, andThen_eq_error, Option.or_eq_some_iff, checkInstr_eq_error]
  simp only [checkInstr_eq_ok, absence?_eq_none, count, exists_const]
  refine or_congr_right (and_congr_right fun _ => ?_)
  rw [return_eq_error, checkBase]
  cases kind.base? with
  | none => exact iff_of_false ok_ne_error (Option.some_ne_none e).symm
  | some base =>
      rw [Option.toList_some, List.map_singleton, findSome?_absence?_cons, List.findSome?_nil,
        Option.or_none]
      exact checkOperand_eq_error

/-- An instruction that has just been added can be given an operand. -/
theorem addOperand_of_addInstr {block : NodeId} {opcode : String} {isCall : Bool} {instr : InstrId}
    (h : d.addInstr block opcode isCall = .ok (d', instr)) (role : Operand.Role) (name : String) :
    ∃ outcome, d'.addOperand instr .address role name = .ok outcome := by
  obtain ⟨-, rfl, rfl⟩ := addInstr_eq_ok.mp h
  refine ⟨(_, _), addOperand_eq_ok.mpr ⟨?_, rfl, rfl, rfl⟩⟩
  rw [Array.size_push]
  exact Nat.lt_succ_self _

theorem addInstr_eq_error {block : NodeId} {opcode : String} {isCall : Bool} :
    d.addInstr block opcode isCall = .error e ↔ d.absence? (.node, block) = some e := by
  rw [addInstr, return_eq_error, checkBlock_eq_error]

/-- A call is refused only as an instruction, not any more for its operand. -/
theorem addCall_eq_error {block : NodeId} {target : String} :
    d.addCall block target = .error e ↔ d.absence? (.node, block) = some e := by
  rw [addCall, andThen_eq_error, addInstr_eq_error, or_iff_left_iff_imp]
  rintro ⟨⟨d₁, instr⟩, hinstr, hrest⟩
  obtain ⟨outcome, houtcome⟩ := addOperand_of_addInstr hinstr .source target
  rw [return_eq_error, houtcome] at hrest
  cases hrest

theorem linkUse_eq_error {use definition : OperandId} :
    d.linkUse use definition = .error e ↔
      ((d.absence? (.operand, use)).or (d.absence? (.operand, definition))).or
        ((d.unregistered? (.use use definition)).map .notADefinition) = some e := by
  rw [linkUse, Option.or_assoc, Option.or_eq_some_iff, Option.or_eq_some_iff]
  simp only [andThen_eq_error, checkOperand_eq_error, checkOperand_eq_ok, absence?_eq_none, count,
    exists_const]
  refine or_congr_right (and_congr_right fun _ => or_congr_right (and_congr_right fun _ => ?_))
  rw [unregistered?]
  cases d.ssa.definition? definition with
  | none =>
      show Except.error _ = Except.error e ↔ some _ = some e
      rw [Except.error.injEq, Option.some.injEq]
  | some found => exact iff_of_false ok_ne_error (Option.some_ne_none e).symm

/-- A step is refused for the first thing it names that is not there, and with the error
    that names it. -/
theorem step_eq_error_iff {s : Step} : d.step s = .error e ↔ d.refusal? s = some e := by
  cases s with
  | block number => exact iff_of_false ok_ne_error (Option.some_ne_none e).symm
  | label b text =>
      rw [step, return_eq_error, setLabel, return_eq_error, checkBlock_eq_error]
      simp [refusal?, Step.names, unregistered?]
  | edge b c =>
      rw [step, return_eq_error, addEdge_eq_error]
      simp [refusal?, Step.names, unregistered?, findSome?_absence?_cons]
  | entry b => exact iff_of_false ok_ne_error (Option.some_ne_none e).symm
  | exit b => exact iff_of_false ok_ne_error (Option.some_ne_none e).symm
  | instr b opcode isCall =>
      rw [step, return_eq_error, addInstr_eq_error]
      simp [refusal?, Step.names, unregistered?]
  | call b target =>
      rw [step, return_eq_error, addCall_eq_error]
      simp [refusal?, Step.names, unregistered?]
  | operand i kind role name =>
      rw [step, return_eq_error, addOperand_eq_error]
      simp [refusal?, Step.names, unregistered?, findSome?_absence?_cons]
  | type o text =>
      rw [step, return_eq_error, setType, return_eq_error, checkOperand_eq_error]
      simp [refusal?, Step.names, unregistered?]
  | define o version =>
      rw [step, return_eq_error, Draft.define, return_eq_error, checkOperand_eq_error]
      simp [refusal?, Step.names, unregistered?]
  | use u e' =>
      rw [step, return_eq_error, linkUse_eq_error]
      simp [refusal?, Step.names, findSome?_absence?_cons]

/-! ## Working in place -/

/-- Work on a draft that may break off, with the draft as it is then. -/
abbrev InPlace (α : Type) : Type := EStateM Error Draft α

namespace InPlace

variable {α β : Type}

/-- Breaks off if a check fails. -/
def require (check : Draft → Except Error Unit) : InPlace Unit := fun d =>
  match check d with
  | .ok _ => .ok () d
  | .error e => .error e d

/-- Gives a block a label. -/
def setLabel (b : NodeId) (label : String) : InPlace Unit := do
  require (·.checkBlock b)
  modify fun d => { d with blocks := d.blocks.modify b (·.setLabel label) }

/-- Records an edge at one end and then at the other, unless it is there. -/
def addEdge (source target : NodeId) : InPlace Unit := do
  require (·.checkBlock source)
  require (·.checkBlock target)
  unless target ∈ (← get).successors source do
    modify fun d => { d with blocks := d.blocks.modify source (·.addSuccessor target) }
    modify fun d => { d with blocks := d.blocks.modify target (·.addPredecessor source) }

/-- Adds an instruction to the table and then to its block. -/
def addInstr (block : NodeId) (opcode : String) (isCall : Bool) : InPlace InstrId := do
  require (·.checkBlock block)
  let id := (← get).instrs.size
  let index := (((← get).block? block).map (·.instrs.length)).getD 0
  modify fun d => { d with
    instrs := d.instrs.push
      { id := id, block := block, index := index, opcode := opcode, isCall := isCall
        sources := [], destinations := [] } }
  modify fun d => { d with blocks := d.blocks.modify block (·.addInstr id) }
  return id

/-- Adds an operand to the table and then to its instruction. -/
def addOperand (instr : InstrId) (kind : Operand.Kind) (role : Operand.Role) (name : String) :
    InPlace OperandId := do
  require (·.checkInstr instr)
  require (·.checkBase kind)
  let id := (← get).operands.size
  modify fun d => { d with
    operands := d.operands.push
      { id := id, kind := kind, role := role, name := name, type := none, instr := instr } }
  modify fun d => { d with instrs := d.instrs.modify instr (·.addOperand role id) }
  return id

/-- Adds a call instruction and then the target's address as its source. -/
def addCall (block : NodeId) (target : String) : InPlace InstrId := do
  let instr ← addInstr block "call" true
  let _ ← addOperand instr .address .source target
  return instr

/-- Gives an operand a type. -/
def setType (operand : OperandId) (type : String) : InPlace Unit := do
  require (·.checkOperand operand)
  modify fun d => { d with operands := d.operands.modify operand (·.setType type) }

/-- Registers an operand as the definition of a version. -/
def define (operand : OperandId) (version : Nat) : InPlace Unit := do
  require (·.checkOperand operand)
  modify fun d => { d with ssa := d.ssa.define operand version }

/-- Adds a use to the users of its definition, and then the pointer back. -/
def linkUse (use definition : OperandId) : InPlace Unit := do
  require (·.checkOperand use)
  require (·.checkOperand definition)
  match (← get).ssa.definition? definition with
  | none => throw (.notADefinition definition)
  | some found =>
      unless use ∈ found.users do
        modify fun d => { d with
          ssa := { d.ssa with
            definitions := d.ssa.definitions.insert definition
              { found with users := found.users ++ [use] } } }
      modify fun d => { d with ssa := { d.ssa with uses := d.ssa.uses.insert use definition } }

/-- Takes one step. -/
def step : Step → InPlace (Option Nat)
  | .block number => modifyGet fun d => (some (d.addBlock number).2, (d.addBlock number).1)
  | .label b text => do setLabel b text; return none
  | .edge b c => do addEdge b c; return none
  | .entry b => do modify (·.setEntry b); return none
  | .exit b => do modify (·.setExit b); return none
  | .instr b opcode isCall => do return some (← addInstr b opcode isCall)
  | .call b target => do return some (← addCall b target)
  | .operand i kind role name => do return some (← addOperand i kind role name)
  | .type o text => do setType o text; return none
  | .define o version => do define o version; return none
  | .use u e => do linkUse u e; return none

/-! ## Whole steps -/

/-- What is left when nothing is written before the last check has passed: the result, with
    the draft that `done` reads off it, or the error, with the old draft. -/
def allOrNothing (d : Draft) (done : β → Draft × α) : Except Error β → EStateM.Result Error Draft α
  | .ok b => .ok (done b).2 (done b).1
  | .error e => .error e d

theorem bind_run {m : InPlace α} {k : α → InPlace β} :
    (m >>= k).run d =
      match m.run d with
      | .ok a d' => (k a).run d'
      | .error e d' => .error e d' := by
  show EStateM.bind m k d = _
  rw [EStateM.bind, EStateM.run]
  cases m d <;> rfl

theorem get_bind {k : Draft → InPlace α} : ((get : InPlace Draft) >>= k).run d = (k d).run d := rfl

/-- A check in front of work that is done as a whole. -/
theorem require_run {check : Draft → Except Error Unit} {k : InPlace α} {next : Except Error β}
    {done : β → Draft × α} (h : k.run d = allOrNothing d done next) :
    (require check >>= fun _ => k).run d = allOrNothing d done (check d >>= fun _ => next) := by
  rw [bind_run, EStateM.run, require]
  cases check d with
  | error e => rfl
  | ok u => exact h

theorem setLabel_run (d : Draft) (b : NodeId) (label : String) :
    (setLabel b label).run d = allOrNothing d (·, ()) (d.setLabel b label) :=
  require_run rfl

theorem addEdge_run (d : Draft) (source target : NodeId) :
    (addEdge source target).run d = allOrNothing d (·, ()) (d.addEdge source target) := by
  refine require_run (require_run ?_)
  rw [get_bind]
  by_cases hmem : target ∈ d.successors source
  · rw [if_pos hmem, if_pos hmem]
    rfl
  · rw [if_neg hmem, if_neg hmem]
    rfl

theorem addInstr_run (d : Draft) (b : NodeId) (opcode : String) (isCall : Bool) :
    (addInstr b opcode isCall).run d = allOrNothing d id (d.addInstr b opcode isCall) :=
  require_run rfl

theorem addOperand_run (d : Draft) (i : InstrId) (kind : Operand.Kind) (role : Operand.Role)
    (name : String) :
    (addOperand i kind role name).run d = allOrNothing d id (d.addOperand i kind role name) :=
  require_run (require_run rfl)

theorem setType_run (d : Draft) (o : OperandId) (type : String) :
    (setType o type).run d = allOrNothing d (·, ()) (d.setType o type) :=
  require_run rfl

theorem define_run (d : Draft) (o : OperandId) (version : Nat) :
    (define o version).run d = allOrNothing d (·, ()) (d.define o version) :=
  require_run rfl

theorem linkUse_run (d : Draft) (use definition : OperandId) :
    (linkUse use definition).run d = allOrNothing d (·, ()) (d.linkUse use definition) := by
  refine require_run (require_run ?_)
  rw [get_bind]
  cases hfound : d.ssa.definition? definition with
  | none => rfl
  | some found =>
      show _ = allOrNothing d (·, ()) (.ok { d with ssa := d.ssa.link use definition found })
      rw [Ssa.link]
      by_cases huse : use ∈ found.users
      · simp only [if_pos huse]
        rfl
      · simp only [if_neg huse]
        rfl

/-- The part of a call that could break off late does not. -/
theorem addCall_run (d : Draft) (b : NodeId) (target : String) :
    (addCall b target).run d = allOrNothing d id (d.addCall b target) := by
  rw [addCall, bind_run, addInstr_run, Draft.addCall]
  cases hinstr : d.addInstr b "call" true with
  | error e => rfl
  | ok outcome =>
      -- the instruction is written by now, so an error from here on would leave it behind
      obtain ⟨d₁, instr⟩ := outcome
      obtain ⟨⟨d₂, o⟩, hoperand⟩ := addOperand_of_addInstr hinstr .source target
      show (addOperand instr .address .source target >>= fun _ => pure instr).run d₁ = _
      rw [bind_run, addOperand_run, hoperand]
      show _ = allOrNothing d id (d₁.addOperand instr .address .source target >>= fun _ => _)
      rw [hoperand]
      rfl

/-- A step passes on what its work comes to. -/
theorem return_run {m : InPlace α} {r : Except Error β} {done : β → Draft × α}
    {outcome : α → Option Nat} (h : m.run d = allOrNothing d done r) :
    (m >>= fun a => pure (outcome a)).run d =
      allOrNothing d id (r >>= fun b => pure ((done b).1, outcome (done b).2)) := by
  rw [bind_run, h]
  cases r <;> rfl

/-- In place, a step does all of its work or none. -/
theorem step_run (d : Draft) (s : Step) : (step s).run d = allOrNothing d id (d.step s) := by
  cases s with
  | block number => rfl
  | label b text => exact return_run (setLabel_run d b text)
  | edge b c => exact return_run (addEdge_run d b c)
  | entry b => rfl
  | exit b => rfl
  | instr b opcode isCall => exact return_run (addInstr_run d b opcode isCall)
  | call b target => exact return_run (addCall_run d b target)
  | operand i kind role name => exact return_run (addOperand_run d i kind role name)
  | type o text => exact return_run (setType_run d o text)
  | define o version => exact return_run (define_run d o version)
  | use u e => exact return_run (linkUse_run d u e)

/-- Takes steps in turn, and after an error goes on with the draft as it is then. -/
def takeAll : List Step → Draft → Draft
  | [], d => d
  | s :: rest, d =>
      match (step s).run d with
      | .ok _ d' => takeAll rest d'
      | .error _ d' => takeAll rest d'

theorem takeAll_eq (d : Draft) (steps : List Step) : takeAll steps d = d.run steps := by
  induction steps generalizing d with
  | nil => rfl
  | cons s rest ih =>
      show _ = (d.attempt s).run rest
      rw [takeAll, step_run, attempt]
      cases d.step s with
      | ok outcome => exact ih outcome.1
      | error e => exact ih d

end InPlace

/-- Worked on in place, a draft refuses a step exactly if a block, an instruction or an
    operand that the step names is not there, or a definition that it links to is not
    registered.  The error is then the one of the step that is taken as a whole, for the
    first such thing, and the draft is what it was.  A step that is not refused makes the
    draft of the step as a whole, and a series of steps that goes on after errors makes
    the draft of the run. -/
theorem inPlace_refused_iff_and_unchanged (d : Draft) (s : Step) :
    ((∃ e d', (InPlace.step s).run d = .error e d') ↔
      (∃ c ∈ s.names, d.count c.1 ≤ c.2) ∨
        ∃ use definition, s = .use use definition ∧ d.ssa.definition? definition = none) ∧
    (∀ e d', (InPlace.step s).run d = .error e d' →
      d' = d ∧ d.step s = .error e ∧ d.refusal? s = some e) ∧
    (∀ index d', (InPlace.step s).run d = .ok index d' → d.step s = .ok (d', index)) ∧
    ∀ steps, InPlace.takeAll steps d = d.run steps := by
  rw [InPlace.step_run, ← exists_refusal?_iff]
  simp only [← step_eq_error_iff]
  cases d.step s with
  | error e =>
      refine ⟨iff_of_true ⟨e, d, rfl⟩ ⟨e, rfl⟩, ?_, ?_, InPlace.takeAll_eq d⟩
      · intro e' d' hrun
        cases hrun
        exact ⟨rfl, rfl, rfl⟩
      · intro index d' hrun
        cases hrun
  | ok outcome =>
      refine ⟨iff_of_false ?_ ?_, ?_, ?_, InPlace.takeAll_eq d⟩
      · rintro ⟨e, d', hrun⟩
        cases hrun
      · rintro ⟨e, hstep⟩
        cases hstep
      · intro e d' hrun
        cases hrun
      · intro index d' hrun
        cases hrun
        rfl

end ControlFlow.Draft
