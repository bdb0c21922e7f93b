import ControlFlow.Proofs.Construction

/-!
# What construction steps do

    Seen from the tables of a draft, a construction step makes one of ten changes,
    or two of them in a row, or none (`Change`, `changes_of_step`).  A change comes
    with what was checked before it and with the link between a use and its
    definition that it makes, if it makes one.  A run of steps is then a series of
    changes (`changes_run`), and whatever every change keeps holds after every run.
-/

namespace ControlFlow.Draft

variable {d d' d'' : Draft}

/-! ## Links -/

/-- The use and the definition that a step links, unless it is refused. -/
def linked? (d : Draft) : Step → Option (OperandId × OperandId)
  | .use use definition =>
      match d.linkUse use definition with
      | .ok _ => some (use, definition)
      | .error _ => none
  | _ => none

/-- The links that a series of steps makes, in order. -/
def links (d : Draft) : List Step → List (OperandId × OperandId)
  | [] => []
  | s :: rest => (d.linked? s).toList ++ (d.attempt s).links rest

/-- A refused step makes no link. -/
theorem linked?_of_refused {s : Step} {e : Error} (h : d.step s = .error e) :
    d.linked? s = none := by
  cases s with
  | use use definition =>
      rw [linked?]
      cases hlink : d.linkUse use definition with
      | error e' => rfl
      | ok d₁ =>
          rw [step, hlink] at h
          exact nomatch h
  | _ => rfl

/-! ## Single changes -/

/-- One change to a draft, what was checked before, and the link it makes. -/
inductive Change (d : Draft) : Option (OperandId × OperandId) → Draft → Prop where
  | block (number : Nat) (hnew : d.numbers[number]? = none) :
      Change d none { d with
        blocks := d.blocks.push (Block.fresh d.blocks.size number)
        numbers := d.numbers.insert number d.blocks.size }
  | label (block : NodeId) (text : String) :
      Change d none { d with blocks := d.blocks.modify block (·.setLabel text) }
  | edge (source target : NodeId) :
      Change d none { d with
        blocks := (d.blocks.modify source (·.addSuccessor target)).modify target
          (·.addPredecessor source) }
  | entry (block : NodeId) : Change d none (d.setEntry block)
  | exit (block : NodeId) : Change d none (d.setExit block)
  | instr (block : NodeId) (opcode : String) (isCall : Bool) (hblock : block < d.blocks.size) :
      Change d none { d with
        instrs := d.instrs.push
          { id := d.instrs.size, block := block
            index := ((d.block? block).map (·.instrs.length)).getD 0
            opcode := opcode, isCall := isCall, sources := [], destinations := [] }
        blocks := d.blocks.modify block (·.addInstr d.instrs.size) }
  | operand (instr : InstrId) (kind : Operand.Kind) (role : Operand.Role) (name : String)
      (hinstr : instr < d.instrs.size)
      (hbase : ∀ base, kind.base? = some base → base < d.operands.size) :
      Change d none { d with
        operands := d.operands.push
          { id := d.operands.size, kind := kind, role := role, name := name, type := none
            instr := instr }
        instrs := d.instrs.modify instr (·.addOperand role d.operands.size) }
  | type (operand : OperandId) (text : String) :
      Change d none { d with operands := d.operands.modify operand (·.setType text) }
  | define (operand : OperandId) (version : Nat) (hoperand : operand < d.operands.size) :
      Change d none { d with ssa := d.ssa.define operand version }
  | link (use definition : OperandId) (found : Ssa.Definition) (huse : use < d.operands.size)
      (hfound : d.ssa.definition? definition = some found) :
      Change d (some (use, definition)) { d with ssa := d.ssa.link use definition found }

theorem checkBase_eq_ok {kind : Operand.Kind} {u : Unit} :
    d.checkBase kind = .ok u ↔ ∀ base, kind.base? = some base → base < d.operands.size := by
  rw [checkBase]
  cases hbase : kind.base? with
  | none => exact iff_of_true rfl nofun
  | some base =>
      show d.checkOperand base = .ok u ↔ _
      rw [checkOperand_eq_ok]
      exact ⟨fun hlt _ heq => Option.some.inj heq ▸ hlt, fun h => h base rfl⟩

theorem change_of_addInstr {block : NodeId} {opcode : String} {isCall : Bool} {instr : InstrId}
    (h : d.addInstr block opcode isCall = .ok (d', instr)) : Change d none d' := by
  obtain ⟨hblock, -, rfl⟩ := addInstr_eq_ok.mp h
  exact .instr block opcode isCall hblock

theorem change_of_addOperand {instr : InstrId} {kind : Operand.Kind} {role : Operand.Role}
    {name : String} {operand : OperandId}
    (h : d.addOperand instr kind role name = .ok (d', operand)) : Change d none d' := by
  obtain ⟨hinstr, hbase, -, rfl⟩ := addOperand_eq_ok.mp h
  exact .operand instr kind role name hinstr (checkBase_eq_ok.mp hbase)

/-! ## Series of changes -/

/-- A series of changes with the links it makes, the latest one last. -/
inductive Changes (d : Draft) : List (OperandId × OperandId) → Draft → Prop where
  | nil : Changes d [] d
  | snoc {made : List (OperandId × OperandId)} {link : Option (OperandId × OperandId)}
      {d' d'' : Draft} (before : Changes d made d') (last : Change d' link d'') :
      Changes d (made ++ link.toList) d''

theorem Changes.single {link : Option (OperandId × OperandId)} (h : Change d link d') :
    Changes d link.toList d' :=
  .snoc .nil h

theorem Changes.trans {made more : List (OperandId × OperandId)} (h₁ : Changes d made d')
    (h₂ : Changes d' more d'') : Changes d (made ++ more) d'' := by
  induction h₂ with
  | nil =>
      rw [List.append_nil]
      exact h₁
  | snoc before last ih =>
      rw [← List.append_assoc]
      exact .snoc ih last

/-- A step that is not refused makes at most two changes. -/
theorem changes_of_step {s : Step} {index : Option Nat} (h : d.step s = .ok (d', index)) :
    Changes d (d.linked? s).toList d' := by
  cases s with
  | block number =>
      have hd : (d.addBlock number).1 = d' := congrArg Prod.fst (Except.ok.inj h)
      rw [← hd, addBlock]
      cases hfound : d.blockByNumber? number with
      | some block => exact .nil
      | none => exact .single (.block number hfound)
  | label block text =>
      obtain ⟨d₁, hstep, rfl⟩ := eq_ok_of_return h
      obtain ⟨-, rfl⟩ := setLabel_eq_ok.mp hstep
      exact .single (.label block text)
  | edge source target =>
      obtain ⟨d₁, hstep, rfl⟩ := eq_ok_of_return h
      obtain ⟨-, -, heq⟩ := addEdge_eq_ok.mp hstep
      show Changes d [] d₁
      rw [heq]
      split
      · exact .nil
      · exact .single (.edge source target)
  | entry block =>
      have hd : d.setEntry block = d' := congrArg Prod.fst (Except.ok.inj h)
      exact hd ▸ .single (.entry block)
  | exit block =>
      have hd : d.setExit block = d' := congrArg Prod.fst (Except.ok.inj h)
      exact hd ▸ .single (.exit block)
  | instr block opcode isCall =>
      obtain ⟨⟨d₁, i⟩, hstep, rfl⟩ := eq_ok_of_return h
      exact .single (change_of_addInstr hstep)
  | call block target =>
      -- an instruction and then its operand
      obtain ⟨⟨d₁, i⟩, hstep, rfl⟩ := eq_ok_of_return h
      rw [addCall] at hstep
      obtain ⟨⟨d₂, i₂⟩, hinstr, hstep⟩ := andThen_eq_ok.mp hstep
      obtain ⟨⟨d₃, o⟩, hoperand, hstep⟩ := andThen_eq_ok.mp hstep
      obtain rfl : d₃ = d₁ := congrArg Prod.fst (Except.ok.inj hstep)
      exact .snoc (.single (change_of_addInstr hinstr)) (change_of_addOperand hoperand)
  | operand instr kind role name =>
      obtain ⟨⟨d₁, o⟩, hstep, rfl⟩ := eq_ok_of_return h
      exact .single (change_of_addOperand hstep)
  | type operand text =>
      obtain ⟨d₁, hstep, rfl⟩ := eq_ok_of_return h
      obtain ⟨-, rfl⟩ := setType_eq_ok.mp hstep
      exact .single (.type operand text)
  | define operand version =>
      obtain ⟨d₁, hstep, rfl⟩ := eq_ok_of_return h
      obtain ⟨hlt, rfl⟩ := define_eq_ok.mp hstep
      exact .single (.define operand version hlt)
  | use use definition =>
      obtain ⟨d₁, hstep, rfl⟩ := eq_ok_of_return h
      rw [linked?, hstep]
      obtain ⟨huse, -, found, hfound, rfl⟩ := linkUse_eq_ok.mp hstep
      exact .single (.link use definition found huse hfound)

/-- A run makes a series of changes, and the links of its steps. -/
theorem changes_run (d : Draft) (steps : List Step) : Changes d (d.links steps) (d.run steps) := by
  induction steps generalizing d with
  | nil => exact .nil
  | cons s rest ih =>
      refine Changes.trans ?_ (ih (d.attempt s))
      rw [attempt]
      cases hstep : d.step s with
      | error e =>
          rw [linked?_of_refused hstep]
          exact .nil
      | ok outcome => exact changes_of_step hstep

end ControlFlow.Draft
