import ControlFlow.Code.Procedure
import ControlFlow.Error
import ControlFlow.Event

/-!
# Procedures under construction

    A draft grows by steps.  A step that names a block, an instruction or an
    operand is refused unless it exists, and a refused step changes nothing.
    The entry and the exit may be named before their blocks exist, so they are
    checked once, when the draft is finished.
-/

namespace ControlFlow

/-- A procedure whose entry and exit are not checked yet. -/
abbrev Draft := Procedure

namespace Draft

/-- A draft without blocks. -/
def start (name : String) : Draft :=
  { name := name }

/-! ## Checks -/

/-- Passes when the block exists. -/
def checkBlock (d : Draft) (block : NodeId) : Except Error Unit :=
  if block < d.blocks.size then .ok ()
  else .error (.missingBlock block d.name d.blocks.size)

/-- Passes when the instruction exists. -/
def checkInstr (d : Draft) (instr : InstrId) : Except Error Unit :=
  if instr < d.instrs.size then .ok () else .error (.missingInstr instr d.name)

/-- Passes when the operand exists. -/
def checkOperand (d : Draft) (operand : OperandId) : Except Error Unit :=
  if operand < d.operands.size then .ok () else .error (.missingOperand operand d.name)

/-- Passes when the kind is no indirection, or one through an operand that exists. -/
def checkBase (d : Draft) (kind : Operand.Kind) : Except Error Unit :=
  match kind.base? with
  | some base => d.checkOperand base
  | none => .ok ()

/-! ## Blocks and edges -/

/-- Adds a block with the given number, or finds the one that has it. -/
def addBlock (d : Draft) (number : Nat) : Draft × NodeId :=
  match d.blockByNumber? number with
  | some block => (d, block)
  | none =>
      ({ d with
          blocks := d.blocks.push (Block.fresh d.blocks.size number)
          numbers := d.numbers.insert number d.blocks.size },
        d.blocks.size)

/-- Gives a block a label. -/
def setLabel (d : Draft) (block : NodeId) (label : String) : Except Error Draft := do
  d.checkBlock block
  return { d with blocks := d.blocks.modify block (·.setLabel label) }

/-- Adds an edge, recorded at both ends; an edge that is there stays as it is. -/
def addEdge (d : Draft) (source target : NodeId) : Except Error Draft := do
  d.checkBlock source
  d.checkBlock target
  if target ∈ d.successors source then
    return d
  else
    return { d with
      blocks := (d.blocks.modify source (·.addSuccessor target)).modify target
        (·.addPredecessor source) }

/-- Names the block where control enters. -/
def setEntry (d : Draft) (block : NodeId) : Draft :=
  { d with entry := some block }

/-- Names the block where control leaves. -/
def setExit (d : Draft) (block : NodeId) : Draft :=
  { d with exit := some block }

/-! ## Instructions and operands -/

/-- Adds an instruction at the end of a block. -/
def addInstr (d : Draft) (block : NodeId) (opcode : String) (isCall : Bool) :
    Except Error (Draft × InstrId) := do
  d.checkBlock block
  let id := d.instrs.size
  let index := ((d.block? block).map (·.instrs.length)).getD 0
  return ({ d with
        instrs := d.instrs.push
          { id := id, block := block, index := index, opcode := opcode, isCall := isCall,
            sources := [], destinations := [] }
        blocks := d.blocks.modify block (·.addInstr id) },
      id)

/-- Adds an operand to an instruction, behind the others of its role. -/
def addOperand (d : Draft) (instr : InstrId) (kind : Operand.Kind) (role : Operand.Role)
    (name : String) : Except Error (Draft × OperandId) := do
  d.checkInstr instr
  d.checkBase kind
  let id := d.operands.size
  return ({ d with
        operands := d.operands.push
          { id := id, kind := kind, role := role, name := name, type := none, instr := instr }
        instrs := d.instrs.modify instr (·.addOperand role id) },
      id)

/-- Adds a call of a named target: a call instruction with the target's address
    as its source. -/
def addCall (d : Draft) (block : NodeId) (target : String) : Except Error (Draft × InstrId) := do
  let (d, instr) ← d.addInstr block "call" true
  let (d, _) ← d.addOperand instr .address .source target
  return (d, instr)

/-- Gives an operand a type. -/
def setType (d : Draft) (operand : OperandId) (type : String) : Except Error Draft := do
  d.checkOperand operand
  return { d with operands := d.operands.modify operand (·.setType type) }

/-! ## Definitions and uses -/

/-- Registers an operand as the definition of a version. -/
def define (d : Draft) (operand : OperandId) (version : Nat) : Except Error Draft := do
  d.checkOperand operand
  return { d with ssa := d.ssa.define operand version }

/-- Links a use to a registered definition. -/
def linkUse (d : Draft) (use definition : OperandId) : Except Error Draft := do
  d.checkOperand use
  d.checkOperand definition
  match d.ssa.definition? definition with
  | none => .error (.notADefinition definition)
  | some found => return { d with ssa := d.ssa.link use definition found }

/-! ## Steps as data -/

/-- One construction step. -/
inductive Step where
  | block (number : Nat)
  | label (block : NodeId) (text : String)
  | edge (source target : NodeId)
  | entry (block : NodeId)
  | exit (block : NodeId)
  | instr (block : NodeId) (opcode : String) (isCall : Bool)
  | call (block : NodeId) (target : String)
  | operand (instr : InstrId) (kind : Operand.Kind) (role : Operand.Role) (name : String)
  | type (operand : OperandId) (text : String)
  | define (operand : OperandId) (version : Nat)
  | use (use definition : OperandId)
  deriving DecidableEq, Repr

/-- Takes one step: the new draft, and the index of what the step added or
    found, if it does that. -/
def step (d : Draft) : Step → Except Error (Draft × Option Nat)
  | .block number => let (d, block) := d.addBlock number; .ok (d, some block)
  | .label block text => do return (← d.setLabel block text, none)
  | .edge source target => do return (← d.addEdge source target, none)
  | .entry block => .ok (d.setEntry block, none)
  | .exit block => .ok (d.setExit block, none)
  | .instr block opcode isCall => do
      let (d, instr) ← d.addInstr block opcode isCall
      return (d, some instr)
  | .call block target => do
      let (d, instr) ← d.addCall block target
      return (d, some instr)
  | .operand instr kind role name => do
      let (d, operand) ← d.addOperand instr kind role name
      return (d, some operand)
  | .type operand text => do return (← d.setType operand text, none)
  | .define operand version => do return (← d.define operand version, none)
  | .use use definition => do return (← d.linkUse use definition, none)

/-- Takes a step if it is not refused. -/
def attempt (d : Draft) (s : Step) : Draft :=
  match d.step s with
  | .ok (d, _) => d
  | .error _ => d

/-- Takes steps in turn, passing over the refused ones. -/
def run (d : Draft) (steps : List Step) : Draft :=
  steps.foldl attempt d

/-! ## Finishing -/

/-- The finished procedure, refused when its entry or its exit does not exist. -/
def finish (d : Draft) : Except Error Procedure :=
  match d.entry.filter (d.blocks.size ≤ ·), d.exit.filter (d.blocks.size ≤ ·) with
  | some entry, _ => .error (.missingEntry entry d.name d.blocks.size)
  | none, some exit => .error (.missingExit exit d.name d.blocks.size)
  | none, none => .ok d

end Draft

/-- What is reported of a finished procedure. -/
def Procedure.builtEvent (f : Procedure) : Event :=
  .built f.name f.blocks.size f.instrs.size f.operands.size

end ControlFlow
