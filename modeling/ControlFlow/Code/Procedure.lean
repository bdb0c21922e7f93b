import ControlFlow.Code.Block
import ControlFlow.Code.Ssa
import ControlFlow.Graph.Traversal

/-!
# Procedures

    A procedure is the code every analysis looks at: blocks, instructions and
    operands in tables, the block where control enters and the one where it
    leaves, and the definitions and uses of its values.
-/

namespace ControlFlow

/-- The code of one function. -/
structure Procedure where
  name : String
  blocks : Array Block := #[]
  /-- The index of the block with a number. -/
  numbers : Std.TreeMap Nat NodeId := {}
  entry : Option NodeId := none
  exit : Option NodeId := none
  instrs : Array Instruction := #[]
  operands : Array Operand := #[]
  ssa : Ssa := {}

namespace Procedure

/-! ## Tables -/

/-- The block with the given index. -/
def block? (f : Procedure) (block : NodeId) : Option Block :=
  f.blocks[block]?

/-- The instruction with the given index. -/
def instr? (f : Procedure) (instr : InstrId) : Option Instruction :=
  f.instrs[instr]?

/-- The operand with the given index. -/
def operand? (f : Procedure) (operand : OperandId) : Option Operand :=
  f.operands[operand]?

/-- The index of the block with the given number. -/
def blockByNumber? (f : Procedure) (number : Nat) : Option NodeId :=
  f.numbers[number]?

/-- The instruction that mentions an operand. -/
def instrOf? (f : Procedure) (operand : OperandId) : Option Instruction :=
  (f.operand? operand).bind fun o => f.instr? o.instr

/-- The block of the instruction that mentions an operand. -/
def blockOf? (f : Procedure) (operand : OperandId) : Option Block :=
  (f.instrOf? operand).bind fun i => f.block? i.block

/-- The call instructions in the order of their indices. -/
def calls (f : Procedure) : List Instruction :=
  f.instrs.toList.filter (·.isCall)

/-! ## Control flow -/

/-- The blocks control may go to from a block. -/
def successors (f : Procedure) (block : NodeId) : List NodeId :=
  ((f.block? block).map (·.successors)).getD []

/-- The blocks control may come from into a block. -/
def predecessors (f : Procedure) (block : NodeId) : List NodeId :=
  ((f.block? block).map (·.predecessors)).getD []

/-- The blocks of a procedure as a graph. -/
def toGraph (f : Procedure) : Graph where
  size := f.blocks.size
  successors := f.successors
  predecessors := f.predecessors

/-- The blocks found from the entry, in the order the search lists them. -/
def reachableBlocks (f : Procedure) : List NodeId :=
  match f.entry with
  | some entry => f.toGraph.search entry
  | none => []

/-! ## Values -/

/-- Follows indirections from an operand to one that is none, in at most the
    given number of steps. -/
def baseWithin (f : Procedure) : (steps : Nat) → OperandId → Option OperandId
  | 0, _ => none
  | steps + 1, operand =>
      (f.operand? operand).bind fun o =>
        match o.kind.base? with
        | some base => f.baseWithin steps base
        | none => some operand

/-- The operand at the end of a chain of indirections.  As a base is older than
    the operand that goes through it, there are no more steps than operands. -/
def base? (f : Procedure) (operand : OperandId) : Option OperandId :=
  f.baseWithin (f.operands.size + 1) operand

/-- The definition that the value of an operand belongs to, looking through
    indirections. -/
def definitionOf? (f : Procedure) (operand : OperandId) : Option OperandId :=
  (f.base? operand).bind f.ssa.definitionOf?

/-- The version of that definition. -/
def version? (f : Procedure) (operand : OperandId) : Option Nat :=
  (f.definitionOf? operand).bind fun d => (f.ssa.definition? d).map (·.version)

/-- The users of that definition. -/
def uses (f : Procedure) (operand : OperandId) : List OperandId :=
  ((f.definitionOf? operand).map f.ssa.users).getD []

end Procedure

end ControlFlow
