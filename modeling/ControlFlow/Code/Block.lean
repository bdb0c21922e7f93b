import ControlFlow.Code.Operand

/-!
# Blocks and instructions

    A block is a straight run of instructions with the blocks control may come
    from and go to.  It has an index in its procedure, a number by which other
    versions of the procedure know it, and perhaps a label.
-/

namespace ControlFlow

/-- One instruction, with its operands by role in the order they were added. -/
structure Instruction where
  id : InstrId
  block : NodeId
  /-- The place of the instruction in its block. -/
  index : Nat
  opcode : String
  isCall : Bool
  sources : List OperandId
  destinations : List OperandId
  deriving DecidableEq, Repr

namespace Instruction

/-- All operands, what is read before what is written. -/
def operands (i : Instruction) : List OperandId :=
  i.sources ++ i.destinations

/-- The instruction with one more operand behind the others of its role. -/
def addOperand (i : Instruction) (role : Operand.Role) (operand : OperandId) : Instruction :=
  match role with
  | .destination => { i with destinations := i.destinations ++ [operand] }
  | .source | .parameter => { i with sources := i.sources ++ [operand] }

/-- The operand that says what a call calls: its first source. -/
def callTarget? (i : Instruction) : Option OperandId :=
  if i.isCall then i.sources.head? else none

end Instruction

/-- One block of a procedure. -/
structure Block where
  id : NodeId
  number : Nat
  label : Option String
  predecessors : List NodeId
  successors : List NodeId
  instrs : List InstrId
  deriving DecidableEq, Repr

namespace Block

/-- A block without label, edges and instructions. -/
def fresh (id : NodeId) (number : Nat) : Block where
  id := id
  number := number
  label := none
  predecessors := []
  successors := []
  instrs := []

/-- The block with a label in place of the one it has. -/
def setLabel (b : Block) (label : String) : Block :=
  { b with label := some label }

/-- The block with one more block to go to. -/
def addSuccessor (b : Block) (target : NodeId) : Block :=
  { b with successors := b.successors ++ [target] }

/-- The block with one more block to come from. -/
def addPredecessor (b : Block) (source : NodeId) : Block :=
  { b with predecessors := b.predecessors ++ [source] }

/-- The block with one more instruction at its end. -/
def addInstr (b : Block) (instr : InstrId) : Block :=
  { b with instrs := b.instrs ++ [instr] }

/-- Blocks of two versions of a procedure correspond when they have the same
    number or the same label. -/
def correspondsTo (b c : Block) : Bool :=
  b.number == c.number || (b.label.isSome && b.label == c.label)

end Block

end ControlFlow
