import ControlFlow.Ident

/-!
# Refusals and faults

    A construction step that names something absent is refused with an
    `Error`: the cause as data, its wording in one place.  A `Fault` is an
    access outside the table it was meant for, or a number taken from a smaller
    one; no message is attached to it.
-/

namespace ControlFlow

/-- The four classes of error a caller can tell apart. -/
inductive ErrorClass where
  | graph
  | invalidCfg
  | threadPool
  | general
  deriving DecidableEq, Repr

/-- The text shown for an error of this class with the given detail. -/
def ErrorClass.render : ErrorClass → String → String
  | graph, detail => detail
  | invalidCfg, detail => "Invalid control flow graph - " ++ detail
  | threadPool, detail => "Failed to build analysis worker pool - " ++ detail
  | general, detail => detail

/-- Why a graph or a procedure under construction refused a step. -/
inductive Error where
  /-- The source of a new edge is not a node of the graph. -/
  | missingSource (node : NodeId) (size : Nat)
  /-- The target of a new edge is not a node of the graph. -/
  | missingTarget (node : NodeId) (size : Nat)
  /-- A step names a block that the procedure does not have. -/
  | missingBlock (block : NodeId) (procedure : String) (size : Nat)
  /-- A step names an instruction that the procedure does not have. -/
  | missingInstr (instr : InstrId) (procedure : String)
  /-- A step names an operand that the procedure does not have. -/
  | missingOperand (operand : OperandId) (procedure : String)
  /-- A use is linked to an operand that defines no value. -/
  | notADefinition (operand : OperandId)
  /-- The entry of a finished procedure is not one of its blocks. -/
  | missingEntry (block : NodeId) (procedure : String) (size : Nat)
  /-- The exit of a finished procedure is not one of its blocks. -/
  | missingExit (block : NodeId) (procedure : String) (size : Nat)
  deriving DecidableEq, Repr

namespace Error

/-- The class an error belongs to. -/
def errorClass : Error → ErrorClass
  | missingEntry .. => .invalidCfg
  | missingExit .. => .invalidCfg
  | _ => .graph

/-- The wording of the cause, without the words of its class. -/
def detail : Error → String
  | missingSource node size =>
      "source node " ++ IdSort.node.short node ++ " does not exist in graph with "
        ++ toString size ++ " nodes"
  | missingTarget node size =>
      "target node " ++ IdSort.node.short node ++ " does not exist in graph with "
        ++ toString size ++ " nodes"
  | missingBlock block procedure size =>
      "block " ++ IdSort.node.short block ++ " does not exist in function '"
        ++ procedure ++ "' with " ++ toString size ++ " blocks"
  | missingInstr instr procedure =>
      "instruction " ++ IdSort.instr.short instr ++ " does not exist in function '"
        ++ procedure ++ "'"
  | missingOperand operand procedure =>
      "operand " ++ IdSort.operand.short operand ++ " does not exist in function '"
        ++ procedure ++ "'"
  | notADefinition operand =>
      "operand " ++ IdSort.operand.short operand ++ " is not an SSA definition"
  | missingEntry block procedure size =>
      "entry block " ++ IdSort.node.short block ++ " of '" ++ procedure
        ++ "' does not exist (" ++ toString size ++ " blocks)"
  | missingExit block procedure size =>
      "exit block " ++ IdSort.node.short block ++ " of '" ++ procedure
        ++ "' does not exist (" ++ toString size ++ " blocks)"

/-- The text shown for an error. -/
def message (e : Error) : String :=
  e.errorClass.render e.detail

end Error

/-- A step that the data it is taken on cannot answer. -/
inductive Fault where
  /-- An index at or beyond the size of the table. -/
  | outOfBounds (index size : Nat)
  /-- Two sets of different capacities were to be merged. -/
  | capacityMismatch (left right : Nat)
  /-- More was to be taken away than there is. -/
  | underflow (total part : Nat)
  deriving DecidableEq, Repr

end ControlFlow
