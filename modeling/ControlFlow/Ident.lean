/-!
# Identifiers and their text

    Blocks, graph nodes, edges, instructions and operands are known by their
    index in the table that holds them.  Messages and drawings write an index
    with the tag of its sort (`n3`, `e3`, `i3`, `op3`), so that two indices of
    different sorts never read alike.
-/

namespace ControlFlow

/-- The index of a block in its procedure, or of a node in its graph. -/
abbrev NodeId := Nat

/-- The index of an instruction in its procedure. -/
abbrev InstrId := Nat

/-- The index of an operand in its procedure. -/
abbrev OperandId := Nat

/-- The index of an edge in its multigraph. -/
abbrev EdgeId := Nat

/-- What sort of thing an index counts. -/
inductive IdSort where
  | node
  | edge
  | instr
  | operand
  deriving DecidableEq, Repr

namespace IdSort

/-- The tag written in front of an index. -/
def tag : IdSort → String
  | node => "n"
  | edge => "e"
  | instr => "i"
  | operand => "op"

/-- The name of the sort, used in the long form. -/
def typeName : IdSort → String
  | node => "NodeId"
  | edge => "EdgeId"
  | instr => "InstrId"
  | operand => "OperandId"

/-- The short form of an index: its tag and the number. -/
def short (sort : IdSort) (index : Nat) : String :=
  sort.tag ++ toString index

/-- The long form of an index: the sort's name around the number. -/
def long (sort : IdSort) (index : Nat) : String :=
  sort.typeName ++ "(" ++ toString index ++ ")"

end IdSort

end ControlFlow
