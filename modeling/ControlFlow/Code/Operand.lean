import ControlFlow.Ident

/-!
# Operands

    An operand is one mention of a value by an instruction: what it stands for
    (`kind`), what the instruction does with it (`role`), the name it is known
    by, and its type where one is known.
-/

namespace ControlFlow

/-- What an operand stands for. -/
inductive Operand.Kind where
  | var
  | temporary
  | address
  | immediate
  /-- The value that the operand `base` points to. -/
  | indirection (base : OperandId)
  | label
  | other
  deriving DecidableEq, Repr

namespace Operand.Kind

/-- Addresses and labels name a place in the program. -/
def isSymbolic : Operand.Kind → Bool
  | address | label => true
  | _ => false

/-- Immediates and labels stand for themselves, not for a variable. -/
def isLiteral : Operand.Kind → Bool
  | immediate | label => true
  | _ => false

/-- The operand an indirection goes through. -/
def base? : Operand.Kind → Option OperandId
  | indirection base => some base
  | _ => none

end Operand.Kind

/-- What an instruction does with an operand. -/
inductive Operand.Role where
  | source
  | destination
  | parameter
  deriving DecidableEq, Repr

/-- Sources and parameters are read. -/
def Operand.Role.isRead : Operand.Role → Bool
  | source | parameter => true
  | destination => false

/-- One mention of a value by an instruction. -/
structure Operand where
  id : OperandId
  kind : Operand.Kind
  role : Operand.Role
  name : String
  type : Option String
  instr : InstrId
  deriving DecidableEq, Repr

namespace Operand

/-- Whether the instruction writes the operand. -/
def isDestination (o : Operand) : Bool :=
  o.role == .destination

/-- Whether the instruction reads the operand. -/
def isSource (o : Operand) : Bool :=
  o.role.isRead

/-- The operand with a type in place of the one it has. -/
def setType (o : Operand) (type : String) : Operand :=
  { o with type := some type }

/-- Two operands mention the same value when their names agree and their types
    do not conflict. -/
def sameValueAs (o p : Operand) : Bool :=
  o.name == p.name &&
    match o.type, p.type with
    | some t, some u => t == u
    | _, _ => true

/-- The operand as text: an address with an ampersand, an indirection with a
    star, and the type where one is known. -/
def text (o : Operand) : String :=
  let mark :=
    match o.kind with
    | .address => "&"
    | .indirection _ => "*"
    | _ => ""
  let suffix :=
    match o.type with
    | some t => ": " ++ t
    | none => ""
  mark ++ o.name ++ suffix

end Operand

end ControlFlow
