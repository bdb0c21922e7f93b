import ControlFlow.Code.Procedure

/-!
# References to a value

    Where a procedure mentions a value: by name, among operands that stand for
    something comparable, and through the links from a definition to its users.
-/

namespace ControlFlow

/-- How an operand refers to a value. -/
inductive Reference.Kind where
  | load
  | store
  | address
  | ssa
  deriving DecidableEq, Repr

namespace Reference.Kind

/-- Whether the value changes there. -/
def isWrite : Reference.Kind → Bool
  | store => true
  | _ => false

/-- Whether the value is read there. -/
def isRead : Reference.Kind → Bool
  | load | ssa => true
  | _ => false

/-- How an operand refers to the value of its name: through an indirection it
    is read whatever the role, by its address it is only named. -/
def ofOperand (o : Operand) : Reference.Kind :=
  match o.kind with
  | .indirection _ => load
  | .address => address
  | _ => if o.isDestination then store else load

end Reference.Kind

/-- One place where a value is referred to. -/
structure Reference where
  operand : OperandId
  instr : InstrId
  block : NodeId
  kind : Reference.Kind
  deriving DecidableEq, Repr

namespace Procedure

/-- The reference an operand makes, placed in its instruction and block. -/
def reference? (f : Procedure) (kind : Reference.Kind) (operand : OperandId) : Option Reference :=
  (f.instrOf? operand).map fun i =>
    { operand := operand, instr := i.id, block := i.block, kind := kind }

/-- The operands that write the value of a name directly. -/
def writersOf (f : Procedure) (name : String) : List OperandId :=
  (f.operands.toList.filter fun o =>
    o.name == name && o.isDestination && o.kind.base?.isNone).map (·.id)

/-- The operand that defines the value an operand names, if exactly one writes it. -/
def definitionByName? (f : Procedure) (operand : OperandId) : Option OperandId :=
  (f.operand? operand).bind fun o =>
    match f.writersOf o.name with
    | [writer] => some writer
    | _ => none

/-- Whether two operands with one name can refer to one value: both stand for
    themselves or neither does. -/
def comparable (o p : Operand) : Bool :=
  o.name == p.name && o.kind.isLiteral == p.kind.isLiteral

/-- The references by name to the value of an operand, among the operands to keep. -/
def referencesByName (f : Procedure) (o : Operand) (keep : Operand → Bool) : List Reference :=
  (f.operands.toList.filter fun p => comparable o p && keep p).filterMap fun p =>
    f.reference? (Reference.Kind.ofOperand p) p.id

/-- Adds the reference of a user behind those listed so far, unless the user is
    among them. -/
def addUse (f : Procedure) (listed : List Reference) (user : OperandId) : List Reference :=
  if listed.any (·.operand == user) then listed
  else listed ++ (f.reference? .ssa user).toList

/-- The references to the value of an operand: those by name, and on request
    the users of its definition, each unless it is listed already. -/
def references (f : Procedure) (operand : OperandId) (withUses : Bool) (keep : Operand → Bool) :
    List Reference :=
  match f.operand? operand with
  | none => []
  | some o =>
      let byName := f.referencesByName o keep
      if withUses then (f.uses operand).foldl f.addUse byName else byName

/-- The definition of an operand's value followed by its users; where no
    definition is known, the references by name. -/
def definitionAndUses (f : Procedure) (operand : OperandId) : List Reference :=
  match f.definitionOf? operand with
  | some definition =>
      (f.reference? .store definition).toList
        ++ (f.ssa.users definition).filterMap (f.reference? .ssa)
  | none => f.references operand false fun _ => true

end Procedure

end ControlFlow
