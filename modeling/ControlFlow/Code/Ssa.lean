import ControlFlow.Ident
import Std.Data.TreeMap

/-!
# Definitions and uses of values

    Static single assignment links mentions of a value: an operand may be
    registered as the definition of a version, and other operands may be linked
    to it as its users.  Both directions are kept, definition to users and use
    to definition.
-/

namespace ControlFlow

/-- A registered definition: the version it defines and the linked users, in
    the order they were linked. -/
structure Ssa.Definition where
  version : Nat
  users : List OperandId
  deriving DecidableEq, Repr

/-- The definitions by defining operand, and the definition each use is linked to. -/
structure Ssa where
  definitions : Std.TreeMap OperandId Ssa.Definition := {}
  uses : Std.TreeMap OperandId OperandId := {}

namespace Ssa

/-- No definitions and no uses. -/
def empty : Ssa := {}

/-- The definition registered for an operand. -/
def definition? (s : Ssa) (operand : OperandId) : Option Definition :=
  s.definitions[operand]?

/-- The definition a use is linked to. -/
def definingOperand? (s : Ssa) (use : OperandId) : Option OperandId :=
  s.uses[use]?

/-- The definition an operand belongs to: itself when it is one, otherwise the
    one it is linked to. -/
def definitionOf? (s : Ssa) (operand : OperandId) : Option OperandId :=
  if (s.definition? operand).isSome then some operand else s.definingOperand? operand

/-- The version of the definition an operand belongs to. -/
def version? (s : Ssa) (operand : OperandId) : Option Nat :=
  (s.definitionOf? operand).bind fun d => (s.definition? d).map (·.version)

/-- The users linked to a definition; none when it is not registered. -/
def users (s : Ssa) (operand : OperandId) : List OperandId :=
  ((s.definition? operand).map (·.users)).getD []

/-- The registered definitions in operand order. -/
def toList (s : Ssa) : List (OperandId × Definition) :=
  s.definitions.toList

/-- Whether nothing is registered and nothing linked. -/
def isEmpty (s : Ssa) : Bool :=
  s.definitions.isEmpty && s.uses.isEmpty

/-- Registers a definition; one that is there keeps its users and takes the new
    version. -/
def define (s : Ssa) (operand : OperandId) (version : Nat) : Ssa :=
  { s with definitions := s.definitions.insert operand ⟨version, s.users operand⟩ }

/-- Links a use to a registered definition: the use joins the users unless it
    is among them, and points to the definition from now on. -/
def link (s : Ssa) (use operand : OperandId) (d : Definition) : Ssa where
  definitions :=
    if use ∈ d.users then s.definitions
    else s.definitions.insert operand { d with users := d.users ++ [use] }
  uses := s.uses.insert use operand

/-- After a registration the operand defines the new version, with the users
    it had; all other definitions are as before. -/
@[simp]
theorem definition?_define (s : Ssa) (operand version p : Nat) :
    (s.define operand version).definition? p
      = if operand = p then some ⟨version, s.users operand⟩ else s.definition? p := by
  simp [define, definition?, Std.TreeMap.getElem?_insert]

/-- A registration leaves the uses alone. -/
@[simp]
theorem definingOperand?_define (s : Ssa) (operand version p : Nat) :
    (s.define operand version).definingOperand? p = s.definingOperand? p := rfl

/-- After a link the use points to its definition; all other uses are as before. -/
@[simp]
theorem definingOperand?_link (s : Ssa) (use operand p : Nat) (d : Definition) :
    (s.link use operand d).definingOperand? p
      = if use = p then some operand else s.definingOperand? p := by
  simp [link, definingOperand?, Std.TreeMap.getElem?_insert]

/-- After a link the use is among the users of its definition; all other
    definitions are as before. -/
theorem definition?_link (s : Ssa) (use operand p : Nat) (d : Definition)
    (h : s.definition? operand = some d) :
    (s.link use operand d).definition? p
      = if operand = p then
          some { d with users := if use ∈ d.users then d.users else d.users ++ [use] }
        else s.definition? p := by
  unfold link definition? at *
  by_cases hmem : use ∈ d.users
  · by_cases hp : operand = p
    · subst hp
      simp [hmem, h]
    · simp [hmem, hp]
  · simp [hmem, Std.TreeMap.getElem?_insert]

instance : BEq Ssa where
  beq s t :=
    s.definitions.toList == t.definitions.toList && s.uses.toList == t.uses.toList

end Ssa

end ControlFlow
