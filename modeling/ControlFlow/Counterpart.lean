import ControlFlow.Code.Procedure
import ControlFlow.Event

/-!
# Counterparts in another version

    Two versions of a procedure mention the same values in different places.
    The counterpart of an operand of one version is looked for in the other:
    first by the version of its definition, then by name, type and role, and
    among several by the block that corresponds and the nearest place in it.
-/

namespace ControlFlow

/-- The first of the elements with the smallest measure. -/
def firstLeast {α : Type} (measure : α → Nat) : List α → Option α
  | [] => none
  | a :: rest =>
      some (rest.foldl (fun best b => if measure b < measure best then b else best) a)

/-- How far two numbers are apart. -/
def gap (a b : Nat) : Nat := (a - b) + (b - a)

namespace Procedure

/-- The first definition of a version, in operand order. -/
def definitionOfVersion? (f : Procedure) (version : Nat) : Option OperandId :=
  (f.ssa.toList.find? fun (_, d) => d.version == version).map (·.1)

/-- The place of the instruction that mentions an operand, in its block. -/
def placeOf (f : Procedure) (operand : OperandId) : Nat :=
  ((f.instrOf? operand).map (·.index)).getD 0

/-- Whether an operand of `f` lies in a block that corresponds to the one of an
    operand of `g`. -/
def sharesBlock (f g : Procedure) (origin candidate : OperandId) : Bool :=
  match g.blockOf? origin, f.blockOf? candidate with
  | some b, some c => b.correspondsTo c
  | _, _ => false

/-- The best match for an operand of `g` among candidates of `f`: of the same
    role, in a corresponding block as near as possible, otherwise the first. -/
def bestMatch (f g : Procedure) (origin : Operand) (candidates : List OperandId) :
    Option OperandId :=
  let peers := candidates.filter fun c => (f.operand? c).any (·.role == origin.role)
  let near := peers.filter (f.sharesBlock g origin.id)
  (firstLeast (fun c => gap (g.placeOf origin.id) (f.placeOf c)) near).or peers.head?

/-- The counterpart by version: the definition itself for a definition, the
    best match among its users for a use. -/
def counterpartByVersion? (f g : Procedure) (origin : Operand) (version : Nat) :
    Option OperandId :=
  (f.definitionOfVersion? version).bind fun definition =>
    if (f.operand? definition).any (·.name == origin.name) then
      if (g.ssa.definition? origin.id).isSome then some definition
      else some ((f.bestMatch g origin (f.ssa.users definition)).getD definition)
    else none

/-- The counterpart by name: the best match among the operands that mention
    the same value. -/
def counterpartByName? (f g : Procedure) (origin : Operand) : Option OperandId :=
  f.bestMatch g origin ((f.operands.toList.filter (·.sameValueAs origin)).map (·.id))

/-- The operand of `f` that mentions the value of an operand of `g`.  Where a
    version is known and `onlyVersion` is set, names do not count. -/
def counterpart? (f g : Procedure) (operand : OperandId) (onlyVersion : Bool) :
    Option OperandId :=
  (g.operand? operand).bind fun origin =>
    match g.version? operand with
    | none => f.counterpartByName? g origin
    | some version =>
        match f.counterpartByVersion? g origin version with
        | some found => some found
        | none => if onlyVersion then none else f.counterpartByName? g origin

/-- What looking for a counterpart reports: a known version that has no match,
    where names do not count. -/
def counterpartEvents (f g : Procedure) (operand : OperandId) (onlyVersion : Bool) : List Event :=
  match g.operand? operand, g.version? operand with
  | some origin, some version =>
      if onlyVersion && (f.counterpartByVersion? g origin version).isNone then
        [.noVersionMatch origin.text version f.name]
      else []
  | _, _ => []

/-! ## Instructions -/

/-- The versions a procedure defines, each with the instruction of its
    definition, in operand order. -/
def definingInstrs (f : Procedure) : List (Nat × InstrId) :=
  f.ssa.toList.filterMap fun (operand, d) => (f.instrOf? operand).map fun i => (d.version, i.id)

/-- The instruction of `f` that defines the version which the first destination
    of an instruction of `g` belongs to. -/
def similarInstr? (f g : Procedure) (instr : InstrId) : Option InstrId :=
  (((g.instr? instr).bind (·.destinations.head?)).bind g.version?).bind fun version =>
    (f.definingInstrs.find? fun (v, _) => v == version).map (·.2)

/-- How many different versions a procedure defines. -/
def versionCount (f : Procedure) : Nat :=
  (f.definingInstrs.map (·.1)).eraseDups.length

end Procedure

end ControlFlow
