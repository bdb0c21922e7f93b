import ControlFlow.Direction
import ControlFlow.Ident

/-!
# What is reported along the way

    Analyses report what they did as events: the fact as data, its level and
    its wording in one place.
-/

namespace ControlFlow

/-- How much attention an event asks for. -/
inductive Event.Level where
  | trace
  | debug
  | warn
  deriving DecidableEq, Repr

/-- One reported fact. -/
inductive Event where
  /-- A procedure was finished. -/
  | built (name : String) (blocks instrs operands : Nat)
  /-- Dominators were asked of a procedure without a start block. -/
  | noStart (direction : Direction) (name : String)
  /-- The start block is not among the ordered blocks. -/
  | unorderedStart (direction : Direction) (name : String) (start : NodeId)
  /-- The dominators settled. -/
  | dominanceSettled (direction : Direction) (name : String) (sweeps reachable blocks : Nat)
  /-- The table of dominance pairs was built. -/
  | pairsBuilt (direction : Direction) (count : Nat)
  /-- A dominance frontier was computed. -/
  | frontierBuilt (direction : Direction) (name : String)
  /-- Reachability was asked of a procedure without an entry. -/
  | noEntry (name : String)
  /-- The reachability sets settled. -/
  | reachabilitySettled (name : String) (sweeps blocks : Nat)
  /-- A value has no counterpart by its version. -/
  | noVersionMatch (operand : String) (version : Nat) (name : String)
  /-- A listed function has no body. -/
  | bodyMissing (name segment : String)
  /-- A called function lies outside the section. -/
  | outside (name segment : String)
  /-- The target of a call is not known. -/
  | unresolvedCall (instr : InstrId) (name : String)
  /-- The call graph of a module was built. -/
  | callGraphBuilt (segment : String) (functions calls unresolved skipped : Nat)
  /-- A procedure was given a place in the store. -/
  | registered (name : String)
  /-- An analysis had to be computed. -/
  | cacheMiss (name : String)
  /-- The base analyses of a procedure were stored. -/
  | baseStored (name : String)
  /-- The stored analyses of a procedure were dropped. -/
  | invalidated (name : String)
  /-- A place in the store was given to another procedure. -/
  | rebound (name : String)
  /-- Storing was switched on or off. -/
  | switched (enabled : Bool)
  deriving DecidableEq, Repr

namespace Event

/-- The level of an event. -/
def level : Event → Level
  | noStart .. | unorderedStart .. | noEntry .. => .warn
  | dominanceSettled .. | reachabilitySettled .. | bodyMissing .. | callGraphBuilt ..
  | baseStored .. | invalidated .. | rebound .. | switched .. => .debug
  | _ => .trace

/-- The wording of an event. -/
def message : Event → String
  | built name blocks instrs operands =>
      "built function '" ++ name ++ "': " ++ toString blocks ++ " blocks, "
        ++ toString instrs ++ " instructions, " ++ toString operands ++ " operands"
  | noStart direction name =>
      "cannot compute " ++ direction.dominators ++ " of '" ++ name ++ "': no "
        ++ direction.startName ++ " block"
  | unorderedStart direction name start =>
      "cannot compute " ++ direction.dominators ++ " of '" ++ name ++ "': start block "
        ++ IdSort.node.short start ++ " missing from block ordering"
  | dominanceSettled direction name sweeps reachable blocks =>
      direction.dominators ++ " of '" ++ name ++ "' converged after " ++ toString sweeps
        ++ " iterations (" ++ toString reachable ++ " of " ++ toString blocks
        ++ " blocks reachable)"
  | pairsBuilt direction count =>
      "built " ++ direction.dominators ++ " query cache with " ++ toString count ++ " pairs"
  | frontierBuilt direction name =>
      "computed " ++ direction.dominance ++ " frontier of '" ++ name ++ "'"
  | noEntry name =>
      "cannot compute reachability of '" ++ name ++ "': no entry block"
  | reachabilitySettled name sweeps blocks =>
      "reachability of '" ++ name ++ "' converged after " ++ toString sweeps
        ++ " iterations (" ++ toString blocks ++ " blocks)"
  | noVersionMatch operand version name =>
      "no SSA match for " ++ operand ++ " (id " ++ toString version ++ ") in '" ++ name ++ "'"
  | bodyMissing name segment =>
      "skipping '" ++ name ++ "': no body in section '" ++ segment ++ "'"
  | outside name segment =>
      "'" ++ name ++ "' is external to section '" ++ segment ++ "'"
  | unresolvedCall instr name =>
      "unresolved call " ++ IdSort.instr.short instr ++ " in '" ++ name ++ "'"
  | callGraphBuilt segment functions calls unresolved skipped =>
      "call graph of section '" ++ segment ++ "': " ++ toString functions ++ " functions, "
        ++ toString calls ++ " call sites, " ++ toString unresolved ++ " unresolved, "
        ++ toString skipped ++ " skipped"
  | registered name => "registering analysis cache for '" ++ name ++ "'"
  | cacheMiss name => "cache miss for '" ++ name ++ "'"
  | baseStored name => "cached base analyses of '" ++ name ++ "'"
  | invalidated name => "invalidated analyses of '" ++ name ++ "'"
  | rebound name => "rebound analyses to new IR of '" ++ name ++ "'"
  | switched enabled => "analysis caching " ++ if enabled then "enabled" else "disabled"

end Event

end ControlFlow
