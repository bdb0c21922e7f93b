/-!
# Immediate dominators by position

    While dominators are computed, blocks are known by their position in the
    postorder.  A slot holds the position of what is known so far as the
    immediate dominator of the block at that position; the slot of the start,
    which has the highest position, holds the start itself.  Immediate
    dominators have higher positions than the blocks they dominate, so going
    from slot to slot climbs towards the start.

    A sweep visits the positions from below the start down to the lowest and
    puts into each slot the nearest common dominator of the incoming positions
    that are known.
-/

namespace ControlFlow

/-- One slot per position; empty where nothing is known yet. -/
abbrev Slots := Array (Option Nat)

namespace Slots

/-- What is known at a position. -/
def slot? (s : Slots) (position : Nat) : Option Nat :=
  (s[position]?).join

/-- Whether anything is known at a position. -/
def isKnown (s : Slots) (position : Nat) : Bool :=
  (s.slot? position).isSome

/-- One step of a climb; from an unknown position it leads to the start. -/
def up (s : Slots) (start position : Nat) : Nat :=
  (s.slot? position).getD start

/-- Moves the lower of two climbers up until both are at one position, in at
    most the given number of steps. -/
def meetWithin (s : Slots) (start : Nat) : (steps a b : Nat) → Option Nat
  | 0, a, b => if a = b then some a else none
  | steps + 1, a, b =>
      if a = b then some a
      else if a < b then s.meetWithin start steps (s.up start a) b
      else s.meetWithin start steps a (s.up start b)

/-- The nearest common dominator of two known positions.  Each climber moves
    at most as often as there are slots. -/
def meet (s : Slots) (start a b : Nat) : Nat :=
  (s.meetWithin start (2 * s.size) a b).getD start

/-- The nearest common dominator of the known ones among the incoming positions. -/
def candidate (s : Slots) (start : Nat) (incoming : List Nat) : Option Nat :=
  incoming.foldl
    (fun found p =>
      if s.isKnown p then
        match found with
        | none => some p
        | some current => some (s.meet start p current)
      else found)
    none

/-- Puts the candidate of a position into its slot, if there is one. -/
def refine (incoming : Nat → List Nat) (start position : Nat) (s : Slots) : Slots :=
  match s.candidate start (incoming position) with
  | some p => s.setIfInBounds position (some p)
  | none => s

/-- Refines every position below the start, the highest first. -/
def sweep (incoming : Nat → List Nat) (start : Nat) (s : Slots) : Slots :=
  (List.range start).foldr (refine incoming start) s

/-- Only the start is known. -/
def initial (start : Nat) : Slots :=
  (Array.replicate start none).push (some start)

/-- The positions from a given one up to the start, in at most the given
    number of steps. -/
def climbWithin (s : Slots) (start : Nat) : (steps position : Nat) → List Nat
  | 0, _ => []
  | steps + 1, position =>
      position ::
        if position = start then []
        else
          match s.slot? position with
          | some next => s.climbWithin start steps next
          | none => []

/-- The positions from a given one up to the start. -/
def climb (s : Slots) (start position : Nat) : List Nat :=
  s.climbWithin start s.size position

/-- Whether a climb from one position meets another, given up as soon as it is
    past it. -/
def meetsWithin (s : Slots) (target : Nat) : (steps position : Nat) → Bool
  | 0, position => position == target
  | steps + 1, position =>
      if position < target then
        match s.slot? position with
        | some next => next != position && s.meetsWithin target steps next
        | none => false
      else position == target

/-- Whether the block at `target` dominates the one at `position`. -/
def dominates (s : Slots) (target position : Nat) : Bool :=
  s.meetsWithin target s.size position

end Slots

end ControlFlow
