/-!
# The two directions of an analysis

    Forwards an analysis starts at the entry and follows the edges; backwards
    it starts at the exit and goes against them.  Dominators are the forward
    relation, post-dominators the backward one.
-/

namespace ControlFlow

/-- Which way an analysis looks at the control flow. -/
inductive Direction where
  | forward
  | backward
  deriving DecidableEq, Repr

namespace Direction

/-- What the dominators of a direction are called. -/
def dominators : Direction → String
  | forward => "dominators"
  | backward => "post-dominators"

/-- What the dominance relation of a direction is called. -/
def dominance : Direction → String
  | forward => "dominance"
  | backward => "post-dominance"

/-- What the start block of a direction is called. -/
def startName : Direction → String
  | forward => "entry"
  | backward => "exit"

end Direction

end ControlFlow
