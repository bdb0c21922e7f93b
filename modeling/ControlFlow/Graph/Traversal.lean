import ControlFlow.Graph.Basic
import ControlFlow.Remaining

/-!
# Depth-first traversals

    Both traversals keep their own stack.  `search` marks a node when it is put
    on the stack and lists it when it is taken off.  `postorder` marks a node
    when it is entered and lists it when it is left, after everything entered
    below it.  Successors are stacked from the last to the first, so the first
    one is taken next.

    Both end because a graph has finitely many unmarked nodes: every stacked or
    entered node uses one of them up, and in between the stack shrinks.
-/

namespace ControlFlow.Graph

/-! ## Nodes not yet marked -/

/-- The total weight of those of the first `size` nodes that are not marked. -/
def unmarked (weight : NodeId → Nat) (size : Nat) (marked : List NodeId) : Nat :=
  remaining weight (fun v => !marked.contains v) (List.range size)

/-- A node may be taken up when it belongs to the graph and is not marked. -/
def fresh (size : Nat) (marked : List NodeId) (v : NodeId) : Bool :=
  decide (v < size) && !marked.contains v

theorem fresh_iff {size : Nat} {marked : List NodeId} {v : NodeId} :
    fresh size marked v = true ↔ v < size ∧ v ∉ marked := by
  simp [fresh]

/-- Marking a fresh node takes its weight away. -/
theorem unmarked_cons (weight : NodeId → Nat) {size : Nat} {marked : List NodeId} {v : NodeId}
    (h : fresh size marked v = true) :
    unmarked weight size (v :: marked) + weight v ≤ unmarked weight size marked := by
  obtain ⟨hlt, hnot⟩ := fresh_iff.1 h
  refine remaining_add_le weight (List.mem_range.2 hlt) ?_ ?_ ?_
  · simp [hnot]
  · simp
  · intro u hu
    simp_all

/-! ## Discovery order -/

/-- The stack of a search and the nodes it has marked. -/
structure Pending where
  stack : List NodeId
  marked : List NodeId

/-- Marks and stacks a fresh node. -/
def Pending.push (size : Nat) (v : NodeId) (s : Pending) : Pending :=
  if fresh size s.marked v then ⟨v :: s.stack, v :: s.marked⟩ else s

/-- The unmarked nodes twice and the stacked ones once: what a search still has
    to do. -/
def Pending.work (size : Nat) (s : Pending) : Nat :=
  unmarked (fun _ => 2) size s.marked + s.stack.length

theorem Pending.work_push_le (size : Nat) (v : NodeId) (s : Pending) :
    (s.push size v).work size ≤ s.work size := by
  unfold Pending.push Pending.work
  split
  · rename_i h
    have := unmarked_cons (fun _ => 2) h
    simp only [List.length_cons]
    omega
  · exact Nat.le_refl _

/-- Marks and stacks the fresh nodes of a list, the first one on top. -/
def Pending.pushAll (size : Nat) (vs : List NodeId) (s : Pending) : Pending :=
  vs.foldr (Pending.push size) s

theorem Pending.work_pushAll_le (size : Nat) (vs : List NodeId) (s : Pending) :
    (s.pushAll size vs).work size ≤ s.work size := by
  induction vs with
  | nil => exact Nat.le_refl _
  | cons v vs ih => exact Nat.le_trans (Pending.work_push_le size v _) ih

/-- Takes nodes off the stack until it is empty, stacking the fresh successors
    of each. -/
def drain (g : Graph) : Pending → List NodeId
  | ⟨[], _⟩ => []
  | ⟨v :: rest, marked⟩ =>
      v :: g.drain (Pending.pushAll g.size (g.successors v) ⟨rest, marked⟩)
termination_by s => s.work g.size
decreasing_by
  refine Nat.lt_of_le_of_lt (Pending.work_pushAll_le _ _ _) ?_
  simp [Pending.work]

/-- The nodes found from `start`, in the order they are taken off the stack;
    none when `start` is outside the graph. -/
def search (g : Graph) (start : NodeId) : List NodeId :=
  if start < g.size then g.drain ⟨[start], [start]⟩ else []

/-! ## Postorder -/

/-- What a postorder walk still has to do with a node. -/
inductive Visit where
  | enter (v : NodeId)
  | leave (v : NodeId)
  deriving DecidableEq, Repr

/-- What a node adds to the stack at most, and one more. -/
def weight (g : Graph) (v : NodeId) : Nat :=
  (g.successors v).length + 2

/-- The successors of a node that may still be taken up. -/
def freshSuccessors (g : Graph) (marked : List NodeId) (v : NodeId) : List NodeId :=
  (g.successors v).filter (fresh g.size marked)

/-- Works off a stack of visits: entering a fresh node marks it and stacks its
    leaving below the visits of its fresh successors. -/
def unwind (g : Graph) : (stack : List Visit) → (marked : List NodeId) → List NodeId
  | [], _ => []
  | .leave v :: rest, marked => v :: g.unwind rest marked
  | .enter v :: rest, marked =>
      if _h : fresh g.size marked v then
        g.unwind ((g.freshSuccessors (v :: marked) v).map .enter ++ .leave v :: rest) (v :: marked)
      else
        g.unwind rest marked
termination_by stack marked => unmarked g.weight g.size marked + stack.length
decreasing_by
  · simp
  · have hmark := unmarked_cons g.weight _h
    have hnext := List.length_filter_le (fresh g.size (v :: marked)) (g.successors v)
    simp only [List.length_append, List.length_map, List.length_cons, freshSuccessors]
    simp only [weight] at hmark
    omega
  · simp

/-- The nodes found from `start`, each after everything found below it; none
    when `start` is outside the graph. -/
def postorder (g : Graph) (start : NodeId) : List NodeId :=
  if start < g.size then g.unwind [.enter start] [] else []

end ControlFlow.Graph
