import ControlFlow.BitSet
import ControlFlow.BlockOrder
import ControlFlow.Event
import ControlFlow.Fixpoint

/-!
# Reachability between blocks

    For every block the set of blocks that can reach it is computed: a block is
    reached by what reaches its predecessors, and by itself once anything
    reaches it at all.  The entry reaches itself to begin with.  The sets are
    swept against the postorder until they settle, so blocks out of reach of
    the entry keep an empty set.
-/

namespace ControlFlow

/-- Which blocks reach which, by sets of sources. -/
structure Reachability where
  entry : Option NodeId
  /-- For every block, the blocks that reach it. -/
  sources : Array BitSet
  /-- For every block, the blocks control may go to from it. -/
  successors : Array (List NodeId)
  sweeps : Nat

namespace Reachability

/-! ## The sets -/

/-- What reaches a block, judging by what reaches its predecessors. -/
def gather (count : Nat) (entry block : NodeId) (predecessors : List NodeId)
    (sources : Array BitSet) : BitSet :=
  let seed := if block = entry then (BitSet.empty count).add entry else BitSet.empty count
  let union := predecessors.foldl
    (fun s p => s.merge (sources[p]?.getD (BitSet.empty count))) seed
  if union.isEmpty then union else union.add block

/-- Puts what reaches a block in place of what was known; a block without
    predecessors keeps its set. -/
def refine (f : Procedure) (entry block : NodeId) (sources : Array BitSet) : Array BitSet :=
  match f.predecessors block with
  | [] => sources
  | predecessors =>
      sources.setIfInBounds block (gather f.blocks.size entry block predecessors sources)

/-- Refines every block of an order, in postorder read backwards. -/
def sweep (f : Procedure) (entry : NodeId) (postorder : List NodeId) (sources : Array BitSet) :
    Array BitSet :=
  postorder.foldr (refine f entry) sources

/-- Nothing reaches anything. -/
def unreached (count : Nat) : Array BitSet :=
  Array.replicate count (BitSet.empty count)

/-- Only the entry reaches the entry. -/
def initial (count : Nat) (entry : NodeId) : Array BitSet :=
  (unreached count).modify entry (·.add entry)

/-- Computes which blocks of a procedure reach which.  Every sweep but the last
    adds a member to a set, and there are not more than pairs of blocks. -/
def of (f : Procedure) : Reachability :=
  let count := f.blocks.size
  let successors := (f.blocks.toList.map (·.successors)).toArray
  match f.entry with
  | none =>
      { entry := none, sources := unreached count, successors := successors, sweeps := 0 }
  | some entry =>
      let order := BlockOrder.of f .forward
      let (sources, sweeps) :=
        settle (sweep f entry order.postorder) (count * count + 2) (initial count entry)
      { entry := some entry, sources := sources, successors := successors, sweeps := sweeps }

/-! ## Questions -/

/-- Whether control can flow from one block to another. -/
def reaches (r : Reachability) (source target : NodeId) : Bool :=
  (r.sources[target]?.map (·.contains source)).getD false

/-- The blocks that can reach a block, in ascending order. -/
def reaching (r : Reachability) (target : NodeId) : List NodeId :=
  (r.sources[target]?.map (·.toList)).getD []

/-- Whether control can flow from the entry to a block. -/
def isReachable (r : Reachability) (block : NodeId) : Bool :=
  (r.entry.map (r.reaches · block)).getD false

/-! ## Paths -/

/-- A search for a path: the blocks found and not yet expanded, the last one
    found on top, and the trail of found blocks, each with the block it was
    found from. -/
structure Quest where
  stack : List NodeId
  trail : List (NodeId × NodeId)

/-- The blocks a search has found, its source included. -/
def Quest.found (q : Quest) (source : NodeId) : List NodeId :=
  source :: q.trail.map (·.1)

/-- Takes up a block, unless it is found already or does not lead to the target. -/
def Quest.push (r : Reachability) (source target via : NodeId) (q : Quest) (block : NodeId) :
    Quest :=
  if Graph.fresh r.sources.size (q.found source) block && r.reaches block target then
    { stack := block :: q.stack, trail := (block, via) :: q.trail }
  else q

/-- Takes up the blocks of a list in turn. -/
def Quest.pushAll (r : Reachability) (source target via : NodeId) (q : Quest)
    (blocks : List NodeId) : Quest :=
  blocks.foldl (Quest.push r source target via) q

/-- The blocks not found twice and the stacked ones once: what a search still
    has to do. -/
def Quest.work (r : Reachability) (source : NodeId) (q : Quest) : Nat :=
  Graph.unmarked (fun _ => 2) r.sources.size (q.found source) + q.stack.length

theorem Quest.unmarked_found_cons (weight : NodeId → Nat) (size : Nat) (source block : NodeId)
    (found : List NodeId) :
    Graph.unmarked weight size (source :: block :: found)
      = Graph.unmarked weight size (block :: source :: found) := by
  unfold Graph.unmarked
  congr 1
  funext v
  simp only [List.contains_eq_mem, List.mem_cons, or_left_comm]

theorem Quest.work_push_le (r : Reachability) (source target via : NodeId) (q : Quest)
    (block : NodeId) : (q.push r source target via block).work r source ≤ q.work r source := by
  unfold Quest.push
  split
  · rename_i h
    have hmark := Graph.unmarked_cons (fun _ => 2) (Bool.and_eq_true_iff.1 h).1
    unfold Quest.work
    simp only [Quest.found, List.map_cons, Quest.unmarked_found_cons] at hmark ⊢
    simp only [List.length_cons]
    omega
  · exact Nat.le_refl _

theorem Quest.work_pushAll_le (r : Reachability) (source target via : NodeId) (q : Quest)
    (blocks : List NodeId) :
    (q.pushAll r source target via blocks).work r source ≤ q.work r source := by
  induction blocks generalizing q with
  | nil => exact Nat.le_refl _
  | cons block blocks ih =>
      exact Nat.le_trans (ih (q.push r source target via block))
        (Quest.work_push_le r source target via q block)

/-- Expands the block on top of the stack until that is the target: the trail
    of the search. -/
def Quest.run (r : Reachability) (source target : NodeId) : Quest → List (NodeId × NodeId)
  | ⟨[], trail⟩ => trail
  | ⟨block :: stack, trail⟩ =>
      if block = target then trail
      else
        Quest.run r source target
          (Quest.pushAll r source target block ⟨stack, trail⟩ (r.successors[block]?.getD []))
termination_by q => q.work r source
decreasing_by
  refine Nat.lt_of_le_of_lt (Quest.work_pushAll_le r source target block ⟨stack, trail⟩ _) ?_
  simp [Quest.work, Quest.found]

/-- Follows a trail back from a block.  What a block was found from stands
    further down the trail than the block itself. -/
def retrace (block : NodeId) : List (NodeId × NodeId) → List NodeId
  | [] => [block]
  | (found, via) :: trail =>
      if found = block then block :: retrace via trail else retrace block trail

/-- A path from one block to another, the target first; empty when there is none. -/
def path (r : Reachability) (source target : NodeId) : List NodeId :=
  if r.reaches source target then
    retrace target (Quest.run r source target ⟨[source], []⟩)
  else []

/-- What computing the reachability of a procedure reports. -/
def event (f : Procedure) (r : Reachability) : Event :=
  match r.entry with
  | none => .noEntry f.name
  | some _ => .reachabilitySettled f.name r.sweeps f.blocks.size

end Reachability

end ControlFlow
