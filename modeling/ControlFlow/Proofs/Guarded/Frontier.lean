import ControlFlow.Proofs.Frontier
import ControlFlow.Proofs.Guarded.Dominators

/-!
# Dominance frontiers with every access checked

    A runner climbs from an incoming block of a join to the immediate dominator of
    the join, and enters the join in the frontier of every block it comes by.  The
    blocks it comes by are a part of its chain, so they are blocks of the procedure
    whose dominators these are, and the table of frontiers has an entry for each.
    With dominators of another procedure that would not be so.
-/

namespace ControlFlow.Guarded

/-! ## Climbs of runners -/

/-- Enters a join in the frontier of a block, unless it is there. -/
def enter (join block : NodeId) (members : Array (List NodeId)) :
    Guarded (Array (List NodeId)) := do
  let found ← fetch members block
  if join ∈ found then pure members else store members block (found ++ [join])

/-- One round of a runner: it stops at the limit and above the start, and otherwise
    enters the join and goes on to the immediate dominator. -/
def runStep (d : Dominators) (join : NodeId) (limit : Option NodeId)
    (s : Option NodeId × Array (List NodeId)) :
    Guarded ((Option NodeId × Array (List NodeId)) ⊕ Array (List NodeId)) :=
  match s.1 with
  | none => pure (.inr s.2)
  | some block =>
      if some block = limit then pure (.inr s.2)
      else do
        let members ← enter join block s.2
        let next ← d.idom? block
        pure (.inl (next, members))

/-- Lets a runner climb up to the limit. -/
def runUp (d : Dominators) (join : NodeId) (limit : Option NodeId)
    (members : Array (List NodeId)) (runner : NodeId) : Guarded (Array (List NodeId)) :=
  loop (runStep d join limit) (some runner, members)

/-- Lets all runners of a join climb, if there are at least two. -/
def passJoin (f : Procedure) (d : Dominators) (members : Array (List NodeId)) (join : NodeId) :
    Guarded (Array (List NodeId)) :=
  let runners := (d.order.order.direction.incoming f join).filter d.isReachable
  if runners.length < 2 then pure members
  else do
    let limit ← d.idom? join
    runners.foldlM (runUp d join limit) members

/-- The frontiers of a procedure with respect to given dominators. -/
def frontiers (f : Procedure) (d : Dominators) : Guarded (Array (List NodeId)) :=
  d.postorder.foldlM (passJoin f d) (Array.replicate f.blocks.size [])

variable {f : Procedure} {direction : Direction} {options : Dominance.Options} {d : Dominators}
  {join runner block : NodeId} {members : Array (List NodeId)}

/-- Within the table, entering a join is recording it. -/
theorem enter_eq (h : block < members.size) :
    enter join block members = pure (Frontier.record members (block, join)) := by
  have hfound := Array.getElem?_eq_getElem h
  rw [enter, fetch_eq hfound, pure_bind, store_eq h, Frontier.record,
    modify_eq_setIfInBounds hfound]
  split
  · rw [setIfInBounds_same hfound]
  · rfl

theorem runStep_eq (hf : f.Built) (h : d.Shows f direction options) {limit : Option NodeId}
    (hblock : direction.Reached f block) (hsize : members.size = f.blocks.size)
    (hne : some block ≠ limit) :
    runStep d join limit (some block, members) =
      pure (.inl ((Idoms.of f (.of f direction)).idom? block,
        Frontier.record members (block, join))) := by
  have hlt : block < members.size := by
    rw [hsize]
    exact BlockOrder.lt_size_of_mem ((BlockOrder.mem_postorder_iff_reached hf).mpr hblock)
  show (if some block = limit then _ else _) = _
  rw [if_neg hne, enter_eq hlt, pure_bind, h.idom?_eq hf, pure_bind]

/-- A runner records the join for the part of its chain before the limit. -/
theorem runUp_eq (hf : f.Built) (h : d.Shows f direction options) (limit : Option NodeId)
    (hrunner : direction.Reached f runner) (hsize : members.size = f.blocks.size) :
    runUp d join limit members runner =
      pure (((((Idoms.of f (.of f direction)).chain runner).takeWhile (some · != limit)).map
        fun block => (block, join)).foldl Frontier.record members) := by
  have hstop : ∀ runner rest members, some runner = limit →
      loop (runStep d join limit) (some runner, members) =
        pure ((((runner :: rest).takeWhile (some · != limit)).map
          fun block => (block, join)).foldl Frontier.record members) := by
    intro runner rest members hlimit
    have hdone : runStep d join limit (some runner, members) = pure (.inr members) := if_pos hlimit
    rw [loop_done hdone, List.takeWhile_cons_of_neg (by simpa using hlimit)]
    rfl
  -- along the chain, as the next block of a climb is the immediate dominator
  refine Idoms.idom_induction hf
    (P := fun runner => ∀ members : Array (List NodeId), members.size = f.blocks.size →
      loop (runStep d join limit) (some runner, members) =
        pure (((((Idoms.of f (.of f direction)).chain runner).takeWhile (some · != limit)).map
          fun block => (block, join)).foldl Frontier.record members))
    ?_ ?_ hrunner members hsize
  · intro runner hreached hidom members hsize
    rw [Idoms.chain_of_idom?_none hf hreached hidom]
    by_cases hlimit : some runner = limit
    · exact hstop runner _ members hlimit
    · rw [loop_next (runStep_eq hf h hreached hsize hlimit), hidom, loop_done rfl,
        List.takeWhile_cons_of_pos (by simpa using hlimit)]
      rfl
  · intro runner c hreached hidom ih members hsize
    rw [Idoms.chain_of_idom? hf hidom]
    by_cases hlimit : some runner = limit
    · exact hstop runner _ members hlimit
    · rw [loop_next (runStep_eq hf h hreached hsize hlimit), hidom,
        ih _ ((Frontier.size_record ..).trans hsize),
        List.takeWhile_cons_of_pos (by simpa using hlimit)]
      rfl

/-! ## Frontiers of procedures -/

/-- The entries that a join gives rise to. -/
theorem passJoin_eq (hf : f.Built) (h : d.Shows f direction options)
    (hsize : members.size = f.blocks.size) (join : NodeId) :
    passJoin f d members join =
      pure ((Frontier.entriesAt f (.of f direction options) join).foldl Frontier.record members) := by
  have hrunners : (d.order.order.direction.incoming f join).filter d.isReachable =
      Frontier.runners f (.of f direction options) join := by
    rw [Frontier.runners, Dominance.direction, Dominance.order_of, h.order.order_eq,
      funext (h.answers hf).isReachable]
  rw [passJoin, hrunners, Frontier.entriesAt]
  split
  · rfl
  · rw [h.idom?_eq hf, pure_bind, List.foldl_flatMap]
    refine Yields.eq_pure ((Yields.foldlM
      (R := fun found plain => found = plain ∧ found.size = f.blocks.size) ?_ ⟨rfl, hsize⟩).mono
      fun found hfound => hfound.1)
    rintro runner hrunner found _ ⟨rfl, hfound⟩
    have hreached := ((Frontier.mem_runners hf).mp hrunner).2
    rw [runUp_eq hf h _ hreached hfound]
    exact Yields.pure ⟨rfl, (Frontier.size_foldl_record ..).trans hfound⟩

/-- The frontiers of a built procedure with respect to its own dominators are computed
    without an access out of bounds. -/
theorem frontiers_eq (hf : f.Built) (h : d.Shows f direction options) :
    frontiers f d = pure (Frontier.of f (.of f direction options)).members := by
  rw [frontiers, (h.answers hf).postorder, Frontier.of, Frontier.entries_eq, List.foldl_flatMap]
  refine Yields.eq_pure ((Yields.foldlM
    (R := fun found plain => found = plain ∧ found.size = f.blocks.size) ?_
    ⟨rfl, Array.size_replicate⟩).mono fun found hfound => hfound.1)
  rintro join - found _ ⟨rfl, hfound⟩
  rw [passJoin_eq hf h hfound]
  exact Yields.pure ⟨rfl, (Frontier.size_foldl_record ..).trans hfound⟩

end ControlFlow.Guarded
