import ControlFlow.Proofs.Chains
import ControlFlow.Proofs.Paths
import ControlFlow.Proofs.Search

/-!
# Independent analyses agree

    Whether a block is reached from the entry is found out in four ways: by a
    search, by a postorder walk, by sets that are swept until they settle, and by
    the positions that dominators are computed with.  They come to the same blocks.
    Dominators are moreover found on the paths between blocks, although neither
    computation knows of the other: a path is a walk from the entry, and a
    dominator is on every walk.
-/

namespace ControlFlow.Procedure

variable {f : Procedure} {b : NodeId}

/-- The search from the entry lists the reached blocks. -/
theorem mem_reachableBlocks_iff (hf : f.Built) :
    b ∈ f.reachableBlocks ↔ Direction.forward.Reached f b := by
  rw [reachableBlocks]
  cases hentry : f.entry with
  | none =>
      refine iff_of_false List.not_mem_nil ?_
      rintro ⟨start, hstart, -⟩
      exact nomatch hentry.symm.trans hstart
  | some entry =>
      have hlt : entry < f.toGraph.size := hf.entry_lt hentry
      have hsize : ∀ u v, f.toGraph.Edge u v → v < f.toGraph.size := hf.linked.bounded
      show b ∈ f.toGraph.search entry ↔ _
      rw [Graph.mem_search_iff hlt hsize]
      constructor
      · exact fun h => ⟨entry, hentry, h⟩
      · rintro ⟨start, hstart, h⟩
        obtain rfl : entry = start := Option.some.inj (hentry.symm.trans hstart)
        exact h

/-- All four ways of asking for the reached blocks give the blocks that control gets
    to from the entry, and what dominates such a block reaches it and is on the path
    found to it. -/
theorem reached_alike_and_dominators_on_path (hf : f.Built) :
    (∀ b, (Reachability.of f).isReachable b = (BlockOrder.of f .forward).contains b ∧
      (∀ options, (Dominance.of f .forward options).isReachable b =
        (BlockOrder.of f .forward).contains b) ∧
      (b ∈ f.reachableBlocks ↔ (BlockOrder.of f .forward).contains b = true) ∧
      ((BlockOrder.of f .forward).contains b = true ↔ Direction.forward.Reached f b)) ∧
    ∀ options a b, Direction.forward.Reached f b →
      (Dominance.of f .forward options).dominates a b = true →
        (Reachability.of f).reaches a b = true ∧
          ∃ entry, f.entry = some entry ∧ a ∈ (Reachability.of f).path entry b := by
  constructor
  · intro b
    have hordered : (BlockOrder.of f .forward).contains b = true ↔ Direction.forward.Reached f b :=
      BlockOrder.contains_iff hf
    refine ⟨?_, ?_, ?_, hordered⟩
    · rw [Bool.eq_iff_iff, Reachability.isReachable_iff hf]
      exact hordered.symm
    · intro options
      rw [Idoms.isReachable, Dominance.order_of]
    · rw [mem_reachableBlocks_iff hf]
      exact hordered.symm
  · intro options a b hb hdom
    have hdominates : Direction.forward.Dominates f a b := by
      rcases (Dominance.dominates_iff hf options a b).mp hdom with rfl | h
      · exact hb.dominates_self
      · exact h
    refine ⟨(Reachability.reaches_iff hf).mpr ⟨hdominates.reached.1, hdominates.reaches⟩, ?_⟩
    obtain ⟨entry, hentry, hreach, hunavoidable⟩ := hdominates
    refine ⟨entry, hentry, ?_⟩
    -- the path is one of the walks that the dominator is on
    have hreaches : (Reachability.of f).reaches entry b = true :=
      (Reachability.reaches_iff hf).mpr ⟨⟨entry, hentry, Reaches.refl entry⟩, hreach⟩
    exact List.mem_reverse.mp (hunavoidable _ (Reachability.walk_path hf hreaches))

/-- The block that every way out of the loop leads through is on the path out of it,
    and the block that leads into the loop only is not reached in any way. -/
theorem reached_alike_twoEntryLoop :
    twoEntryLoop.Built ∧ 2 ∈ (Reachability.of twoEntryLoop).path 0 3 ∧
      4 ∉ twoEntryLoop.reachableBlocks ∧ (Reachability.of twoEntryLoop).isReachable 4 = false := by
  have hagree := reached_alike_and_dominators_on_path built_twoEntryLoop
  have hordered : (BlockOrder.of twoEntryLoop .forward).contains 3 = true := by decide +kernel
  have hout : (BlockOrder.of twoEntryLoop .forward).contains 4 = false := by decide +kernel
  have hdom : (Dominance.of twoEntryLoop .forward ⟨false, false⟩).dominates 2 3 = true := by
    decide +kernel
  obtain ⟨-, entry, hentry, hpath⟩ :=
    hagree.2 ⟨false, false⟩ 2 3 ((hagree.1 3).2.2.2.mp hordered) hdom
  obtain rfl : 0 = entry := Option.some.inj hentry
  refine ⟨built_twoEntryLoop, hpath, ?_, (hagree.1 4).1.trans hout⟩
  rw [(hagree.1 4).2.2.1, hout]
  exact Bool.false_ne_true

end ControlFlow.Procedure
