import ControlFlow.Proofs.Guarded.Frontier
import ControlFlow.Proofs.Guarded.Reachability

/-!
# Analyses that cannot fail

    A procedure that was built may lack an entry, an exit or any blocks, and may be
    asked about blocks that it does not have.  All its analyses end without a fault
    all the same, and so does every question (`Guarded.Safe`).

    What a question about such a block comes to is `Ignores`: a block without a
    position is found by no table.  Such are the blocks that are not reached, and
    those that the procedure does not have are among them.
-/

namespace ControlFlow

variable {f : Procedure} {direction : Direction} {options : Dominance.Options} {b c : NodeId}

/-! ## Blocks that are ignored -/

/-- The order has no place for a block. -/
structure BlockOrder.Ignores (o : BlockOrder) (b : NodeId) : Prop where
  position? : o.position? b = none
  contains : o.contains b = false

/-- The tree has nothing to say about a block. -/
structure DomTree.Ignores (t : DomTree) (b : NodeId) : Prop where
  nodeOf? : t.nodeOf? b = none
  children : t.children b = []
  idom? : t.idom? b = none

/-- The dominators have nothing to say about a block, but that it dominates itself. -/
structure Dominance.Ignores (d : Dominance) (b : NodeId) : Prop where
  isReachable : d.isReachable b = false
  idom? : d.idom? b = none
  chain : d.chain b = []
  depth? : d.depth? b = none
  dominates_left : ∀ c, d.dominates b c = true ↔ b = c
  dominates_right : ∀ c, d.dominates c b = true ↔ c = b
  strictlyDominates_left : ∀ c, d.strictlyDominates b c = false
  strictlyDominates_right : ∀ c, d.strictlyDominates c b = false
  tree : ∀ t, d.tree = some t → t.Ignores b

/-- A block has no frontier and is in none. -/
structure Frontier.Ignores (t : Frontier) (b : NodeId) : Prop where
  frontier : t.frontier b = []
  contains_left : ∀ c, t.contains b c = false
  contains_right : ∀ c, t.contains c b = false

/-- A block reaches nothing and nothing reaches it. -/
structure Reachability.Ignores (r : Reachability) (b : NodeId) : Prop where
  isReachable : r.isReachable b = false
  reaches_left : ∀ c, r.reaches b c = false
  reaches_right : ∀ c, r.reaches c b = false
  path_left : ∀ c, r.path b c = []
  path_right : ∀ c, r.path c b = []
  reaching : r.reaching b = []
  not_mem_reaching : ∀ c, b ∉ r.reaching c

theorem BlockOrder.position?_eq_none (hf : f.Built) (hb : ¬ direction.Reached f b) :
    (BlockOrder.of f direction).position? b = none :=
  Option.eq_none_iff_forall_ne_some.mpr fun p hp => hb ((exists_position?_iff hf).mp ⟨p, hp⟩)

theorem BlockOrder.ignores_of (hf : f.Built) (hb : ¬ direction.Reached f b) :
    (BlockOrder.of f direction).Ignores b where
  position? := position?_eq_none hf hb
  contains := Bool.eq_false_iff.mpr fun hcontains => hb ((contains_iff hf).mp hcontains)

/-- A block that is not ordered has no node. -/
theorem DomTree.ignores_of {order : BlockOrder} (slots : Slots) (hb : b ∉ order.postorder) :
    (DomTree.of order slots).Ignores b := by
  have hnode : (DomTree.of order slots).nodeOf? b = none := by
    have hplace : order.reversePostorder.idxOf? b = none :=
      List.idxOf?_eq_none_iff.mpr fun hmem => hb (List.mem_reverse.mp hmem)
    rw [nodeOf?_of, hplace]
    rfl
  refine ⟨hnode, ?_, ?_⟩
  · rw [children, hnode]
    rfl
  · rw [idom?, hnode]
    rfl

/-- Of two blocks neither dominates the other if one of them is not reached. -/
theorem Dominance.dominates_iff_eq (hf : f.Built) (options : Options)
    (h : ¬ (direction.Reached f b ∧ direction.Reached f c)) :
    (of f direction options).dominates b c = true ↔ b = c := by
  rw [dominates_iff hf]
  exact or_iff_left fun hdom => h hdom.reached

theorem Dominance.strictlyDominates_eq_false (hf : f.Built) (options : Options)
    (h : ¬ (direction.Reached f b ∧ direction.Reached f c)) :
    (of f direction options).strictlyDominates b c = false := by
  rw [strictlyDominates, Bool.and_eq_false_iff, bne_eq_false_iff_eq]
  exact Classical.or_iff_not_imp_left.mpr fun hne =>
    Bool.eq_false_iff.mpr fun hdom => hne ((dominates_iff_eq hf options h).mp hdom)

theorem Dominance.ignores_of (hf : f.Built) (options : Options) (hb : ¬ direction.Reached f b) :
    (of f direction options).Ignores b := by
  have hnone := BlockOrder.position?_eq_none hf hb
  have hleft : ∀ c, ¬ (direction.Reached f b ∧ direction.Reached f c) := fun c h => hb h.1
  have hright : ∀ c, ¬ (direction.Reached f c ∧ direction.Reached f b) := fun c h => hb h.2
  refine ⟨?_, ?_, Idoms.chain_of_none hnone, ?_, fun c => dominates_iff_eq hf options (hleft c),
    fun c => dominates_iff_eq hf options (hright c),
    fun c => strictlyDominates_eq_false hf options (hleft c),
    fun c => strictlyDominates_eq_false hf options (hright c), ?_⟩
  · rw [Idoms.isReachable, order_of]
    exact (BlockOrder.ignores_of hf hb).contains
  · rw [Idoms.idom?, order_of, hnone]
    rfl
  · rw [Idoms.depth?, order_of, hnone]
    rfl
  · intro t ht
    have hmem : b ∉ (BlockOrder.of f direction).postorder := fun hmem =>
      hb ((BlockOrder.mem_postorder_iff_reached hf).mp hmem)
    rw [of, Idoms.order_of] at ht
    obtain ⟨-, htree⟩ := Option.ite_none_right_eq_some.mp ht
    obtain rfl := Option.some.inj htree
    exact DomTree.ignores_of _ hmem

/-- A block and a member of its frontier are both reached. -/
theorem Frontier.reached_of_contains (hf : f.Built)
    (h : (of f (.of f direction options)).contains b c = true) :
    direction.Reached f b ∧ direction.Reached f c := by
  obtain ⟨-, ⟨r, ⟨hflow, start, hstart, hreach⟩, hdom⟩, -⟩ := (contains_iff_join hf).mp h
  exact ⟨hdom.reached.1, start, hstart, hreach.tail hflow⟩

theorem Frontier.ignores_of (hf : f.Built) (options : Dominance.Options)
    (hb : ¬ direction.Reached f b) : (of f (.of f direction options)).Ignores b := by
  have hleft : ∀ c, (of f (.of f direction options)).contains b c = false := fun c =>
    Bool.eq_false_iff.mpr fun h => hb (reached_of_contains hf h).1
  refine ⟨?_, hleft, fun c => Bool.eq_false_iff.mpr fun h => hb (reached_of_contains hf h).2⟩
  refine List.eq_nil_iff_forall_not_mem.mpr fun c hc => ?_
  exact Bool.false_ne_true ((hleft c).symm.trans (List.contains_iff_mem.mpr hc))

/-- A block and the blocks it reaches are all reached from the entry. -/
theorem Reachability.reached_of_reaches (hf : f.Built) (h : (of f).reaches b c = true) :
    Direction.forward.Reached f b ∧ Direction.forward.Reached f c := by
  obtain ⟨⟨entry, hentry, hreach⟩, hflow⟩ := (reaches_iff hf).mp h
  exact ⟨⟨entry, hentry, hreach⟩, entry, hentry, hreach.trans hflow⟩

theorem Reachability.ignores_of (hf : f.Built) (hb : ¬ Direction.forward.Reached f b) :
    (of f).Ignores b := by
  have hleft : ∀ c, (of f).reaches b c = false := fun c =>
    Bool.eq_false_iff.mpr fun h => hb (reached_of_reaches hf h).1
  have hright : ∀ c, (of f).reaches c b = false := fun c =>
    Bool.eq_false_iff.mpr fun h => hb (reached_of_reaches hf h).2
  have hmem : ∀ {x y}, x ∈ (of f).reaching y → (of f).reaches x y = true := fun h =>
    (reaches_iff_holds (fitting_sources hf)).mpr ((mem_reaching _).mp h)
  refine ⟨?_, hleft, hright, ?_, ?_, ?_, ?_⟩
  · rw [isReachable]
    cases (of f).entry with
    | none => rfl
    | some entry => exact hright entry
  · intro c
    rw [path, hleft c]
    rfl
  · intro c
    rw [path, hright c]
    rfl
  · refine List.eq_nil_iff_forall_not_mem.mpr fun c hc => ?_
    exact Bool.false_ne_true ((hright c).symm.trans (hmem hc))
  · intro c hc
    exact Bool.false_ne_true ((hleft c).symm.trans (hmem hc))

/-- A block that the procedure does not have is not reached in any direction. -/
theorem Procedure.Built.not_reached (hf : f.Built) (hb : f.block? b = none)
    (direction : Direction) : ¬ direction.Reached f b := by
  intro hreached
  have hlt := BlockOrder.lt_size_of_mem ((BlockOrder.mem_postorder_iff_reached hf).mpr hreached)
  exact Nat.not_lt.mpr (Array.getElem?_eq_none_iff.mp hb) hlt

/-! ## Analyses without faults -/

namespace Guarded

/-- The analyses of a procedure end without a fault, and so does every question about
    any blocks; the answers are those of the plain analyses. -/
structure Safe (f : Procedure) (direction : Direction) (options : Dominance.Options) : Prop where
  order : Yields (order f direction) (·.Shows (.of f direction))
  dominators : Yields (dominators f direction options) fun d =>
    d.Answers (.of f direction options) ∧
      frontiers f d = pure (Frontier.of f (.of f direction options)).members
  reachability : reachability f = pure (.of f)
  isReachable : ∀ b, isReachable (.of f) b = pure ((Reachability.of f).isReachable b)
  reaches : ∀ source target,
    reaches (.of f) source target = pure ((Reachability.of f).reaches source target)
  path : ∀ source target,
    path (.of f) source target = pure ((Reachability.of f).path source target)
  reaching : ∀ target, reaching (.of f) target = pure ((Reachability.of f).reaching target)

theorem safe_of_built (hf : f.Built) (direction : Direction) (options : Dominance.Options) :
    Safe f direction options where
  order := order_shows f direction
  dominators := (dominators_shows hf direction options).mono fun _ h =>
    ⟨h.answers hf, frontiers_eq hf h⟩
  reachability := reachability_eq hf
  isReachable := isReachable_eq (Reachability.fitting_sources hf)
  reaches := reaches_eq (Reachability.fitting_sources hf)
  path := path_eq hf
  reaching := reaching_eq (.of f)

end Guarded

/-- The analyses of a built procedure are safe, and ignore every block that it does
    not have or that is not reached. -/
theorem Procedure.analyses_fail_softly (hf : f.Built) (direction : Direction)
    (options : Dominance.Options) :
    Guarded.Safe f direction options ∧
      (∀ b, f.block? b = none ∨ ¬ direction.Reached f b →
        (BlockOrder.of f direction).Ignores b ∧ (Dominance.of f direction options).Ignores b ∧
          (Frontier.of f (.of f direction options)).Ignores b) ∧
      ∀ b, f.block? b = none ∨ ¬ Direction.forward.Reached f b → (Reachability.of f).Ignores b := by
  have hmissed : ∀ {direction : Direction} {b}, f.block? b = none ∨ ¬ direction.Reached f b →
      ¬ direction.Reached f b := by
    rintro direction b (hunknown | hunreached)
    · exact hf.not_reached hunknown direction
    · exact hunreached
  refine ⟨Guarded.safe_of_built hf direction options, ?_, ?_⟩
  · intro b hb
    exact ⟨BlockOrder.ignores_of hf (hmissed hb), Dominance.ignores_of hf options (hmissed hb),
      Frontier.ignores_of hf options (hmissed hb)⟩
  · intro b hb
    exact Reachability.ignores_of hf (hmissed hb)

/-- In the loop with two entries, one block is not reached and one is asked about that
    is not there; a procedure without any blocks is safe to analyse. -/
theorem Procedure.analyses_twoEntryLoop :
    twoEntryLoop.Built ∧ Guarded.Safe twoEntryLoop .forward ⟨true, true⟩ ∧
      ¬ Direction.forward.Reached twoEntryLoop 4 ∧
      (Dominance.of twoEntryLoop .forward ⟨true, true⟩).Ignores 4 ∧
      twoEntryLoop.block? 9 = none ∧ (Reachability.of twoEntryLoop).Ignores 9 ∧
      (Reachability.of twoEntryLoop).path 0 3 = [3, 2, 0] ∧
      Procedure.Built (Draft.start "empty") ∧
      Guarded.Safe (Draft.start "empty") .backward ⟨true, true⟩ := by
  have hempty : Procedure.Built (Draft.start "empty") := ⟨"empty", [], rfl⟩
  obtain ⟨hsafe, hignores, hunreached⟩ :=
    analyses_fail_softly built_twoEntryLoop .forward ⟨true, true⟩
  have hfour : ¬ Direction.forward.Reached twoEntryLoop 4 := by
    intro hreached
    have hcontains := (BlockOrder.contains_iff built_twoEntryLoop).mpr hreached
    exact absurd hcontains (by decide +kernel)
  have hnine : twoEntryLoop.block? 9 = none := by decide +kernel
  exact ⟨built_twoEntryLoop, hsafe, hfour, (hignores 4 (.inr hfour)).2.1, hnine,
    hunreached 9 (.inl hnine), by decide +kernel, hempty,
    (analyses_fail_softly hempty .backward ⟨true, true⟩).1⟩

end ControlFlow
