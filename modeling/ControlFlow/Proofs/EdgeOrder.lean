import ControlFlow.Proofs.Chains
import ControlFlow.Proofs.Frontier
import ControlFlow.Proofs.Reachability

/-!
# The order of edges makes no difference

    In what order the edges of a procedure were added, and how often, changes its
    successor lists, hence the postorder, the positions, the order in which slots
    and sets are refined and the number of sweeps.  The answers of the analyses do
    not change: each of them has been described by the flow alone, and the flow is
    the set of edges that were asked for (`Draft.mem_successors_run`).
-/

namespace ControlFlow

/-! ## The edges of a run -/

namespace Draft

variable {d : Draft} {u v : NodeId}

/-- The edge that a step asks for, unless it is refused. -/
def edge? (d : Draft) : Step → Option (NodeId × NodeId)
  | .edge source target =>
      match d.addEdge source target with
      | .ok _ => some (source, target)
      | .error _ => none
  | _ => none

/-- The edges that a series of steps asks for, in order and as often as it does. -/
def edges (d : Draft) : List Step → List (NodeId × NodeId)
  | [] => []
  | s :: rest => (d.edge? s).toList ++ (d.attempt s).edges rest

theorem edge?_of_not_edge {s : Step} (h : ∀ source target, s ≠ .edge source target) :
    d.edge? s = none := by
  cases s with
  | edge source target => exact absurd rfl (h source target)
  | _ => rfl

/-- A refused step asks for no edge. -/
theorem edge?_of_refused {s : Step} {e : Error} (h : d.step s = .error e) : d.edge? s = none := by
  cases s with
  | edge source target =>
      rw [edge?]
      cases hadd : d.addEdge source target with
      | error e' => rfl
      | ok d₁ =>
          rw [step, hadd] at h
          exact nomatch h
  | _ => rfl

theorem mem_successors_addEdge {d' : Draft} {source target : NodeId}
    (h : d.addEdge source target = .ok d') :
    v ∈ d'.successors u ↔ v ∈ d.successors u ∨ (source, target) = (u, v) := by
  rw [Prod.mk.injEq]
  rcases addEdge_flow h with ⟨hthere, hsame⟩ | hgain
  · rw [hsame.successors, iff_self_or]
    rintro ⟨rfl, rfl⟩
    exact hthere
  · rw [hgain.successors]
    by_cases hu : source = u
    · rw [if_pos hu, List.mem_append, List.mem_singleton, and_iff_right hu, eq_comm]
    · rw [if_neg hu]
      exact ⟨.inl, fun hv => hv.resolve_right fun heq => hu heq.1⟩

/-- An attempted step adds the edge it asks for, if it asks for one. -/
theorem mem_successors_attempt (s : Step) :
    v ∈ (d.attempt s).successors u ↔ v ∈ d.successors u ∨ d.edge? s = some (u, v) := by
  rw [attempt]
  cases hstep : d.step s with
  | error e =>
      rw [edge?_of_refused hstep]
      exact ⟨.inl, fun h => h.resolve_right nofun⟩
  | ok outcome =>
      rcases step_edge_or_sameFlow hstep with ⟨source, target, rfl, hadd⟩ | ⟨hnot, hsame⟩
      · rw [edge?, hadd]
        show v ∈ outcome.1.successors u ↔ _ ∨ some (source, target) = some (u, v)
        rw [Option.some.injEq]
        exact mem_successors_addEdge hadd
      · rw [edge?_of_not_edge hnot]
        show v ∈ outcome.1.successors u ↔ _
        rw [hsame.successors]
        exact ⟨.inl, fun h => h.resolve_right nofun⟩

/-- After a run the edges are those that were there and those that it asked for. -/
theorem mem_successors_run (d : Draft) (steps : List Step) :
    v ∈ (d.run steps).successors u ↔ v ∈ d.successors u ∨ (u, v) ∈ d.edges steps := by
  induction steps generalizing d with
  | nil => exact ⟨.inl, fun h => h.resolve_right List.not_mem_nil⟩
  | cons s rest ih =>
      show v ∈ ((d.attempt s).run rest).successors u ↔ _
      rw [ih, mem_successors_attempt, edges, List.mem_append, Option.mem_toList, or_assoc]

end Draft

/-! ## Procedures of one shape -/

/-- As many blocks, the same entry and exit, and the same edges in whatever order. -/
structure Procedure.SameShape (f g : Procedure) : Prop where
  size : f.blocks.size = g.blocks.size
  entry : f.entry = g.entry
  exit : f.exit = g.exit
  edges : ∀ u v, v ∈ f.successors u ↔ v ∈ g.successors u

section SameShape

variable {f g : Procedure} (h : f.SameShape g) (direction : Direction)

include h

namespace Procedure.SameShape

theorem start? : direction.start? f = direction.start? g := by
  cases direction with
  | forward => exact h.entry
  | backward => exact h.exit

theorem flow : direction.Flow f = direction.Flow g := by
  funext u v
  cases direction with
  | forward => exact propext (h.edges u v)
  | backward => exact propext (h.edges v u)

theorem reached : direction.Reached f = direction.Reached g := by
  funext b
  rw [Direction.Reached, Direction.Reached, h.flow direction, h.start? direction]

theorem dominates : direction.Dominates f = direction.Dominates g := by
  funext a b
  rw [Direction.Dominates, Direction.Dominates, h.flow direction, h.start? direction]

end Procedure.SameShape

variable (hf : f.Built) (hg : g.Built)

include hf hg

/-! ## Dominators -/

namespace Idoms

theorem idom?_of_sameShape (b : NodeId) :
    (of f (.of f direction)).idom? b = (of g (.of g direction)).idom? b := by
  ext c
  rw [idom?_eq_some_iff hf, idom?_eq_some_iff hg, h.dominates direction]

/-- Chains are made of immediate dominators. -/
theorem chain_of_sameShape (b : NodeId) :
    (of f (.of f direction)).chain b = (of g (.of g direction)).chain b := by
  by_cases hb : direction.Reached f b
  · refine idom_induction hf (P := fun b => (of f (.of f direction)).chain b =
      (of g (.of g direction)).chain b) ?_ ?_ hb
    · intro b hb hnone
      rw [chain_of_idom?_none hf hb hnone]
      rw [idom?_of_sameShape h direction hf hg] at hnone
      rw [h.reached direction] at hb
      rw [chain_of_idom?_none hg hb hnone]
    · intro b c _ hsome ih
      rw [chain_of_idom? hf hsome, ih]
      rw [idom?_of_sameShape h direction hf hg] at hsome
      rw [chain_of_idom? hg hsome]
  · -- a block that is not reached has no chain
    have hempty : ∀ k : Procedure, k.Built → ¬ direction.Reached k b →
        (of k (.of k direction)).chain b = [] := by
      intro k hk hnot
      refine List.eq_nil_iff_forall_not_mem.mpr fun a ha => hnot ?_
      exact ((mem_chain_iff hk).mp ha).reached.2
    rw [hempty f hf hb, hempty g hg (h.reached direction ▸ hb)]

theorem contains_of_sameShape (b : NodeId) :
    (BlockOrder.of f direction).contains b = (BlockOrder.of g direction).contains b := by
  rw [Bool.eq_iff_iff, BlockOrder.contains_iff hf, BlockOrder.contains_iff hg, h.reached direction]

theorem depth?_of_sameShape (b : NodeId) :
    (of f (.of f direction)).depth? b = (of g (.of g direction)).depth? b := by
  have hcontains := contains_of_sameShape h direction hf hg b
  rw [BlockOrder.contains, BlockOrder.contains] at hcontains
  rw [depth?, depth?, chain_of_sameShape h direction hf hg, order_of, order_of]
  -- only whether there is a position matters
  cases hp : (BlockOrder.of f direction).position? b with
  | none =>
      cases hq : (BlockOrder.of g direction).position? b with
      | none => rfl
      | some q =>
          rw [hp, hq] at hcontains
          exact nomatch hcontains
  | some p =>
      cases hq : (BlockOrder.of g direction).position? b with
      | none =>
          rw [hp, hq] at hcontains
          exact nomatch hcontains
      | some q => rfl

end Idoms

end SameShape

/-! ## The analyses -/

/-- Two analyses of dominance that no question about blocks tells apart. -/
structure Dominance.SameAnswers (d e : Dominance) : Prop where
  idom? : ∀ b, d.idom? b = e.idom? b
  dominates : ∀ a b, d.dominates a b = e.dominates a b
  chain : ∀ b, d.chain b = e.chain b
  depth? : ∀ b, d.depth? b = e.depth? b
  isReachable : ∀ b, d.isReachable b = e.isReachable b

/-- Two analyses of reachability that no question about blocks tells apart. -/
structure Reachability.SameAnswers (r s : Reachability) : Prop where
  reaches : ∀ x b, r.reaches x b = s.reaches x b
  reaching : ∀ b, r.reaching b = s.reaching b
  isReachable : ∀ b, r.isReachable b = s.isReachable b

namespace Procedure

variable {f g : Procedure}

theorem SameShape.dominance (h : f.SameShape g) (hf : f.Built) (hg : g.Built)
    (direction : Direction) (options options' : Dominance.Options) :
    (Dominance.of f direction options).SameAnswers (.of g direction options') where
  idom? := Idoms.idom?_of_sameShape h direction hf hg
  dominates a b := by
    rw [Bool.eq_iff_iff, Dominance.dominates_iff hf, Dominance.dominates_iff hg,
      h.dominates direction]
  chain := Idoms.chain_of_sameShape h direction hf hg
  depth? := Idoms.depth?_of_sameShape h direction hf hg
  isReachable b := by
    rw [Idoms.isReachable, Idoms.isReachable, Dominance.order_of, Dominance.order_of]
    exact Idoms.contains_of_sameShape h direction hf hg b

theorem SameShape.frontier (h : f.SameShape g) (hf : f.Built) (hg : g.Built)
    (direction : Direction) (options options' : Dominance.Options) (x y : NodeId) :
    (Frontier.of f (.of f direction options)).contains x y =
      (Frontier.of g (.of g direction options')).contains x y := by
  rw [Bool.eq_iff_iff, Frontier.contains_iff_join hf, Frontier.contains_iff_join hg,
    h.flow direction, h.reached direction, h.dominates direction]

/-- Even the sets themselves are the same. -/
theorem SameShape.sources (h : f.SameShape g) (hf : f.Built) (hg : g.Built) :
    (Reachability.of f).sources = (Reachability.of g).sources := by
  have hfitting := Reachability.fitting_sources hg
  rw [← h.size] at hfitting
  refine (Reachability.fitting_sources hf).ext hfitting fun x b => ?_
  rw [Reachability.holds_sources_iff hf, Reachability.holds_sources_iff hg, h.flow .forward,
    h.reached .forward]

theorem SameShape.reachability (h : f.SameShape g) (hf : f.Built) (hg : g.Built) :
    (Reachability.of f).SameAnswers (.of g) where
  reaches x b := by rw [Reachability.reaches, Reachability.reaches, h.sources hf hg]
  reaching b := by rw [Reachability.reaching, Reachability.reaching, h.sources hf hg]
  isReachable b := by
    rw [Bool.eq_iff_iff, Reachability.isReachable_iff hf, Reachability.isReachable_iff hg,
      h.reached .forward]

/-- Two procedures with as many blocks, the same entry and the same exit, whose
    construction asked for the same set of edges, in any two orders and however often,
    have the same dominators, frontiers and reachability in both directions. -/
theorem answers_of_same_edges {name name' : String} {steps steps' : List Draft.Step}
    (hf : ((Draft.start name).run steps).finish = .ok f)
    (hg : ((Draft.start name').run steps').finish = .ok g)
    (hblocks : f.blocks.size = g.blocks.size) (hentry : f.entry = g.entry)
    (hexit : f.exit = g.exit)
    (hedges : ∀ edge, edge ∈ (Draft.start name).edges steps ↔
      edge ∈ (Draft.start name').edges steps') :
    (∀ direction options options',
      (Dominance.of f direction options).SameAnswers (.of g direction options') ∧
      ∃ t t', Frontier.checked f (.of f direction options) = .ok t ∧
        Frontier.checked g (.of g direction options') = .ok t' ∧
        ∀ x y, t.contains x y = t'.contains x y) ∧
    (Reachability.of f).SameAnswers (.of g) := by
  have hbuilt : f.Built := ⟨name, steps, hf⟩
  have hbuilt' : g.Built := ⟨name', steps', hg⟩
  have hsuccessors : ∀ u v, v ∈ f.successors u ↔ v ∈ g.successors u := by
    intro u v
    obtain ⟨rfl, -, -⟩ := Draft.finish_eq_ok.mp hf
    obtain ⟨rfl, -, -⟩ := Draft.finish_eq_ok.mp hg
    rw [Draft.mem_successors_run, Draft.mem_successors_run]
    -- neither had an edge to begin with
    exact or_congr Iff.rfl (hedges (u, v))
  have hshape : f.SameShape g := ⟨hblocks, hentry, hexit, hsuccessors⟩
  refine ⟨fun direction options options' => ⟨hshape.dominance hbuilt hbuilt' .., ?_⟩,
    hshape.reachability hbuilt hbuilt'⟩
  exact ⟨_, _, Frontier.checked_of .., Frontier.checked_of ..,
    hshape.frontier hbuilt hbuilt' direction options options'⟩

/-- The loop with two entries once more, its edges added the other way round and some
    of them twice. -/
def shuffledLoop.steps : List Draft.Step :=
  [.block 0, .block 1, .block 2, .block 3, .block 4, .edge 4 1, .edge 3 0, .edge 2 3, .edge 2 1,
    .edge 1 2, .edge 0 2, .edge 2 1, .edge 0 1, .edge 4 1, .entry 0, .exit 3]

def shuffledLoop : Procedure :=
  (Draft.start "shuffled loop").run shuffledLoop.steps

/-- The two have different postorders and the same answers. -/
theorem answers_shuffledLoop :
    (BlockOrder.of twoEntryLoop .forward).postorder ≠
        (BlockOrder.of shuffledLoop .forward).postorder ∧
      (∀ direction options, (Dominance.of twoEntryLoop direction options).SameAnswers
        (.of shuffledLoop direction options)) ∧
      (Reachability.of twoEntryLoop).SameAnswers (.of shuffledLoop) := by
  have hforth : ∀ edge ∈ (Draft.start "two-entry loop").edges twoEntryLoop.steps,
      edge ∈ (Draft.start "shuffled loop").edges shuffledLoop.steps := by decide +kernel
  have hback : ∀ edge ∈ (Draft.start "shuffled loop").edges shuffledLoop.steps,
      edge ∈ (Draft.start "two-entry loop").edges twoEntryLoop.steps := by decide +kernel
  have hf : ((Draft.start "two-entry loop").run twoEntryLoop.steps).finish = .ok twoEntryLoop := rfl
  have hg : ((Draft.start "shuffled loop").run shuffledLoop.steps).finish = .ok shuffledLoop := rfl
  have hsame := answers_of_same_edges hf hg (by decide +kernel) (by decide +kernel)
    (by decide +kernel) fun edge => ⟨hforth edge, hback edge⟩
  have hpostorder : (BlockOrder.of twoEntryLoop .forward).postorder ≠
      (BlockOrder.of shuffledLoop .forward).postorder := by decide +kernel
  exact ⟨hpostorder, fun direction options => (hsame.1 direction options options).1, hsame.2⟩

end Procedure

end ControlFlow
