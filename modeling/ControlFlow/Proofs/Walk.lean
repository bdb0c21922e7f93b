import ControlFlow.BlockOrder
import Mathlib.Logic.Relation

/-!
# Walks

    The meaning of reachability and dominance, said without any algorithm.  A
    walk follows a relation from node to node and carries the list of all nodes
    it visits, both ends included.  A node is reached when some walk leads to
    it, and a node is unavoidable on the way to another when every walk there
    visits it.

    The route through this file:

    * a walk can be prolonged, cut at a node it visits, and taken apart at its
      last step (`Walk.last_step`);
    * `Unavoidable` passes from a node back to everything one step before it,
      and at the start only the start itself is unavoidable; it contains every
      relation with these two properties (`Unavoidable.of_back`);
    * the flow of a procedure in a direction is the relation all of this is
      used with.
-/

namespace ControlFlow

/-- A walk along `next` from one node to another, with the list of the nodes it
    visits. -/
inductive Walk (next : NodeId → NodeId → Prop) : NodeId → List NodeId → NodeId → Prop where
  | here (v : NodeId) : Walk next v [v] v
  | step {u v w : NodeId} {visited : List NodeId} :
      next u v → Walk next v visited w → Walk next u (u :: visited) w

/-- Some walk leads from one node to another. -/
def Reaches (next : NodeId → NodeId → Prop) (u v : NodeId) : Prop :=
  ∃ visited, Walk next u visited v

/-- Every walk from `start` to `b` visits `a`. -/
def Unavoidable (next : NodeId → NodeId → Prop) (start a b : NodeId) : Prop :=
  ∀ visited, Walk next start visited b → a ∈ visited

variable {next : NodeId → NodeId → Prop} {start u v w a b : NodeId} {visited : List NodeId}

/-! ## Prolonging and cutting walks -/

namespace Walk

theorem end_mem (h : Walk next u visited w) : w ∈ visited := by
  induction h with
  | here v => exact List.mem_singleton.mpr rfl
  | step _ _ ih => exact List.mem_cons_of_mem _ ih

/-- One more step at the end. -/
theorem snoc (h : Walk next u visited v) (hvw : next v w) :
    Walk next u (visited ++ [w]) w := by
  induction h with
  | here v => exact step hvw (here w)
  | step huv _ ih => exact step huv (ih hvw)

/-- A walk that is not at its end yet has a last step, and what comes before it
    is a walk as well. -/
theorem last_step (h : Walk next u visited w) :
    (u = w ∧ visited = [w]) ∨
      ∃ before v, Walk next u before v ∧ next v w ∧ visited = before ++ [w] := by
  induction h with
  | here v => exact Or.inl ⟨rfl, rfl⟩
  | @step u v w visited huv _ ih =>
      refine Or.inr ?_
      rcases ih with ⟨hvw, hvis⟩ | ⟨before, v', hbefore, hlast, hvis⟩
      · subst hvw
        exact ⟨[u], u, here u, huv, by rw [hvis]; rfl⟩
      · exact ⟨u :: before, v', step huv hbefore, hlast, by rw [hvis]; rfl⟩

/-- Induction on a walk from its beginning: what holds of the walk that stays at
    `u` and of every walk one step longer holds of all of them. -/
theorem snoc_induction {P : List NodeId → NodeId → Prop} (hhere : P [u] u)
    (hsnoc : ∀ before v w, Walk next u before v → next v w → P before v → P (before ++ [w]) w)
    (h : Walk next u visited w) : P visited w := by
  induction hn : visited.length using Nat.strongRecOn generalizing visited w with
  | _ n ih =>
      rcases h.last_step with ⟨rfl, rfl⟩ | ⟨before, v, hbefore, hvw, rfl⟩
      · exact hhere
      · rw [List.length_append, List.length_singleton] at hn
        exact hsnoc before v w hbefore hvw (ih before.length (by omega) hbefore rfl)

/-- A walk can be stopped at any node it visits. -/
theorem cut (h : Walk next u visited w) (ha : a ∈ visited) :
    ∃ before, Walk next u before a ∧ ∀ x ∈ before, x ∈ visited := by
  induction h with
  | here v =>
      rw [List.mem_singleton] at ha
      subst ha
      exact ⟨[a], here a, fun x hx => hx⟩
  | @step u v w visited huv _ ih =>
      rcases List.mem_cons.mp ha with heq | hmem
      · subst heq
        refine ⟨[a], here a, ?_⟩
        intro x hx
        rw [List.mem_singleton] at hx
        exact hx ▸ List.mem_cons_self
      · obtain ⟨before, hbefore, hsub⟩ := ih hmem
        refine ⟨u :: before, step huv hbefore, ?_⟩
        intro x hx
        rcases List.mem_cons.mp hx with heq | hx'
        · exact heq ▸ List.mem_cons_self
        · exact List.mem_cons_of_mem _ (hsub x hx')

/-- A walk of one relation is a walk of every weaker one. -/
theorem mono {next' : NodeId → NodeId → Prop} (hle : ∀ u v, next u v → next' u v)
    (h : Walk next u visited w) : Walk next' u visited w := by
  induction h with
  | here v => exact here v
  | step huv _ ih => exact step (hle _ _ huv) ih

end Walk

/-! ## Reachability -/

theorem Reaches.refl (u : NodeId) : Reaches next u u :=
  ⟨[u], Walk.here u⟩

theorem Reaches.tail (h : Reaches next u v) (hvw : next v w) : Reaches next u w := by
  obtain ⟨visited, hwalk⟩ := h
  exact ⟨visited ++ [w], hwalk.snoc hvw⟩

/-- Reachability is the reflexive and transitive closure of the steps. -/
theorem reaches_iff_reflTransGen : Reaches next u v ↔ Relation.ReflTransGen next u v := by
  constructor
  · rintro ⟨visited, h⟩
    induction h with
    | here v => exact Relation.ReflTransGen.refl
    | step huv _ ih => exact Relation.ReflTransGen.head huv ih
  · intro h
    induction h with
    | refl => exact Reaches.refl u
    | tail _ hvw ih => exact ih.tail hvw

theorem Reaches.trans (h₁ : Reaches next u v) (h₂ : Reaches next v w) : Reaches next u w := by
  rw [reaches_iff_reflTransGen] at h₁ h₂ ⊢
  exact h₁.trans h₂

/-- One is there already, or gets there by a last step. -/
theorem Reaches.cases_tail (h : Reaches next u w) :
    u = w ∨ ∃ v, Reaches next u v ∧ next v w := by
  rcases (reaches_iff_reflTransGen.mp h).cases_tail with heq | ⟨v, huv, hvw⟩
  · exact Or.inl heq.symm
  · exact Or.inr ⟨v, reaches_iff_reflTransGen.mpr huv, hvw⟩

/-- From any node that a walk visits it leads on to its end. -/
theorem Walk.reaches_end (h : Walk next u visited w) (ha : a ∈ visited) : Reaches next a w := by
  induction h with
  | here v =>
      rw [List.mem_singleton.mp ha]
      exact Reaches.refl v
  | @step u v w visited huv hrest ih =>
      rcases List.mem_cons.mp ha with rfl | hmem
      · exact ⟨a :: visited, Walk.step huv hrest⟩
      · exact ih hmem

/-- What holds where a walk starts and is passed on by every step from a reached
    node holds of everything reached. -/
theorem Reaches.induction {P : NodeId → Prop} (h : Reaches next u v) (hstart : P u)
    (hstep : ∀ v w, Reaches next u v → P v → next v w → P w) : P v := by
  have hclosure := reaches_iff_reflTransGen.mp h
  clear h
  induction hclosure with
  | refl => exact hstart
  | @tail v w huv hvw ih => exact hstep v w (reaches_iff_reflTransGen.mpr huv) ih hvw

/-! ## Unavoidable nodes -/

theorem Unavoidable.refl (start b : NodeId) : Unavoidable next start b b :=
  fun _ h => h.end_mem

/-- On the way to the start there is nothing but the start. -/
theorem Unavoidable.eq_start (h : Unavoidable next start a start) : a = start :=
  List.mem_singleton.mp (h [start] (Walk.here start))

/-- What is unavoidable on the way to a node, other than the node itself, is
    unavoidable on the way to everything one step before it. -/
theorem Unavoidable.back (h : Unavoidable next start a b) (hne : a ≠ b) (hvb : next v b) :
    Unavoidable next start a v := by
  intro visited hwalk
  rcases List.mem_append.mp (h _ (hwalk.snoc hvb)) with hmem | hmem
  · exact hmem
  · exact absurd (List.mem_singleton.mp hmem) hne

/-- What is unavoidable on the way to a reached node is reached itself. -/
theorem Unavoidable.reaches (h : Unavoidable next start a b) (hb : Reaches next start b) :
    Reaches next start a := by
  obtain ⟨visited, hwalk⟩ := hb
  obtain ⟨before, hbefore, -⟩ := hwalk.cut (h visited hwalk)
  exact ⟨before, hbefore⟩

/-- Any relation with these two properties, at the start and one step back, relates
    a node to what it is unavoidable for. -/
theorem Unavoidable.of_back {R : NodeId → NodeId → Prop} (hstart : R a start → a = start)
    (hback : ∀ v w, Reaches next start v → next v w → R a w → a ≠ w → R a v) (h : R a b) :
    Unavoidable next start a b := by
  intro visited hwalk
  refine hwalk.snoc_induction (P := fun visited v => R a v → a ∈ visited) ?_ ?_ h
  · intro hR
    exact List.mem_singleton.mpr (hstart hR)
  · intro before v w hbefore hvw ih hR
    rw [List.mem_append, List.mem_singleton]
    by_cases haw : a = w
    · exact Or.inr haw
    · exact Or.inl (ih (hback v w ⟨before, hbefore⟩ hvw hR haw))

/-! ## The flow of a procedure -/

/-- One step of control in a direction: along an edge forwards, against it
    backwards. -/
def Direction.Flow (direction : Direction) (f : Procedure) (u v : NodeId) : Prop :=
  match direction with
  | .forward => v ∈ f.successors u
  | .backward => u ∈ f.successors v

/-- The start block of the direction is set, and control gets from it to the
    block. -/
def Direction.Reached (direction : Direction) (f : Procedure) (block : NodeId) : Prop :=
  ∃ start, direction.start? f = some start ∧ Reaches (direction.Flow f) start block

/-- The start block of the direction is set, control gets from it to `b`, and on
    every way there it passes through `a`. -/
def Direction.Dominates (direction : Direction) (f : Procedure) (a b : NodeId) : Prop :=
  ∃ start, direction.start? f = some start ∧ Reaches (direction.Flow f) start b ∧
    Unavoidable (direction.Flow f) start a b

/-- No step from a block that control gets to has a way back. -/
def Direction.Acyclic (direction : Direction) (f : Procedure) : Prop :=
  ∀ u v, direction.Reached f u → direction.Flow f u v → ¬ Reaches (direction.Flow f) v u

/-- Where every step goes up in some rank, there is no way back. -/
theorem Direction.acyclic_of_rank {direction : Direction} {f : Procedure} (rank : NodeId → Nat)
    (hrank : ∀ u v, direction.Flow f u v → rank u < rank v) : direction.Acyclic f := by
  intro u v _ huv hback
  have hle : rank v ≤ rank u := by
    refine hback.induction (P := fun w => rank v ≤ rank w) (Nat.le_refl _) ?_
    intro w x _ hw hwx
    exact Nat.le_trans hw (Nat.le_of_lt (hrank w x hwx))
  exact Nat.not_lt.mpr hle (hrank u v huv)

theorem Direction.Reached.trans {direction : Direction} {f : Procedure}
    (hu : direction.Reached f u) (huv : Reaches (direction.Flow f) u v) :
    direction.Reached f v := by
  obtain ⟨start, hstart, hreach⟩ := hu
  exact ⟨start, hstart, hreach.trans huv⟩

/-- Dominators are reached, and so is what they dominate. -/
theorem Direction.Dominates.reached {direction : Direction} {f : Procedure}
    (h : direction.Dominates f a b) : direction.Reached f a ∧ direction.Reached f b := by
  obtain ⟨start, hstart, hreach, hunavoidable⟩ := h
  exact ⟨⟨start, hstart, hunavoidable.reaches hreach⟩, ⟨start, hstart, hreach⟩⟩

/-- A reached block dominates itself. -/
theorem Direction.Reached.dominates_self {direction : Direction} {f : Procedure}
    (h : direction.Reached f b) : direction.Dominates f b b := by
  obtain ⟨start, hstart, hreach⟩ := h
  exact ⟨start, hstart, hreach, Unavoidable.refl start b⟩

/-- Control gets from a dominator to what it dominates. -/
theorem Direction.Dominates.reaches {direction : Direction} {f : Procedure}
    (h : direction.Dominates f a b) : Reaches (direction.Flow f) a b := by
  obtain ⟨start, -, ⟨visited, hwalk⟩, hunavoidable⟩ := h
  exact hwalk.reaches_end (hunavoidable visited hwalk)

end ControlFlow
