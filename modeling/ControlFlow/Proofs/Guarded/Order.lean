import ControlFlow.Proofs.BlockOrder
import ControlFlow.Proofs.Guarded.Basic

/-!
# Ordering blocks with every access checked

    The walk that finds the postorder keeps one mark per node, and the order keeps
    the position of every block, both in tables.  A node is marked when it is
    entered, so the table of marks must have an entry for whatever is stacked to be
    entered.  It has one because only successors within the graph are stacked
    (`Stacked`).  The table of positions has one for every block of the order,
    because the walk lists nothing else.

    Nothing is asked of the procedure here: an edge that leads nowhere is passed
    over.
-/

namespace ControlFlow.Guarded

open ControlFlow.Graph (Visit)

/-! ## The walk -/

/-- A walk under way: what is still to be done, which nodes are marked, and the
    nodes listed so far. -/
structure Tour where
  stack : List Visit
  visited : Array Bool
  listed : List NodeId

/-- Stacks a successor unless it is marked or outside the graph. -/
def stackFresh (size : Nat) (visited : Array Bool) (v : NodeId) (stack : List Visit) :
    Guarded (List Visit) := do
  if v < size then
    if ← fetch visited v then pure stack else pure (.enter v :: stack)
  else pure stack

/-- Does what is on top of the stack. -/
def visitNext (g : Graph) (s : Tour) : Guarded (Tour ⊕ List NodeId) :=
  match s.stack with
  | [] => pure (.inr s.listed)
  | .leave v :: rest => pure (.inl { s with stack := rest, listed := s.listed ++ [v] })
  | .enter v :: rest => do
      if ← fetch s.visited v then pure (.inl { s with stack := rest })
      else
        let visited ← store s.visited v true
        let stack ← (g.successors v).foldrM (stackFresh g.size visited) (.leave v :: rest)
        pure (.inl { s with stack := stack, visited := visited })

/-- The nodes found from a start, each after everything found below it. -/
def postorder (g : Graph) (start : NodeId) : Guarded (List NodeId) :=
  if start < g.size then loop (visitNext g) ⟨[.enter start], Array.replicate g.size false, []⟩
  else pure []

/-- The table of marks has an entry per node, set for the nodes in the list. -/
structure Marks (size : Nat) (visited : Array Bool) (marked : List NodeId) : Prop where
  size_eq : visited.size = size
  entry : ∀ v, v < size → visited[v]? = some (marked.contains v)

/-- Whatever is to be entered belongs to the graph. -/
def Stacked (size : Nat) (stack : List Visit) : Prop :=
  ∀ v, .enter v ∈ stack → v < size

namespace Marks

variable {g : Graph} {size : Nat} {visited : Array Bool} {marked : List NodeId} {v : NodeId}

theorem start (size : Nat) : Marks size (Array.replicate size false) [] where
  size_eq := Array.size_replicate
  entry v hv := by rw [Array.getElem?_replicate, if_pos hv]; rfl

theorem mark (h : Marks size visited marked) (hv : v < size) :
    Marks size (visited.setIfInBounds v true) (v :: marked) where
  size_eq := Array.size_setIfInBounds.trans h.size_eq
  entry u hu := by
    have hlt : v < visited.size := h.size_eq ▸ hv
    rw [List.contains_cons]
    by_cases huv : v = u
    · subst huv
      rw [Array.getElem?_setIfInBounds_self_of_lt hlt, beq_self_eq_true, Bool.true_or]
    · rw [Array.getElem?_setIfInBounds_ne huv, h.entry u hu, beq_false_of_ne (Ne.symm huv),
        Bool.false_or]

/-- Stacking the fresh ones of a list puts them on top in their order. -/
theorem foldrM_stackFresh (h : Marks size visited marked) (vs : List NodeId) (rest : List Visit) :
    vs.foldrM (stackFresh size visited) rest =
      pure ((vs.filter (Graph.fresh size marked)).map .enter ++ rest) := by
  induction vs with
  | nil => rfl
  | cons v vs ih =>
      rw [List.foldrM_cons, ih, pure_bind, stackFresh]
      by_cases hv : v < size
      · rw [if_pos hv, fetch_eq (h.entry v hv), pure_bind]
        by_cases hmarked : marked.contains v = true
        · rw [if_pos hmarked, List.filter_cons_of_neg]
          rw [Graph.fresh_iff, ← List.contains_iff_mem]
          exact fun hfresh => hfresh.2 hmarked
        · rw [if_neg hmarked, List.filter_cons_of_pos, List.map_cons, List.cons_append]
          rw [Graph.fresh_iff, ← List.contains_iff_mem]
          exact ⟨hv, hmarked⟩
      · rw [if_neg hv, List.filter_cons_of_neg]
        rw [Graph.fresh_iff]
        exact fun hfresh => hv hfresh.1

/-- Entering a fresh node. -/
theorem visitNext_fresh (h : Marks g.size visited marked)
    (hfresh : Graph.fresh g.size marked v = true) (rest : List Visit) (listed : List NodeId) :
    visitNext g ⟨.enter v :: rest, visited, listed⟩ =
      pure (.inl ⟨(g.freshSuccessors (v :: marked) v).map .enter ++ .leave v :: rest,
        visited.setIfInBounds v true, listed⟩) := by
  obtain ⟨hlt, hnot⟩ := Graph.fresh_iff.mp hfresh
  have hunmarked : marked.contains v = false := by simpa using hnot
  show (fetch visited v >>= _) = _
  rw [fetch_eq (h.entry v hlt), pure_bind, hunmarked]
  show (store visited v true >>= _) = _
  rw [store_eq (h.size_eq ▸ hlt), pure_bind, (h.mark hlt).foldrM_stackFresh, pure_bind]
  rfl

/-- Entering a node that was entered before. -/
theorem visitNext_stale (h : Marks g.size visited marked) (hlt : v < g.size)
    (hstale : ¬ Graph.fresh g.size marked v = true) (rest : List Visit) (listed : List NodeId) :
    visitNext g ⟨.enter v :: rest, visited, listed⟩ = pure (.inl ⟨rest, visited, listed⟩) := by
  have hmarked : marked.contains v = true := by
    refine List.contains_iff_mem.mpr (Classical.byContradiction fun hnot => hstale ?_)
    exact Graph.fresh_iff.mpr ⟨hlt, hnot⟩
  show (fetch visited v >>= _) = _
  rw [fetch_eq (h.entry v hlt), pure_bind, hmarked]
  rfl

/-- The walk makes its accesses within bounds and lists what it should. -/
theorem loop_visitNext (stack : List Visit) (marked : List NodeId) (visited : Array Bool)
    (listed : List NodeId) (h : Marks g.size visited marked) (hstack : Stacked g.size stack) :
    loop (visitNext g) ⟨stack, visited, listed⟩ = pure (listed ++ g.unwind stack marked) := by
  induction stack, marked using Graph.unwind_induction g generalizing visited listed with
  | nil marked =>
      rw [Graph.unwind_nil, List.append_nil]
      exact loop_done rfl
  | leave v rest marked ih =>
      have hrest : Stacked g.size rest := fun u hu => hstack u (List.mem_cons_of_mem _ hu)
      rw [loop_next rfl, ih visited (listed ++ [v]) h hrest, Graph.unwind_leave,
        List.append_assoc, List.singleton_append]
  | enter v rest marked hfresh ih =>
      have hlt := (Graph.fresh_iff.mp hfresh).1
      rw [loop_next (h.visitNext_fresh hfresh rest listed), Graph.unwind_enter_fresh rest hfresh]
      refine ih _ listed (h.mark hlt) fun u hu => ?_
      rcases Graph.enter_mem_expanded.mp hu with hnext | hrest
      · exact (Graph.mem_freshSuccessors.mp hnext).2.1
      · exact hstack u (List.mem_cons_of_mem _ hrest)
  | skip v rest marked hstale ih =>
      have hlt : v < g.size := hstack v List.mem_cons_self
      rw [loop_next (h.visitNext_stale hlt hstale rest listed), Graph.unwind_enter_stale rest hstale]
      exact ih visited listed h fun u hu => hstack u (List.mem_cons_of_mem _ hu)

end Marks

theorem postorder_eq (g : Graph) (start : NodeId) : postorder g start = pure (g.postorder start) := by
  rw [postorder, Graph.postorder]
  split
  · rename_i hstart
    have hstack : Stacked g.size [.enter start] := by
      intro v hv
      obtain rfl := Visit.enter.inj (List.mem_singleton.mp hv)
      exact hstart
    rw [(Marks.start g.size).loop_visitNext [.enter start] [] _ [] hstack, List.nil_append]
  · rfl

/-- The walk ends without a fault and lists the postorder of the recursive depth-first
    search, which is empty exactly when the start is outside the graph. -/
theorem postorder_eq_depthFirst (g : Graph) (start : NodeId) :
    postorder g start = pure (g.depthFirst start).postorder ∧
      g.postorder start = (g.depthFirst start).postorder ∧
      (g.postorder start = [] ↔ g.size ≤ start) := by
  have hplain := g.postorder_eq_postorder_depthFirst start
  refine ⟨?_, hplain, Graph.postorder_eq_nil_iff⟩
  rw [postorder_eq, hplain]

/-! ## Positions -/

/-- Enters every block of a list in a table, with its place in the list. -/
def places (count : Nat) (blocks : List NodeId) : Guarded (Array (Option Nat)) :=
  blocks.zipIdx.foldlM (fun table (entry : NodeId × Nat) => store table entry.1 (some entry.2))
    (Array.replicate count none)

/-- The entry of a block in such a table. -/
def place? (table : Array (Option Nat)) (block : NodeId) : Option Nat :=
  (table[block]?).join

/-- Where the blocks are below the size of the table and none is repeated, the table
    has the place of every block. -/
theorem places_eq {count : Nat} {blocks : List NodeId} (hlt : ∀ b ∈ blocks, b < count)
    (hnodup : blocks.Nodup) :
    Yields (places count blocks) fun table => ∀ b, place? table b = blocks.idxOf? b := by
  -- for a part of the list, the places are counted from where the part begins
  have hall : ∀ (blocks : List NodeId) (first : Nat) (table : Array (Option Nat)),
      (∀ b ∈ blocks, b < table.size) → blocks.Nodup →
      Yields ((blocks.zipIdx first).foldlM
        (fun table (entry : NodeId × Nat) => store table entry.1 (some entry.2)) table)
        fun final => ∀ b, place? final b =
          ((blocks.idxOf? b).map (· + first)).or (place? table b) := by
    intro blocks
    induction blocks with
    | nil =>
        intro first table _ _
        exact Yields.pure fun b => rfl
    | cons block blocks ih =>
        intro first table hlt hnodup
        have hblock : block < table.size := hlt block List.mem_cons_self
        rw [List.zipIdx_cons, List.foldlM_cons, store_eq hblock, pure_bind]
        refine (ih (first + 1) _ ?_ hnodup.of_cons).mono fun final hfinal b => ?_
        · intro b hb
          rw [Array.size_setIfInBounds]
          exact hlt b (List.mem_cons_of_mem block hb)
        · rw [hfinal b, List.idxOf?_cons, place?]
          by_cases heq : block = b
          · subst heq
            have hnone : blocks.idxOf? block = none :=
              List.idxOf?_eq_none_iff.mpr (List.nodup_cons.mp hnodup).1
            rw [hnone, beq_self_eq_true, Array.getElem?_setIfInBounds_self_of_lt hblock]
            simp
          · rw [beq_false_of_ne heq, Array.getElem?_setIfInBounds_ne heq, ← place?]
            cases blocks.idxOf? b with
            | none => rfl
            | some i =>
                show some (i + (first + 1)) = some (i + 1 + first)
                rw [Nat.add_assoc, Nat.add_comm first 1]
  have hempty : ∀ b, place? (Array.replicate count none) b = none := by
    intro b
    rw [place?, Array.getElem?_replicate]
    split <;> rfl
  refine (hall blocks 0 _ (by rwa [Array.size_replicate]) hnodup).mono fun table htable b => ?_
  rw [htable b, hempty b, Option.or_none]
  cases blocks.idxOf? b <;> rfl

/-! ## Orders -/

/-- A block order with the positions of all blocks in a table. -/
structure Order where
  order : BlockOrder
  positions : Array (Option Nat)

/-- The blocks found in a direction; none without a start block. -/
def listing (f : Procedure) (direction : Direction) : Guarded (List NodeId) :=
  match direction.start? f with
  | some start => postorder (direction.graph f) start
  | none => pure []

/-- The order of a procedure's blocks in a direction. -/
def order (f : Procedure) (direction : Direction) : Guarded Order := do
  let listed ← listing f direction
  let positions ← places f.blocks.size listed
  pure ⟨⟨direction, direction.start? f, listed⟩, positions⟩

/-- The place of a block in the postorder; none for blocks that have no entry. -/
def Order.position? (o : Order) (block : NodeId) : Option Nat :=
  place? o.positions block

/-- The order holds the blocks of another, and knows their positions. -/
structure Order.Shows (o : Order) (plain : BlockOrder) : Prop where
  order_eq : o.order = plain
  position? : ∀ b, o.position? b = plain.position? b

theorem listing_eq (f : Procedure) (direction : Direction) :
    listing f direction = pure (BlockOrder.of f direction).postorder := by
  rw [listing, BlockOrder.of]
  cases direction.start? f with
  | none => rfl
  | some start => exact postorder_eq (direction.graph f) start

/-- Ordering the blocks of a procedure, whatever that is, makes no access out of
    bounds. -/
theorem order_shows (f : Procedure) (direction : Direction) :
    Yields (order f direction) (·.Shows (.of f direction)) := by
  rw [order, listing_eq, pure_bind]
  refine (places_eq (fun b => BlockOrder.lt_size_of_mem) (BlockOrder.nodup_of f direction)).bind ?_
  intro positions hpositions
  exact Yields.pure ⟨rfl, hpositions⟩

end ControlFlow.Guarded
