import ControlFlow.Proofs.Postorder

/-!
# Recursive depth-first search

    What a depth-first search is, said by recursion and without a stack: to
    visit a node is to go through its successors in the order the graph yields
    them and to visit each that was not visited by then.  What is visited below
    a list of nodes is a forest, and a search can be read in the two orders of
    that forest.

    The route through this file:

    * the stack of `unwind` works off this recursion (`unwind_map_enter`).  It
      may hold several visits of one node, but the recursion comes to the later
      ones as well and passes over them for the same reason;
    * in the postorder of the forest an edge to a later node has a way back
      (`pairwise_postorder_explore`): what is left before a node was visited
      below it, or else was finished before the node was visited at all, and
      then leads nowhere new;
    * the preorder always goes on with the first unlisted successor of the last
      listed node that has one, and it is the only list that does
      (`continues_depthFirst`, `Continues.unique`).
-/

namespace ControlFlow

/-- Trees side by side: a root with the trees below it, and the trees beside it. -/
inductive Forest where
  | nil
  | tree (root : NodeId) (below beside : Forest)
  deriving DecidableEq, Repr

namespace Forest

/-- Every root before what is below it. -/
def preorder : Forest → List NodeId
  | nil => []
  | tree root below beside => root :: (below.preorder ++ beside.preorder)

/-- Every root after what is below it. -/
def postorder : Forest → List NodeId
  | nil => []
  | tree root below beside => below.postorder ++ root :: beside.postorder

theorem mem_postorder {t : Forest} {x : NodeId} : x ∈ t.postorder ↔ x ∈ t.preorder := by
  induction t with
  | nil => exact Iff.rfl
  | tree root below beside ihbelow ihbeside =>
      rw [postorder, preorder, List.mem_append, List.mem_cons, List.mem_cons, List.mem_append,
        ihbelow, ihbeside]
      exact or_left_comm

end Forest

namespace Graph

variable {g : Graph}

/-! ## The recursion -/

/-- Marking more nodes leaves no more of them unmarked. -/
theorem unmarked_append_le (weight : NodeId → Nat) (size : Nat) (more marked : List NodeId) :
    unmarked weight size (more ++ marked) ≤ unmarked weight size marked := by
  refine remaining_le weight (List.range size) fun v hv => ?_
  simp_all

/-- Visits the nodes of a list one after the other, each with what can be visited
    below it; nodes that are visited already by then are passed over. -/
def explore (g : Graph) (visited : List NodeId) : (nodes : List NodeId) → Forest
  | [] => .nil
  | v :: vs =>
      if _h : fresh g.size visited v then
        let below := g.explore (v :: visited) (g.successors v)
        .tree v below (g.explore (below.preorder ++ v :: visited) vs)
      else g.explore visited vs
termination_by nodes => unmarked g.weight g.size visited + nodes.length
decreasing_by
  · have hmark := unmarked_cons g.weight _h
    rw [weight] at hmark
    rw [List.length_cons]
    omega
  · have hmark := unmarked_cons g.weight _h
    refine Nat.add_lt_add_of_le_of_lt ?_ (Nat.lt_succ_self vs.length)
    exact Nat.le_trans (unmarked_append_le _ _ _ _) (Nat.le_of_add_right_le hmark)
  · exact Nat.add_lt_add_left (Nat.lt_succ_self vs.length) _

/-- The forest of the search from one node: a single tree, or none when the node
    is outside the graph. -/
def depthFirst (g : Graph) (start : NodeId) : Forest :=
  g.explore [] [start]

theorem explore_nil (visited : List NodeId) : g.explore visited [] = .nil := by
  rw [explore]

theorem explore_fresh {v : NodeId} {visited : List NodeId} (vs : List NodeId)
    (h : fresh g.size visited v = true) :
    g.explore visited (v :: vs) =
      .tree v (g.explore (v :: visited) (g.successors v))
        (g.explore ((g.explore (v :: visited) (g.successors v)).preorder ++ v :: visited) vs) := by
  rw [explore, dif_pos h]

theorem explore_stale {v : NodeId} {visited : List NodeId} (vs : List NodeId)
    (h : ¬ fresh g.size visited v = true) : g.explore visited (v :: vs) = g.explore visited vs := by
  rw [explore, dif_neg h]

theorem depthFirst_outside {start : NodeId} (hstart : ¬ start < g.size) :
    g.depthFirst start = .nil := by
  have hstale : ¬ fresh g.size [] start = true := fun hfresh => hstart (fresh_iff.mp hfresh).1
  rw [depthFirst, explore_stale [] hstale, explore_nil]

/-- Induction along the recursion. -/
@[elab_as_elim]
theorem explore_induction (g : Graph) {motive : List NodeId → List NodeId → Prop}
    (nil : ∀ visited, motive visited [])
    (visit : ∀ visited v vs, fresh g.size visited v = true →
      motive (v :: visited) (g.successors v) →
      motive ((g.explore (v :: visited) (g.successors v)).preorder ++ v :: visited) vs →
      motive visited (v :: vs))
    (skip : ∀ visited v vs, ¬ fresh g.size visited v = true → motive visited vs →
      motive visited (v :: vs))
    (visited nodes : List NodeId) : motive visited nodes :=
  explore.induct g motive nil visit skip visited nodes

/-! ## The stack works off the recursion -/

/-- Leaving out nodes that are visited already changes nothing. -/
theorem unwind_filter (earlier visited nodes : List NodeId) (rest : List Visit)
    (h : ∀ v ∈ earlier, v ∈ visited) :
    g.unwind ((nodes.filter (fresh g.size earlier)).map .enter ++ rest) visited =
      g.unwind (nodes.map .enter ++ rest) visited := by
  induction nodes generalizing visited with
  | nil => rfl
  | cons v vs ih =>
      by_cases hkept : fresh g.size earlier v = true
      · have hsplit : ∀ lower, g.unwind (.enter v :: lower) visited =
            g.unwind [.enter v] visited ++ g.unwind lower (g.unwind [.enter v] visited ++ visited) :=
          fun lower => unwind_append [.enter v] lower visited (by simp)
        rw [List.filter_cons_of_pos hkept]
        refine (hsplit _).trans (Eq.trans ?_ (hsplit _).symm)
        exact congrArg _ (ih _ fun u hu => List.mem_append_right _ (h u hu))
      · have hstale : ¬ fresh g.size visited v = true := by
          rw [fresh_iff] at hkept ⊢
          exact fun hfresh => hkept ⟨hfresh.1, fun hmem => hfresh.2 (h v hmem)⟩
        rw [List.filter_cons_of_neg hkept, ih visited h, List.map_cons, List.cons_append,
          unwind_enter_stale _ hstale]

/-- A stack with nodes to be entered on top lists their forest and goes on below
    them with the forest visited. -/
theorem unwind_map_enter (visited nodes : List NodeId) (rest : List Visit) :
    g.unwind (nodes.map .enter ++ rest) visited =
      (g.explore visited nodes).postorder ++
        g.unwind rest ((g.explore visited nodes).preorder ++ visited) := by
  induction visited, nodes using explore_induction g generalizing rest with
  | nil visited => rw [explore_nil]; rfl
  | visit visited v vs hfresh ihbelow ihbeside =>
      -- on the stack are the successors that were fresh when `v` was entered
      have hbelow : ∀ rest, g.unwind ((g.freshSuccessors (v :: visited) v).map .enter ++ rest)
          (v :: visited) = g.unwind ((g.successors v).map .enter ++ rest) (v :: visited) :=
        fun rest => unwind_filter _ _ _ rest fun _ hu => hu
      rw [List.map_cons, List.cons_append, unwind_enter_fresh _ hfresh, hbelow, ihbelow,
        unwind_leave, ihbeside, explore_fresh vs hfresh, Forest.postorder, List.append_assoc,
        List.cons_append]
      congr 3
      refine unwind_congr rest _ _ fun x => ?_
      simp only [Forest.preorder, List.mem_append, List.mem_cons]
      grind
  | skip visited v vs hstale ih =>
      rw [List.map_cons, List.cons_append, unwind_enter_stale _ hstale, explore_stale vs hstale, ih]

/-- The postorder is that of the recursive search. -/
theorem postorder_eq_postorder_depthFirst (g : Graph) (start : NodeId) :
    g.postorder start = (g.depthFirst start).postorder := by
  have hforest : g.unwind [.enter start] [] = (g.depthFirst start).postorder := by
    have hunwind := unwind_map_enter (g := g) [] [start] []
    rwa [unwind_nil, List.append_nil, List.append_nil] at hunwind
  rw [postorder]
  split
  · exact hforest
  · rename_i hout
    rw [depthFirst_outside hout]
    rfl

/-! ## What is visited -/

variable {visited nodes : List NodeId} {x y : NodeId}

theorem mem_explore_iff :
    x ∈ (g.explore visited nodes).preorder ↔ x ∈ g.unwind (nodes.map .enter) visited := by
  have hunwind := unwind_map_enter (g := g) visited nodes []
  rw [unwind_nil, List.append_nil, List.append_nil] at hunwind
  rw [hunwind, Forest.mem_postorder]

/-- The nodes of the list end up visited. -/
theorem mem_explore_of_mem (h : x ∈ nodes) (hlt : x < g.size) :
    x ∈ (g.explore visited nodes).preorder ∨ x ∈ visited := by
  rw [mem_explore_iff]
  exact mem_unwind_of_enter (List.mem_map_of_mem h) hlt

/-- With a node each of its successors ends up visited. -/
theorem successor_mem_explore (h : x ∈ (g.explore visited nodes).preorder) (hxy : g.Edge x y)
    (hlt : y < g.size) : y ∈ (g.explore visited nodes).preorder ∨ y ∈ visited := by
  rw [mem_explore_iff] at h ⊢
  exact (successor_mem_unwind h hxy hlt).resolve_left (by simp)

/-- What is visited is reached from the list. -/
theorem reaches_of_mem_explore (h : x ∈ (g.explore visited nodes).preorder) :
    ∃ e ∈ nodes, Reaches g.Edge e x := by
  rw [mem_explore_iff] at h
  obtain ⟨e, he, hreach⟩ := (reaches_of_mem_unwind h).resolve_left (by simp)
  exact ⟨e, by simpa using he, Link.reaches_edge hreach⟩

/-- What is visited belongs to the graph and was not visited before. -/
theorem fresh_of_mem_explore (h : x ∈ (g.explore visited nodes).preorder) :
    fresh g.size visited x = true := by
  rw [mem_explore_iff] at h
  have hnew := nodup_unwind (g := g) (nodes.map .enter) visited
  rw [leaving_map_enter] at hnew
  have hnot := (hnew List.nodup_nil fun v hv => absurd hv List.not_mem_nil).2 x h
  exact fresh_iff.mpr ⟨(lt_size_of_mem_unwind h).resolve_left (by simp),
    hnot.resolve_left List.not_mem_nil⟩

/-! ## Edges to later nodes lead back -/

/-- In the postorder of a forest, from the target of an edge to a later node there
    is a way back to the source. -/
theorem pairwise_postorder_explore (visited nodes : List NodeId) :
    (g.explore visited nodes).postorder.Pairwise
      fun u v => g.Edge u v → Reaches g.Edge v u := by
  induction visited, nodes using explore_induction g with
  | nil visited =>
      rw [explore_nil]
      exact List.Pairwise.nil
  | visit visited v vs hfresh ihbelow ihbeside =>
      rw [explore_fresh vs hfresh, Forest.postorder, List.pairwise_append, List.pairwise_cons]
      -- nothing beside `v` was visited before, so no edge from `v` or below it leads there
      have hbeside : ∀ y, y ∈ (g.explore ((g.explore (v :: visited) (g.successors v)).preorder ++
          v :: visited) vs).postorder → y < g.size ∧
          ¬ (y ∈ (g.explore (v :: visited) (g.successors v)).preorder ∨ y ∈ v :: visited) := by
        intro y hy
        have hnew := fresh_iff.mp (fresh_of_mem_explore (Forest.mem_postorder.mp hy))
        rwa [List.mem_append] at hnew
      refine ⟨ihbelow, ⟨?_, ihbeside⟩, ?_⟩
      · intro y hy hedge
        obtain ⟨hlt, hnew⟩ := hbeside y hy
        exact absurd (mem_explore_of_mem hedge hlt) hnew
      · intro x hx y hy hedge
        rw [Forest.mem_postorder] at hx
        rcases List.mem_cons.mp hy with rfl | hy
        · obtain ⟨e, he, hreach⟩ := reaches_of_mem_explore hx
          exact ((Reaches.refl y).tail he).trans hreach
        · obtain ⟨hlt, hnew⟩ := hbeside y hy
          exact absurd (successor_mem_explore hx hedge hlt) hnew
  | skip visited v vs hstale ih =>
      rw [explore_stale vs hstale]
      exact ih

/-! ## The preorder -/

/-- The node that comes next after the listed ones: the first unlisted successor of
    the last listed node that has one. -/
def next? (g : Graph) (listed : List NodeId) : Option NodeId :=
  listed.reverse.findSome? fun v => (g.successors v).find? (fresh g.size listed)

/-- After the listed nodes each node of `rest` comes next in its turn, and at the end
    of them none does. -/
def Continues (g : Graph) : (listed rest : List NodeId) → Prop
  | listed, [] => g.next? listed = none
  | listed, v :: rest => g.next? listed = some v ∧ g.Continues (listed ++ [v]) rest

/-- All successors of a node are listed. -/
def Spent (g : Graph) (listed : List NodeId) (v : NodeId) : Prop :=
  ∀ w, g.Edge v w → ¬ fresh g.size listed w = true

variable {listed rest : List NodeId}

theorem Continues.unique {rest' : List NodeId} (h : g.Continues listed rest)
    (h' : g.Continues listed rest') : rest = rest' := by
  induction rest generalizing listed rest' with
  | nil =>
      cases rest' with
      | nil => rfl
      | cons v vs => exact absurd (h'.1.symm.trans h) (Option.some_ne_none v)
  | cons v vs ih =>
      cases rest' with
      | nil => exact absurd (h.1.symm.trans h') (Option.some_ne_none v)
      | cons w ws =>
          obtain rfl : v = w := Option.some.inj (h.1.symm.trans h'.1)
          rw [ih h.2 h'.2]

/-- Place by place: what stands in the list is what comes next after all before it. -/
theorem continues_iff : g.Continues listed rest ↔
    (∀ before v after, rest = before ++ v :: after → g.next? (listed ++ before) = some v) ∧
      g.next? (listed ++ rest) = none := by
  induction rest generalizing listed with
  | nil =>
      rw [List.append_nil]
      exact ⟨fun h => ⟨fun before v after hsplit => by simp at hsplit, h⟩, fun h => h.2⟩
  | cons u rest ih =>
      rw [Continues, ih, ← List.append_cons]
      constructor
      · rintro ⟨hu, hrest, hend⟩
        refine ⟨fun before v after hsplit => ?_, hend⟩
        cases before with
        | nil =>
            obtain ⟨rfl, -⟩ := List.cons.inj hsplit
            rwa [List.append_nil]
        | cons w before =>
            obtain ⟨rfl, htail⟩ := List.cons.inj hsplit
            rw [List.append_cons]
            exact hrest before v after htail
      · rintro ⟨hall, hend⟩
        refine ⟨?_, fun before v after hsplit => ?_, hend⟩
        · rw [← List.append_nil listed]
          exact hall [] u rest rfl
        · rw [← List.append_cons]
          exact hall (u :: before) v after (by rw [hsplit, List.cons_append])

theorem Spent.find?_eq_none {v : NodeId} (h : g.Spent listed v) :
    (g.successors v).find? (fresh g.size listed) = none :=
  List.find?_eq_none.mpr h

theorem Spent.mono {more : List NodeId} {v : NodeId} (h : g.Spent listed v)
    (hsub : ∀ x ∈ listed, x ∈ more) : g.Spent more v := by
  intro w hw hfresh
  obtain ⟨hlt, hnot⟩ := fresh_iff.mp hfresh
  exact h w hw (fresh_iff.mpr ⟨hlt, fun hmem => hnot (hsub w hmem)⟩)

/-- Once the successors of a node are explored, the node and everything visited
    below it are spent. -/
theorem spent_of_mem_explore (visited : List NodeId) (v : NodeId)
    (hx : x ∈ v :: (g.explore (v :: visited) (g.successors v)).preorder) :
    g.Spent ((g.explore (v :: visited) (g.successors v)).preorder ++ v :: visited) x := by
  intro w hw hfresh
  obtain ⟨hlt, hnot⟩ := fresh_iff.mp hfresh
  refine hnot (List.mem_append.mpr ?_)
  rcases List.mem_cons.mp hx with rfl | hbelow
  · exact mem_explore_of_mem hw hlt
  · exact successor_mem_explore hbelow hw hlt

/-- The search is over when everything listed is spent. -/
theorem next?_eq_none_iff : g.next? listed = none ↔ ∀ v ∈ listed, g.Spent listed v := by
  rw [next?, List.findSome?_eq_none_iff]
  constructor
  · intro h v hv
    exact List.find?_eq_none.mp (h v (List.mem_reverse.mpr hv))
  · intro h v hv
    exact (h v (List.mem_reverse.mp hv)).find?_eq_none

/-- The search is among the successors of a listed node: everything listed after
    that node is spent, the successors in `seen` are done and those in `nodes` are
    still to come. -/
def Awaits (g : Graph) (listed nodes : List NodeId) : Prop :=
  ∃ earlier u later seen, listed = earlier ++ u :: later ∧ (∀ w ∈ later, g.Spent listed w) ∧
    g.successors u = seen ++ nodes ∧ ∀ w ∈ seen, ¬ fresh g.size listed w = true

namespace Awaits

variable {v : NodeId} {vs : List NodeId}

/-- Right after a node is listed its successors are to come. -/
theorem enter (g : Graph) (listed : List NodeId) (v : NodeId) :
    g.Awaits (listed ++ [v]) (g.successors v) :=
  ⟨listed, v, [], [], rfl, by simp, rfl, by simp⟩

theorem next?_eq (h : g.Awaits listed (v :: vs)) (hv : fresh g.size listed v = true) :
    g.next? listed = some v := by
  obtain ⟨earlier, u, later, seen, hlisted, hlater, hu, hseen⟩ := h
  have hnone : later.reverse.findSome?
      (fun w => (g.successors w).find? (fresh g.size listed)) = none := by
    rw [List.findSome?_eq_none_iff]
    intro w hw
    exact (hlater w (List.mem_reverse.mp hw)).find?_eq_none
  have hfound : (g.successors u).find? (fresh g.size listed) = some v := by
    rw [hu, List.find?_append, List.find?_eq_none.mpr hseen, List.find?_cons_of_pos hv]
    rfl
  have hreverse : listed.reverse = later.reverse ++ u :: earlier.reverse := by
    rw [hlisted]
    simp
  rw [next?, hreverse, List.findSome?_append, hnone, Option.none_or, List.findSome?_cons, hfound]

/-- A successor that is listed already is done. -/
theorem skip (h : g.Awaits listed (v :: vs)) (hv : ¬ fresh g.size listed v = true) :
    g.Awaits listed vs := by
  obtain ⟨earlier, u, later, seen, hlisted, hlater, hu, hseen⟩ := h
  refine ⟨earlier, u, later, seen ++ [v], hlisted, hlater, by rw [hu, List.append_cons], ?_⟩
  intro w hw
  rcases List.mem_append.mp hw with hold | hnew
  · exact hseen w hold
  · exact List.mem_singleton.mp hnew ▸ hv

/-- A successor is done as well when it is listed with everything below it and all
    of this is spent. -/
theorem leave (h : g.Awaits listed (v :: vs)) {below : List NodeId}
    (hbelow : ∀ w ∈ v :: below, g.Spent (listed ++ v :: below) w) :
    g.Awaits (listed ++ v :: below) vs := by
  obtain ⟨earlier, u, later, seen, hlisted, hlater, hu, hseen⟩ := h
  have hmore : ∀ x ∈ listed, x ∈ listed ++ v :: below := fun x => List.mem_append_left _
  refine ⟨earlier, u, later ++ v :: below, seen ++ [v], by simp [hlisted], ?_,
    by rw [hu, List.append_cons], ?_⟩
  · intro w hw
    rcases List.mem_append.mp hw with hold | hnew
    · exact (hlater w hold).mono hmore
    · exact hbelow w hnew
  · intro w hw hfresh
    obtain ⟨hlt, hnot⟩ := fresh_iff.mp hfresh
    rcases List.mem_append.mp hw with hold | hnew
    · exact hseen w hold (fresh_iff.mpr ⟨hlt, fun hmem => hnot (hmore w hmem)⟩)
    · obtain rfl := List.mem_singleton.mp hnew
      exact hnot (by simp)

end Awaits

/-- What is explored below the successors to come is what comes next. -/
theorem continues_explore (visited nodes : List NodeId) (hsame : ∀ x, x ∈ visited ↔ x ∈ listed)
    (hawaits : g.Awaits listed nodes)
    (hrest : g.Continues (listed ++ (g.explore visited nodes).preorder) rest) :
    g.Continues listed ((g.explore visited nodes).preorder ++ rest) := by
  induction visited, nodes using explore_induction g generalizing listed rest with
  | nil visited =>
      rw [explore_nil] at hrest ⊢
      rw [← List.append_nil listed]
      exact hrest
  | visit visited v vs hfresh ihbelow ihbeside =>
      have hnext : fresh g.size listed v = true := fresh_congr hsame v ▸ hfresh
      have hentered : ∀ x, x ∈ v :: visited ↔ x ∈ listed ++ [v] := by
        intro x
        rw [List.mem_cons, hsame x, List.mem_append, List.mem_singleton, or_comm]
      have hspent := fun x => spent_of_mem_explore (g := g) (x := x) visited v
      rw [explore_fresh vs hfresh, Forest.preorder] at hrest ⊢
      rw [List.cons_append, List.append_assoc]
      refine ⟨hawaits.next?_eq hnext, ihbelow hentered (.enter g listed v) ?_⟩
      generalize (g.explore (v :: visited) (g.successors v)).preorder = below at *
      have hleft : ∀ x, x ∈ below ++ v :: visited ↔ x ∈ listed ++ v :: below := by
        intro x
        rw [List.mem_append, hentered x, or_comm, ← List.mem_append, ← List.append_cons]
      rw [← List.append_cons]
      refine ihbeside hleft (hawaits.leave ?_) ?_
      · intro w hw
        exact (hspent w hw).mono fun x hx => (hleft x).mp hx
      · rwa [List.append_assoc, List.cons_append]
  | skip visited v vs hstale ih =>
      rw [explore_stale vs hstale] at hrest ⊢
      exact ih hsame (hawaits.skip (fresh_congr hsame v ▸ hstale)) hrest

/-- The preorder of the search begins with its start and then is what comes next. -/
theorem continues_depthFirst {start : NodeId} (hstart : start < g.size) :
    ∃ rest, (g.depthFirst start).preorder = start :: rest ∧ g.Continues [start] rest := by
  have hfresh : fresh g.size [] start = true := fresh_iff.mpr ⟨hstart, List.not_mem_nil⟩
  refine ⟨(g.explore [start] (g.successors start)).preorder, ?_, ?_⟩
  · rw [depthFirst, explore_fresh [] hfresh, explore_nil, Forest.preorder, Forest.preorder,
      List.append_nil]
  · rw [← List.append_nil (g.explore [start] (g.successors start)).preorder]
    refine continues_explore [start] _ (fun x => Iff.rfl) (.enter g [] start) ?_
    refine next?_eq_none_iff.mpr fun v hv => ?_
    refine (spent_of_mem_explore [] start hv).mono fun x hx => ?_
    rw [List.mem_append] at hx ⊢
    exact hx.symm

end Graph

end ControlFlow
