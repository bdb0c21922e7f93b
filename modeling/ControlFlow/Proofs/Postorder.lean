import ControlFlow.Proofs.Walk

/-!
# The postorder of a graph

    `postorder` keeps a stack of visits.  Here it is shown what the list is that
    it comes to: exactly the nodes reached from the start, each once, the start
    last, and every other node somewhere before a node that has an edge to it.

    The stack is taken apart with `unwind_append`: working off two stacks one on
    top of the other is working off the first and then the second, with
    everything the first one listed marked.  For this it matters only which
    nodes are marked, not in which order (`unwind_congr`).  All other facts are
    inductions along `unwind` that say for an arbitrary stack what a listed node
    is: one that was to be left, or one found below a node that was to be
    entered.
-/

namespace ControlFlow.Graph

variable {g : Graph}

/-- One step along an edge. -/
def Edge (g : Graph) (u v : NodeId) : Prop :=
  v ∈ g.successors u

/-- One step along an edge that stays in the graph. -/
def Link (g : Graph) (u v : NodeId) : Prop :=
  g.Edge u v ∧ v < g.size

theorem Link.reaches_edge {u v : NodeId} (h : Reaches g.Link u v) : Reaches g.Edge u v := by
  obtain ⟨visited, hwalk⟩ := h
  exact ⟨visited, hwalk.mono fun _ _ hlink => hlink.1⟩

/-- Where no edge leads out of the graph, every step is along a link. -/
theorem reaches_link_iff (hsize : ∀ u v, g.Edge u v → v < g.size) {u v : NodeId} :
    Reaches g.Link u v ↔ Reaches g.Edge u v := by
  constructor
  · exact Link.reaches_edge
  · rintro ⟨visited, hwalk⟩
    exact ⟨visited, hwalk.mono fun u v hedge => ⟨hedge, hsize u v hedge⟩⟩

/-! ## Equations of the walk -/

/-- Induction along the walk, by what is on top of the stack. -/
@[elab_as_elim]
theorem unwind_induction (g : Graph) {motive : List Visit → List NodeId → Prop}
    (nil : ∀ marked, motive [] marked)
    (leave : ∀ v rest marked, motive rest marked → motive (.leave v :: rest) marked)
    (enter : ∀ v rest marked, fresh g.size marked v = true →
      motive ((g.freshSuccessors (v :: marked) v).map .enter ++ .leave v :: rest) (v :: marked) →
      motive (.enter v :: rest) marked)
    (skip : ∀ v rest marked, ¬ fresh g.size marked v = true → motive rest marked →
      motive (.enter v :: rest) marked)
    (stack : List Visit) (marked : List NodeId) : motive stack marked :=
  unwind.induct g motive nil leave enter skip stack marked

theorem unwind_nil (marked : List NodeId) : g.unwind [] marked = [] := by
  rw [unwind]

theorem unwind_leave (v : NodeId) (rest : List Visit) (marked : List NodeId) :
    g.unwind (.leave v :: rest) marked = v :: g.unwind rest marked := by
  rw [unwind]

theorem unwind_enter_fresh {v : NodeId} {marked : List NodeId} (rest : List Visit)
    (h : fresh g.size marked v = true) :
    g.unwind (.enter v :: rest) marked =
      g.unwind ((g.freshSuccessors (v :: marked) v).map .enter ++ .leave v :: rest)
        (v :: marked) := by
  rw [unwind, dif_pos h]

theorem unwind_enter_stale {v : NodeId} {marked : List NodeId} (rest : List Visit)
    (h : ¬ fresh g.size marked v = true) :
    g.unwind (.enter v :: rest) marked = g.unwind rest marked := by
  rw [unwind, dif_neg h]

theorem mem_freshSuccessors {marked : List NodeId} {u v : NodeId} :
    v ∈ g.freshSuccessors marked u ↔ g.Edge u v ∧ v < g.size ∧ v ∉ marked := by
  unfold freshSuccessors
  rw [List.mem_filter, fresh_iff]
  exact Iff.rfl

/-- What is to be entered after a fresh node was: its fresh successors first,
    then what was waiting below it. -/
theorem enter_mem_expanded {marked : List NodeId} {rest : List Visit} {v x : NodeId} :
    .enter x ∈ (g.freshSuccessors marked v).map Visit.enter ++ .leave v :: rest ↔
      x ∈ g.freshSuccessors marked v ∨ .enter x ∈ rest := by
  simp

theorem leave_mem_expanded {marked : List NodeId} {rest : List Visit} {v x : NodeId} :
    .leave x ∈ (g.freshSuccessors marked v).map Visit.enter ++ .leave v :: rest ↔
      x = v ∨ .leave x ∈ rest := by
  simp

theorem fresh_congr {size : Nat} {marked marked' : List NodeId}
    (h : ∀ v, v ∈ marked ↔ v ∈ marked') (v : NodeId) :
    fresh size marked v = fresh size marked' v := by
  rw [Bool.eq_iff_iff, fresh_iff, fresh_iff, h v]

/-- Only which nodes are marked matters. -/
theorem unwind_congr (stack : List Visit) (marked marked' : List NodeId)
    (h : ∀ v, v ∈ marked ↔ v ∈ marked') : g.unwind stack marked = g.unwind stack marked' := by
  induction stack, marked using unwind_induction g generalizing marked' with
  | nil marked => rw [unwind_nil, unwind_nil]
  | leave v rest marked ih => rw [unwind_leave, unwind_leave, ih marked' h]
  | enter v rest marked hfresh ih =>
      have hfresh' : fresh g.size marked' v = true := fresh_congr h v ▸ hfresh
      have hcons : ∀ x, x ∈ v :: marked ↔ x ∈ v :: marked' := by
        intro x
        rw [List.mem_cons, List.mem_cons, h x]
      have hnext : g.freshSuccessors (v :: marked) v = g.freshSuccessors (v :: marked') v :=
        List.filter_congr fun x _ => fresh_congr hcons x
      rw [unwind_enter_fresh rest hfresh, unwind_enter_fresh rest hfresh', ← hnext]
      exact ih (v :: marked') hcons
  | skip v rest marked hstale ih =>
      have hstale' : ¬ fresh g.size marked' v = true := fresh_congr h v ▸ hstale
      rw [unwind_enter_stale rest hstale, unwind_enter_stale rest hstale']
      exact ih marked' h

/-- What is to be left is listed. -/
theorem mem_unwind_of_leave {stack : List Visit} {marked : List NodeId} {x : NodeId}
    (h : .leave x ∈ stack) : x ∈ g.unwind stack marked := by
  induction stack, marked using unwind_induction g with
  | nil marked => exact absurd h List.not_mem_nil
  | leave v rest marked ih =>
      rw [unwind_leave]
      rcases List.mem_cons.mp h with heq | hmem
      · exact Visit.leave.inj heq ▸ List.mem_cons_self
      · exact List.mem_cons_of_mem v (ih hmem)
  | enter v rest marked hfresh ih =>
      rw [unwind_enter_fresh rest hfresh]
      refine ih (leave_mem_expanded.mpr (Or.inr ?_))
      simpa using h
  | skip v rest marked hstale ih =>
      rw [unwind_enter_stale rest hstale]
      exact ih (by simpa using h)

/-- The upper part of a stack is worked off first.  Its nodes to be left must be
    marked, as they always are. -/
theorem unwind_append (upper lower : List Visit) (marked : List NodeId)
    (h : ∀ v, .leave v ∈ upper → v ∈ marked) :
    g.unwind (upper ++ lower) marked =
      g.unwind upper marked ++ g.unwind lower (g.unwind upper marked ++ marked) := by
  induction upper, marked using unwind_induction g with
  | nil marked => rw [unwind_nil]; rfl
  | leave v rest marked ih =>
      have hv : v ∈ marked := h v List.mem_cons_self
      have ih' := ih fun x hx => h x (List.mem_cons_of_mem _ hx)
      rw [List.cons_append, unwind_leave, unwind_leave, ih', List.cons_append]
      congr 2
      refine unwind_congr lower _ _ ?_
      intro x
      simp only [List.mem_append, List.cons_append, List.mem_cons]
      constructor
      · exact Or.inr
      · rintro (rfl | hx)
        · exact Or.inr hv
        · exact hx
  | enter v rest marked hfresh ih =>
      have ih' := ih (by
        intro x hx
        rcases leave_mem_expanded.mp hx with rfl | hx'
        · exact List.mem_cons_self
        · exact List.mem_cons_of_mem _ (h x (List.mem_cons_of_mem _ hx')))
      rw [List.cons_append, unwind_enter_fresh (rest ++ lower) hfresh,
        unwind_enter_fresh rest hfresh]
      rw [List.append_assoc, List.cons_append] at ih'
      rw [ih']
      congr 1
      -- the node just entered is among those listed, so marking it says nothing new
      refine unwind_congr lower _ _ ?_
      intro x
      have hv : v ∈ g.unwind ((g.freshSuccessors (v :: marked) v).map .enter ++ .leave v :: rest)
          (v :: marked) := mem_unwind_of_leave (leave_mem_expanded.mpr (Or.inl rfl))
      simp only [List.mem_append, List.mem_cons]
      constructor
      · rintro (hx | rfl | hx)
        · exact Or.inl hx
        · exact Or.inl hv
        · exact Or.inr hx
      · rintro (hx | hx)
        · exact Or.inl hx
        · exact Or.inr (Or.inr hx)
  | skip v rest marked hstale ih =>
      rw [List.cons_append, unwind_enter_stale (rest ++ lower) hstale,
        unwind_enter_stale rest hstale]
      exact ih fun x hx => h x (List.mem_cons_of_mem _ hx)

/-! ## What is listed -/

/-- Everything listed belongs to the graph, unless it was to be left already. -/
theorem lt_size_of_mem_unwind {stack : List Visit} {marked : List NodeId} {x : NodeId}
    (h : x ∈ g.unwind stack marked) : .leave x ∈ stack ∨ x < g.size := by
  induction stack, marked using unwind_induction g with
  | nil marked => rw [unwind_nil] at h; exact absurd h List.not_mem_nil
  | leave v rest marked ih =>
      rw [unwind_leave] at h
      rcases List.mem_cons.mp h with rfl | hmem
      · exact Or.inl List.mem_cons_self
      · exact (ih hmem).imp_left (List.mem_cons_of_mem _)
  | enter v rest marked hfresh ih =>
      rw [unwind_enter_fresh rest hfresh] at h
      rcases ih h with hleave | hlt
      · rcases leave_mem_expanded.mp hleave with rfl | hrest
        · exact Or.inr (fresh_iff.mp hfresh).1
        · exact Or.inl (List.mem_cons_of_mem _ hrest)
      · exact Or.inr hlt
  | skip v rest marked hstale ih =>
      rw [unwind_enter_stale rest hstale] at h
      exact (ih h).imp_left (List.mem_cons_of_mem _)

/-- What is to be entered ends up listed, if it is not marked. -/
theorem mem_unwind_of_enter {stack : List Visit} {marked : List NodeId} {x : NodeId}
    (h : .enter x ∈ stack) (hlt : x < g.size) : x ∈ g.unwind stack marked ∨ x ∈ marked := by
  induction stack, marked using unwind_induction g with
  | nil marked => exact absurd h List.not_mem_nil
  | leave v rest marked ih =>
      rw [unwind_leave]
      exact (ih (by simpa using h)).imp_left (List.mem_cons_of_mem v)
  | enter v rest marked hfresh ih =>
      rw [unwind_enter_fresh rest hfresh]
      have hv : v ∈ g.unwind ((g.freshSuccessors (v :: marked) v).map .enter ++ .leave v :: rest)
          (v :: marked) := mem_unwind_of_leave (leave_mem_expanded.mpr (Or.inl rfl))
      rcases List.mem_cons.mp h with heq | hmem
      · exact Or.inl (Visit.enter.inj heq ▸ hv)
      · rcases ih (enter_mem_expanded.mpr (Or.inr hmem)) with hlisted | hmarked
        · exact Or.inl hlisted
        · rcases List.mem_cons.mp hmarked with rfl | hmarked'
          · exact Or.inl hv
          · exact Or.inr hmarked'
  | skip v rest marked hstale ih =>
      rw [unwind_enter_stale rest hstale]
      rcases List.mem_cons.mp h with heq | hmem
      · -- a node that is refused although it belongs to the graph is marked
        have hxv : x = v := Visit.enter.inj heq
        refine Or.inr (Classical.byContradiction fun hnot => hstale ?_)
        exact fresh_iff.mpr (hxv ▸ ⟨hlt, hnot⟩)
      · exact ih hmem

/-- Listed nodes have their successors listed or marked, except those that were
    to be left already. -/
theorem successor_mem_unwind {stack : List Visit} {marked : List NodeId} {x y : NodeId}
    (h : x ∈ g.unwind stack marked) (hxy : g.Edge x y) (hlt : y < g.size) :
    .leave x ∈ stack ∨ y ∈ g.unwind stack marked ∨ y ∈ marked := by
  induction stack, marked using unwind_induction g with
  | nil marked => rw [unwind_nil] at h; exact absurd h List.not_mem_nil
  | leave v rest marked ih =>
      rw [unwind_leave] at h ⊢
      rcases List.mem_cons.mp h with rfl | hmem
      · exact Or.inl List.mem_cons_self
      · rcases ih hmem with hleave | hlisted | hmarked
        · exact Or.inl (List.mem_cons_of_mem _ hleave)
        · exact Or.inr (Or.inl (List.mem_cons_of_mem v hlisted))
        · exact Or.inr (Or.inr hmarked)
  | enter v rest marked hfresh ih =>
      rw [unwind_enter_fresh rest hfresh] at h ⊢
      have hv : v ∈ g.unwind ((g.freshSuccessors (v :: marked) v).map .enter ++ .leave v :: rest)
          (v :: marked) := mem_unwind_of_leave (leave_mem_expanded.mpr (Or.inl rfl))
      -- a mark on the node just entered amounts to its being listed
      have hdrop : ∀ z, z ∈ v :: marked →
          z ∈ g.unwind ((g.freshSuccessors (v :: marked) v).map .enter ++ .leave v :: rest)
            (v :: marked) ∨ z ∈ marked := by
        intro z hz
        rcases List.mem_cons.mp hz with rfl | hz'
        · exact Or.inl hv
        · exact Or.inr hz'
      rcases ih h with hleave | hlisted | hmarked
      · rcases leave_mem_expanded.mp hleave with rfl | hrest
        · refine Or.inr ?_
          by_cases hy : y ∈ x :: marked
          · exact hdrop y hy
          · have hnext : y ∈ g.freshSuccessors (x :: marked) x :=
              mem_freshSuccessors.mpr ⟨hxy, hlt, hy⟩
            rcases mem_unwind_of_enter (enter_mem_expanded.mpr (Or.inl hnext)) hlt with
              hlisted | hmarked
            · exact Or.inl hlisted
            · exact hdrop y hmarked
        · exact Or.inl (List.mem_cons_of_mem _ hrest)
      · exact Or.inr (Or.inl hlisted)
      · exact Or.inr (hdrop y hmarked)
  | skip v rest marked hstale ih =>
      rw [unwind_enter_stale rest hstale] at h ⊢
      exact (ih h).imp_left (List.mem_cons_of_mem _)

/-- Listed nodes are reached from a node to be entered, except those that were
    to be left already. -/
theorem reaches_of_mem_unwind {stack : List Visit} {marked : List NodeId} {x : NodeId}
    (h : x ∈ g.unwind stack marked) :
    .leave x ∈ stack ∨ ∃ e, .enter e ∈ stack ∧ Reaches g.Link e x := by
  induction stack, marked using unwind_induction g with
  | nil marked => rw [unwind_nil] at h; exact absurd h List.not_mem_nil
  | leave v rest marked ih =>
      rw [unwind_leave] at h
      rcases List.mem_cons.mp h with rfl | hmem
      · exact Or.inl List.mem_cons_self
      · rcases ih hmem with hleave | ⟨e, he, hreach⟩
        · exact Or.inl (List.mem_cons_of_mem _ hleave)
        · exact Or.inr ⟨e, List.mem_cons_of_mem _ he, hreach⟩
  | enter v rest marked hfresh ih =>
      rw [unwind_enter_fresh rest hfresh] at h
      rcases ih h with hleave | ⟨e, he, hreach⟩
      · rcases leave_mem_expanded.mp hleave with rfl | hrest
        · exact Or.inr ⟨x, List.mem_cons_self, Reaches.refl x⟩
        · exact Or.inl (List.mem_cons_of_mem _ hrest)
      · rcases enter_mem_expanded.mp he with hnext | hrest
        · obtain ⟨hedge, hlt, -⟩ := mem_freshSuccessors.mp hnext
          refine Or.inr ⟨v, List.mem_cons_self, ?_⟩
          exact ((Reaches.refl v).tail ⟨hedge, hlt⟩).trans hreach
        · exact Or.inr ⟨e, List.mem_cons_of_mem _ hrest, hreach⟩
  | skip v rest marked hstale ih =>
      rw [unwind_enter_stale rest hstale] at h
      rcases ih h with hleave | ⟨e, he, hreach⟩
      · exact Or.inl (List.mem_cons_of_mem _ hleave)
      · exact Or.inr ⟨e, List.mem_cons_of_mem _ he, hreach⟩

/-! ## Each node once -/

/-- The nodes a stack is to leave, from the top. -/
def leaving (stack : List Visit) : List NodeId :=
  stack.filterMap fun
    | .leave v => some v
    | .enter _ => none

theorem leaving_map_enter (nodes : List NodeId) : leaving (nodes.map .enter) = [] := by
  induction nodes with
  | nil => rfl
  | cons _ _ ih => exact ih

theorem leaving_expanded (marked : List NodeId) (v : NodeId) (rest : List Visit) :
    leaving ((g.freshSuccessors marked v).map .enter ++ .leave v :: rest) = v :: leaving rest := by
  have happend : leaving ((g.freshSuccessors marked v).map .enter ++ .leave v :: rest) =
      leaving ((g.freshSuccessors marked v).map .enter) ++ leaving (.leave v :: rest) :=
    List.filterMap_append
  rw [happend, leaving_map_enter]
  rfl

/-- Nothing is listed twice, and nothing that was marked, except for the nodes to
    be left, as long as these are marked and stacked once. -/
theorem nodup_unwind (stack : List Visit) (marked : List NodeId) (hnodup : (leaving stack).Nodup)
    (hmarked : ∀ x ∈ leaving stack, x ∈ marked) :
    (g.unwind stack marked).Nodup ∧
      ∀ x ∈ g.unwind stack marked, x ∈ leaving stack ∨ x ∉ marked := by
  induction stack, marked using unwind_induction g with
  | nil marked =>
      rw [unwind_nil]
      exact ⟨List.nodup_nil, fun x hx => absurd hx List.not_mem_nil⟩
  | leave v rest marked ih =>
      have hsplit : leaving (.leave v :: rest) = v :: leaving rest := rfl
      rw [hsplit] at hnodup hmarked
      obtain ⟨hv, hrest⟩ := List.nodup_cons.mp hnodup
      obtain ⟨hout, hnew⟩ := ih hrest fun x hx => hmarked x (List.mem_cons_of_mem v hx)
      rw [unwind_leave, hsplit]
      refine ⟨List.nodup_cons.mpr ⟨?_, hout⟩, ?_⟩
      · intro hmem
        rcases hnew v hmem with hleaving | hnot
        · exact hv hleaving
        · exact hnot (hmarked v List.mem_cons_self)
      · intro x hx
        rcases List.mem_cons.mp hx with rfl | hmem
        · exact Or.inl List.mem_cons_self
        · exact (hnew x hmem).imp_left (List.mem_cons_of_mem v)
  | enter v rest marked hfresh ih =>
      have hnot : v ∉ marked := (fresh_iff.mp hfresh).2
      have hsplit : leaving (.enter v :: rest) = leaving rest := rfl
      rw [hsplit] at hnodup hmarked
      have hlast : leaving ((g.freshSuccessors (v :: marked) v).map .enter ++ .leave v :: rest)
          = v :: leaving rest := leaving_expanded (v :: marked) v rest
      rw [hlast] at ih
      obtain ⟨hout, hnew⟩ := ih
        (List.nodup_cons.mpr ⟨fun hmem => hnot (hmarked v hmem), hnodup⟩)
        (by
          intro x hx
          rcases List.mem_cons.mp hx with rfl | hx'
          · exact List.mem_cons_self
          · exact List.mem_cons_of_mem v (hmarked x hx'))
      rw [unwind_enter_fresh rest hfresh, hsplit]
      refine ⟨hout, ?_⟩
      intro x hx
      rcases hnew x hx with hleaving | hnotmem
      · rcases List.mem_cons.mp hleaving with rfl | hrest
        · exact Or.inr hnot
        · exact Or.inl hrest
      · exact Or.inr fun hmem => hnotmem (List.mem_cons_of_mem v hmem)
  | skip v rest marked hstale ih =>
      rw [unwind_enter_stale rest hstale]
      exact ih hnodup hmarked

/-! ## Each node before one that leads to it -/

/-- A listed node that was not on the stack from the beginning stands before a
    node with an edge to it. -/
theorem parent_of_mem_unwind {stack : List Visit} {marked : List NodeId} {x : NodeId}
    (h : x ∈ g.unwind stack marked) :
    .leave x ∈ stack ∨ .enter x ∈ stack ∨
      ∃ u, g.Edge u x ∧ [x, u].Sublist (g.unwind stack marked) := by
  induction stack, marked using unwind_induction g with
  | nil marked => rw [unwind_nil] at h; exact absurd h List.not_mem_nil
  | leave v rest marked ih =>
      rw [unwind_leave] at h ⊢
      rcases List.mem_cons.mp h with rfl | hmem
      · exact Or.inl List.mem_cons_self
      · rcases ih hmem with hleave | henter | ⟨u, hedge, hsub⟩
        · exact Or.inl (List.mem_cons_of_mem _ hleave)
        · exact Or.inr (Or.inl (List.mem_cons_of_mem _ henter))
        · exact Or.inr (Or.inr ⟨u, hedge, hsub.cons v⟩)
  | enter v rest marked hfresh ih =>
      rw [unwind_enter_fresh rest hfresh] at h ⊢
      rcases ih h with hleave | henter | hparent
      · rcases leave_mem_expanded.mp hleave with rfl | hrest
        · exact Or.inr (Or.inl List.mem_cons_self)
        · exact Or.inl (List.mem_cons_of_mem _ hrest)
      · rcases enter_mem_expanded.mp henter with hnext | hrest
        · -- a fresh successor is listed before the node itself is left
          obtain ⟨hedge, hlt, hnot⟩ := mem_freshSuccessors.mp hnext
          refine Or.inr (Or.inr ⟨v, hedge, ?_⟩)
          rw [unwind_append _ _ _ (by simp), unwind_leave]
          have hx : x ∈ g.unwind ((g.freshSuccessors (v :: marked) v).map .enter) (v :: marked) :=
            (mem_unwind_of_enter (List.mem_map_of_mem hnext) hlt).resolve_right hnot
          exact (List.singleton_sublist.mpr hx).append
            (List.singleton_sublist.mpr List.mem_cons_self)
        · exact Or.inr (Or.inl (List.mem_cons_of_mem _ hrest))
      · exact Or.inr (Or.inr hparent)
  | skip v rest marked hstale ih =>
      rw [unwind_enter_stale rest hstale] at h ⊢
      rcases ih h with hleave | henter | hparent
      · exact Or.inl (List.mem_cons_of_mem _ hleave)
      · exact Or.inr (Or.inl (List.mem_cons_of_mem _ henter))
      · exact Or.inr (Or.inr hparent)

/-! ## The postorder from a start -/

variable {start x : NodeId}

theorem postorder_eq (hstart : start < g.size) :
    g.postorder start = g.unwind [.enter start] [] := by
  unfold postorder
  rw [if_pos hstart]

theorem postorder_outside (hstart : ¬ start < g.size) : g.postorder start = [] := by
  rw [postorder, if_neg hstart]

/-- The start comes last. -/
theorem postorder_eq_append (hstart : start < g.size) :
    ∃ below, g.postorder start = below ++ [start] := by
  have hfresh : fresh g.size [] start = true := fresh_iff.mpr ⟨hstart, List.not_mem_nil⟩
  rw [postorder_eq hstart, unwind_enter_fresh [] hfresh, unwind_append _ _ _ (by simp),
    unwind_leave, unwind_nil]
  exact ⟨_, rfl⟩

theorem getLast?_postorder (g : Graph) (start : NodeId) :
    (g.postorder start).getLast? = if start < g.size then some start else none := by
  split
  · rename_i hstart
    obtain ⟨below, hbelow⟩ := postorder_eq_append hstart
    rw [hbelow, List.getLast?_concat]
  · rename_i hstart
    rw [postorder_outside hstart]
    rfl

theorem postorder_eq_nil_iff : g.postorder start = [] ↔ g.size ≤ start := by
  rw [← List.getLast?_eq_none_iff, getLast?_postorder, ite_eq_right_iff, ← Nat.not_lt]
  exact imp_congr_right fun _ => iff_false_intro (Option.some_ne_none start)

/-- The postorder lists what is reached from the start within the graph. -/
theorem mem_postorder_iff_link :
    x ∈ g.postorder start ↔ start < g.size ∧ Reaches g.Link start x := by
  by_cases hstart : start < g.size
  · rw [postorder_eq hstart, and_iff_right hstart]
    constructor
    · intro h
      rcases reaches_of_mem_unwind h with hleave | ⟨e, he, hreach⟩
      · simp at hleave
      · have heq : e = start := Visit.enter.inj (List.mem_singleton.mp he)
        exact heq ▸ hreach
    · intro h
      refine h.induction ?_ ?_
      · exact (mem_unwind_of_enter List.mem_cons_self hstart).resolve_right List.not_mem_nil
      · intro u v _ hu huv
        rcases successor_mem_unwind hu huv.1 huv.2 with hleave | hlisted | hmarked
        · simp at hleave
        · exact hlisted
        · exact absurd hmarked List.not_mem_nil
  · rw [postorder_outside hstart]
    exact iff_of_false List.not_mem_nil fun h => hstart h.1

theorem mem_postorder_iff (hstart : start < g.size) (hsize : ∀ u v, g.Edge u v → v < g.size) :
    x ∈ g.postorder start ↔ Reaches g.Edge start x := by
  rw [mem_postorder_iff_link, and_iff_right hstart, reaches_link_iff hsize]

/-- Each node is listed once. -/
theorem nodup_postorder (g : Graph) (start : NodeId) : (g.postorder start).Nodup := by
  unfold postorder
  split
  · exact (nodup_unwind [.enter start] [] List.nodup_nil fun x hx => absurd hx List.not_mem_nil).1
  · exact List.nodup_nil

theorem lt_size_of_mem_postorder (h : x ∈ g.postorder start) : x < g.size := by
  unfold postorder at h
  split at h
  · rcases lt_size_of_mem_unwind h with hleave | hlt
    · simp at hleave
    · exact hlt
  · exact absurd h List.not_mem_nil

/-- Every listed node but the start stands before a node with an edge to it. -/
theorem parent_of_mem_postorder (h : x ∈ g.postorder start) (hne : x ≠ start) :
    ∃ u, g.Edge u x ∧ [x, u].Sublist (g.postorder start) := by
  unfold postorder at h ⊢
  split at h
  · rename_i hlt
    rw [if_pos hlt]
    rcases parent_of_mem_unwind h with hleave | henter | hparent
    · simp at hleave
    · exact absurd (Visit.enter.inj (List.mem_singleton.mp henter)) hne
    · exact hparent
  · exact absurd h List.not_mem_nil

end ControlFlow.Graph
