import ControlFlow.Proofs.DepthFirst
import ControlFlow.Proofs.Search

/-!
# The order a search lists its nodes in

    `search` marks a node when it stacks it, before anything below it is visited.
    A node thus claims all its successors that nobody claimed yet, and these are
    visited in their order with what they claim in turn.  The search lists the
    forest of this recursion (`search_eq_preorder_claimFirst`).

    It is not the forest of a depth-first search: a successor that an earlier node
    claimed is visited on behalf of that node, after everything stacked above it,
    and not from the node the search is at.  The first place where this shows in
    the list is a node that is passed over (`PassesOver`), and the list is the
    preorder of the depth-first search exactly when there is no such place.
-/

namespace ControlFlow.Graph

variable {g : Graph} {start : NodeId}

/-! ## Claims -/

/-- The successors of a node that are not claimed, each where it stands last. -/
def unclaimed (g : Graph) (claimed : List NodeId) (v : NodeId) : List NodeId :=
  (g.freshSuccessors claimed v).dedup

/-- Claiming the unclaimed successors of a node takes them from what is unmarked. -/
theorem unmarked_unclaimed_le (g : Graph) (claimed : List NodeId) (v : NodeId) :
    unmarked (fun _ => 2) g.size (g.unclaimed claimed v ++ claimed) +
      (g.unclaimed claimed v).length ≤ unmarked (fun _ => 2) g.size claimed := by
  have hwork := Pending.work_pushAll_le g.size (g.successors v) ⟨[], claimed⟩
  rw [Pending.pushAll_eq, List.append_nil] at hwork
  exact hwork

/-- Visits the nodes of a list one after the other.  Each of them claims its
    unclaimed successors, all of them before the first is visited. -/
def claim (g : Graph) (claimed : List NodeId) : (nodes : List NodeId) → Forest
  | [] => .nil
  | v :: vs =>
      let below := g.claim (g.unclaimed claimed v ++ claimed) (g.unclaimed claimed v)
      .tree v below (g.claim (below.preorder ++ claimed) vs)
termination_by nodes => unmarked (fun _ => 2) g.size claimed + nodes.length
decreasing_by
  · have hclaim := g.unmarked_unclaimed_le claimed v
    rw [List.length_cons]
    omega
  · refine Nat.add_lt_add_of_le_of_lt (unmarked_append_le _ _ _ _) ?_
    rw [List.length_cons]
    omega

/-- The forest of the search from one node; none when the node is outside the
    graph. -/
def claimFirst (g : Graph) (start : NodeId) : Forest :=
  if start < g.size then g.claim [start] [start] else .nil

theorem claim_nil (claimed : List NodeId) : g.claim claimed [] = .nil := by
  rw [claim]

theorem claim_cons (claimed : List NodeId) (v : NodeId) (vs : List NodeId) :
    g.claim claimed (v :: vs) =
      .tree v (g.claim (g.unclaimed claimed v ++ claimed) (g.unclaimed claimed v))
        (g.claim ((g.claim (g.unclaimed claimed v ++ claimed) (g.unclaimed claimed v)).preorder ++
          claimed) vs) := by
  rw [claim]

/-- Induction along the recursion. -/
@[elab_as_elim]
theorem claim_induction (g : Graph) {motive : List NodeId → List NodeId → Prop}
    (nil : ∀ claimed, motive claimed [])
    (visit : ∀ claimed v vs,
      motive (g.unclaimed claimed v ++ claimed) (g.unclaimed claimed v) →
      motive ((g.claim (g.unclaimed claimed v ++ claimed) (g.unclaimed claimed v)).preorder ++
        claimed) vs →
      motive claimed (v :: vs))
    (claimed nodes : List NodeId) : motive claimed nodes :=
  claim.induct g motive nil visit claimed nodes

/-- The nodes of the list are visited. -/
theorem mem_claim_of_mem {claimed nodes : List NodeId} {x : NodeId} (h : x ∈ nodes) :
    x ∈ (g.claim claimed nodes).preorder := by
  induction nodes generalizing claimed with
  | nil => exact absurd h List.not_mem_nil
  | cons v vs ih =>
      rw [claim_cons, Forest.preorder]
      rcases List.mem_cons.mp h with rfl | hmem
      · exact List.mem_cons_self
      · exact List.mem_cons_of_mem v (List.mem_append_right _ (ih hmem))

/-! ## The stack works off the claims -/

theorem drain_nil (marked : List NodeId) : g.drain ⟨[], marked⟩ = [] := by
  rw [drain]

theorem drain_cons (v : NodeId) (rest marked : List NodeId) :
    g.drain ⟨v :: rest, marked⟩ =
      v :: g.drain ⟨g.unclaimed marked v ++ rest, g.unclaimed marked v ++ marked⟩ := by
  rw [drain, Pending.pushAll_eq]
  rfl

/-- Only which nodes are marked matters. -/
theorem drain_congr (s : Pending) (marked : List NodeId) (h : ∀ v, v ∈ s.marked ↔ v ∈ marked) :
    g.drain s = g.drain ⟨s.stack, marked⟩ := by
  fun_induction drain g s generalizing marked with
  | case1 claimed => rw [drain_nil]
  | case2 v rest claimed ih =>
      have hsame : g.unclaimed claimed v = g.unclaimed marked v :=
        congrArg List.dedup (List.filter_congr fun x _ => fresh_congr h x)
      have hstep : Pending.pushAll g.size (g.successors v) ⟨rest, claimed⟩ =
          ⟨g.unclaimed marked v ++ rest, g.unclaimed marked v ++ claimed⟩ := by
        rw [← hsame]
        exact Pending.pushAll_eq g.size (g.successors v) ⟨rest, claimed⟩
      rw [drain_cons]
      rw [hstep] at ih ⊢
      rw [ih (g.unclaimed marked v ++ marked) fun x => by
        rw [List.mem_append, List.mem_append, h x]]

/-- A stack of claimed nodes lists their forest and goes on below them with the
    forest claimed. -/
theorem drain_append (claimed nodes rest : List NodeId) (h : ∀ v ∈ nodes, v ∈ claimed) :
    g.drain ⟨nodes ++ rest, claimed⟩ =
      (g.claim claimed nodes).preorder ++
        g.drain ⟨rest, (g.claim claimed nodes).preorder ++ claimed⟩ := by
  induction claimed, nodes using claim_induction g generalizing rest with
  | nil claimed => rw [claim_nil]; rfl
  | visit claimed v vs ihbelow ihbeside =>
      have hv : v ∈ claimed := h v List.mem_cons_self
      have hown : ∀ x ∈ g.unclaimed claimed v,
          x ∈ (g.claim (g.unclaimed claimed v ++ claimed) (g.unclaimed claimed v)).preorder :=
        fun x => mem_claim_of_mem
      rw [List.cons_append, drain_cons, ihbelow (vs ++ rest) fun x => List.mem_append_left _,
        claim_cons, Forest.preorder]
      generalize (g.claim (g.unclaimed claimed v ++ claimed) (g.unclaimed claimed v)).preorder =
        below at *
      -- what `v` claimed is listed below it, so that the claim says nothing more
      rw [drain_congr _ (below ++ claimed) fun x => by grind,
        ihbeside rest fun x hx => List.mem_append_right _ (h x (List.mem_cons_of_mem v hx)),
        List.cons_append, List.append_assoc,
        drain_congr _ (v :: (below ++ (g.claim (below ++ claimed) vs).preorder) ++ claimed)
          fun x => by grind]

/-- The search lists what its start claims. -/
theorem search_eq_preorder_claimFirst (g : Graph) (start : NodeId) :
    g.search start = (g.claimFirst start).preorder := by
  rw [search, claimFirst]
  split
  · have hdrain := drain_append (g := g) [start] [start] [] fun v hv => hv
    rwa [List.append_nil, drain_nil, List.append_nil] at hdrain
  · rfl

/-! ## Nodes that are passed over -/

/-- At some place another node stands than the one that comes next there in a
    depth-first search. -/
def PassesOver (g : Graph) (order : List NodeId) : Prop :=
  ∃ before v after w, order = before ++ v :: after ∧ g.next? before = some w ∧ w ≠ v

/-- At every place but the first some node comes next: the one that stands there is
    not listed before, and something before it leads to it. -/
theorem next?_before_ne_none {before after : List NodeId} {v : NodeId} (hstart : start < g.size)
    (h : g.search start = start :: before ++ v :: after) : g.next? (start :: before) ≠ none := by
  have hnot : v ∉ start :: before := by
    have hnodup := nodup_search g start
    rw [h, List.nodup_append] at hnodup
    exact fun hmem => hnodup.2.2 v hmem v List.mem_cons_self rfl
  rw [search, if_pos hstart] at h
  obtain ⟨u, hu, hedge, hlt⟩ := (link_of_drain_eq h).resolve_left fun hv =>
    hnot (List.mem_singleton.mp hv ▸ List.mem_cons_self)
  rw [Ne, next?_eq_none_iff]
  exact fun hspent => hspent u hu v hedge (fresh_iff.mpr ⟨hlt, hnot⟩)

/-- In the end nothing is left to come. -/
theorem next?_search (g : Graph) (start : NodeId) : g.next? (g.search start) = none := by
  rw [next?_eq_none_iff]
  intro v hv w hw hfresh
  obtain ⟨hlt, hnot⟩ := fresh_iff.mp hfresh
  rw [mem_search_iff_link] at hv hnot
  exact hnot ⟨hv.1, hv.2.tail ⟨hw, hlt⟩⟩

/-- The search departs from the depth-first preorder exactly by passing over a node. -/
theorem passesOver_search_iff (g : Graph) (start : NodeId) :
    g.PassesOver (g.search start) ↔ g.search start ≠ (g.depthFirst start).preorder := by
  by_cases hstart : start < g.size
  · obtain ⟨rest, hrest⟩ := search_eq_cons hstart
    obtain ⟨tail, htail, hcontinues⟩ := continues_depthFirst hstart
    constructor
    · rintro ⟨before, v, after, w, hsplit, hnext, hne⟩ heq
      rw [heq, htail] at hsplit
      cases before with
      | nil => exact absurd hnext (Option.some_ne_none w).symm
      | cons u before =>
          obtain ⟨rfl, hafter⟩ := List.cons.inj hsplit
          have hv := (continues_iff.mp hcontinues).1 before v after hafter
          exact hne (Option.some.inj (hnext.symm.trans hv))
    · intro hne
      refine Classical.byContradiction fun hnot => hne ?_
      have hsearch : g.Continues [start] rest := by
        have hend := next?_search g start
        rw [hrest] at hend
        refine continues_iff.mpr ⟨fun before v after hsplit => ?_, hend⟩
        have hat : g.search start = start :: before ++ v :: after := by
          rw [hrest, hsplit, List.cons_append]
        obtain ⟨w, hw⟩ := Option.ne_none_iff_exists'.mp (next?_before_ne_none hstart hat)
        refine hw.trans (congrArg some (Classical.byContradiction fun hwv => hnot ?_))
        exact ⟨start :: before, v, after, w, hat, hw, hwv⟩
      rw [hrest, htail, hsearch.unique hcontinues]
  · rw [search_outside hstart, depthFirst_outside hstart]
    refine iff_of_false ?_ (fun hne => hne rfl)
    rintro ⟨before, v, after, w, hsplit, -⟩
    simp at hsplit

/-- The search lists the forest of claims; this is the preorder of the depth-first
    search unless a node is passed over. -/
theorem search_claims_and_departs_iff (g : Graph) (start : NodeId) :
    g.search start = (g.claimFirst start).preorder ∧
      (g.search start ≠ (g.depthFirst start).preorder ↔ g.PassesOver (g.search start)) :=
  ⟨search_eq_preorder_claimFirst g start, (passesOver_search_iff g start).symm⟩

/-- A node that has edges to three others, the first of which leads to the last. -/
def sharedSuccessor : Graph where
  size := 4
  successors
    | 0 => [1, 2, 3]
    | 1 => [3]
    | _ => []
  predecessors
    | 1 => [0]
    | 2 => [0]
    | 3 => [0, 1]
    | _ => []

/-- The last node is claimed at the start and passed over when the search is at the
    first: a depth-first search goes on from there. -/
theorem search_sharedSuccessor :
    sharedSuccessor.search 0 = [0, 1, 2, 3] ∧
      (sharedSuccessor.depthFirst 0).preorder = [0, 1, 3, 2] ∧
      sharedSuccessor.PassesOver (sharedSuccessor.search 0) := by
  have hsearch : sharedSuccessor.search 0 = [0, 1, 2, 3] := by decide +kernel
  have hpreorder : (sharedSuccessor.depthFirst 0).preorder = [0, 1, 3, 2] := by decide +kernel
  refine ⟨hsearch, hpreorder, (search_claims_and_departs_iff sharedSuccessor 0).2.mp ?_⟩
  rw [hsearch, hpreorder]
  decide

/-! ## Both traversals -/

/-- Both traversals list exactly the nodes that a directed path within the graph leads
    to, each once; the search begins with the start, the postorder ends with it, and
    outside the graph both are empty. -/
theorem search_and_postorder_enumerate (g : Graph) (start : NodeId) :
    (∀ x, x ∈ g.search start ↔ start < g.size ∧ Reaches g.Link start x) ∧
      (∀ x, x ∈ g.postorder start ↔ start < g.size ∧ Reaches g.Link start x) ∧
      (g.search start).Nodup ∧ (g.postorder start).Nodup ∧
      (g.search start).head? = (if start < g.size then some start else none) ∧
      (g.postorder start).getLast? = (if start < g.size then some start else none) ∧
      (g.search start = [] ↔ g.size ≤ start) ∧ (g.postorder start = [] ↔ g.size ≤ start) :=
  ⟨fun _ => mem_search_iff_link, fun _ => mem_postorder_iff_link, nodup_search g start,
    nodup_postorder g start, head?_search g start, getLast?_postorder g start, search_eq_nil_iff,
    postorder_eq_nil_iff⟩

end ControlFlow.Graph
