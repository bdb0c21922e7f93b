import ControlFlow.Proofs.Dominance
import ControlFlow.Proofs.Reachability

/-!
# Without cycles two sweeps do

    Sweeps go against the postorder, and without cycles every step of control
    goes down in it.  So when a sweep comes to a block, all that the block is
    refined from is final, and the first sweep gets everything right.  The second
    one is there to find that out; it is the first itself when nothing is reached
    but the start.

    For the slots of the dominators this follows from where a sweep leaves them
    (`Placed`): the bounds from above and from below are about the same incoming
    positions then.  The sets of reachability are shown to be complete block by
    block, in the order in which they are swept.

    Blocks that are not reached do not matter, whatever cycles they form and
    wherever their edges lead.
-/

namespace ControlFlow

variable {f : Procedure} {direction : Direction} {start b u : NodeId}

/-! ## The order -/

namespace BlockOrder

/-- Without cycles every step goes down. -/
theorem lt_of_flow {p q : Nat} (hf : f.Built) (hacyclic : direction.Acyclic f)
    (hflow : direction.Flow f u b) (hu : (of f direction).position? u = some q)
    (hb : (of f direction).position? b = some p) : p < q := by
  refine Nat.lt_of_not_le fun hle => ?_
  have hreached := (exists_position?_iff hf).mp ⟨q, hu⟩
  exact hacyclic u b hreached hflow (reaches_of_le hf hflow hu hb hle)

/-- Without cycles all reached blocks with a step to a block come after it in the
    order, that is to say before it in a sweep. -/
theorem mem_of_flow {rest : List NodeId} (hf : f.Built) (hacyclic : direction.Acyclic f)
    (hsuffix : b :: rest <:+ (of f direction).postorder) (hu : direction.Reached f u)
    (hflow : direction.Flow f u b) : u ∈ rest := by
  obtain ⟨front, hfront⟩ := hsuffix
  have hb : (of f direction).position? b = some front.length := by
    rw [position?_of, ← hfront, List.getElem?_append_right (Nat.le_refl _), Nat.sub_self]
    rfl
  obtain ⟨q, hq⟩ := (exists_position?_iff hf).mpr hu
  have hlt := lt_of_flow hf hacyclic hflow hq hb
  rw [position?_of, ← hfront, List.getElem?_append_right (Nat.le_of_lt hlt),
    List.getElem?_cons, if_neg (by omega)] at hq
  exact List.mem_of_getElem? hq

/-- There is no position below that of the start exactly when nothing else is
    reached. -/
theorem last_eq_zero_iff (hf : f.Built) (hstart : direction.start? f = some start) :
    (of f direction).size - 1 = 0 ↔ ∀ b, direction.Reached f b → b = start := by
  have hlast := position?_start hf hstart
  constructor
  · intro hzero b hb
    obtain ⟨p, hp⟩ := (exists_position?_iff hf).mpr hb
    have hlt := position?_lt hp
    obtain rfl : p = (of f direction).size - 1 := by omega
    exact block_eq_of_position? hp hlast
  · intro halone
    obtain ⟨b, hb⟩ := exists_block (Nat.zero_lt_of_lt (position?_lt hlast))
    obtain rfl := halone b ((exists_position?_iff hf).mp ⟨0, hb⟩)
    exact Option.some.inj (hlast.symm.trans hb)

end BlockOrder

/-! ## The number of sweeps -/

/-- The number of sweeps is one when nothing but the start is reached, and two
    otherwise. -/
structure Direction.Prompt (direction : Direction) (f : Procedure) (start : NodeId)
    (sweeps : Nat) : Prop where
  alone : (∀ b, direction.Reached f b → b = start) → sweeps = 1
  others : (∃ b, direction.Reached f b ∧ b ≠ start) → sweeps = 2

/-- It is so when a second sweep never changes anything, and the first one does so
    unless the start is alone. -/
theorem Direction.Prompt.of_settleWithin {σ : Type} [DecidableEq σ] {sweep : σ → σ}
    {bound sweeps : Nat} {s t : σ} (hagain : sweep (sweep s) = sweep s)
    (hfirst : sweep s = s ↔ ∀ b, direction.Reached f b → b = start)
    (h : settleWithin sweep bound s = some (t, sweeps)) : direction.Prompt f start sweeps := by
  have hcount := settleWithin_count hagain h
  constructor
  · intro halone
    rw [hcount, if_pos (hfirst.mpr halone)]
  · rintro ⟨b, hb, hne⟩
    rw [hcount, if_neg fun hsame => hne (hfirst.mp hsame b hb)]

/-! ## Dominators -/

namespace Slots

variable {incoming : Nat → List Nat} {first p : Nat} {s : Slots}

/-- Where a position is placed and all that comes in comes from above, refining it
    changes nothing. -/
theorem Placed.refine_eq (h : Placed incoming s p) (hfed : Fed incoming first)
    (hs : Rising s first) (hknown : ∀ q, q ≤ first → s.isKnown q = true)
    (habove : ∀ q ∈ incoming p, p < q) (hp : p < first) : refine incoming first p s = s := by
  obtain ⟨m, href⟩ := refined_refine hfed hs (fun q _ hle => hknown q hle) hp
  obtain ⟨y, hy⟩ := isKnown_iff.mp (hknown p (Nat.le_of_lt hp))
  have hnearest : NearestCommon s (fun q => q ∈ incoming p ∧ s.isKnown q = true) y := by
    refine ⟨fun q hq => h.above y q hy hq.1 (habove q hq.1), fun c hc => ?_⟩
    exact h.below y c hy fun q hq hqknown => hc q ⟨hq, hqknown⟩
  obtain rfl := hnearest.unique hs href.nearest
  exact href.eq_of_slot hy

/-- Where all that comes in comes from above, a second sweep changes nothing. -/
theorem Settling.sweep_sweep (h : Settling incoming first s) (hfed : Fed incoming first)
    (habove : ∀ p, ∀ q ∈ incoming p, p < q) :
    Slots.sweep incoming first (Slots.sweep incoming first s) = Slots.sweep incoming first s := by
  have hswept := h.swept hfed
  refine sweep_induction (P := fun _ t => t = Slots.sweep incoming first s) rfl ?_
  rintro p t hp rfl
  have hplaced := hswept.placed p (Nat.zero_le p) hp
  exact hplaced.refine_eq hfed hswept.rising (fun q => hswept.known q (Nat.zero_le q)) (habove p) hp

/-- The first sweep changes something unless there is no position below the start. -/
theorem sweep_initial_eq_iff (hfed : Fed incoming first) :
    sweep incoming first (initial first) = initial first ↔ first = 0 := by
  constructor
  · intro hsame
    -- the lowest position is known after a sweep, and before it only the start is
    have hknown := ((settling_initial incoming first).swept hfed).known 0 (Nat.zero_le 0)
      (Nat.zero_le first)
    rw [hsame] at hknown
    obtain ⟨y, hy⟩ := isKnown_iff.mp hknown
    rw [slot?_initial, Option.ite_none_right_eq_some] at hy
    exact hy.1.symm
  · rintro rfl
    rfl

end Slots

/-- Without cycles all that comes in comes from above. -/
theorem Idoms.lt_of_mem_sources {p q : Nat} (hf : f.Built) (hacyclic : direction.Acyclic f)
    (hq : q ∈ sources f (.of f direction) p) : p < q := by
  obtain ⟨u, b, hflow, hu, hb⟩ := (mem_sources hf).mp hq
  exact BlockOrder.lt_of_flow hf hacyclic hflow hu hb

theorem Idoms.prompt_of_acyclic (hf : f.Built) (hstart : direction.start? f = some start)
    (hacyclic : direction.Acyclic f) :
    direction.Prompt f start (of f (.of f direction)).sweeps := by
  have hfed := fed_sources hf hstart
  obtain ⟨slots, sweeps, hsettle, -, heq⟩ := exists_settled hf hstart
  rw [heq]
  refine .of_settleWithin ?_ ?_ hsettle
  · refine (Slots.settling_initial _ _).sweep_sweep hfed ?_
    intro p q hq
    exact lt_of_mem_sources hf hacyclic hq
  · exact (Slots.sweep_initial_eq_iff hfed).trans (BlockOrder.last_eq_zero_iff hf hstart)

/-! ## Reachability -/

namespace Reachability

variable {entry : NodeId} {s : Array BitSet}

/-- The set of a block holds every reached block with a way to it. -/
def Complete (f : Procedure) (s : Array BitSet) (b : NodeId) : Prop :=
  ∀ x, Direction.forward.Reached f x → Reaches (Direction.forward.Flow f) x b → Holds s x b

/-- What a block gathers from complete sets is complete: control that arrives from
    somewhere arrives by a last step, and brings along what is held there. -/
theorem Growing.gathers_of_complete {x : NodeId} (h : Growing f entry s)
    (hentry : f.entry = some entry)
    (hcomplete : ∀ u, Direction.forward.Reached f u → Direction.forward.Flow f u b →
      Complete f s u)
    (hx : Direction.forward.Reached f x) (hxb : Reaches (Direction.forward.Flow f) x b) :
    Gathers f entry s x b := by
  have harrives : ∀ {y}, Direction.forward.Reached f y → Reaches (Direction.forward.Flow f) y b →
      y = b ∨ Arrives f entry s y b := by
    intro y hy hyb
    rcases hyb.cases_tail with heq | ⟨u, hyu, hub⟩
    · exact Or.inl heq
    · exact Or.inr (Or.inr ⟨u, hub, hcomplete u (hy.trans hyu) hub y hy hyu⟩)
  rcases harrives hx hxb with rfl | hin
  · -- the block itself is held once the entry is
    obtain ⟨start, hstart, hreach⟩ := hx
    obtain rfl : entry = start := Option.some.inj (hentry.symm.trans hstart)
    rcases harrives ⟨entry, hentry, Reaches.refl entry⟩ hreach with rfl | hin
    · exact h.supported _ _ h.seeded
    · exact Or.inr ⟨rfl, entry, hin⟩
  · exact Or.inl hin

/-- Without cycles a sweep completes one set after the other. -/
theorem Growing.complete_sweep (h : Growing f entry s) (hf : f.Built)
    (hentry : f.entry = some entry) (hacyclic : Direction.forward.Acyclic f)
    {blocks : List NodeId} (hsuffix : blocks <:+ (BlockOrder.of f .forward).postorder) :
    ∀ b ∈ blocks, Complete f (Reachability.sweep f entry blocks s) b := by
  induction blocks with
  | nil => exact fun b hb => absurd hb List.not_mem_nil
  | cons b rest ih =>
      have hrest := (List.suffix_cons b rest).trans hsuffix
      have hblocks : ∀ c ∈ b :: rest, c < f.blocks.size := fun c hc =>
        BlockOrder.lt_size_of_mem (hsuffix.subset hc)
      have hgrowing := (h.sweep hf hentry rest fun c hc => hblocks c (List.mem_cons_of_mem b hc)).1
      obtain ⟨-, hgrows, hgathered⟩ := hgrowing.refine hf hentry (hblocks b List.mem_cons_self)
      intro c hc x hx hxc
      rcases List.mem_cons.mp hc with rfl | hmem
      · refine hgathered x (hgrowing.gathers_of_complete hentry ?_ hx hxc)
        intro u hu hflow
        exact ih hrest u (BlockOrder.mem_of_flow hf hacyclic hsuffix hu hflow)
      · exact hgrows x c (ih hrest c hmem x hx hxc)

/-- A sweep changes nothing where everything is complete. -/
theorem Growing.sweep_eq_of_complete (h : Growing f entry s) (hf : f.Built)
    (hentry : f.entry = some entry)
    (hcomplete : ∀ b, Direction.forward.Reached f b → Complete f s b) :
    Reachability.sweep f entry (BlockOrder.of f .forward).postorder s = s := by
  obtain ⟨hgrowing, hgrows, -⟩ :=
    h.sweep hf hentry _ fun b hb => BlockOrder.lt_size_of_mem hb
  refine hgrowing.fitting.ext h.fitting fun x b => ⟨fun hheld => ?_, hgrows x b⟩
  obtain ⟨hx, hxb⟩ := hgrowing.sound x b hheld
  exact hcomplete b (hx.trans hxb) x hx hxb

theorem prompt_of_acyclic (hf : f.Built) (hentry : f.entry = some entry)
    (hacyclic : Direction.forward.Acyclic f) :
    Direction.forward.Prompt f entry (of f).sweeps := by
  have hinitial := growing_initial hf hentry
  have hswept := (hinitial.sweep hf hentry (BlockOrder.of f .forward).postorder
    fun b hb => BlockOrder.lt_size_of_mem hb).1
  have hcomplete : ∀ b, Direction.forward.Reached f b → Complete f
      (sweep f entry (BlockOrder.of f .forward).postorder (initial f.blocks.size entry)) b :=
    fun b hb => hinitial.complete_sweep hf hentry hacyclic (List.suffix_refl _) b
      ((BlockOrder.mem_postorder_iff_reached hf).mpr hb)
  have hholds := (holds_initial (hf.entry_lt hentry)).2
  obtain ⟨sources, sweeps, hsettle, -, -, -, rfl⟩ := exists_settled hf hentry
  refine .of_settleWithin (hswept.sweep_eq_of_complete hf hentry hcomplete) ⟨?_, ?_⟩ hsettle
  · intro hsame b hb
    have hheld := hcomplete b hb b hb (Reaches.refl b)
    rw [hsame] at hheld
    exact ((hholds b b).mp hheld).1
  · intro halone
    refine hinitial.sweep_eq_of_complete hf hentry fun b hb x hx _ => ?_
    exact (hholds x b).mpr ⟨halone b hb, halone x hx⟩

end Reachability

/-! ## Both analyses -/

/-- Where what is reached from the entry has no cycle, reachability and dominators
    take one sweep when that is the entry alone and two otherwise; where what leads to
    the exit has none, so do post-dominators. -/
theorem two_sweeps_of_acyclic (hf : f.Built) :
    (∀ entry, f.entry = some entry → Direction.forward.Acyclic f →
      Direction.forward.Prompt f entry (Reachability.of f).sweeps ∧
        ∀ options, Direction.forward.Prompt f entry (Dominance.of f .forward options).sweeps) ∧
    ∀ exit, f.exit = some exit → Direction.backward.Acyclic f →
      ∀ options, Direction.backward.Prompt f exit (Dominance.of f .backward options).sweeps := by
  constructor
  · intro entry hentry hacyclic
    refine ⟨Reachability.prompt_of_acyclic hf hentry hacyclic, fun options => ?_⟩
    exact Idoms.prompt_of_acyclic hf hentry hacyclic
  · intro exit hexit hacyclic options
    exact Idoms.prompt_of_acyclic hf hexit hacyclic

/-- A block that ends at once, next to a loop that is never entered and leads to it. -/
def Procedure.aside.steps : List Draft.Step :=
  [.block 0, .block 1, .edge 1 1, .edge 1 0, .entry 0]

def Procedure.aside : Procedure :=
  (Draft.start "aside").run aside.steps

theorem Procedure.built_aside : aside.Built :=
  ⟨"aside", aside.steps, rfl⟩

theorem Procedure.successors_aside : aside.successors 0 = [] := by decide +kernel

theorem Procedure.alone_aside (b : NodeId) (hb : Direction.forward.Reached .aside b) : b = 0 := by
  obtain ⟨start, hstart, hreach⟩ := hb
  obtain rfl : 0 = start := Option.some.inj hstart
  refine hreach.induction (P := fun b => b = 0) rfl ?_
  rintro v w - rfl hflow
  rw [Direction.Flow, successors_aside] at hflow
  exact absurd hflow List.not_mem_nil

theorem Procedure.acyclic_aside : Direction.forward.Acyclic .aside := by
  intro u v hu hflow
  rw [alone_aside u hu, Direction.Flow, successors_aside] at hflow
  exact absurd hflow List.not_mem_nil

/-- Backwards the blocks of the branch go down. -/
theorem BlockOrder.acyclic_backward_branch : Direction.backward.Acyclic branch := by
  refine Direction.acyclic_of_rank (fun b => branch.blocks.size - b) fun u v huv => ?_
  have hlt : v < branch.blocks.size := built_branch.linked.flow_lt huv
  exact Nat.sub_lt_sub_left hlt (rising_branch v hlt u huv)

/-- The branch takes two sweeps either way; the loop aside does not count. -/
theorem two_sweeps_branch_one_aside :
    (BlockOrder.branch.Built ∧ Direction.forward.Acyclic BlockOrder.branch ∧
      Direction.backward.Acyclic BlockOrder.branch ∧
      (Reachability.of BlockOrder.branch).sweeps = 2 ∧
      ∀ options, (Dominance.of BlockOrder.branch .forward options).sweeps = 2 ∧
        (Dominance.of BlockOrder.branch .backward options).sweeps = 2) ∧
    Procedure.aside.Built ∧ Direction.forward.Acyclic .aside ∧
      Direction.forward.Flow .aside 1 1 ∧ Direction.forward.Flow .aside 1 0 ∧
      (Reachability.of .aside).sweeps = 1 ∧
      ∀ options, (Dominance.of .aside .forward options).sweeps = 1 := by
  obtain ⟨hforward, hbackward⟩ := two_sweeps_of_acyclic BlockOrder.built_branch
  obtain ⟨hreach, hdominators⟩ := hforward 0 rfl BlockOrder.acyclic_branch
  have hpostDominators := hbackward 3 rfl BlockOrder.acyclic_backward_branch
  have hdown : ∃ b, Direction.forward.Reached BlockOrder.branch b ∧ b ≠ 0 := by
    refine ⟨1, ⟨0, rfl, (Reaches.refl 0).tail ?_⟩, by decide⟩
    show 1 ∈ BlockOrder.branch.successors 0
    decide +kernel
  have hup : ∃ b, Direction.backward.Reached BlockOrder.branch b ∧ b ≠ 3 := by
    refine ⟨1, ⟨3, rfl, (Reaches.refl 3).tail ?_⟩, by decide⟩
    show 3 ∈ BlockOrder.branch.successors 1
    decide +kernel
  obtain ⟨haside, hasideDominators⟩ :=
    (two_sweeps_of_acyclic Procedure.built_aside).1 0 rfl Procedure.acyclic_aside
  refine ⟨⟨BlockOrder.built_branch, BlockOrder.acyclic_branch, BlockOrder.acyclic_backward_branch,
      hreach.others hdown, fun options => ⟨(hdominators options).others hdown,
        (hpostDominators options).others hup⟩⟩,
    Procedure.built_aside, Procedure.acyclic_aside, ?_, ?_, haside.alone Procedure.alone_aside,
    fun options => (hasideDominators options).alone Procedure.alone_aside⟩
  · show 1 ∈ Procedure.aside.successors 1
    decide +kernel
  · show 0 ∈ Procedure.aside.successors 1
    decide +kernel

end ControlFlow
