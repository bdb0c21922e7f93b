import ControlFlow.Proofs.BitSet
import ControlFlow.Proofs.BlockOrder
import ControlFlow.Reachability
import Mathlib.Data.Finset.Card
import Mathlib.Data.Finset.Prod

/-!
# Reachability is the closure of the flow

    A refinement puts a new set in the place of the old one, so that it is not
    plain that sets only grow.  They do because they are `supported` throughout:
    whatever a set holds would be gathered again.  As the sets hold nothing but
    what really reaches their blocks (`sound`) and the entry from the beginning
    (`seeded`), a sweep that changes nothing leaves the whole closure of the flow
    on what is reached from the entry.

    All of this is said of the pairs that the sets hold; `Fitting` sets are
    determined by them.
-/

namespace ControlFlow.Reachability

variable {f : Procedure} {entry b c x y : NodeId} {s t : Array BitSet} {count : Nat}

/-! ## What the sets hold -/

/-- `x` is in the set of `b`. -/
def Holds (s : Array BitSet) (x b : NodeId) : Prop :=
  (s[b]?.map (·.bit x)).getD false = true

instance (s : Array BitSet) (x b : NodeId) : Decidable (Holds s x b) :=
  inferInstanceAs (Decidable (_ = true))

/-- There are as many sets as blocks, and each fits that number. -/
structure Fitting (count : Nat) (s : Array BitSet) : Prop where
  size_eq : s.size = count
  fits : ∀ (b : NodeId) (set : BitSet), s[b]? = some set → set.Fits count

theorem holds_iff : Holds s x b ↔ ∃ set, s[b]? = some set ∧ set.bit x = true := by
  unfold Holds
  cases s[b]? with
  | none => exact iff_of_false Bool.false_ne_true fun ⟨_, h, _⟩ => nomatch h
  | some set =>
      constructor
      · exact fun h => ⟨set, rfl, h⟩
      · rintro ⟨set', heq, h⟩
        exact Option.some.inj heq ▸ h

/-- What is held is a block, in the set of a block. -/
theorem Fitting.lt_of_holds (hs : Fitting count s) (h : Holds s x b) : x < count ∧ b < count := by
  obtain ⟨set, hset, hbit⟩ := holds_iff.mp h
  refine ⟨(hs.fits b set hset).lt_capacity x hbit, ?_⟩
  rw [← hs.size_eq]
  exact (Array.getElem?_eq_some_iff.mp hset).1

/-- Fitting sets that hold the same are the same. -/
theorem Fitting.ext (hs : Fitting count s) (ht : Fitting count t)
    (h : ∀ x b, Holds s x b ↔ Holds t x b) : s = t := by
  have hsize : s.size = t.size := hs.size_eq.trans ht.size_eq.symm
  refine Array.ext hsize ?_
  intro b hbs hbt
  have hsb := Array.getElem?_eq_getElem hbs
  have htb := Array.getElem?_eq_getElem hbt
  refine (hs.fits b _ hsb).ext (ht.fits b _ htb) fun x => ?_
  have hx := h x b
  unfold Holds at hx
  rw [hsb, htb] at hx
  exact Bool.eq_iff_iff.mpr hx

/-! ## What a refinement gathers -/

/-- `x` comes into `b` from a predecessor, or `b` is the entry and `x` as well. -/
def Arrives (f : Procedure) (entry : NodeId) (s : Array BitSet) (x b : NodeId) : Prop :=
  (b = entry ∧ x = entry) ∨ ∃ u, Direction.forward.Flow f u b ∧ Holds s x u

/-- `x` comes into `b`, or it is `b` and something does. -/
def Gathers (f : Procedure) (entry : NodeId) (s : Array BitSet) (x b : NodeId) : Prop :=
  Arrives f entry s x b ∨ x = b ∧ ∃ y, Arrives f entry s y b

theorem Arrives.mono (hle : ∀ x b, Holds s x b → Holds t x b) (h : Arrives f entry s x b) :
    Arrives f entry t x b := by
  rcases h with hentry | ⟨u, hflow, hheld⟩
  · exact Or.inl hentry
  · exact Or.inr ⟨u, hflow, hle x u hheld⟩

theorem Gathers.mono (hle : ∀ x b, Holds s x b → Holds t x b) (h : Gathers f entry s x b) :
    Gathers f entry t x b := by
  rcases h with harrives | ⟨rfl, y, harrives⟩
  · exact Or.inl (harrives.mono hle)
  · exact Or.inr ⟨rfl, y, harrives.mono hle⟩

/-- Merging the sets of some blocks into a seed. -/
theorem collects_merged (hs : Fitting count s) (us : List NodeId) {seed : BitSet}
    {P : NodeId → Prop} (hseed : seed.Collects count P) :
    (us.foldl (fun set u => set.merge (s[u]?.getD (BitSet.empty count))) seed).Collects count
      fun x => P x ∨ ∃ u ∈ us, Holds s x u := by
  induction us generalizing seed P with
  | nil =>
      refine hseed.congr fun x => ⟨Or.inl, fun h => h.resolve_right ?_⟩
      rintro ⟨u, hu, -⟩
      exact absurd hu List.not_mem_nil
  | cons u us ih =>
      have hu : (s[u]?.getD (BitSet.empty count)).Collects count fun x => Holds s x u := by
        unfold Holds
        cases hset : s[u]? with
        | none => exact (BitSet.Collects.empty count).congr fun x => ⟨False.elim, nofun⟩
        | some set => exact ⟨hs.fits u set hset, fun x => Iff.rfl⟩
      refine (ih (hseed.merge hu)).congr fun x => ?_
      rw [List.exists_mem_cons_iff, or_assoc]

/-- A block is added to a set unless that is empty. -/
theorem collects_completed {set : BitSet} {P : NodeId → Prop} (hset : set.Collects count P)
    (hb : b < count) :
    (if set.isEmpty then set else set.add b).Collects count fun x => P x ∨ x = b ∧ ∃ y, P y := by
  split
  · rename_i hnone
    have hnot := hset.isEmpty_iff.mp hnone
    refine hset.congr fun x => ⟨Or.inl, fun h => h.resolve_right ?_⟩
    rintro ⟨-, y, hy⟩
    exact hnot y hy
  · rename_i hsome
    rw [hset.isEmpty_iff] at hsome
    refine (hset.add hb).congr fun x => or_congr Iff.rfl ?_
    exact ⟨fun heq => ⟨heq.symm, Classical.not_forall_not.mp hsome⟩, fun h => h.1.symm⟩

/-- The gathered set collects what `Gathers` says. -/
theorem collects_gather (hf : f.Built) (hs : Fitting f.blocks.size s)
    (hentry : entry < f.blocks.size) (hb : b < f.blocks.size) :
    (gather f.blocks.size entry b (f.predecessors b) s).Collects f.blocks.size
      fun x => Gathers f entry s x b := by
  have hempty := BitSet.Collects.empty f.blocks.size
  have hseed : (if b = entry then (BitSet.empty f.blocks.size).add entry
      else BitSet.empty f.blocks.size).Collects f.blocks.size fun x => b = entry ∧ x = entry := by
    split
    · rename_i heq
      refine (hempty.add hentry).congr fun x => ?_
      exact ⟨fun h => ⟨heq, (h.resolve_left id).symm⟩, fun h => Or.inr h.2.symm⟩
    · rename_i hne
      exact hempty.congr fun x => ⟨False.elim, fun h => hne h.1⟩
  have hunion := (collects_merged hs (f.predecessors b) hseed).congr
    (Q := fun x => Arrives f entry s x b) fun x => or_congr Iff.rfl <| exists_congr fun u =>
      and_congr_left fun _ => (hf.linked.mirrored u b).symm
  exact collects_completed hunion hb

/-- Refining a block leaves everything as it is when there is no predecessor, and
    otherwise gives the block what it gathers. -/
theorem refine_cases (hf : f.Built) (hs : Fitting f.blocks.size s)
    (hentry : entry < f.blocks.size) (hb : b < f.blocks.size) :
    (refine f entry b s = s ∧ ∀ u, ¬ Direction.forward.Flow f u b) ∨
      Fitting f.blocks.size (refine f entry b s) ∧
        ∀ x c, Holds (refine f entry b s) x c ↔
          if b = c then Gathers f entry s x c else Holds s x c := by
  cases hpred : f.predecessors b with
  | nil =>
      refine Or.inl ⟨by unfold refine; rw [hpred], fun u hflow => ?_⟩
      have hmem := (hf.linked.mirrored u b).mp hflow
      rw [hpred] at hmem
      exact absurd hmem List.not_mem_nil
  | cons u us =>
      have hrefine : refine f entry b s =
          s.setIfInBounds b (gather f.blocks.size entry b (f.predecessors b) s) := by
        unfold refine
        rw [hpred]
      have hgather := collects_gather hf hs hentry hb
      have hbs : b < s.size := hs.size_eq ▸ hb
      rw [hrefine]
      refine Or.inr ⟨⟨Array.size_setIfInBounds.trans hs.size_eq, ?_⟩, ?_⟩
      · intro c set hset
        rw [Array.getElem?_setIfInBounds] at hset
        split at hset
        · exact Option.some.inj hset ▸ hgather.fits
        · exact hs.fits c set hset
      · intro x c
        unfold Holds
        rw [Array.getElem?_setIfInBounds]
        split
        · rename_i heq
          subst heq
          exact hgather.bit_iff x
        · exact Iff.rfl

/-! ## What sweeping keeps -/

/-- The sets of a sweep under way. -/
structure Growing (f : Procedure) (entry : NodeId) (s : Array BitSet) : Prop where
  fitting : Fitting f.blocks.size s
  seeded : Holds s entry entry
  sound : ∀ x b, Holds s x b →
    Direction.forward.Reached f x ∧ Reaches (Direction.forward.Flow f) x b
  supported : ∀ x b, Holds s x b → Gathers f entry s x b

/-- What is gathered from sound sets is sound. -/
theorem Growing.gathers_sound (h : Growing f entry s) (hentry : f.entry = some entry)
    (hgathers : Gathers f entry s x b) :
    Direction.forward.Reached f x ∧ Reaches (Direction.forward.Flow f) x b := by
  have harrives : ∀ {y}, Arrives f entry s y b →
      Direction.forward.Reached f y ∧ Reaches (Direction.forward.Flow f) y b := by
    rintro y (⟨rfl, rfl⟩ | ⟨u, hflow, hheld⟩)
    · exact ⟨⟨y, hentry, Reaches.refl y⟩, Reaches.refl y⟩
    · obtain ⟨hreached, hreaches⟩ := h.sound y u hheld
      exact ⟨hreached, hreaches.tail hflow⟩
  rcases hgathers with hx | ⟨rfl, y, hy⟩
  · exact harrives hx
  · obtain ⟨hreached, hreaches⟩ := harrives hy
    exact ⟨hreached.trans hreaches, Reaches.refl x⟩

/-- A refinement keeps all of it, loses nothing, and holds all that was gathered. -/
theorem Growing.refine (h : Growing f entry s) (hf : f.Built) (hentry : f.entry = some entry)
    (hb : b < f.blocks.size) :
    Growing f entry (refine f entry b s) ∧
      (∀ x c, Holds s x c → Holds (refine f entry b s) x c) ∧
      ∀ x, Gathers f entry s x b → Holds (refine f entry b s) x b := by
  have hlt := hf.entry_lt hentry
  rcases refine_cases hf h.fitting hlt hb with ⟨hsame, hnone⟩ | ⟨hfitting, hholds⟩
  · rw [hsame]
    refine ⟨h, fun x c hheld => hheld, ?_⟩
    -- without predecessors only the entry gathers anything, and only itself
    have harrives : ∀ {y}, Arrives f entry s y b → b = entry ∧ y = entry := fun harr =>
      harr.resolve_right fun ⟨u, hflow, _⟩ => hnone u hflow
    rintro x (hx | ⟨rfl, y, hy⟩)
    · obtain ⟨rfl, rfl⟩ := harrives hx
      exact h.seeded
    · obtain ⟨rfl, -⟩ := harrives hy
      exact h.seeded
  · -- the set that is put in place holds the old one, because that was supported
    have hgrows : ∀ x c, Holds s x c → Holds (Reachability.refine f entry b s) x c := by
      intro x c hheld
      rw [hholds]
      split
      · exact h.supported x c hheld
      · exact hheld
    have hgathered : ∀ x c, Holds (Reachability.refine f entry b s) x c →
        Gathers f entry s x c := by
      intro x c hheld
      rw [hholds] at hheld
      split at hheld
      · exact hheld
      · exact h.supported x c hheld
    refine ⟨⟨hfitting, hgrows entry entry h.seeded, ?_, ?_⟩, hgrows, ?_⟩
    · intro x c hheld
      exact h.gathers_sound hentry (hgathered x c hheld)
    · intro x c hheld
      exact (hgathered x c hheld).mono hgrows
    · intro x hgathers
      rw [hholds, if_pos rfl]
      exact hgathers

/-- So does a whole sweep, for every block of the order. -/
theorem Growing.sweep (h : Growing f entry s) (hf : f.Built) (hentry : f.entry = some entry)
    (blocks : List NodeId) (hblocks : ∀ b ∈ blocks, b < f.blocks.size) :
    Growing f entry (sweep f entry blocks s) ∧
      (∀ x c, Holds s x c → Holds (sweep f entry blocks s) x c) ∧
      ∀ b ∈ blocks, ∀ x, Gathers f entry s x b → Holds (sweep f entry blocks s) x b := by
  induction blocks with
  | nil => exact ⟨h, fun x c hheld => hheld, fun b hb => absurd hb List.not_mem_nil⟩
  | cons b blocks ih =>
      obtain ⟨hgrowing, hgrows, hgathered⟩ := ih fun c hc => hblocks c (List.mem_cons_of_mem b hc)
      obtain ⟨hgrowing', hgrows', hgathered'⟩ :=
        hgrowing.refine hf hentry (hblocks b List.mem_cons_self)
      refine ⟨hgrowing', fun x c hheld => hgrows' x c (hgrows x c hheld), ?_⟩
      intro c hc x hgathers
      rcases List.mem_cons.mp hc with rfl | hmem
      · exact hgathered' x (hgathers.mono hgrows)
      · exact hgrows' x c (hgathered c hmem x hgathers)

/-! ## Settling -/

/-- The pairs that the sets hold. -/
def pairs (count : Nat) (s : Array BitSet) : Finset (NodeId × NodeId) :=
  (Finset.range count ×ˢ Finset.range count).filter fun pair => Holds s pair.1 pair.2

theorem card_pairs_le (count : Nat) (s : Array BitSet) : (pairs count s).card ≤ count * count := by
  refine Nat.le_trans (Finset.card_filter_le _ _) ?_
  rw [Finset.card_product, Finset.card_range]

/-- Sets that grow and are not the same in the end hold more pairs. -/
theorem card_pairs_lt (hs : Fitting count s) (ht : Fitting count t)
    (hle : ∀ x b, Holds s x b → Holds t x b) (hne : t ≠ s) :
    (pairs count s).card < (pairs count t).card := by
  refine Finset.card_lt_card ⟨Finset.monotone_filter_right _ fun pair _ => hle pair.1 pair.2, ?_⟩
  -- if no pair were new, the sets would hold the same
  intro hsub
  refine hne (ht.ext hs fun x b => ⟨fun hheld => ?_, hle x b⟩)
  have hlt := ht.lt_of_holds hheld
  have hmem : (x, b) ∈ pairs count t := Finset.mem_filter.mpr
    ⟨Finset.mk_mem_product (Finset.mem_range.mpr hlt.1) (Finset.mem_range.mpr hlt.2), hheld⟩
  exact (Finset.mem_filter.mp (hsub hmem)).2

/-- At first only the entry is held, in its own set. -/
theorem holds_initial (hentry : entry < count) :
    Fitting count (initial count entry) ∧
      ∀ x b, Holds (initial count entry) x b ↔ b = entry ∧ x = entry := by
  have hempty := BitSet.Collects.empty count
  have hget : ∀ b, (initial count entry)[b]? =
      if b < count then
        some (if entry = b then (BitSet.empty count).add entry else BitSet.empty count)
      else none := by
    intro b
    unfold initial unreached
    rw [Array.getElem?_modify, Array.getElem?_replicate]
    by_cases hb : b < count
    · rw [if_pos hb, if_pos hb]
      split <;> rfl
    · rw [if_neg hb, if_neg hb]
      split <;> rfl
  refine ⟨⟨?_, ?_⟩, ?_⟩
  · exact Array.size_modify.trans Array.size_replicate
  · intro b set hset
    rw [hget] at hset
    split at hset
    · obtain rfl := Option.some.inj hset
      split
      · exact hempty.fits.add hentry
      · exact hempty.fits
    · exact nomatch hset
  · intro x b
    unfold Holds
    rw [hget]
    by_cases heq : entry = b
    · subst heq
      rw [if_pos hentry, if_pos rfl]
      refine ((hempty.add hentry).bit_iff x).trans ?_
      exact ⟨fun h => ⟨rfl, (h.resolve_left id).symm⟩, fun h => Or.inr h.2.symm⟩
    · refine iff_of_false ?_ fun h => heq h.1.symm
      split
      · exact (hempty.bit_iff x).not.mpr id
      · exact Bool.false_ne_true

theorem growing_initial (hf : f.Built) (hentry : f.entry = some entry) :
    Growing f entry (initial f.blocks.size entry) := by
  have hlt := hf.entry_lt hentry
  obtain ⟨hfitting, hholds⟩ := holds_initial hlt
  refine ⟨hfitting, (hholds entry entry).mpr ⟨rfl, rfl⟩, ?_, ?_⟩
  · intro x b hheld
    obtain ⟨rfl, rfl⟩ := (hholds x b).mp hheld
    exact ⟨⟨x, hentry, Reaches.refl x⟩, Reaches.refl x⟩
  · intro x b hheld
    exact Or.inl (Or.inl ((hholds x b).mp hheld))

/-- The bound on the number of sweeps is never reached: the sets of a built procedure
    with an entry are what sweeping comes to. -/
theorem exists_settled (hf : f.Built) (hentry : f.entry = some entry) :
    ∃ sources sweeps,
      settleWithin (sweep f entry (BlockOrder.of f .forward).postorder)
          (f.blocks.size * f.blocks.size + 2) (initial f.blocks.size entry) =
        some (sources, sweeps) ∧
      Growing f entry sources ∧
      sweep f entry (BlockOrder.of f .forward).postorder sources = sources ∧
      (of f).sources = sources ∧ (of f).sweeps = sweeps := by
  have hblocks : ∀ b ∈ (BlockOrder.of f .forward).postorder, b < f.blocks.size :=
    fun b hb => BlockOrder.lt_size_of_mem hb
  have hrise : ∀ s, Growing f entry s → sweep f entry (BlockOrder.of f .forward).postorder s ≠ s →
      (pairs f.blocks.size s).card <
        (pairs f.blocks.size (sweep f entry (BlockOrder.of f .forward).postorder s)).card := by
    intro s hs hne
    obtain ⟨hgrowing, hgrows, -⟩ := hs.sweep hf hentry _ hblocks
    exact card_pairs_lt hs.fitting hgrowing.fitting hgrows hne
  have hbound : f.blocks.size * f.blocks.size < f.blocks.size * f.blocks.size + 2 +
      (pairs f.blocks.size (initial f.blocks.size entry)).card := by omega
  obtain ⟨s, sweeps, hs, hgrowing, hfixed⟩ := settleWithin_of_rising
    (fun s hs => (hs.sweep hf hentry _ hblocks).1) hrise
    (fun s _ => card_pairs_le f.blocks.size s) (growing_initial hf hentry) hbound
  -- settling within the bound is settling
  have hsettle : settle (sweep f entry (BlockOrder.of f .forward).postorder)
      (f.blocks.size * f.blocks.size + 2) (initial f.blocks.size entry) = (s, sweeps) := by
    rw [settle, hs]
    rfl
  refine ⟨s, sweeps, hs, hgrowing, hfixed, ?_, ?_⟩
  · rw [of, hentry]
    exact congrArg Prod.fst hsettle
  · rw [of, hentry]
    exact congrArg Prod.snd hsettle

/-- The sets of a built procedure with an entry settle: they are sound, and they
    hold whatever they gather. -/
theorem settled_sources (hf : f.Built) (hentry : f.entry = some entry) :
    Growing f entry (of f).sources ∧
      ∀ x b, Direction.forward.Reached f b → Gathers f entry (of f).sources x b →
        Holds (of f).sources x b := by
  obtain ⟨s, sweeps, -, hgrowing, hfixed, rfl, -⟩ := exists_settled hf hentry
  refine ⟨hgrowing, fun x b hreached hgathers => ?_⟩
  have hheld := (hgrowing.sweep hf hentry _ fun b hb => BlockOrder.lt_size_of_mem hb).2.2 b
    ((BlockOrder.mem_postorder_iff_reached hf).mpr hreached) x hgathers
  rw [hfixed] at hheld
  exact hheld

/-! ## The closure of the flow -/

/-- Asking whether one block reaches another is asking what the sets hold. -/
theorem reaches_iff_holds (h : Fitting f.blocks.size (of f).sources) :
    (of f).reaches x b = true ↔ Holds (of f).sources x b := by
  unfold reaches Holds
  cases hset : (of f).sources[b]? with
  | none => exact Iff.rfl
  | some set =>
      show set.contains x = true ↔ set.bit x = true
      rw [(h.fits b set hset).contains_eq_bit]

theorem mem_reaching (r : Reachability) : x ∈ r.reaching b ↔ Holds r.sources x b := by
  rw [reaching, holds_iff]
  cases r.sources[b]? with
  | none => exact iff_of_false List.not_mem_nil fun ⟨_, h, _⟩ => nomatch h
  | some set =>
      rw [Option.map_some, Option.getD_some, BitSet.mem_toList]
      exact ⟨fun hbit => ⟨set, rfl, hbit⟩, fun ⟨_, heq, hbit⟩ => Option.some.inj heq ▸ hbit⟩

/-- Settled sets hold everything that reaches a block from a reached one. -/
theorem holds_of_reaches (hf : f.Built) (hentry : f.entry = some entry)
    (hx : Direction.forward.Reached f x) (hxb : Reaches (Direction.forward.Flow f) x b) :
    Holds (of f).sources x b := by
  obtain ⟨hgrowing, hclosed⟩ := settled_sources hf hentry
  -- first every reached block holds itself, as something comes into it
  have hself : ∀ v, Reaches (Direction.forward.Flow f) entry v → Holds (of f).sources v v := by
    intro v hv
    refine hv.induction (P := fun v => Holds (of f).sources v v) hgrowing.seeded ?_
    intro v w hv ih hflow
    exact hclosed w w ⟨entry, hentry, hv.tail hflow⟩ (Or.inr ⟨rfl, v, Or.inr ⟨v, hflow, ih⟩⟩)
  obtain ⟨start, hstart, hreach⟩ := hx
  obtain rfl : entry = start := Option.some.inj (hentry.symm.trans hstart)
  -- then it is passed on along every step from there
  refine hxb.induction (P := fun v => Holds (of f).sources x v) (hself x hreach) ?_
  intro v w hxv ih hflow
  have hw : Direction.forward.Reached f w := ⟨entry, hentry, hreach.trans (hxv.tail hflow)⟩
  exact hclosed x w hw (Or.inl (Or.inr ⟨v, hflow, ih⟩))

/-- Without an entry all sets stay empty. -/
theorem sources_of_none (hentry : f.entry = none) : (of f).sources = unreached f.blocks.size := by
  unfold of
  rw [hentry]

theorem fitting_sources (hf : f.Built) : Fitting f.blocks.size (of f).sources := by
  cases hentry : f.entry with
  | none =>
      rw [sources_of_none hentry]
      refine ⟨Array.size_replicate, fun b set hset => ?_⟩
      rw [unreached, Array.getElem?_replicate, Option.ite_none_right_eq_some] at hset
      exact Option.some.inj hset.2 ▸ BitSet.Fits.empty f.blocks.size
  | some entry => exact (settled_sources hf hentry).1.fitting

/-- With or without an entry, the sets hold the closure of the flow on the reached
    blocks. -/
theorem holds_sources_iff (hf : f.Built) : Holds (of f).sources x b ↔
    Direction.forward.Reached f x ∧ Reaches (Direction.forward.Flow f) x b := by
  cases hentry : f.entry with
  | none =>
      refine iff_of_false ?_ fun ⟨⟨start, hstart, _⟩, _⟩ => nomatch hentry.symm.trans hstart
      rw [sources_of_none hentry, holds_iff]
      rintro ⟨set, hset, hbit⟩
      rw [unreached, Array.getElem?_replicate, Option.ite_none_right_eq_some] at hset
      rw [← Option.some.inj hset.2, BitSet.bit_empty] at hbit
      exact nomatch hbit
  | some entry =>
      exact ⟨(settled_sources hf hentry).1.sound x b, fun h => holds_of_reaches hf hentry h.1 h.2⟩

theorem reaches_iff (hf : f.Built) : (of f).reaches x b = true ↔
    Direction.forward.Reached f x ∧ Reaches (Direction.forward.Flow f) x b :=
  (reaches_iff_holds (fitting_sources hf)).trans (holds_sources_iff hf)

theorem entry_of (f : Procedure) : (of f).entry = f.entry := by
  unfold of
  cases f.entry <;> rfl

/-- What is reachable is what control gets to from the entry. -/
theorem isReachable_iff (hf : f.Built) :
    (of f).isReachable b = true ↔ Direction.forward.Reached f b := by
  rw [isReachable, entry_of]
  cases hentry : f.entry with
  | none =>
      exact iff_of_false Bool.false_ne_true fun ⟨_, hstart, _⟩ => nomatch hentry.symm.trans hstart
  | some entry =>
      show (of f).reaches entry b = true ↔ _
      rw [reaches_iff hf]
      constructor
      · exact fun h => h.1.trans h.2
      · rintro ⟨start, hstart, hreach⟩
        obtain rfl : entry = start := Option.some.inj (hentry.symm.trans hstart)
        exact ⟨⟨entry, hentry, Reaches.refl entry⟩, hreach⟩

/-- One block reaches another exactly when control gets from the entry to both
    and from the one to the other. -/
theorem reaches_iff_flow (hf : f.Built) (source target : NodeId) :
    (of f).reaches source target = true ↔
      Direction.forward.Reached f source ∧ Direction.forward.Reached f target ∧
        Reaches (Direction.forward.Flow f) source target := by
  cases hentry : f.entry with
  | none =>
      have hnothing : (of f).reaches source target = false := by
        unfold reaches of unreached
        rw [hentry]
        show (((Array.replicate f.blocks.size (BitSet.empty f.blocks.size))[target]?).map
          (·.contains source)).getD false = false
        rw [Array.getElem?_replicate]
        split
        · exact ((BitSet.Fits.empty _).contains_eq_bit source).trans (BitSet.bit_empty _ _)
        · rfl
      rw [hnothing]
      refine iff_of_false Bool.false_ne_true ?_
      rintro ⟨⟨start, hstart, -⟩, -⟩
      exact nomatch hentry.symm.trans hstart
  | some entry =>
      have hgrowing := (settled_sources hf hentry).1
      rw [reaches_iff_holds hgrowing.fitting]
      constructor
      · intro hheld
        obtain ⟨hsource, hreaches⟩ := hgrowing.sound source target hheld
        exact ⟨hsource, hsource.trans hreaches, hreaches⟩
      · rintro ⟨hsource, -, hreaches⟩
        exact holds_of_reaches hf hentry hsource hreaches

/-- The loop leads back to the entry, but the block that is not reached reaches
    nothing, although it has an edge into the loop. -/
theorem reaches_twoEntryLoop :
    Procedure.twoEntryLoop.Built ∧ (of .twoEntryLoop).reaches 1 0 = true ∧
      Reaches (Direction.forward.Flow .twoEntryLoop) 1 0 ∧
      Direction.forward.Flow .twoEntryLoop 4 1 ∧ (of .twoEntryLoop).reaches 4 1 = false ∧
      ¬ Direction.forward.Reached .twoEntryLoop 4 := by
  have hiff := reaches_iff_flow Procedure.built_twoEntryLoop
  have hback : (of .twoEntryLoop).reaches 1 0 = true := by decide +kernel
  have hself : (of .twoEntryLoop).reaches 4 4 ≠ true := by decide +kernel
  refine ⟨Procedure.built_twoEntryLoop, hback, ((hiff 1 0).mp hback).2.2, ?_, ?_, ?_⟩
  · show 1 ∈ Procedure.twoEntryLoop.successors 4
    decide
  · decide +kernel
  · intro h
    exact hself ((hiff 4 4).mpr ⟨h, h, Reaches.refl 4⟩)

end ControlFlow.Reachability
