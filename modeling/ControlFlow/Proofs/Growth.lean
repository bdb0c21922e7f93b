import ControlFlow.Proofs.Reachability
import ControlFlow.Proofs.Rounds
import Mathlib.Data.Finset.Dedup

/-!
# The sets while reachability is computed

    A refinement gathers the set of a block anew, without a look at the one it replaces.
    That nothing is lost over a whole sweep was shown for the sake of what the sets
    settle to.  Here the computation is followed from one refinement to the next: at
    every moment the sets are `Growing`, so a set that is replaced was `supported`, and
    what replaces it has all of its members and another one (`Enlarges`).

    What a sweep has done is therefore never undone before it ends: a sweep that has
    replaced a set differs in the end from what it began with.
-/

namespace ControlFlow

/-! ## Members -/

namespace BitSet

variable {s t : BitSet} {capacity : Nat}

/-- What a set has, as a finite set. -/
def members (s : BitSet) : Finset Nat := s.toList.toFinset

theorem mem_members {i : Nat} : i ∈ s.members ↔ s.bit i = true :=
  List.mem_toFinset.trans mem_toList

/-- Of two fitting sets that differ, the larger one has another member. -/
theorem Fits.members_ssubset (hs : s.Fits capacity) (ht : t.Fits capacity)
    (hsub : s.members ⊆ t.members) (hne : t ≠ s) : s.members ⊂ t.members := by
  refine Finset.ssubset_iff_subset_ne.mpr ⟨hsub, fun heq => hne ?_⟩
  refine ht.ext hs fun i => Bool.eq_iff_iff.mpr ?_
  rw [← mem_members, ← mem_members, heq]

end BitSet

namespace Reachability

variable {f : Procedure} {entry b c : NodeId} {s t : Array BitSet} {n : Nat} {rest : List NodeId}

/-- A set that holds all that another one does has its members. -/
theorem members_subset (hle : ∀ x c, Holds s x c → Holds t x c) {lesser greater : BitSet}
    (hs : s[c]? = some lesser) (ht : t[c]? = some greater) : lesser.members ⊆ greater.members := by
  intro x hx
  have hheld : Holds s x c := holds_iff.mpr ⟨lesser, hs, BitSet.mem_members.mp hx⟩
  obtain ⟨set, hset, hbit⟩ := holds_iff.mp (hle x c hheld)
  obtain rfl := Option.some.inj (ht.symm.trans hset)
  exact BitSet.mem_members.mpr hbit

/-! ## One refinement -/

/-- The sets `t'` are the sets `t`, except that the one of `block` may have become larger. -/
structure Enlarges (block : NodeId) (t t' : Array BitSet) : Prop where
  size_eq : t'.size = t.size
  other : ∀ c, c ≠ block → t'[c]? = t[c]?
  ssubset : ∀ old replacement, t[block]? = some old → t'[block]? = some replacement →
    replacement ≠ old → old.members ⊂ replacement.members

theorem getElem?_refine_of_ne (f : Procedure) (entry : NodeId) (t : Array BitSet) (hne : c ≠ b) :
    (refine f entry b t)[c]? = t[c]? := by
  unfold refine
  split
  · rfl
  · exact Array.getElem?_setIfInBounds_ne hne.symm

theorem Growing.enlarges (h : Growing f entry t) (hf : f.Built) (hentry : f.entry = some entry)
    (hb : b < f.blocks.size) : Enlarges b t (Reachability.refine f entry b t) := by
  obtain ⟨hgrowing, hgrows, -⟩ := h.refine hf hentry hb
  refine ⟨hgrowing.fitting.size_eq.trans h.fitting.size_eq.symm, ?_, ?_⟩
  · intro c hne
    exact getElem?_refine_of_ne f entry t hne
  · intro old replacement hold hreplacement hne
    exact (h.fitting.fits b old hold).members_ssubset
      (hgrowing.fitting.fits b replacement hreplacement)
      (members_subset hgrows hold hreplacement) hne

/-- Sound sets of blocks out of reach are empty. -/
theorem Growing.eq_empty (h : Growing f entry t) (hb : b < f.blocks.size)
    (hout : ¬ Direction.forward.Reached f b) : t[b]? = some (BitSet.empty f.blocks.size) := by
  have hset := Array.getElem?_eq_getElem (h.fitting.size_eq ▸ hb : b < t.size)
  rw [hset]
  refine congrArg some ((h.fitting.fits b _ hset).ext (BitSet.Fits.empty _) fun x => ?_)
  rw [BitSet.bit_empty, Bool.eq_false_iff]
  intro hbit
  obtain ⟨hreached, hreaches⟩ := h.sound x b (holds_iff.mpr ⟨_, hset, hbit⟩)
  exact hout (hreached.trans hreaches)

/-! ## All refinements -/

/-- Where the computation of the reachability of a procedure stands: how many sweeps are
    complete, what the one under way began with, which blocks it has still to refine, and
    what the sets are. -/
def SetsUnderway (f : Procedure) (entry : NodeId) :
    (sweeps : Nat) → (before : Array BitSet) → (rest : List NodeId) → (now : Array BitSet) → Prop :=
  Underway (refine f entry) (BlockOrder.of f .forward).postorder (initial f.blocks.size entry)

/-- The next block of a sweep is a block of the procedure. -/
theorem SetsUnderway.lt_size (h : SetsUnderway f entry n s (rest ++ [b]) t) : b < f.blocks.size :=
  BlockOrder.lt_size_of_mem
    (h.rest_isPrefix.subset (List.mem_append_right rest List.mem_cons_self))

/-- At every moment the sets are growing, and a sweep has lost nothing since it began. -/
theorem growing_of_underway (hf : f.Built) (hentry : f.entry = some entry)
    (h : SetsUnderway f entry n s rest t) :
    Growing f entry t ∧ ∀ x c, Holds s x c → Holds t x c := by
  induction h with
  | start => exact ⟨growing_initial hf hentry, fun x c hheld => hheld⟩
  | refine h ih =>
      obtain ⟨hgrowing, hgrows, -⟩ := ih.1.refine hf hentry (SetsUnderway.lt_size h)
      exact ⟨hgrowing, fun x c hheld => hgrows x c (ih.2 x c hheld)⟩
  | again _ _ ih => exact ⟨ih.1, fun x c hheld => hheld⟩

/-- While the reachability of a procedure with an entry is computed, the sets of blocks out
    of reach are empty, and every set has at least the members it had when the sweep began.
    A refinement replaces no set but that of its block, and that only by one with more
    members.  The last sweep comes, and leaves the sets as they are. -/
theorem sets_grow_until_settled (hf : f.Built) (hentry : f.entry = some entry) :
    (∀ n s rest t, SetsUnderway f entry n s rest t →
      n < (of f).sweeps ∧
      (∀ c, c < f.blocks.size → ¬ Direction.forward.Reached f c →
        t[c]? = some (BitSet.empty f.blocks.size)) ∧
      ∀ (c : NodeId) (old now : BitSet), s[c]? = some old → t[c]? = some now →
        old.members ⊆ now.members) ∧
    (∀ n s rest b t, SetsUnderway f entry n s (rest ++ [b]) t →
      Enlarges b t (refine f entry b t)) ∧
    ∃ n, SetsUnderway f entry n (of f).sources [] (of f).sources ∧ (of f).sweeps = n + 1 := by
  obtain ⟨sources, sweeps, hsettle, -, -, rfl, rfl⟩ := exists_settled hf hentry
  refine ⟨fun n s rest t h => ?_, fun n s rest b t h => ?_, ?_⟩
  · obtain ⟨hgrowing, hgrows⟩ := growing_of_underway hf hentry h
    refine ⟨h.lt_count hsettle, fun c hc hout => hgrowing.eq_empty hc hout, ?_⟩
    intro c old now hold hnow
    exact members_subset hgrows hold hnow
  · exact (growing_of_underway hf hentry h).1.enlarges hf hentry h.lt_size
  · exact Underway.last hsettle

/-- What the first sweep over the loop with two entries comes to: the sweep passes the entry
    before anything could come back to it. -/
def firstSweep : Array BitSet :=
  sweep .twoEntryLoop 0 (BlockOrder.of .twoEntryLoop .forward).postorder (initial 5 0)

theorem setsUnderway_twoEntryLoop :
    SetsUnderway .twoEntryLoop 0 1 firstSweep ([3, 2, 1] ++ [0]) firstSweep := by
  have hfirst : SetsUnderway .twoEntryLoop 0 0 (initial 5 0) [] firstSweep :=
    Underway.start.complete
  have horder : (BlockOrder.of .twoEntryLoop .forward).postorder = [3, 2, 1] ++ [0] := by
    decide +kernel
  rw [← horder]
  exact hfirst.again (by decide +kernel)

/-- The second sweep gives the entry all that the loop leads back to it, and the third one
    changes nothing.  The block out of reach is left empty. -/
theorem sets_grow_twoEntryLoop :
    Procedure.twoEntryLoop.Built ∧ Procedure.twoEntryLoop.entry = some 0 ∧
      firstSweep[0]?.map (·.toList) = some [0] ∧
      (refine .twoEntryLoop 0 0 firstSweep)[0]?.map (·.toList) = some [0, 1, 2, 3] ∧
      Enlarges 0 firstSweep (refine .twoEntryLoop 0 0 firstSweep) ∧
      ¬ Direction.forward.Reached .twoEntryLoop 4 ∧
      firstSweep[4]? = some (BitSet.empty 5) ∧ (of .twoEntryLoop).sweeps = 3 := by
  have hf := Procedure.built_twoEntryLoop
  have hgrow := sets_grow_until_settled hf rfl
  have hout : ¬ Direction.forward.Reached .twoEntryLoop 4 := by
    rw [← isReachable_iff hf]
    decide +kernel
  refine ⟨hf, rfl, by decide +kernel, by decide +kernel, ?_, hout, ?_, by decide +kernel⟩
  · exact hgrow.2.1 _ _ _ _ _ setsUnderway_twoEntryLoop
  · exact (hgrow.1 _ _ _ _ setsUnderway_twoEntryLoop).2.1 4 (by decide) hout

end Reachability

end ControlFlow
