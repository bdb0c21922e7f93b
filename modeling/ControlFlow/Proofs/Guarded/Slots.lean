import ControlFlow.Proofs.Dominance
import ControlFlow.Proofs.Guarded.Order

/-!
# Sweeping the slots with every access checked

    Two climbers are brought together by moving the lower one up until it is no
    longer lower, then the other one, and so on.  A climber looks into the slot of
    its position, so it must never leave the slots; on `Rising` slots it only goes
    from known positions to known ones.  Where the climbers meet is their nearest
    common position whatever the order of the moves, so nothing has to be known
    about that order (`NearestCommon.unique`).

    Slots are rising all through a sweep, the first one included, because a sweep
    goes down from the start and finds everything above known (`Slots.Swept`).
-/

namespace ControlFlow.Guarded

variable {f : Procedure} {direction : Direction} {o : Order} {s : Slots} {start a b p : Nat}

/-! ## Climbers -/

/-- Moves a climber up as long as it is below a limit. -/
def climbTo (s : Slots) (start limit position : Nat) : Guarded Nat :=
  loop (fun p : Nat => do
    if p < limit then
      let slot ← fetch s p
      pure (.inl (slot.getD start))
    else pure (.inr p)) position

/-- Moves two climbers up, the lower one each time, until both are at one position. -/
def meet (s : Slots) (start a b : Nat) : Guarded Nat :=
  loop (fun c : Nat × Nat => do
    if c.1 = c.2 then pure (.inr c.1)
    else
      let a ← climbTo s start c.2 c.1
      let b ← climbTo s start a c.2
      pure (.inl (a, b))) (a, b)

/-- Within the slots, looking up an entry is looking at a slot. -/
theorem fetch_slot (h : p < s.size) : fetch s p = pure (s.slot? p) := by
  have hentry := Array.getElem?_eq_getElem h
  rw [fetch_eq hentry, Slots.slot?, hentry]
  rfl

/-- A climber gets to the limit or past it, to a known position, and has the same in
    common with the limit as before. -/
theorem climbTo_yields {limit : Nat} (h : Slots.Rising s start) (hp : s.isKnown p = true)
    (hlimit : s.isKnown limit = true) :
    Yields (climbTo s start limit p) fun q =>
      p ≤ q ∧ limit ≤ q ∧ s.isKnown q = true ∧
        ∀ m, Slots.NearestCommon s (fun x => x = q ∨ x = limit) m →
          Slots.NearestCommon s (fun x => x = p ∨ x = limit) m := by
  have hlimit_le := h.le_start hlimit
  refine Yields.loop
    (P := fun q => p ≤ q ∧ s.isKnown q = true ∧
      ∀ m, Slots.NearestCommon s (fun x => x = q ∨ x = limit) m →
        Slots.NearestCommon s (fun x => x = p ∨ x = limit) m)
    (fun q => start - q) ?_ ⟨Nat.le_refl p, hp, fun m hm => hm⟩
  rintro q ⟨hpq, hq, hcommon⟩
  split
  · rename_i hlt
    obtain ⟨next, hnext⟩ := Slots.isKnown_iff.mp hq
    have hup := h.slot_lt q next (by omega) hnext
    have hknown := h.slot_known q next hnext
    have hle := h.le_start hknown
    rw [fetch_slot (Slots.lt_size_of_isKnown hq), hnext, pure_bind, Option.getD_some]
    exact Yields.next ⟨⟨by omega, hknown, fun m hm => hcommon m (hm.of_up h hlt hnext)⟩, by omega⟩
  · rename_i hge
    exact Yields.done ⟨hpq, Nat.le_of_not_lt hge, hq, hcommon⟩

/-- Two climbers from known positions meet where they should. -/
theorem meet_eq (h : Slots.Rising s start) (ha : s.isKnown a = true) (hb : s.isKnown b = true) :
    meet s start a b = pure (s.meet start a b) := by
  have hswap : ∀ {x y m : Nat}, Slots.NearestCommon s (fun z => z = x ∨ z = y) m →
      Slots.NearestCommon s (fun z => z = y ∨ z = x) m := fun hm => hm.congr fun z => or_comm
  refine Yields.eq_pure (Yields.loop
    (P := fun c : Nat × Nat => s.isKnown c.1 = true ∧ s.isKnown c.2 = true ∧
      ∀ m, Slots.NearestCommon s (fun x => x = c.1 ∨ x = c.2) m →
        Slots.NearestCommon s (fun x => x = a ∨ x = b) m)
    (fun c => (start - c.1) + (start - c.2)) ?_ ⟨ha, hb, fun m hm => hm⟩)
  rintro ⟨c, d⟩ ⟨hc, hd, hcommon⟩
  dsimp only at hc hd hcommon ⊢
  split
  · rename_i heq
    subst heq
    exact Yields.done ((hcommon c (.self s c)).unique h (h.nearestCommon_meet ha hb))
  · rename_i hne
    refine (climbTo_yields h hc hd).bind fun c' ⟨hcc', hdc', hc', hfirst⟩ => ?_
    refine (climbTo_yields h hd hc').bind fun d' ⟨hdd', hcd', hd', hsecond⟩ => ?_
    refine Yields.next ?_
    have hc'_le := h.le_start hc'
    have hd'_le := h.le_start hd'
    refine ⟨⟨hc', hd', fun m hm => ?_⟩, ?_⟩
    · exact hcommon m (hfirst m (hswap (hsecond m (hswap hm))))
    · -- one of the two was lower, and that one has moved
      show (start - c') + (start - d') < (start - c) + (start - d)
      omega

/-! ## Candidates -/

/-- Takes one more incoming block into account, if it is ordered and known. -/
def offer (o : Order) (s : Slots) (start : Nat) (found : Option Nat) (block : NodeId) :
    Guarded (Option Nat) :=
  match o.position? block with
  | none => pure found
  | some p => do
      let slot ← fetch s p
      if slot.isSome then
        match found with
        | none => pure (some p)
        | some current => some <$> meet s start p current
      else pure found

/-- The nearest common dominator of the known ones among the incoming blocks. -/
def candidate (o : Order) (s : Slots) (start : Nat) (incoming : List NodeId) :
    Guarded (Option Nat) :=
  incoming.foldlM (offer o s start) none

theorem candidate_eq (h : Slots.Rising s start) (incoming : List NodeId)
    (hposition : ∀ b p, o.position? b = some p → p ≤ start) :
    candidate o s start incoming = pure (s.candidate start (incoming.filterMap o.position?)) := by
  -- what was found so far is known
  have hnothing : ∀ c, (none : Option Nat) = some c → s.isKnown c = true := nofun
  rw [Slots.candidate, List.foldl_filterMap]
  refine Yields.eq_pure ((Yields.foldlM
    (R := fun found plain => found = plain ∧ ∀ c, plain = some c → s.isKnown c = true) ?_
    ⟨rfl, hnothing⟩).mono fun found hfound => hfound.1)
  rintro block - found _ ⟨rfl, hknown⟩
  rw [offer]
  cases hp : o.position? block with
  | none => exact Yields.pure ⟨rfl, hknown⟩
  | some p =>
      have hle := hposition block p hp
      have hlt : p < s.size := by rw [h.size_eq]; omega
      show Yields (fetch s p >>= _) _
      rw [fetch_slot hlt, pure_bind]
      show Yields (if s.isKnown p = true then _ else _) _
      by_cases hpknown : s.isKnown p = true
      · rw [if_pos hpknown]
        cases found with
        | none =>
            refine Yields.pure ⟨(if_pos hpknown).symm, fun c hc => ?_⟩
            obtain rfl := Option.some.inj ((if_pos hpknown).symm.trans hc)
            exact hpknown
        | some current =>
            have hcurrent := hknown current rfl
            show Yields (some <$> meet s start p current) _
            rw [meet_eq h hpknown hcurrent, map_pure]
            refine Yields.pure ⟨(if_pos hpknown).symm, fun c hc => ?_⟩
            obtain rfl := Option.some.inj ((if_pos hpknown).symm.trans hc)
            exact h.isKnown_meet hpknown hcurrent
      · rw [if_neg hpknown]
        refine Yields.pure ⟨(if_neg hpknown).symm, fun c hc => hknown c ?_⟩
        exact (if_neg hpknown).symm.trans hc

/-! ## Sweeps -/

/-- Puts the candidate of a position into its slot, if there is one. -/
def refine (f : Procedure) (o : Order) (start position : Nat) (state : Slots × Bool) :
    Guarded (Slots × Bool) := do
  let block ← fetch o.order.postorder.toArray position
  let found ← candidate o state.1 start (o.order.direction.incoming f block)
  match found with
  | some p => put position (some p) state
  | none => pure state

/-- Refines every position below the start, the highest first. -/
def sweep (f : Procedure) (o : Order) (start : Nat) (s : Slots) : Guarded (Slots × Bool) :=
  (List.range start).foldrM (refine f o start) (s, false)

/-- Sweeps the slots until they settle, beginning with the start alone. -/
def settledSlots (f : Procedure) (o : Order) : Guarded (Slots × Nat) := do
  let start ← minus o.order.size 1
  let initial ← store (Array.replicate o.order.size none) start (some start)
  settle (sweep f o start) initial

/-- The positions passed after one in a sweep lie above it. -/
theorem of_suffix_range {done : List Nat} {n : Nat} (h : p :: done <:+ List.range n) :
    p + 1 + done.length = n ∧ p ∉ done := by
  obtain ⟨before, hsplit⟩ := h
  have hlength := congrArg List.length hsplit
  have hat : (before ++ p :: done)[before.length]? = (List.range n)[before.length]? := by rw [hsplit]
  rw [List.length_append, List.length_cons, List.length_range] at hlength
  rw [List.getElem?_append_right (Nat.le_refl _), Nat.sub_self, List.getElem?_cons_zero,
    List.getElem?_range (by omega)] at hat
  have hnodup : (before ++ p :: done).Nodup := hsplit ▸ List.nodup_range
  have hp := Option.some.inj hat
  exact ⟨by omega, (List.nodup_cons.mp (List.nodup_append.mp hnodup).2.1).1⟩

section Swept

variable {incoming : Nat → List Nat}

/-- The order has a block for every position below the start, with the given incoming
    positions, and no position above the start. -/
structure Feeds (f : Procedure) (o : Order) (incoming : Nat → List Nat) (start : Nat) : Prop where
  block : ∀ p, p < start → ∃ block, o.order.postorder[p]? = some block ∧
    incoming p = (o.order.direction.incoming f block).filterMap o.position?
  le_start : ∀ b p, o.position? b = some p → p ≤ start

/-- Refining a position of rising slots, guarded and not. -/
theorem refine_yields {state : Slots × Bool} {done : List Nat} (ho : Feeds f o incoming start)
    (h : Slots.Rising state.1 start) (hp : p < start) (hnew : p ∉ done)
    (hnoted : Noted s done state) :
    Yields (refine f o start p state) fun next =>
      next.1 = Slots.refine incoming start p state.1 ∧ Noted s (p :: done) next := by
  obtain ⟨block, hblock, hincoming⟩ := ho.block p hp
  rw [refine, fetch_eq ((List.getElem?_toArray ..).trans hblock), pure_bind,
    candidate_eq h _ ho.le_start, pure_bind, ← hincoming, Slots.refine]
  cases state.1.candidate start (incoming p) with
  | none => exact Yields.pure ⟨rfl, hnoted.skip p⟩
  | some q =>
      refine hnoted.put hnew ?_ (some q)
      rw [h.size_eq]
      omega

/-- A guarded sweep of slots that sweeping comes to does what a sweep does, and notes
    whether it changed anything. -/
theorem sweep_yields (ho : Feeds f o incoming start) (hfed : Slots.Fed incoming start)
    (h : Slots.Settling incoming start s) :
    Yields (sweep f o start s) fun swept =>
      swept.1 = Slots.sweep incoming start s ∧
        (swept.2 = true ↔ Slots.sweep incoming start s ≠ s) := by
  refine (Yields.foldrM
    (P := fun done state => state.1 = done.foldr (Slots.refine incoming start) s ∧
      Noted s done state ∧ Slots.Swept incoming start s state.1 (start - done.length))
    ?_ ⟨rfl, Noted.start s, Slots.Swept.begin h.rising⟩).mono ?_
  · rintro p done hsuffix state ⟨hstate, hnoted, hswept⟩
    -- the sweep has got down to just above the position
    obtain ⟨hat, hnew⟩ := of_suffix_range hsuffix
    have habove : start - done.length = p + 1 := by omega
    have hbelow : start - (p :: done).length = p := by rw [List.length_cons]; omega
    rw [habove] at hswept
    refine (refine_yields ho hswept.rising (by omega) hnew hnoted).mono ?_
    rintro next ⟨hnext, hnoted'⟩
    refine ⟨?_, hnoted', ?_⟩
    · rw [hnext, hstate, List.foldr_cons]
    · rw [hnext, hbelow]
      exact hswept.step hfed h.rising h.placed (by omega)
  · rintro swept ⟨heq, hnoted, -⟩
    have heq' : swept.1 = Slots.sweep incoming start s := heq
    exact ⟨heq', heq' ▸ hnoted.iff_ne⟩

end Swept

/-! ## Settled slots -/

/-- An order with its positions feeds the slots with the incoming positions of its
    blocks. -/
theorem feeds_of_shows (ho : o.Shows (.of f direction)) :
    Feeds f o (Idoms.sources f (.of f direction)) ((BlockOrder.of f direction).size - 1) where
  block p hp := by
    have hlt : p < (BlockOrder.of f direction).size := by omega
    obtain ⟨block, hblock⟩ := BlockOrder.exists_block hlt
    have hat := BlockOrder.position?_of.mp hblock
    refine ⟨block, ho.order_eq ▸ hat, ?_⟩
    rw [Idoms.sources, Idoms.incoming, List.getElem?_toArray, List.getElem?_map, hat, ho.order_eq,
      funext ho.position?]
    rfl
  le_start b p hp := by
    rw [ho.position?] at hp
    have := BlockOrder.position?_lt hp
    omega

theorem setIfInBounds_replicate_last (n : Nat) :
    (Array.replicate (n + 1) none).setIfInBounds n (some n) = Slots.initial n := by
  rw [Slots.initial]
  grind

/-- The slots of a built procedure are swept without an access out of bounds, to the
    same end in the same number of sweeps. -/
theorem settledSlots_eq {startBlock : NodeId} (hf : f.Built)
    (hstart : direction.start? f = some startBlock) (ho : o.Shows (.of f direction)) :
    settledSlots f o = pure ((Idoms.of f (.of f direction)).slots,
      (Idoms.of f (.of f direction)).sweeps) := by
  have hpos : 1 ≤ (BlockOrder.of f direction).size :=
    Nat.zero_lt_of_lt (BlockOrder.position?_lt (BlockOrder.position?_start hf hstart))
  have hlt : (BlockOrder.of f direction).size - 1 <
      (Array.replicate (BlockOrder.of f direction).size (none : Option Nat)).size := by
    rw [Array.size_replicate]
    omega
  have hinitial := setIfInBounds_replicate_last ((BlockOrder.of f direction).size - 1)
  rw [Nat.sub_add_cancel hpos] at hinitial
  have hfed := Idoms.fed_sources hf hstart
  obtain ⟨slots, sweeps, hsettle, -, heq⟩ := Idoms.exists_settled hf hstart
  rw [settledSlots, ho.order_eq, minus_eq hpos, pure_bind, store_eq hlt, pure_bind, hinitial, heq]
  exact settle_eq (fun s hs => sweep_yields (feeds_of_shows ho) hfed hs)
    (fun s hs => hs.sweep hfed) (Slots.settling_initial _ _) hsettle

end ControlFlow.Guarded
