import ControlFlow.Error
import ControlFlow.Fixpoint
import Mathlib.Data.List.Nodup
import Mathlib.Data.PFun

/-!
# Computations with every access checked

    An analysis looks things up in tables, writes to them, takes numbers from
    numbers and repeats steps until there is nothing more to do.  In a guarded
    computation each of these may go wrong: an index outside its table and a
    difference below zero are faults, and a loop need not end.  Nothing is
    clamped or defaulted, so that a computation that comes to `pure a` has made
    every one of its accesses within bounds.

    `Yields m P` says that `m` ends without a fault and with a result of which
    `P` holds.  It is proved along the computation: by `bind` for steps in
    sequence, by `loop` for steps repeated while a measure goes down, and by
    `foldlM` and `foldrM` for steps taken once for each entry of a list.

    Sweeping a table until it settles is guarded once for all (`settle`).  A
    guarded sweep does not compare tables; it notes whether it wrote anything new.
    As a sweep writes each entry at most once, the note is right (`Noted.iff_ne`).
-/

namespace ControlFlow

/-- A computation that may break off with a fault, or go on for ever. -/
abbrev Guarded (α : Type) : Type := ExceptT Fault Part α

namespace Guarded

variable {α β σ τ ρ : Type}

/-! ## Accesses -/

/-- Looks up an entry of a table. -/
def fetch (table : Array α) (index : Nat) : Guarded α :=
  match table[index]? with
  | some value => pure value
  | none => throw (.outOfBounds index table.size)

/-- Writes an entry of a table. -/
def store (table : Array α) (index : Nat) (value : α) : Guarded (Array α) :=
  if index < table.size then pure (table.setIfInBounds index value)
  else throw (.outOfBounds index table.size)

/-- Takes a number from another. -/
def minus (total part : Nat) : Guarded Nat :=
  if part ≤ total then pure (total - part) else throw (.underflow total part)

/-- What a step comes to: a fault or a result, or else a state to go on from. -/
def outcome : Except Fault (σ ⊕ ρ) → Except Fault ρ ⊕ σ
  | .error fault => .inl (.error fault)
  | .ok (.inl next) => .inr next
  | .ok (.inr result) => .inl (.ok result)

/-- Repeats a step until it has a result. -/
def loop (step : σ → Guarded (σ ⊕ ρ)) (s : σ) : Guarded ρ :=
  ExceptT.mk (PFun.fix (fun s => (step s).run.map outcome) s)

theorem fetch_eq {table : Array α} {index : Nat} {value : α} (h : table[index]? = some value) :
    fetch table index = pure value := by
  rw [fetch, h]

theorem store_eq {table : Array α} {index : Nat} (h : index < table.size) (value : α) :
    store table index value = pure (table.setIfInBounds index value) := by
  rw [store, if_pos h]

/-- Writing an entry that is there already changes nothing. -/
theorem setIfInBounds_same {table : Array α} {index : Nat} {value : α}
    (h : table[index]? = some value) : table.setIfInBounds index value = table := by
  obtain ⟨hlt, rfl⟩ := Array.getElem?_eq_some_iff.mp h
  rw [Array.setIfInBounds_def, dif_pos hlt, Array.set_getElem_self]

/-- Modifying an entry is writing what it becomes. -/
theorem modify_eq_setIfInBounds {table : Array α} {index : Nat} {value : α}
    (h : table[index]? = some value) (change : α → α) :
    table.modify index change = table.setIfInBounds index (change value) := by
  obtain ⟨hlt, -⟩ := Array.getElem?_eq_some_iff.mp h
  refine Array.ext_getElem? fun i => ?_
  rw [Array.getElem?_modify, Array.getElem?_setIfInBounds]
  by_cases hi : index = i
  · subst hi
    rw [if_pos rfl, if_pos rfl, if_pos hlt, h]
    rfl
  · rw [if_neg hi, if_neg hi]

theorem minus_eq {total part : Nat} (h : part ≤ total) : minus total part = pure (total - part) := by
  rw [minus, if_pos h]

theorem loop_next {step : σ → Guarded (σ ⊕ ρ)} {s next : σ} (h : step s = pure (.inl next)) :
    loop step s = loop step next := by
  have hmem : Sum.inr next ∈ (step s).run.map outcome := by
    rw [h]
    exact Part.mem_map outcome (Part.mem_some _)
  exact PFun.fix_fwd_eq hmem

theorem loop_done {step : σ → Guarded (σ ⊕ ρ)} {s : σ} {result : ρ}
    (h : step s = pure (.inr result)) : loop step s = pure result := by
  have hmem : Sum.inl (.ok result) ∈ (step s).run.map outcome := by
    rw [h]
    exact Part.mem_map outcome (Part.mem_some _)
  exact Part.eq_some_iff.mpr (PFun.fix_stop hmem)

/-! ## What a computation yields -/

/-- The computation ends without a fault, and `P` holds of its result. -/
def Yields (m : Guarded α) (P : α → Prop) : Prop :=
  ∃ a, m = pure a ∧ P a

namespace Yields

theorem pure {P : α → Prop} {a : α} (h : P a) : Yields (Pure.pure a) P :=
  ⟨a, rfl, h⟩

theorem mono {m : Guarded α} {P Q : α → Prop} (h : Yields m P) (hPQ : ∀ a, P a → Q a) :
    Yields m Q := by
  obtain ⟨a, hm, ha⟩ := h
  exact ⟨a, hm, hPQ a ha⟩

/-- What is computed first is handed to what comes next. -/
theorem bind {m : Guarded α} {k : α → Guarded β} {P : α → Prop} {Q : β → Prop} (h : Yields m P)
    (hk : ∀ a, P a → Yields (k a) Q) : Yields (m >>= k) Q := by
  obtain ⟨a, rfl, ha⟩ := h
  rw [pure_bind]
  exact hk a ha

theorem eq_pure {m : Guarded α} {a : α} (h : Yields m (· = a)) : m = Pure.pure a := by
  obtain ⟨a', hm, rfl⟩ := h
  exact hm

/-- A step of a loop that leads to another state. -/
theorem next {P : σ → Prop} {Q : ρ → Prop} {s : σ} (h : P s) :
    Yields (Pure.pure (.inl s)) (Sum.elim P Q) :=
  Yields.pure h

/-- The last step of a loop. -/
theorem done {P : σ → Prop} {Q : ρ → Prop} {result : ρ} (h : Q result) :
    Yields (Pure.pure (.inr result)) (Sum.elim P Q) :=
  Yields.pure h

/-- A loop ends when every step that is not the last brings a measure down; what
    every step keeps holds to the end. -/
theorem loop {step : σ → Guarded (σ ⊕ ρ)} {P : σ → Prop} {Q : ρ → Prop} (measure : σ → Nat)
    (hstep : ∀ s, P s →
      Yields (step s) (Sum.elim (fun next => P next ∧ measure next < measure s) Q))
    {s : σ} (hs : P s) : Yields (loop step s) Q := by
  induction hn : measure s using Nat.strongRecOn generalizing s with
  | _ n ih =>
      obtain ⟨r, hr, hresult⟩ := hstep s hs
      cases r with
      | inl next =>
          obtain ⟨hP, hlt⟩ := hresult
          rw [loop_next hr]
          exact ih (measure next) (hn ▸ hlt) hP rfl
      | inr result =>
          rw [loop_done hr]
          exact Yields.pure hresult

/-- Guarded steps for the entries of a list keep up with steps that guard nothing. -/
theorem foldlM {step : σ → α → Guarded σ} {next : τ → α → τ} {R : σ → τ → Prop} {l : List α}
    (hstep : ∀ a ∈ l, ∀ s t, R s t → Yields (step s a) fun s' => R s' (next t a))
    {s : σ} {t : τ} (h : R s t) : Yields (l.foldlM step s) fun s' => R s' (l.foldl next t) := by
  induction l generalizing s t with
  | nil => exact Yields.pure h
  | cons a l ih =>
      rw [List.foldlM_cons, List.foldl_cons]
      refine (hstep a List.mem_cons_self s t h).bind fun s' hs' => ?_
      exact ih (fun b hb => hstep b (List.mem_cons_of_mem a hb)) hs'

/-- Guarded steps for the entries of a list taken from its end: what holds of the
    part that was taken holds of the whole list when all of it is. -/
theorem foldrM {step : α → σ → Guarded σ} {P : List α → σ → Prop} {l : List α}
    (hstep : ∀ a done, a :: done <:+ l → ∀ s, P done s → Yields (step a s) (P (a :: done)))
    {s : σ} (h : P [] s) : Yields (l.foldrM step s) (P l) := by
  induction l with
  | nil => exact Yields.pure h
  | cons a l ih =>
      rw [List.foldrM_cons]
      have hrest := ih fun b done hsuffix => hstep b done (hsuffix.trans (List.suffix_cons a l))
      exact hrest.bind fun s' hs' => hstep a l (List.suffix_refl (a :: l)) s' hs'

end Yields

/-! ## Sweeps -/

/-- Writes an entry if that changes it, and notes that something changed. -/
def put [DecidableEq α] (index : Nat) (value : α) (state : Array α × Bool) :
    Guarded (Array α × Bool) := do
  let old ← fetch state.1 index
  if old = value then pure state
  else
    let table ← store state.1 index value
    pure (table, true)

/-- Sweeps a table until a sweep notes no change: the settled table and the number
    of sweeps. -/
def settle (sweep : Array α → Guarded (Array α × Bool)) (table : Array α) :
    Guarded (Array α × Nat) :=
  loop (fun s : Array α × Nat => do
    let swept ← sweep s.1
    if swept.2 then pure (.inl (swept.1, s.2 + 1)) else pure (.inr (swept.1, s.2 + 1)))
    (table, 0)

/-- A table in the middle of a sweep that began with the table `before` and has
    passed the indices in `done`. -/
structure Noted (before : Array α) (done : List Nat) (state : Array α × Bool) : Prop where
  size_eq : state.1.size = before.size
  untouched : ∀ i, i ∉ done → state.1[i]? = before[i]?
  quiet : state.2 = false → state.1 = before
  changed : state.2 = true → ∃ i ∈ done, state.1[i]? ≠ before[i]?

namespace Noted

variable {before : Array α} {done : List Nat} {state : Array α × Bool} {index : Nat}

theorem start (before : Array α) : Noted before [] (before, false) where
  size_eq := rfl
  untouched _ _ := rfl
  quiet _ := rfl
  changed h := nomatch h

/-- An index that is passed over. -/
theorem skip (h : Noted before done state) (index : Nat) : Noted before (index :: done) state where
  size_eq := h.size_eq
  untouched i hi := h.untouched i fun hmem => hi (List.mem_cons_of_mem index hmem)
  quiet := h.quiet
  changed hstate := by
    obtain ⟨i, hi, hne⟩ := h.changed hstate
    exact ⟨i, List.mem_cons_of_mem index hi, hne⟩

/-- An index that is written for the first time. -/
theorem put [DecidableEq α] (h : Noted before done state) (hnew : index ∉ done)
    (hlt : index < state.1.size) (value : α) :
    Yields (put index value state) fun next =>
      next.1 = state.1.setIfInBounds index value ∧ Noted before (index :: done) next := by
  have hold := Array.getElem?_eq_getElem hlt
  rw [Guarded.put, fetch_eq hold, pure_bind]
  split
  · rename_i hsame
    exact Yields.pure ⟨(setIfInBounds_same (hsame ▸ hold)).symm, h.skip index⟩
  · rename_i hdiffers
    rw [store_eq hlt, pure_bind]
    refine Yields.pure ⟨rfl, Array.size_setIfInBounds.trans h.size_eq, ?_, nofun, fun _ => ?_⟩
    · intro i hi
      have hne : index ≠ i := fun heq => hi (heq ▸ List.mem_cons_self)
      rw [Array.getElem?_setIfInBounds_ne hne]
      exact h.untouched i fun hmem => hi (List.mem_cons_of_mem index hmem)
    · -- until now the entry was as before the sweep
      refine ⟨index, List.mem_cons_self, ?_⟩
      rw [Array.getElem?_setIfInBounds_self_of_lt hlt, ← h.untouched index hnew, hold]
      exact fun heq => hdiffers (Option.some.inj heq).symm

/-- A change is noted exactly when there is one. -/
theorem iff_ne (h : Noted before done state) : state.2 = true ↔ state.1 ≠ before := by
  constructor
  · intro hstate heq
    obtain ⟨i, -, hne⟩ := h.changed hstate
    exact hne (by rw [heq])
  · intro hne
    exact Bool.ne_false_iff.mp fun hquiet => hne (h.quiet hquiet)

end Noted

/-- Guarded sweeps that keep up with sweeps that guard nothing settle the table in
    the same number of sweeps. -/
theorem settle_eq [DecidableEq α] {sweep : Array α → Guarded (Array α × Bool)}
    {plain : Array α → Array α} {P : Array α → Prop}
    (hsweep : ∀ table, P table → Yields (sweep table) fun swept =>
      swept.1 = plain table ∧ (swept.2 = true ↔ plain table ≠ table))
    (hplain : ∀ table, P table → P (plain table)) {table settled : Array α} {bound count : Nat}
    (htable : P table) (h : settleWithin plain bound table = some (settled, count)) :
    settle sweep table = pure (settled, count) := by
  -- the number of sweeps is counted from where the loop stands
  have hall : ∀ bound table before count, P table →
      settleWithin plain bound table = some (settled, count) →
      loop (fun s : Array α × Nat => do
        let swept ← sweep s.1
        if swept.2 then pure (.inl (swept.1, s.2 + 1)) else pure (.inr (swept.1, s.2 + 1)))
        (table, before) = pure (settled, before + count) := by
    intro bound
    induction bound with
    | zero =>
        intro table before count _ h
        exact nomatch h
    | succ bound ih =>
        intro table before count htable h
        obtain ⟨⟨swept, noted⟩, hrun, rfl, hnoted⟩ := hsweep table htable
        rw [settleWithin] at h
        split at h
        · rename_i hsame
          obtain ⟨rfl, rfl⟩ := Prod.mk.inj (Option.some.inj h)
          have hquiet : noted = false :=
            Bool.eq_false_iff.mpr fun htrue => hnoted.mp htrue hsame
          refine loop_done ?_
          rw [hrun, pure_bind, hquiet, hsame]
          rfl
        · rename_i hdiffers
          obtain ⟨⟨settled', rest⟩, hrest, heq⟩ := Option.map_eq_some_iff.mp h
          obtain ⟨rfl, rfl⟩ := Prod.mk.inj heq
          have hstep := ih (plain table) (before + 1) rest (hplain table htable) hrest
          rw [loop_next (by rw [hrun, pure_bind, hnoted.mpr hdiffers]; rfl), hstep,
            Nat.add_right_comm, Nat.add_assoc]
  have hrun := hall bound table 0 count htable h
  rw [Nat.zero_add] at hrun
  exact hrun

end Guarded

end ControlFlow
