import ControlFlow.Proofs.Frontier
import ControlFlow.Store.Basic

/-!
# Keeping results changes no answer

    A store may answer from what it kept, from what it kept for something else
    on the way, or by computing afresh, depending on everything that was asked
    before.  None of this shows in the values: whatever a handle keeps is what
    would be computed for the procedure it is bound to (`Shelf.Fresh`).

    That is an invariant of every step, and one of the whole store only together
    with two smaller ones: the settings never change, and registered handles
    exist.  `Store.step_sound` says so for one request, `Store.run_sound` for
    runs, and the answers follow from the invariant alone.
-/

namespace ControlFlow

/-! ## Shelves -/

/-- What holds of everything kept per direction goes on to hold when one thing more
    is kept of which it holds. -/
theorem PerDirection.forall_set {α : Type} {P : Direction → α → Prop}
    {p : PerDirection (Option α)} (h : ∀ direction a, p.get direction = some a → P direction a)
    {direction : Direction} {a : α} (ha : P direction a) (other : Direction) (b : α)
    (hb : (p.set direction (some a)).get other = some b) : P other b := by
  rw [get_set] at hb
  split at hb
  · rename_i heq
    rw [← Option.some.inj hb, ← heq]
    exact ha
  · exact h other b hb

/-- Everything on the shelf is what would be computed for the procedure. -/
structure Shelf.Fresh (f : Procedure) (options : Dominance.Options) (shelf : Shelf) : Prop where
  dominance : ∀ direction result, shelf.dominance.get direction = some result →
    result.value = Dominance.of f direction options
  reachability : ∀ result, shelf.reachability = some result → result.value = Reachability.of f
  frontier : ∀ direction result, shelf.frontier.get direction = some result →
    result.value = Frontier.of f (Dominance.of f direction options)

namespace Shelf.Fresh

variable {f : Procedure} {options : Dominance.Options} {shelf : Shelf}

/-- There is nothing wrong with an empty shelf. -/
protected theorem empty (f : Procedure) (options : Dominance.Options) : Fresh f options {} where
  dominance direction result h := by cases direction <;> exact nomatch h
  reachability result h := nomatch h
  frontier direction result h := by cases direction <;> exact nomatch h

theorem keepDominance (h : shelf.Fresh f options) {direction : Direction}
    {result : Stamped Dominance} (hvalue : result.value = Dominance.of f direction options) :
    Fresh f options { shelf with dominance := shelf.dominance.set direction (some result) } where
  dominance := PerDirection.forall_set h.dominance hvalue
  reachability := h.reachability
  frontier := h.frontier

theorem keepReachability (h : shelf.Fresh f options) {result : Stamped Reachability}
    (hvalue : result.value = Reachability.of f) :
    Fresh f options { shelf with reachability := some result } where
  dominance := h.dominance
  reachability _ hkept := Option.some.inj hkept ▸ hvalue
  frontier := h.frontier

theorem keepFrontier (h : shelf.Fresh f options) {direction : Direction}
    {result : Stamped Frontier}
    (hvalue : result.value = Frontier.of f (Dominance.of f direction options)) :
    Fresh f options { shelf with frontier := shelf.frontier.set direction (some result) } where
  dominance := h.dominance
  reachability := h.reachability
  frontier := PerDirection.forall_set h.frontier hvalue

end Shelf.Fresh

namespace Store

variable {κ : Type} {code : κ → Procedure} {s s' s'' : Store κ} {h h' : HandleId}
  {handle : Handle κ}

/-! ## The invariant -/

/-- All shelves are fresh, and registered handles exist. -/
structure Sound (code : κ → Procedure) (s : Store κ) : Prop where
  fresh : ∀ h handle, s.handle? h = some handle →
    handle.shelf.Fresh (code handle.subject) s.config.options
  registered_lt : ∀ entry ∈ s.registry, entry.2 < s.handles.size

/-- The invariant goes on to hold, the settings stay, and no handle is lost. -/
structure Continues (code : κ → Procedure) (s s' : Store κ) : Prop where
  sound : Sound code s'
  config_eq : s'.config = s.config
  size_le : s.handles.size ≤ s'.handles.size

theorem Continues.refl (hs : Sound code s) : Continues code s s :=
  ⟨hs, rfl, Nat.le_refl _⟩

theorem Continues.trans (h₁ : Continues code s s') (h₂ : Continues code s' s'') :
    Continues code s s'' :=
  ⟨h₂.sound, h₂.config_eq.trans h₁.config_eq, Nat.le_trans h₁.size_le h₂.size_le⟩

theorem sound_new (code : κ → Procedure) (config : Config) : Sound code (new config) where
  fresh h handle hhandle := by
    unfold handle? new at hhandle
    exact nomatch hhandle
  registered_lt entry hentry := absurd hentry List.not_mem_nil

/-! ## What can be done to a store -/

theorem handle?_modifyHandle (s : Store κ) (h h' : HandleId) (change : Handle κ → Handle κ) :
    (s.modifyHandle h change).handle? h' =
      if h = h' then (s.handle? h').map change else s.handle? h' :=
  Array.getElem?_modify

theorem handle?_handOut (s : Store κ) (subject : κ) (h : HandleId) :
    (s.handOut subject).1.handle? h =
      if h = s.handles.size then some { subject := subject } else s.handle? h :=
  Array.getElem?_push

/-- Other registrations and another switch leave the shelves alone. -/
theorem Sound.reregister (hs : Sound code s) {registry : List (κ × HandleId)} (enabled : Bool)
    (hregistry : ∀ entry ∈ registry, entry.2 < s.handles.size) :
    Continues code s { s with registry := registry, enabled := enabled } where
  sound := ⟨hs.fresh, hregistry⟩
  config_eq := rfl
  size_le := Nat.le_refl _

/-- Changing a handle is sound when what it becomes is fresh. -/
theorem Sound.modifyHandle (hs : Sound code s) {change : Handle κ → Handle κ}
    (hchange : ∀ handle, s.handle? h = some handle →
      (change handle).shelf.Fresh (code (change handle).subject) s.config.options) :
    Continues code s (s.modifyHandle h change) where
  sound.fresh h' handle' hhandle' := by
    rw [handle?_modifyHandle] at hhandle'
    split at hhandle'
    · rename_i heq
      obtain ⟨handle, hhandle, rfl⟩ := Option.map_eq_some_iff.mp hhandle'
      exact hchange handle (heq ▸ hhandle)
    · exact hs.fresh h' handle' hhandle'
  sound.registered_lt entry hentry := by
    show entry.2 < (s.handles.modify h change).size
    rw [Array.size_modify]
    exact hs.registered_lt entry hentry
  config_eq := rfl
  size_le := Nat.le_of_eq Array.size_modify.symm

/-- A new handle keeps nothing. -/
theorem Sound.handOut (hs : Sound code s) (subject : κ) :
    Continues code s (s.handOut subject).1 where
  sound.fresh h handle hhandle := by
    rw [handle?_handOut] at hhandle
    split at hhandle
    · rw [← Option.some.inj hhandle]
      exact Shelf.Fresh.empty _ _
    · exact hs.fresh h handle hhandle
  sound.registered_lt entry hentry := by
    show entry.2 < (s.handles.push _).size
    rw [Array.size_push]
    exact Nat.lt_succ_of_lt (hs.registered_lt entry hentry)
  config_eq := rfl
  size_le := by
    show s.handles.size ≤ (s.handles.push _).size
    rw [Array.size_push]
    exact Nat.le_succ _

/-- Binding a handle to a procedure empties its shelf. -/
theorem Sound.rebind (hs : Sound code s) (h : HandleId) (subject : κ) :
    Continues code s (s.rebind code h subject).1 :=
  hs.modifyHandle fun _ _ => Shelf.Fresh.empty _ _

/-! ## Requests for results -/

/-- What a request for a result comes to: the value, a store that goes on, and every
    handle bound as before. -/
structure Answered {α : Type} (code : κ → Procedure) (s : Store κ) (value : α)
    (answer : Store κ × Stamped α × List Event) : Prop where
  value_eq : answer.2.1.value = value
  continues : Continues code s answer.1
  subject_eq : ∀ h, (answer.1.handle? h).map (·.subject) = (s.handle? h).map (·.subject)

/-- A request gives the value if what is kept has that value and what is computed
    too, and if keeping it leaves the shelf fresh. -/
theorem answered_request {α : Type} {name : String} {kept : Option (Stamped α)}
    {compute : Unit → α} {report : α → Event} {keep : Stamped α → Shelf → Shelf} {value : α}
    (hs : Sound code s) (hkept : ∀ result, kept = some result → result.value = value)
    (hcompute : compute () = value)
    (hkeep : ∀ handle result, s.handle? h = some handle → result.value = value →
      (keep result handle.shelf).Fresh (code handle.subject) s.config.options) :
    Answered code s value (s.request h name kept compute report keep) := by
  have hstamped : Sound code (s.stamp (compute ())).1 := ⟨hs.fresh, hs.registered_lt⟩
  unfold request
  cases hused : (if s.enabled then kept else none) with
  | some result =>
      -- answered from the shelf
      refine ⟨hkept result ?_, Continues.refl hs, fun h => rfl⟩
      split at hused
      · exact hused
      · exact nomatch hused
  | none =>
      -- computed, and kept while keeping is switched on
      dsimp only
      split
      · refine ⟨hcompute, ?_, ?_⟩
        · have hchange : Continues code (s.stamp (compute ())).1
              ((s.stamp (compute ())).1.modifyShelf h (keep (s.stamp (compute ())).2)) :=
            hstamped.modifyHandle fun handle hhandle => hkeep handle _ hhandle hcompute
          exact ⟨hchange.sound, hchange.config_eq, hchange.size_le⟩
        · intro h'
          unfold modifyShelf
          rw [handle?_modifyHandle]
          split
          · rw [Option.map_map]
            rfl
          · rfl
      · exact ⟨hcompute, ⟨hstamped, rfl, Nat.le_refl _⟩, fun h => rfl⟩

theorem Answered.exists_serial {α : Type} {value : α} {answer : Store κ × Stamped α × List Event}
    (h : Answered code s value answer) : ∃ serial, answer.2.1 = ⟨serial, value⟩ :=
  ⟨answer.2.1.serial, by rw [← h.value_eq]⟩

section Results

variable (hs : Sound code s) (hsubject : (s.handle? h).map (·.subject) = some handle.subject)
  (hfresh : handle.shelf.Fresh (code handle.subject) s.config.options)

include hs hsubject hfresh

theorem answered_dominance (direction : Direction) :
    Answered code s (Dominance.of (code handle.subject) direction s.config.options)
      (s.dominance code h handle direction) := by
  unfold dominance
  refine answered_request hs (hfresh.dominance direction) rfl ?_
  intro current result hcurrent hvalue
  rw [hcurrent] at hsubject
  rw [← Option.some.inj hsubject] at hvalue
  exact (hs.fresh h current hcurrent).keepDominance hvalue

theorem answered_reachability :
    Answered code s (Reachability.of (code handle.subject)) (s.reachability code h handle) := by
  unfold reachability
  refine answered_request hs hfresh.reachability rfl ?_
  intro current result hcurrent hvalue
  rw [hcurrent] at hsubject
  rw [← Option.some.inj hsubject] at hvalue
  exact (hs.fresh h current hcurrent).keepReachability hvalue

/-- The frontiers rest on dominators that may have been kept, which are the right
    ones as well. -/
theorem answered_frontier (direction : Direction) :
    Answered code s
      (Frontier.of (code handle.subject)
        (Dominance.of (code handle.subject) direction s.config.options))
      (s.frontier code h handle direction) := by
  have hfirst := answered_dominance hs hsubject hfresh direction
  have hconfig := hfirst.continues.config_eq
  have hsecond : Answered code (s.dominance code h handle direction).1
      (Frontier.of (code handle.subject)
        (Dominance.of (code handle.subject) direction s.config.options))
      ((s.dominance code h handle direction).1.request h (code handle.subject).name
        (handle.shelf.frontier.get direction)
        (fun _ => Frontier.of (code handle.subject) (s.dominance code h handle direction).2.1.value)
        (Frontier.event (code handle.subject))
        fun result shelf =>
          { shelf with frontier := shelf.frontier.set direction (some result) }) := by
    refine answered_request hfirst.continues.sound (hfresh.frontier direction)
      (congrArg _ hfirst.value_eq) ?_
    intro current result hcurrent hvalue
    -- what the first request kept on the shelf, it kept for the same procedure
    have hsame := hfirst.subject_eq h
    rw [hcurrent, hsubject] at hsame
    rw [← Option.some.inj hsame, ← hconfig] at hvalue
    exact (hfirst.continues.sound.fresh h current hcurrent).keepFrontier hvalue
  exact ⟨hsecond.value_eq, hfirst.continues.trans hsecond.continues,
    fun h => (hsecond.subject_eq h).trans (hfirst.subject_eq h)⟩

end Results

/-- Keeping the three base results leaves the shelf fresh, whatever was there. -/
theorem continues_keepBase (hs : Sound code s) (hhandle : s.handle? h = some handle) :
    Continues code s (s.keepBase code h handle).1 := by
  unfold keepBase
  dsimp only
  split
  · have hstamped : Continues code s { s with serial := s.serial + 1 + 1 + 1 } :=
      ⟨⟨hs.fresh, hs.registered_lt⟩, rfl, Nat.le_refl _⟩
    refine hstamped.trans (hstamped.sound.modifyHandle ?_)
    intro current hcurrent
    obtain rfl : handle = current := Option.some.inj (hhandle.symm.trans hcurrent)
    -- frontiers stay on the shelf
    refine ⟨?_, ?_, (hs.fresh h handle hhandle).frontier⟩
    · intro direction result hresult
      cases direction with
      | forward => exact Option.some.inj hresult ▸ rfl
      | backward => exact Option.some.inj hresult ▸ rfl
    · intro result hresult
      exact Option.some.inj hresult ▸ rfl
  · exact Continues.refl hs

/-! ## Steps and runs -/

section Steps

variable [DecidableEq κ]

theorem Sound.lt_of_registered? (hs : Sound code s) {subject : κ}
    (h : s.registered? subject = some h') : h' < s.handles.size := by
  unfold registered? at h
  obtain ⟨front, back, heq, -⟩ := List.lookup_eq_some_iff.mp h
  refine hs.registered_lt (subject, h') ?_
  rw [heq]
  exact List.mem_append.mpr (Or.inr List.mem_cons_self)

theorem Sound.unregister (hs : Sound code s) (subject : κ) :
    Continues code s (s.unregister subject) :=
  hs.reregister s.enabled fun entry hentry => hs.registered_lt entry (List.mem_of_mem_filter hentry)

theorem Sound.register (hs : Sound code s) (subject : κ) (hh : h < s.handles.size) :
    Continues code s (s.register subject h) := by
  refine hs.reregister s.enabled fun entry hentry => ?_
  rcases List.mem_cons.mp hentry with rfl | hmem
  · exact hh
  · exact hs.registered_lt entry (List.mem_of_mem_filter hmem)

/-- Getting a handle gives one that exists. -/
theorem get_sound (hs : Sound code s) (subject : κ) :
    Continues code s (s.get code subject).1 ∧
      (s.get code subject).2.1 < (s.get code subject).1.handles.size := by
  have hnew := hs.handOut subject
  have hlt : s.handles.size < (s.handOut subject).1.handles.size := by
    show s.handles.size < (s.handles.push _).size
    rw [Array.size_push]
    exact Nat.lt_succ_self _
  unfold get
  split
  · split
    · rename_i h hregistered
      exact ⟨Continues.refl hs, hs.lt_of_registered? hregistered⟩
    · exact ⟨hnew.trans (hnew.sound.register subject hlt), hlt⟩
  · exact ⟨hnew, hlt⟩

/-- What a step comes to: a store that goes on, and only handles that exist. -/
structure Stepped (code : κ → Procedure) (s : Store κ)
    (outcome : Store κ × Reply × List Event) : Prop where
  continues : Continues code s outcome.1
  handle_lt : ∀ h, outcome.2.1 = .handle h → h < outcome.1.handles.size

/-- Updating a registered procedure binds its handle to the new one, and registers
    it anew while keeping is switched on. -/
theorem stepped_update (hs : Sound code s) (old new : κ) :
    Stepped code s (s.step code (.update old new)) := by
  unfold step
  dsimp only
  split
  · obtain ⟨hcontinues, hlt⟩ := get_sound hs new
    exact ⟨hcontinues, fun h heq => Reply.handle.inj heq ▸ hlt⟩
  · rename_i h hregistered
    have hgone := hs.unregister old
    have hbound := hgone.trans (hgone.sound.rebind h new)
    have hlt := Nat.lt_of_lt_of_le (hs.lt_of_registered? hregistered) hbound.size_le
    refine ⟨?_, fun h' heq => ?_⟩
    · dsimp only
      split
      · exact hbound.trans (hbound.sound.register new hlt)
      · exact hbound
    · rw [← Reply.handle.inj heq]
      dsimp only
      split <;> exact hlt

omit [DecidableEq κ] in
/-- A step on a handle goes on if it does where there is such a handle. -/
theorem stepped_withHandle (hs : Sound code s) {act : Handle κ → Store κ × Reply × List Event}
    (hact : ∀ handle, s.handle? h = some handle → Stepped code s (act handle)) :
    Stepped code s (s.withHandle h act) := by
  unfold withHandle
  cases hhandle : s.handle? h with
  | none => exact ⟨Continues.refl hs, nofun⟩
  | some handle => exact hact handle hhandle

/-- Every step goes on. -/
theorem step_sound (hs : Sound code s) (r : Request κ) : Stepped code s (s.step code r) := by
  cases r with
  | get subject =>
      obtain ⟨hcontinues, hlt⟩ := get_sound hs subject
      exact ⟨hcontinues, fun h heq => Reply.handle.inj heq ▸ hlt⟩
  | update old new => exact stepped_update hs old new
  | evict subject => exact ⟨hs.unregister subject, nofun⟩
  | clear =>
      exact ⟨hs.reregister s.enabled fun entry hentry => absurd hentry List.not_mem_nil, nofun⟩
  | setEnabled enabled => exact ⟨hs.reregister enabled hs.registered_lt, nofun⟩
  | dominance h direction =>
      refine stepped_withHandle hs fun handle hhandle => ⟨?_, nofun⟩
      have hfresh := hs.fresh h handle hhandle
      exact (answered_dominance hs (congrArg _ hhandle) hfresh direction).continues
  | reachability h =>
      refine stepped_withHandle hs fun handle hhandle => ⟨?_, nofun⟩
      exact (answered_reachability hs (congrArg _ hhandle) (hs.fresh h handle hhandle)).continues
  | frontier h direction =>
      refine stepped_withHandle hs fun handle hhandle => ⟨?_, nofun⟩
      have hfresh := hs.fresh h handle hhandle
      exact (answered_frontier hs (congrArg _ hhandle) hfresh direction).continues
  | keepBase h =>
      refine stepped_withHandle hs fun handle hhandle => ⟨?_, nofun⟩
      exact continues_keepBase hs hhandle
  | invalidate h =>
      refine stepped_withHandle hs fun handle hhandle => ⟨?_, nofun⟩
      exact hs.modifyHandle fun _ _ => Shelf.Fresh.empty _ _
  | rebind h subject =>
      refine stepped_withHandle hs fun handle hhandle => ⟨?_, nofun⟩
      exact hs.rebind h subject

/-- Every run goes on. -/
theorem run_sound (hs : Sound code s) (requests : List (Request κ)) :
    Continues code s (s.run code requests) := by
  induction requests generalizing s with
  | nil => exact Continues.refl hs
  | cons r requests ih =>
      have hstep := (step_sound hs r).continues
      exact hstep.trans (ih hstep.sound)

/-- In a sound store a handle answers what would be computed from nothing. -/
theorem replies_of_sound (hs : Sound code s) (hhandle : s.handle? h = some handle)
    (direction : Direction) :
    (∃ serial, (s.step code (.dominance h direction)).2.1 =
      .dominance ⟨serial, Dominance.of (code handle.subject) direction s.config.options⟩) ∧
    (∃ serial, (s.step code (.reachability h)).2.1 =
      .reachability ⟨serial, Reachability.of (code handle.subject)⟩) ∧
    ∃ serial t, (s.step code (.frontier h direction)).2.1 = .frontier ⟨serial, t⟩ ∧
      Frontier.checked (code handle.subject)
        (Dominance.of (code handle.subject) direction s.config.options) = .ok t := by
  have hsubject : (s.handle? h).map (·.subject) = some handle.subject := congrArg _ hhandle
  have hfresh := hs.fresh h handle hhandle
  unfold step withHandle
  dsimp only
  rw [hhandle]
  refine ⟨?_, ?_, ?_⟩
  · obtain ⟨serial, hserial⟩ := (answered_dominance hs hsubject hfresh direction).exists_serial
    exact ⟨serial, congrArg Reply.dominance hserial⟩
  · obtain ⟨serial, hserial⟩ := (answered_reachability hs hsubject hfresh).exists_serial
    exact ⟨serial, congrArg Reply.reachability hserial⟩
  · obtain ⟨serial, hserial⟩ := (answered_frontier hs hsubject hfresh direction).exists_serial
    exact ⟨serial, _, congrArg Reply.frontier hserial, Frontier.checked_of _ direction _⟩

/-- However a store was used, and whatever was done since a handle was given out,
    the handle still answers for the procedure it is bound to now what would be
    computed for that procedure from nothing. -/
theorem replies_as_computed (code : κ → Procedure) (config : Config)
    (earlier later : List (Request κ)) (giving : Request κ) (h : HandleId)
    (hgiven : (((new config).run code earlier).step code giving).2.1 = .handle h)
    (direction : Direction) :
    ∃ handle, ((new config).run code (earlier ++ giving :: later)).handle? h = some handle ∧
      (∃ serial, (((new config).run code (earlier ++ giving :: later)).step code
          (.dominance h direction)).2.1 =
        .dominance ⟨serial, Dominance.of (code handle.subject) direction config.options⟩) ∧
      (∃ serial, (((new config).run code (earlier ++ giving :: later)).step code
          (.reachability h)).2.1 =
        .reachability ⟨serial, Reachability.of (code handle.subject)⟩) ∧
      ∃ serial t, (((new config).run code (earlier ++ giving :: later)).step code
          (.frontier h direction)).2.1 = .frontier ⟨serial, t⟩ ∧
        Frontier.checked (code handle.subject)
          (Dominance.of (code handle.subject) direction config.options) = .ok t := by
  have hearlier := run_sound (sound_new code config) earlier
  have hgiving := step_sound hearlier.sound giving
  have hlater := run_sound hgiving.continues.sound later
  have hrun : (new config).run code (earlier ++ giving :: later) =
      (((new config).run code earlier).step code giving).1.run code later := by
    unfold run
    rw [List.foldl_append, List.foldl_cons]
  rw [hrun]
  -- neither the settings nor the handle can have been lost on the way
  have hconfig := ((hearlier.trans hgiving.continues).trans hlater).config_eq
  have hlt := Nat.lt_of_lt_of_le (hgiving.handle_lt h hgiven) hlater.size_le
  obtain ⟨handle, hhandle⟩ : ∃ handle,
      ((((new config).run code earlier).step code giving).1.run code later).handle? h =
        some handle := ⟨_, Array.getElem?_eq_getElem hlt⟩
  rw [show config.options = _ from congrArg Config.options hconfig.symm]
  exact ⟨handle, hhandle, replies_of_sound hlater.sound hhandle direction⟩

end Steps

/-- Two procedures to keep results of. -/
def loops : Bool → Procedure
  | true => .twoEntryLoop
  | false => Frontier.entryLoop

/-- A store with a handle for each of them, of which the first keeps frontiers. -/
def bothLoops : Store Bool :=
  (new .default).run loops [.get true, .get false, .frontier 0 .forward]

/-- A handle that kept dominators of one of the loops answers for the other one after an
    update. -/
theorem replies_after_update :
    (((new .default).run loops [.get true, .dominance 0 .forward]).step loops
      (.update true false)).2.1 = .handle 0 ∧
    ∃ serial, (((new .default).run loops
        [.get true, .dominance 0 .forward, .update true false]).step loops
        (.dominance 0 .forward)).2.1 =
      .dominance ⟨serial, Dominance.of Frontier.entryLoop .forward Config.default.options⟩ := by
  have hgiven : (((new .default).run loops [.get true, .dominance 0 .forward]).step loops
      (.update true false)).2.1 = .handle 0 := rfl
  obtain ⟨handle, hhandle, hdominance, -⟩ :=
    replies_as_computed loops .default _ [] _ 0 hgiven .forward
  have hsubject : (((new .default).run loops
      ([.get true, .dominance 0 .forward] ++ [.update true false])).handle? 0).map (·.subject) =
        some false := rfl
  rw [hhandle] at hsubject
  have hbound : handle.subject = false := Option.some.inj hsubject
  rw [hbound] at hdominance
  exact ⟨hgiven, hdominance⟩

end Store

end ControlFlow
