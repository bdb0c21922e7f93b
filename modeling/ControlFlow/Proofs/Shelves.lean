import ControlFlow.Proofs.Retirement

/-!
# What is kept stays kept

    A result on the shelf of a handle stays there, and is the answer to every request
    for it made while keeping is switched on, until one of a few requests displaces it
    (`Displaces`).  While keeping is switched off, asking changes nothing.

    Seen from the shelves a request does one of three things (`Shelving`): it adds
    results where there were none, it empties one shelf, or it replaces the three base
    results of one shelf.  Requests for frontiers ask for dominators first, so that
    answering from the shelf means answering both from the shelf; that the dominators
    are there when the frontiers are is an invariant of runs (`Orderly`).
-/

namespace ControlFlow

/-! ## Places on a shelf -/

/-- Where a result is kept on a shelf. -/
inductive Shelf.Place where
  | dominance (direction : Direction)
  | reachability
  | frontier (direction : Direction)
  deriving DecidableEq, Repr

namespace Shelf

/-- What is kept at a place. -/
abbrev Place.Result : Place → Type
  | .dominance _ => Dominance
  | .reachability => Reachability
  | .frontier _ => Frontier

/-- Whether a result is one of those computed together. -/
def Place.isBase : Place → Bool
  | .dominance _ => true
  | .reachability => true
  | .frontier _ => false

/-- The request for what is kept at a place. -/
def Place.request {κ : Type} (h : HandleId) : Place → Store.Request κ
  | .dominance direction => .dominance h direction
  | .reachability => .reachability h
  | .frontier direction => .frontier h direction

/-- The answer with what is kept at a place. -/
def Place.reply : (place : Place) → Stamped place.Result → Store.Reply
  | .dominance _ => .dominance
  | .reachability => .reachability
  | .frontier _ => .frontier

/-- What is kept at a place. -/
def get (shelf : Shelf) : (place : Place) → Option (Stamped place.Result)
  | .dominance direction => shelf.dominance.get direction
  | .reachability => shelf.reachability
  | .frontier direction => shelf.frontier.get direction

/-- Puts a result in its place. -/
def put (shelf : Shelf) : (place : Place) → Stamped place.Result → Shelf
  | .dominance direction, result =>
      { shelf with dominance := shelf.dominance.set direction (some result) }
  | .reachability, result => { shelf with reachability := some result }
  | .frontier direction, result =>
      { shelf with frontier := shelf.frontier.set direction (some result) }

@[simp]
theorem get_empty (place : Place) : ({} : Shelf).get place = none := by
  cases place with
  | dominance direction => cases direction <;> rfl
  | reachability => rfl
  | frontier direction => cases direction <;> rfl

@[simp]
theorem get_put_self (shelf : Shelf) (place : Place) (result : Stamped place.Result) :
    (shelf.put place result).get place = some result := by
  cases place with
  | dominance direction => exact (PerDirection.get_set _ _ _ _).trans (if_pos rfl)
  | reachability => rfl
  | frontier direction => exact (PerDirection.get_set _ _ _ _).trans (if_pos rfl)

theorem get_put_of_ne (shelf : Shelf) {place other : Place} (result : Stamped place.Result)
    (hne : other ≠ place) : (shelf.put place result).get other = shelf.get other := by
  cases place with
  | dominance direction =>
      cases other with
      | dominance direction' =>
          refine (PerDirection.get_set _ _ _ _).trans (if_neg ?_)
          rintro rfl
          exact hne rfl
      | reachability => rfl
      | frontier direction' => rfl
  | reachability =>
      cases other with
      | dominance direction' => rfl
      | reachability => exact absurd rfl hne
      | frontier direction' => rfl
  | frontier direction =>
      cases other with
      | dominance direction' => rfl
      | reachability => rfl
      | frontier direction' =>
          refine (PerDirection.get_set _ _ _ _).trans (if_neg ?_)
          rintro rfl
          exact hne rfl

end Shelf

namespace Store

open ControlFlow.Shelf (Place)

variable {κ : Type} {code : κ → Procedure} {s s' s'' : Store κ} {h : HandleId}
  {handle : Handle κ} {place : Place}

/-- What a handle keeps at a place; nothing where there is no such handle. -/
def kept? (s : Store κ) (h : HandleId) (place : Place) : Option (Stamped place.Result) :=
  (s.handle? h).bind (·.shelf.get place)

theorem kept?_of_handle? (hhandle : s.handle? h = some handle) (place : Place) :
    s.kept? h place = handle.shelf.get place := by
  rw [kept?, hhandle, Option.bind_some]

theorem kept?_modifyHandle (s : Store κ) (h h' : HandleId) (change : Handle κ → Handle κ)
    (place : Place) : (s.modifyHandle h change).kept? h' place =
      if h = h' then (s.handle? h').bind fun handle => (change handle).shelf.get place
      else s.kept? h' place := by
  rw [kept?, handle?_modifyHandle]
  split
  · rw [Option.bind_map]
    rfl
  · rfl

/-- A new handle keeps nothing. -/
theorem kept?_handOut (s : Store κ) (f : κ) (h : HandleId) (place : Place) :
    (s.handOut f).1.kept? h place = s.kept? h place := by
  rw [kept?, handle?_handOut, kept?]
  split
  · rename_i heq
    rw [heq, handle?, Array.getElem?_eq_none (Nat.le_refl _)]
    exact Shelf.get_empty place
  · rfl

/-- Emptying a shelf leaves all others as they are. -/
theorem kept?_emptied (s : Store κ) {change : Handle κ → Handle κ}
    (hchange : ∀ handle, (change handle).shelf = {}) (h h' : HandleId) (place : Place) :
    (s.modifyHandle h change).kept? h' place = if h' = h then none else s.kept? h' place := by
  rw [kept?_modifyHandle]
  by_cases heq : h = h'
  · rw [if_pos heq, if_pos heq.symm]
    cases s.handle? h' with
    | none => rfl
    | some handle =>
        rw [Option.bind_some, hchange]
        exact Shelf.get_empty place
  · rw [if_neg heq, if_neg (Ne.symm heq)]

/-! ## Results are added -/

/-- Results may have been added and none is lost.  What was added has a number of its
    own, and frontiers were added only where there are dominators. -/
structure Grows (s s' : Store κ) : Prop where
  stays : ∀ h place result, s.kept? h place = some result → s'.kept? h place = some result
  numbered : ∀ h place result, s'.kept? h place = some result →
    s.kept? h place = some result ∨ s.serial ≤ result.serial ∧ result.serial < s'.serial
  supported : ∀ h direction, s'.kept? h (.frontier direction) ≠ none →
    s.kept? h (.frontier direction) ≠ none ∨ s'.kept? h (.dominance direction) ≠ none
  serial_le : s.serial ≤ s'.serial
  off : s.enabled = false → ∀ h place, s'.kept? h place = s.kept? h place

namespace Grows

theorem of_same (hkept : ∀ h place, s'.kept? h place = s.kept? h place)
    (hserial : s.serial ≤ s'.serial) : Grows s s' where
  stays h place _ hresult := (hkept h place).trans hresult
  numbered h place _ hresult := .inl ((hkept h place).symm.trans hresult)
  supported h _ hfrontier := .inl (hkept h _ ▸ hfrontier)
  serial_le := hserial
  off _ := hkept

theorem refl (s : Store κ) : Grows s s :=
  of_same (fun _ _ => rfl) (Nat.le_refl _)

theorem stays_ne (hgrows : Grows s s') (hkept : s.kept? h place ≠ none) :
    s'.kept? h place ≠ none := by
  obtain ⟨result, hresult⟩ := Option.ne_none_iff_exists'.mp hkept
  rw [hgrows.stays h place result hresult]
  exact nofun

theorem trans (h₁ : Grows s s') (h₂ : Grows s' s'') (henabled : s'.enabled = s.enabled) :
    Grows s s'' where
  stays h place result hresult := h₂.stays h place result (h₁.stays h place result hresult)
  numbered h place result hresult := by
    rcases h₂.numbered h place result hresult with hold | ⟨hlow, hhigh⟩
    · rcases h₁.numbered h place result hold with hold | ⟨hlow, hhigh⟩
      · exact .inl hold
      · exact .inr ⟨hlow, Nat.lt_of_lt_of_le hhigh h₂.serial_le⟩
    · exact .inr ⟨Nat.le_trans h₁.serial_le hlow, hhigh⟩
  supported h direction hfrontier := by
    rcases h₂.supported h direction hfrontier with hold | hnew
    · exact (h₁.supported h direction hold).imp_right h₂.stays_ne
    · exact .inr hnew
  serial_le := Nat.le_trans h₁.serial_le h₂.serial_le
  off hoff h place :=
    (h₂.off (henabled.trans hoff) h place).trans (h₁.off hoff h place)

end Grows

/-- What is kept after a result was numbered and put in its place. -/
theorem kept?_put (hhandle : s.handle? h = some handle) (serial : Nat)
    (result : Stamped place.Result) (h' : HandleId) (place' : Place) :
    (modifyShelf { s with serial := serial } h (·.put place result)).kept? h' place' =
      if h = h' then (handle.shelf.put place result).get place' else s.kept? h' place' := by
  refine (kept?_modifyHandle _ h h' _ place').trans ?_
  split
  · rename_i heq
    subst heq
    show (s.handle? h).bind _ = _
    rw [hhandle, Option.bind_some]
  · rfl

/-- A numbered result is put in a place that was empty. -/
theorem grows_put (hhandle : s.handle? h = some handle) (hon : s.enabled = true)
    (hempty : s.kept? h place = none) (result : Stamped place.Result)
    (hserial : result.serial = s.serial)
    (hsupport : ∀ direction, place = .frontier direction →
      s.kept? h (.dominance direction) ≠ none) :
    Grows s (modifyShelf { s with serial := s.serial + 1 } h (·.put place result)) := by
  have helsewhere : ∀ h' place', (h' = h → place' ≠ place) → (modifyShelf
      { s with serial := s.serial + 1 } h (·.put place result)).kept? h' place' =
        s.kept? h' place' := by
    intro h' place' hne
    rw [kept?_put hhandle]
    split
    · rename_i heq
      rw [Shelf.get_put_of_ne _ _ (hne heq.symm), ← heq, kept?_of_handle? hhandle]
    · rfl
  have hhere : (modifyShelf { s with serial := s.serial + 1 } h
      (·.put place result)).kept? h place = some result := by
    rw [kept?_put hhandle, if_pos rfl, Shelf.get_put_self]
  refine ⟨?_, ?_, ?_, Nat.le_succ _, fun hoff => absurd (hon.symm.trans hoff) nofun⟩
  · intro h' place' result' hresult
    rw [helsewhere, hresult]
    rintro rfl rfl
    exact nomatch hempty.symm.trans hresult
  · intro h' place' result' hresult
    by_cases hsame : h' = h ∧ place' = place
    · obtain ⟨rfl, rfl⟩ := hsame
      rw [hhere, Option.some.injEq] at hresult
      exact .inr ⟨hresult ▸ Nat.le_of_eq hserial.symm, hresult ▸ hserial ▸ Nat.lt_succ_self _⟩
    · rw [helsewhere h' place' fun h₁ h₂ => hsame ⟨h₁, h₂⟩] at hresult
      exact .inl hresult
  · intro h' direction hfrontier
    by_cases hsame : h' = h ∧ .frontier direction = place
    · obtain ⟨rfl, rfl⟩ := hsame
      have hdominators := hsupport direction rfl
      rw [← helsewhere h' (.dominance direction) fun _ => nofun] at hdominators
      exact .inr hdominators
    · rw [helsewhere h' _ fun h₁ h₂ => hsame ⟨h₁, h₂⟩] at hfrontier
      exact .inl hfrontier

section Requests

variable {α : Type} {name : String} {kept : Option (Stamped α)} {compute : Unit → α}
  {report : α → Event} {keep : Stamped α → Shelf → Shelf}

/-- While keeping is switched on, what is kept is the answer and nothing changes. -/
theorem request_of_kept {result : Stamped α} (hon : s.enabled = true) (hkept : kept = some result) :
    s.request h name kept compute report keep = (s, result, []) := by
  rw [request, if_pos hon, hkept]

/-- While keeping is switched on, what is not kept is computed, numbered and kept. -/
theorem request_of_missing (hon : s.enabled = true) (hkept : kept = none) :
    (s.request h name kept compute report keep).1 =
      modifyShelf { s with serial := s.serial + 1 } h (keep ⟨s.serial, compute ()⟩) := by
  simp [request, stamp, hon, hkept]

/-- While keeping is switched off, everything is computed and numbered. -/
theorem request_of_off (hoff : s.enabled = false) :
    (s.request h name kept compute report keep).1 = { s with serial := s.serial + 1 } := by
  simp [request, stamp, hoff]

end Requests

section Requests

variable {name : String} {compute : Unit → place.Result} {report : place.Result → Event}

/-- A request adds its result if there is none. -/
theorem grows_request (hhandle : s.handle? h = some handle)
    (hsupport : s.enabled = true → ∀ direction, place = .frontier direction →
      s.kept? h (.dominance direction) ≠ none) :
    Grows s (s.request h name (s.kept? h place) compute report fun result shelf =>
      shelf.put place result).1 := by
  cases hon : s.enabled with
  | true =>
      cases hkept : s.kept? h place with
      | some result =>
          rw [request_of_kept hon rfl]
          exact Grows.refl s
      | none =>
          rw [request_of_missing hon rfl]
          exact grows_put hhandle hon hkept _ rfl (hsupport hon)
  | false =>
      rw [request_of_off hon]
      exact Grows.of_same (fun _ _ => rfl) (Nat.le_succ _)

/-- While keeping is switched on, a request leaves a result in its place. -/
theorem kept?_request (hhandle : s.handle? h = some handle) (hon : s.enabled = true) :
    (s.request h name (s.kept? h place) compute report fun result shelf =>
      shelf.put place result).1.kept? h place ≠ none := by
  cases hkept : s.kept? h place with
  | some result =>
      rw [request_of_kept hon rfl, hkept]
      exact nofun
  | none =>
      rw [request_of_missing hon rfl, kept?_put hhandle, if_pos rfl, Shelf.get_put_self]
      exact nofun

end Requests

/-! ## Requests to a handle -/

theorem withHandle_of_handle? (hhandle : s.handle? h = some handle)
    {act : Handle κ → Store κ × Reply × List Event} : s.withHandle h act = act handle := by
  rw [withHandle, hhandle]

section Handles

variable (code) (hhandle : s.handle? h = some handle) (direction : Direction)

include hhandle

theorem dominance_eq_request : s.dominance code h handle direction =
    s.request h (code handle.subject).name (s.kept? h (.dominance direction))
      (fun _ => Dominance.of (code handle.subject) direction s.config.options)
      (Dominance.event (code handle.subject))
      fun result shelf => shelf.put (.dominance direction) result := by
  rw [kept?_of_handle? hhandle]
  rfl

theorem reachability_eq_request : s.reachability code h handle =
    s.request h (code handle.subject).name (s.kept? h .reachability)
      (fun _ => Reachability.of (code handle.subject)) (Reachability.event (code handle.subject))
      fun result shelf => shelf.put .reachability result := by
  rw [kept?_of_handle? hhandle]
  rfl

theorem grows_dominance : Grows s (s.dominance code h handle direction).1 := by
  rw [dominance_eq_request code hhandle]
  exact grows_request hhandle fun _ _ => nofun

theorem grows_reachability : Grows s (s.reachability code h handle).1 := by
  rw [reachability_eq_request code hhandle]
  exact grows_request hhandle fun _ _ => nofun

/-- A request for dominators leaves the switch and the frontiers as they are. -/
theorem dominance_frame : (s.dominance code h handle direction).1.enabled = s.enabled ∧
    (s.dominance code h handle direction).1.kept? h (.frontier direction) =
      s.kept? h (.frontier direction) := by
  rw [dominance_eq_request code hhandle]
  cases hon : s.enabled with
  | false =>
      rw [request_of_off hon]
      exact ⟨hon, rfl⟩
  | true =>
      cases hkept : s.kept? h (.dominance direction) with
      | some result =>
          rw [request_of_kept hon rfl]
          exact ⟨hon, rfl⟩
      | none =>
          rw [request_of_missing hon rfl, kept?_put hhandle, if_pos rfl, kept?_of_handle? hhandle]
          exact ⟨hon, Shelf.get_put_of_ne _ _ nofun⟩

/-- A request for frontiers is one for dominators, and then one for the frontiers that
    rest on them. -/
theorem frontier_eq_request : s.frontier code h handle direction =
    let first := s.dominance code h handle direction
    let second := first.1.request h (code handle.subject).name
      (first.1.kept? h (.frontier direction))
      (fun _ => Frontier.of (code handle.subject) first.2.1.value)
      (Frontier.event (code handle.subject))
      fun result shelf => shelf.put (.frontier direction) result
    (second.1, second.2.1, first.2.2 ++ second.2.2) := by
  dsimp only
  rw [(dominance_frame code hhandle direction).2, kept?_of_handle? hhandle]
  rfl

theorem grows_frontier : Grows s (s.frontier code h handle direction).1 := by
  obtain ⟨henabled, -⟩ := dominance_frame code hhandle direction
  have hfirst := grows_dominance code hhandle direction
  -- the handle is still there
  have hsame : (s.dominance code h handle direction).1.boundTo? h = s.boundTo? h :=
    (sameBindings_request s h _ _ _ _ _).boundTo? h
  rw [boundTo?, boundTo?, hhandle, Option.map_some] at hsame
  obtain ⟨handle', hhandle', -⟩ := Option.map_eq_some_iff.mp hsame
  rw [frontier_eq_request code hhandle]
  refine hfirst.trans (grows_request hhandle' fun hon direction' heq => ?_) henabled
  obtain rfl : direction = direction' := Place.frontier.inj heq
  rw [dominance_eq_request code hhandle]
  exact kept?_request hhandle (henabled.symm.trans hon)

/-- While keeping is switched on, the answer to a request for what is kept is what is
    kept: nothing is computed and nothing changes. -/
theorem step_request_of_kept [DecidableEq κ] {place : Place} {result : Stamped place.Result}
    (hon : s.enabled = true) (hkept : s.kept? h place = some result)
    (hsupport : ∀ direction, place = .frontier direction →
      s.kept? h (.dominance direction) ≠ none) :
    s.step code (place.request h) = (s, place.reply result, []) := by
  cases place with
  | dominance direction =>
      have hanswer : s.dominance code h handle direction = (s, result, []) := by
        rw [dominance_eq_request code hhandle]
        exact request_of_kept hon hkept
      refine (withHandle_of_handle? hhandle).trans ?_
      rw [hanswer]
      rfl
  | reachability =>
      have hanswer : s.reachability code h handle = (s, result, []) := by
        rw [reachability_eq_request code hhandle]
        exact request_of_kept hon hkept
      refine (withHandle_of_handle? hhandle).trans ?_
      rw [hanswer]
      rfl
  | frontier direction =>
      obtain ⟨dominators, hdominators⟩ := Option.ne_none_iff_exists'.mp (hsupport direction rfl)
      have hfirst : s.dominance code h handle direction = (s, dominators, []) := by
        rw [dominance_eq_request code hhandle]
        exact request_of_kept hon hdominators
      have hanswer : s.frontier code h handle direction = (s, result, []) := by
        rw [frontier_eq_request code hhandle, hfirst]
        dsimp only
        rw [request_of_kept hon hkept]
        rfl
      refine (withHandle_of_handle? hhandle).trans ?_
      rw [hanswer]
      rfl

end Handles

/-! ## What a request does to the shelves -/

section Steps

variable [DecidableEq κ] {r : Request κ}

/-- The requests that displace what a handle keeps at a place: emptying its shelf,
    binding it to a procedure, updating the procedure it is registered for, and
    computing the base results anew while keeping is switched on. -/
def Displaces (s : Store κ) (h : HandleId) (place : Place) : Request κ → Prop
  | .invalidate h' => h' = h
  | .rebind h' _ => h' = h
  | .update old _ => s.registered? old = some h
  | .keepBase h' => h' = h ∧ s.enabled = true ∧ place.isBase = true
  | _ => False

/-- What one request can do to the shelves. -/
inductive Shelving (s : Store κ) : Request κ → Store κ → Prop where
  /-- Results are added. -/
  | grown {r : Request κ} {s' : Store κ} (grows : Grows s s') : Shelving s r s'
  /-- One shelf is emptied. -/
  | emptied {r : Request κ} {s' : Store κ} (handle : HandleId)
      (displaces : ∀ place, Displaces s handle place r)
      (kept : ∀ h place, s'.kept? h place = if h = handle then none else s.kept? h place)
      (serial_le : s.serial ≤ s'.serial) : Shelving s r s'
  /-- The base results of one shelf are computed anew. -/
  | based {s' : Store κ} (handle : HandleId) (on : s.enabled = true)
      (elsewhere : ∀ h place, (h = handle → place.isBase = false) →
        s'.kept? h place = s.kept? h place)
      (here : ∀ place, place.isBase = true → ∃ result, s'.kept? handle place = some result ∧
        s.serial ≤ result.serial ∧ result.serial < s'.serial)
      (serial_le : s.serial ≤ s'.serial) : Shelving s (.keepBase handle) s'

/-- Handing out and registering handles has no part in what is kept. -/
theorem grows_get (s : Store κ) (f : κ) : Grows s (s.get code f).1 := by
  rw [get]
  split
  · split
    · exact Grows.refl s
    · exact Grows.of_same (kept?_handOut s f) (Nat.le_refl _)
  · exact Grows.of_same (kept?_handOut s f) (Nat.le_refl _)

omit [DecidableEq κ] in
/-- The base results are all numbered anew, and the frontiers stay. -/
theorem kept?_keepBase (code : κ → Procedure) (hhandle : s.handle? h = some handle)
    (hon : s.enabled = true) :
    (∀ h' place, (h' = h → place.isBase = false) →
      (s.keepBase code h handle).1.kept? h' place = s.kept? h' place) ∧
    (∀ place, place.isBase = true → ∃ result, (s.keepBase code h handle).1.kept? h place =
      some result ∧ s.serial ≤ result.serial ∧ result.serial < s.serial + 3) ∧
    (s.keepBase code h handle).1.serial = s.serial + 3 := by
  have hkept : ∀ h' place, (s.keepBase code h handle).1.kept? h' place =
      if h = h' then Shelf.get
        { handle.shelf with
          dominance := ⟨some ⟨s.serial, Dominance.of (code handle.subject) .forward s.config.options⟩,
            some ⟨s.serial + 1, Dominance.of (code handle.subject) .backward s.config.options⟩⟩
          reachability := some ⟨s.serial + 2, Reachability.of (code handle.subject)⟩ } place
      else s.kept? h' place := by
    intro h' place
    rw [keepBase]
    dsimp only
    rw [if_pos hon]
    refine (kept?_modifyHandle _ h h' _ place).trans ?_
    split
    · rename_i heq
      subst heq
      show (s.handle? h).bind _ = _
      rw [hhandle, Option.bind_some]
      rfl
    · rfl
  refine ⟨?_, ?_, ?_⟩
  · intro h' place hplace
    rw [hkept]
    split
    · rename_i heq
      cases place with
      | dominance direction => cases hplace heq.symm
      | reachability => cases hplace heq.symm
      | frontier direction =>
          rw [← heq, kept?_of_handle? hhandle]
          rfl
    · rfl
  · intro place hplace
    rw [hkept, if_pos rfl]
    cases place with
    | dominance direction =>
        cases direction with
        | forward => exact ⟨_, rfl, Nat.le_refl _, by simp⟩
        | backward => exact ⟨_, rfl, by simp, by simp⟩
    | reachability => exact ⟨_, rfl, by simp, by simp⟩
    | frontier direction => cases hplace
  · rw [keepBase]
    dsimp only
    rw [if_pos hon]
    rfl

theorem shelving_keepBase (hhandle : s.handle? h = some handle) :
    Shelving s (.keepBase h) (s.keepBase code h handle).1 := by
  cases hon : s.enabled with
  | true =>
      obtain ⟨helsewhere, hhere, hserial⟩ := kept?_keepBase code hhandle hon
      refine .based h hon helsewhere ?_ (hserial ▸ Nat.le_add_right _ _)
      rw [hserial]
      exact hhere
  | false =>
      rw [keepBase]
      dsimp only
      rw [hon, if_neg Bool.false_ne_true]
      exact .grown (Grows.refl s)

theorem shelving_update (old new : κ) :
    Shelving s (.update old new) (s.step code (.update old new)).1 := by
  cases hold : s.registered? old with
  | none =>
      rw [update_of_unregistered code hold]
      exact .grown (grows_get s new)
  | some h =>
      rw [update_of_registered code hold]
      have hemptied : ∀ h' place, ((s.unregister old).rebind code h new).1.kept? h' place =
          if h' = h then none else s.kept? h' place :=
        kept?_emptied (s.unregister old) (fun _ => rfl) h
      refine .emptied h (fun _ => hold) ?_ ?_
      · split
        · exact hemptied
        · exact hemptied
      · split
        · exact Nat.le_refl _
        · exact Nat.le_refl _

/-- Every request does one of these things. -/
theorem shelving_step (s : Store κ) (r : Request κ) : Shelving s r (s.step code r).1 := by
  have hidle : Shelving s r s := .grown (Grows.refl s)
  have hsame : ∀ {s' : Store κ}, s'.handles = s.handles → s.serial ≤ s'.serial →
      Shelving s r s' := by
    intro s' hhandles hserial
    refine .grown (Grows.of_same (fun h place => ?_) hserial)
    rw [kept?, handle?, hhandles]
    rfl
  cases r with
  | get f => exact .grown (grows_get s f)
  | update old new => exact shelving_update old new
  | evict f => exact hsame rfl (Nat.le_refl _)
  | clear => exact hsame rfl (Nat.le_refl _)
  | setEnabled enabled => exact hsame rfl (Nat.le_refl _)
  | dominance h direction =>
      exact withHandle_cases hidle fun _ hhandle => .grown (grows_dominance code hhandle direction)
  | reachability h =>
      exact withHandle_cases hidle fun _ hhandle => .grown (grows_reachability code hhandle)
  | frontier h direction =>
      exact withHandle_cases hidle fun _ hhandle => .grown (grows_frontier code hhandle direction)
  | keepBase h => exact withHandle_cases hidle fun _ hhandle => shelving_keepBase hhandle
  | invalidate h =>
      refine withHandle_cases hidle fun _ _ => .emptied h (fun _ => rfl) ?_ (Nat.le_refl _)
      exact kept?_emptied s (fun _ => rfl) h
  | rebind h f =>
      refine withHandle_cases hidle fun _ _ => .emptied h (fun _ => rfl) ?_ (Nat.le_refl _)
      exact kept?_emptied s (fun _ => rfl) h

/-! ## Runs -/

/-- What is kept has been numbered, and where there are frontiers there are dominators. -/
structure Orderly (s : Store κ) : Prop where
  numbered : ∀ h place result, s.kept? h place = some result → result.serial < s.serial
  supported : ∀ h direction, s.kept? h (.frontier direction) ≠ none →
    s.kept? h (.dominance direction) ≠ none

theorem Shelving.orderly (hshelving : Shelving s r s') (horderly : Orderly s) : Orderly s' := by
  obtain ⟨hnumbered, hsupported⟩ := horderly
  cases hshelving with
  | grown grows =>
      refine ⟨?_, ?_⟩
      · intro h place result hresult
        rcases grows.numbered h place result hresult with hold | ⟨-, hnew⟩
        · exact Nat.lt_of_lt_of_le (hnumbered h place result hold) grows.serial_le
        · exact hnew
      · intro h direction hfrontier
        rcases grows.supported h direction hfrontier with hold | hnew
        · exact grows.stays_ne (hsupported h direction hold)
        · exact hnew
  | emptied handle displaces kept serial_le =>
      refine ⟨?_, ?_⟩
      · intro h place result hresult
        rw [kept] at hresult
        split at hresult
        · cases hresult
        · exact Nat.lt_of_lt_of_le (hnumbered h place result hresult) serial_le
      · intro h direction hfrontier
        rw [kept] at hfrontier ⊢
        split at hfrontier
        · exact absurd rfl hfrontier
        · rename_i hne
          rw [if_neg hne]
          exact hsupported h direction hfrontier
  | based handle on elsewhere here serial_le =>
      refine ⟨?_, ?_⟩
      · intro h place result hresult
        by_cases hnew : h = handle ∧ place.isBase = true
        · obtain ⟨rfl, hbase⟩ := hnew
          obtain ⟨result', hresult', -, hlt⟩ := here place hbase
          rw [hresult, Option.some.injEq] at hresult'
          exact hresult' ▸ hlt
        · have hold : h = handle → place.isBase = false := fun heq =>
            Bool.eq_false_of_not_eq_true fun hbase => hnew ⟨heq, hbase⟩
          rw [elsewhere h place hold] at hresult
          exact Nat.lt_of_lt_of_le (hnumbered h place result hresult) serial_le
      · intro h direction hfrontier
        by_cases heq : h = handle
        · obtain ⟨result, hresult, -⟩ := here (.dominance direction) rfl
          rw [heq, hresult]
          exact nofun
        · rw [elsewhere h _ fun h' => absurd h' heq] at hfrontier ⊢
          exact hsupported h direction hfrontier

omit [DecidableEq κ] in
theorem orderly_new (config : Config) : Orderly (new config : Store κ) where
  numbered h place result hresult := by
    have hnone : (new config : Store κ).kept? h place = none := rfl
    exact nomatch hnone.symm.trans hresult
  supported _ _ hfrontier := absurd rfl hfrontier

theorem orderly_run (horderly : Orderly s) (requests : List (Request κ)) :
    Orderly (s.run code requests) := by
  induction requests generalizing s with
  | nil => exact horderly
  | cons r requests ih => exact ih ((shelving_step s r).orderly horderly)

/-- A result stays where it is unless the request displaces it. -/
theorem Shelving.stays (hshelving : Shelving s r s') {result : Stamped place.Result}
    (hkept : s.kept? h place = some result) (hnot : ¬ Displaces s h place r) :
    s'.kept? h place = some result := by
  cases hshelving with
  | grown grows => exact grows.stays h place result hkept
  | emptied handle displaces kept serial_le =>
      rw [kept, if_neg, hkept]
      rintro rfl
      exact hnot (displaces place)
  | based handle on elsewhere here serial_le =>
      rw [elsewhere, hkept]
      rintro rfl
      exact Bool.eq_false_of_not_eq_true fun hbase => hnot ⟨rfl, on, hbase⟩

/-- None of the requests displaces what the handle keeps at the place. -/
def Undisturbed (code : κ → Procedure) (h : HandleId) (place : Place) :
    Store κ → List (Request κ) → Prop
  | _, [] => True
  | s, r :: requests =>
      ¬ Displaces s h place r ∧ Undisturbed code h place (s.step code r).1 requests

theorem stays_run {result : Stamped place.Result} (hkept : s.kept? h place = some result)
    {requests : List (Request κ)} (hundisturbed : Undisturbed code h place s requests) :
    (s.run code requests).kept? h place = some result := by
  induction requests generalizing s with
  | nil => exact hkept
  | cons r requests ih =>
      obtain ⟨hnot, hrest⟩ := hundisturbed
      exact ih ((shelving_step s r).stays hkept hnot) hrest

/-! ## While keeping is switched off -/

/-- Whether a request asks for a handle or for results. -/
def Request.asks : Request κ → Bool
  | .get _ => true
  | .dominance .. => true
  | .reachability _ => true
  | .frontier .. => true
  | .keepBase _ => true
  | _ => false

/-- Asking displaces nothing while keeping is switched off, and adds nothing. -/
theorem Shelving.off (hshelving : Shelving s r s') (hoff : s.enabled = false)
    (hasks : r.asks = true) (h : HandleId) (place : Place) :
    s'.kept? h place = s.kept? h place := by
  cases hshelving with
  | grown grows => exact grows.off hoff h place
  | emptied handle displaces kept serial_le =>
      -- a request that empties a shelf does not ask
      have hdisplaces := displaces (.frontier .forward)
      cases r with
      | get f => exact hdisplaces.elim
      | dominance h' direction => exact hdisplaces.elim
      | reachability h' => exact hdisplaces.elim
      | frontier h' direction => exact hdisplaces.elim
      | keepBase h' => exact absurd hdisplaces.2.2 Bool.false_ne_true
      | _ => exact nomatch hasks
  | based handle on elsewhere here serial_le => exact nomatch on.symm.trans hoff

/-- Asking changes no registration while keeping is switched off. -/
theorem registry_of_off (hoff : s.enabled = false) (hasks : r.asks = true) :
    (s.step code r).1.registry = s.registry := by
  cases r with
  | get f =>
      show (s.get code f).1.registry = s.registry
      rw [get, hoff, if_neg Bool.false_ne_true]
      rfl
  | dominance h direction => exact registry_of_addressee rfl
  | reachability h => exact registry_of_addressee rfl
  | frontier h direction => exact registry_of_addressee rfl
  | keepBase h => exact registry_of_addressee rfl
  | _ => cases hasks

omit [DecidableEq κ] in
theorem enabled_request {α : Type} (s : Store κ) (h : HandleId) (name : String)
    (kept : Option (Stamped α)) (compute : Unit → α) (report : α → Event)
    (keep : Stamped α → Shelf → Shelf) :
    (s.request h name kept compute report keep).1.enabled = s.enabled := by
  cases hon : s.enabled with
  | false =>
      rw [request_of_off hon]
      exact hon
  | true =>
      cases kept with
      | some result =>
          rw [request_of_kept hon rfl]
          exact hon
      | none =>
          rw [request_of_missing hon rfl]
          exact hon

omit [DecidableEq κ] in
theorem enabled_keepBase (s : Store κ) (h : HandleId) (handle : Handle κ) :
    (s.keepBase code h handle).1.enabled = s.enabled := by
  rw [keepBase]
  dsimp only
  split
  · rfl
  · rfl

theorem enabled_get (s : Store κ) (f : κ) : (s.get code f).1.enabled = s.enabled := by
  rw [get]
  split
  · split
    · rfl
    · rfl
  · rfl

/-- Only the switch changes whether results are kept. -/
theorem enabled_step (s : Store κ) (r : Request κ) :
    (s.step code r).1.enabled = s.enabled ∨
      ∃ enabled, r = .setEnabled enabled ∧ (s.step code r).1.enabled = enabled := by
  have hact : ∀ {h' act}, (∀ handle, (act handle).1.enabled = s.enabled) →
      (s.withHandle h' act).1.enabled = s.enabled := fun hact =>
    withHandle_cases (P := fun s' => s'.enabled = s.enabled) rfl fun handle _ => hact handle
  cases r with
  | get f => exact .inl (enabled_get s f)
  | update old new =>
      left
      cases hold : s.registered? old with
      | none =>
          rw [update_of_unregistered code hold]
          exact enabled_get s new
      | some h =>
          rw [update_of_registered code hold]
          split
          · rfl
          · rfl
  | evict f => exact .inl rfl
  | clear => exact .inl rfl
  | setEnabled enabled => exact .inr ⟨enabled, rfl, rfl⟩
  | dominance h direction => exact .inl (hact fun _ => enabled_request s h _ _ _ _ _)
  | reachability h => exact .inl (hact fun _ => enabled_request s h _ _ _ _ _)
  | frontier h direction =>
      refine .inl (hact fun handle => ?_)
      have hfirst : (s.dominance code h handle direction).1.enabled = s.enabled :=
        enabled_request s h _ _ _ _ _
      show (s.frontier code h handle direction).1.enabled = s.enabled
      rw [frontier]
      exact (enabled_request (s.dominance code h handle direction).1 h _ _ _ _ _).trans hfirst
  | keepBase h => exact .inl (hact fun handle => enabled_keepBase s h handle)
  | invalidate h => exact .inl (hact fun _ => rfl)
  | rebind h f => exact .inl (hact fun _ => rfl)

/-- What is switched off stays so until it is switched on. -/
theorem off_run (hoff : s.enabled = false) {requests : List (Request κ)}
    (hnever : .setEnabled true ∉ requests) : (s.run code requests).enabled = false := by
  induction requests generalizing s with
  | nil => exact hoff
  | cons r requests ih =>
      rw [List.mem_cons, not_or] at hnever
      refine ih ?_ hnever.2
      rcases enabled_step s r with hsame | ⟨enabled, rfl, hswitched⟩
      · exact hsame.trans hoff
      · cases enabled with
        | false => exact hswitched
        | true => exact absurd rfl hnever.1

/-! ## Keeping results -/

/-- What holds of kept results however a store is used. -/
structure Keeps (code : κ → Procedure) (s : Store κ) : Prop where
  /-- What is kept has its number from before, so that a result computed later is told
      apart from it. -/
  numbered : ∀ h place result, s.kept? h place = some result → result.serial < s.serial
  /-- As long as nothing displaces it, a result stays in its place, and while keeping is
      switched on it is the answer to every request for it: nothing is computed for it,
      nothing is reported and nothing changes. -/
  stays : ∀ h place result, s.kept? h place = some result →
    ∀ later, Undisturbed code h place s later →
      (s.run code later).kept? h place = some result ∧
      ((s.run code later).enabled = true → (s.run code later).step code (place.request h) =
        (s.run code later, place.reply result, []))
  /-- After keeping was switched off and before it is switched on again, asking for
      handles and results changes no registration and nothing that is kept. -/
  off : ∀ later, .setEnabled true ∉ later → ∀ r : Request κ, r.asks = true →
    (((s.step code (.setEnabled false)).1.run code later).step code r).1.registry =
        ((s.step code (.setEnabled false)).1.run code later).registry ∧
      ∀ h place, (((s.step code (.setEnabled false)).1.run code later).step code r).1.kept? h place =
        ((s.step code (.setEnabled false)).1.run code later).kept? h place

/-- However a store was used, it keeps what it has until a request displaces it, and
    while keeping is switched off asking leaves no trace. -/
theorem keeps_run (code : κ → Procedure) (config : Config) (requests : List (Request κ)) :
    Keeps code ((new config).run code requests) := by
  have horderly : Orderly ((new config).run code requests) :=
    orderly_run (orderly_new config) requests
  refine ⟨horderly.numbered, ?_, ?_⟩
  · intro h place result hkept later hundisturbed
    have hstill := stays_run hkept hundisturbed
    refine ⟨hstill, fun hon => ?_⟩
    obtain ⟨handle, hhandle, -⟩ := Option.bind_eq_some_iff.mp hstill
    refine step_request_of_kept code hhandle hon hstill ?_
    rintro direction rfl
    refine (orderly_run horderly later).supported h direction ?_
    rw [hstill]
    exact nofun
  · intro later hnever r hasks
    have hoff : (((((new config).run code requests).step code (.setEnabled false)).1).run code
        later).enabled = false := off_run rfl hnever
    exact ⟨registry_of_off hoff hasks, (shelving_step _ r).off hoff hasks⟩

end Steps

/-- Frontiers stay on the shelf when the base results are computed anew, and are the answer
    as before.  After keeping was switched off, asking the other handle for frontiers changes
    neither the registry nor any shelf. -/
theorem keeps_bothLoops :
    ∃ result, bothLoops.kept? 0 (.frontier .forward) = some result ∧
      result.serial < bothLoops.serial ∧
      (Undisturbed loops 0 (.frontier .forward) bothLoops [.get false, .keepBase 0] ∧
        (bothLoops.run loops [.get false, .keepBase 0]).enabled = true ∧
        (bothLoops.run loops [.get false, .keepBase 0]).kept? 0 (.frontier .forward) =
          some result ∧
        (bothLoops.run loops [.get false, .keepBase 0]).step loops (.frontier 0 .forward) =
          (bothLoops.run loops [.get false, .keepBase 0], .frontier result, [])) ∧
      .setEnabled true ∉ [Request.get true] ∧
      (Request.frontier 1 .forward : Request Bool).asks = true ∧
      ((((bothLoops.step loops (.setEnabled false)).1.run loops [.get true]).step loops
        (.frontier 1 .forward)).1.registry =
          ((bothLoops.step loops (.setEnabled false)).1.run loops [.get true]).registry ∧
        ∀ h place, (((bothLoops.step loops (.setEnabled false)).1.run loops [.get true]).step loops
          (.frontier 1 .forward)).1.kept? h place =
          ((bothLoops.step loops (.setEnabled false)).1.run loops [.get true]).kept? h place) := by
  have hkeeps : Keeps loops bothLoops := keeps_run loops .default _
  have hsome : (bothLoops.kept? 0 (.frontier .forward)).isSome = true := rfl
  obtain ⟨result, hresult⟩ := Option.isSome_iff_exists.mp hsome
  have hundisturbed :
      Undisturbed loops 0 (.frontier .forward) bothLoops [.get false, .keepBase 0] :=
    ⟨id, fun h => Bool.false_ne_true h.2.2, trivial⟩
  have hon : (bothLoops.run loops [.get false, .keepBase 0]).enabled = true := rfl
  have hnever : .setEnabled true ∉ [Request.get true] := by decide
  obtain ⟨hstill, hanswer⟩ := hkeeps.stays 0 (.frontier .forward) result hresult _ hundisturbed
  exact ⟨result, hresult, hkeeps.numbered 0 (.frontier .forward) result hresult,
    ⟨hundisturbed, hon, hstill, hanswer hon⟩, hnever, rfl,
    hkeeps.off [.get true] hnever (.frontier 1 .forward) rfl⟩

end Store

end ControlFlow
