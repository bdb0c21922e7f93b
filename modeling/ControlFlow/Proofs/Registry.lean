import ControlFlow.Proofs.Store

/-!
# Registered handles and the procedures they are bound to

    A store finds the handle of a procedure by the key it was registered under,
    while the handle itself remembers the procedure it is bound to.  Asking for
    the handle of a procedure gives one that is bound to it as long as the two
    agree.

    The route: seen from registrations and bindings a request does one of five
    things (`Turn`, `turn_step`).  From that one reads off that no handle is ever
    registered twice (`Exclusive`), and that registration and binding of a handle
    can come apart in one way only: by binding a registered handle to another
    procedure directly (`Turn.strays`).  Going back over a run finds the request
    that did it (`strays_run_iff`).
-/

namespace ControlFlow.Store

variable {κ : Type} {code : κ → Procedure} {s s' s'' : Store κ} {h : HandleId} {f g : κ}

/-- The procedure a handle is bound to. -/
def boundTo? (s : Store κ) (h : HandleId) : Option κ :=
  (s.handle? h).map (·.subject)

theorem boundTo?_modifyHandle (s : Store κ) (h h' : HandleId) (change : Handle κ → Handle κ) :
    (s.modifyHandle h change).boundTo? h' =
      if h = h' then (s.handle? h').map fun handle => (change handle).subject
      else s.boundTo? h' := by
  show ((s.modifyHandle h change).handle? h').map (·.subject) = _
  rw [handle?_modifyHandle]
  split
  · rw [Option.map_map]
    rfl
  · rfl

theorem boundTo?_handOut (s : Store κ) (f : κ) (h : HandleId) :
    (s.handOut f).1.boundTo? h = if h = s.handles.size then some f else s.boundTo? h := by
  show ((s.handOut f).1.handle? h).map (·.subject) = _
  rw [handle?_handOut]
  split <;> rfl

theorem exists_boundTo? (hlt : h < s.handles.size) : ∃ f, s.boundTo? h = some f := by
  refine ⟨s.handles[h].subject, ?_⟩
  show (s.handles[h]?).map (·.subject) = _
  rw [Array.getElem?_eq_getElem hlt]
  rfl

theorem boundTo?_rebind (code : κ → Procedure) (hlt : h < s.handles.size) (f : κ) (h' : HandleId) :
    (s.rebind code h f).1.boundTo? h' = if h = h' then some f else s.boundTo? h' := by
  show (s.modifyHandle h _).boundTo? h' = _
  rw [boundTo?_modifyHandle]
  split
  · rename_i heq
    rw [← heq, show s.handle? h = some s.handles[h] from Array.getElem?_eq_getElem hlt]
    rfl
  · rfl

/-! ## Requests that touch neither -/

/-- All registrations and bindings are as before. -/
structure SameBindings (s s' : Store κ) : Prop where
  registry : s'.registry = s.registry
  boundTo? : ∀ h, s'.boundTo? h = s.boundTo? h

theorem SameBindings.refl (s : Store κ) : SameBindings s s :=
  ⟨rfl, fun _ => rfl⟩

theorem SameBindings.trans (h₁ : SameBindings s s') (h₂ : SameBindings s' s'') :
    SameBindings s s'' :=
  ⟨h₂.registry.trans h₁.registry, fun h => (h₂.boundTo? h).trans (h₁.boundTo? h)⟩

/-- What is kept has no part in bindings. -/
theorem sameBindings_modifyShelf (s : Store κ) (h : HandleId) (change : Shelf → Shelf) :
    SameBindings s (s.modifyShelf h change) where
  registry := rfl
  boundTo? h' := by
    show (s.modifyHandle h _).boundTo? h' = s.boundTo? h'
    rw [boundTo?_modifyHandle]
    split <;> rfl

theorem sameBindings_request {α : Type} (s : Store κ) (h : HandleId) (name : String)
    (kept : Option (Stamped α)) (compute : Unit → α) (report : α → Event)
    (keep : Stamped α → Shelf → Shelf) :
    SameBindings s (s.request h name kept compute report keep).1 := by
  rw [request]
  split
  · exact SameBindings.refl s
  · dsimp only
    have hstamped : SameBindings s (s.stamp (compute ())).1 := ⟨rfl, fun _ => rfl⟩
    split
    · exact hstamped.trans (sameBindings_modifyShelf _ h _)
    · exact hstamped

theorem sameBindings_frontier (s : Store κ) (h : HandleId) (handle : Handle κ)
    (direction : Direction) : SameBindings s (s.frontier code h handle direction).1 := by
  have hfirst : SameBindings s (s.dominance code h handle direction).1 :=
    sameBindings_request s h _ _ _ _ _
  rw [frontier]
  exact hfirst.trans (sameBindings_request (s.dominance code h handle direction).1 h _ _ _ _ _)

theorem sameBindings_keepBase (s : Store κ) (h : HandleId) (handle : Handle κ) :
    SameBindings s (s.keepBase code h handle).1 := by
  rw [keepBase]
  dsimp only
  split
  · have hstamped : SameBindings s { s with serial := s.serial + 1 + 1 + 1 } := ⟨rfl, fun _ => rfl⟩
    refine hstamped.trans ?_
    dsimp only
    exact sameBindings_modifyShelf { s with serial := s.serial + 1 + 1 + 1 } h _
  · exact SameBindings.refl s

/-! ## What a request does to registrations and bindings -/

section Requests

variable [DecidableEq κ]

theorem registered?_congr (hregistry : s'.registry = s.registry) (f : κ) :
    s'.registered? f = s.registered? f :=
  congrArg (List.lookup f) hregistry

theorem registered?_unregister (s : Store κ) (f g : κ) :
    (s.unregister f).registered? g = if g = f then none else s.registered? g := by
  show (s.registry.filter fun entry => entry.1 != f).lookup g = _
  rw [registered?]
  induction s.registry with
  | nil => simp
  | cons entry rest ih =>
      obtain ⟨key, h⟩ := entry
      rw [List.filter_cons]
      by_cases hkey : key = f
      · rw [if_neg (by simp [hkey]), ih]
        split
        · rfl
        · rename_i hg
          rw [List.lookup_cons, beq_false_of_ne (hkey ▸ hg)]
      · rw [if_pos (by simp [hkey]), List.lookup_cons, List.lookup_cons]
        by_cases hg : g = key
        · rw [hg, beq_self_eq_true, if_neg hkey]
        · rw [beq_false_of_ne hg]
          exact ih

theorem registered?_register (s : Store κ) (f g : κ) (h : HandleId) :
    (s.register f h).registered? g = if g = f then some h else s.registered? g := by
  show ((f, h) :: (s.unregister f).registry).lookup g = _
  by_cases hg : g = f
  · simp [hg]
  · have hrest := registered?_unregister s f g
    rw [if_neg hg] at hrest ⊢
    rw [List.lookup_cons, beq_false_of_ne hg]
    exact hrest

/-- What one request can do to registrations and bindings. -/
inductive Turn (s : Store κ) : Request κ → Store κ → Prop where
  /-- Nothing. -/
  | same {r : Request κ} {s' : Store κ} (view : SameBindings s s') : Turn s r s'
  /-- Some registrations are given up. -/
  | dropped {r : Request κ} {s' : Store κ}
      (registered : ∀ g h, s'.registered? g = some h → s.registered? g = some h)
      (boundTo? : ∀ h, s'.boundTo? h = s.boundTo? h) : Turn s r s'
  /-- A new handle is bound to a procedure, and registered for it while keeping is
      switched on. -/
  | opened {r : Request κ} {s' : Store κ} (f : κ)
      (registered : ∀ g, s'.registered? g =
        if s.enabled ∧ g = f then some s.handles.size else s.registered? g)
      (boundTo? : ∀ h, s'.boundTo? h = if h = s.handles.size then some f else s.boundTo? h) :
      Turn s r s'
  /-- The handle of one procedure is bound to another, and registered for that one
      instead while keeping is switched on. -/
  | moved {r : Request κ} {s' : Store κ} (old new : κ) (handle : HandleId)
      (wasRegistered : s.registered? old = some handle)
      (registered : ∀ g, s'.registered? g =
        if s.enabled ∧ g = new then some handle
        else if g = old then none else s.registered? g)
      (boundTo? : ∀ h, s'.boundTo? h = if handle = h then some new else s.boundTo? h) :
      Turn s r s'
  /-- A handle is bound to another procedure, and registrations stay. -/
  | rebound {s' : Store κ} (handle : HandleId) (f : κ)
      (registry : s'.registry = s.registry)
      (boundTo? : ∀ h, s'.boundTo? h = if handle = h then some f else s.boundTo? h) :
      Turn s (.rebind handle f) s'

theorem turn_get (s : Store κ) (r : Request κ) (f : κ) : Turn s r (s.get code f).1 := by
  rw [get]
  by_cases henabled : s.enabled = true
  · rw [if_pos henabled]
    split
    · exact .same (SameBindings.refl s)
    · refine .opened f ?_ (boundTo?_handOut s f)
      intro g
      show ((s.handOut f).1.register f s.handles.size).registered? g = _
      rw [registered?_register]
      simp only [henabled, true_and]
      rfl
  · rw [if_neg henabled]
    refine .opened f ?_ (boundTo?_handOut s f)
    intro g
    rw [if_neg (fun h => henabled h.1)]
    rfl

/-- The update of a procedure that is not registered asks for the handle of the new
    one. -/
theorem update_of_unregistered (code : κ → Procedure) {old : κ} (hold : s.registered? old = none)
    (new : κ) : (s.step code (.update old new)).1 = (s.get code new).1 := by
  rw [step]
  simp only [hold]

/-- The update of a registered procedure: its handle is bound to the new one, and
    registered for that while keeping is switched on. -/
theorem update_of_registered (code : κ → Procedure) {old : κ} (hold : s.registered? old = some h)
    (new : κ) : (s.step code (.update old new)).1 =
      if s.enabled then ((s.unregister old).rebind code h new).1.register new h
      else ((s.unregister old).rebind code h new).1 := by
  rw [step]
  simp only [hold]
  rfl

/-- What is registered after the update of a registered procedure. -/
theorem registered?_update (code : κ → Procedure) {old : κ} (hold : s.registered? old = some h)
    (new g : κ) :
    (s.step code (.update old new)).1.registered? g =
      if s.enabled ∧ g = new then some h else if g = old then none else s.registered? g := by
  have hgone : ((s.unregister old).rebind code h new).1.registered? g =
      if g = old then none else s.registered? g := registered?_unregister s old g
  rw [update_of_registered code hold]
  by_cases henabled : s.enabled = true
  · rw [if_pos henabled, registered?_register, hgone]
    simp only [henabled, true_and]
  · have hoff : ¬ (s.enabled = true ∧ g = new) := fun hon => henabled hon.1
    rw [if_neg henabled, hgone, if_neg hoff]

theorem turn_update (hs : Sound code s) (old new : κ) :
    Turn s (.update old new) (s.step code (.update old new)).1 := by
  cases hold : s.registered? old with
  | none =>
      rw [update_of_unregistered code hold]
      exact turn_get s _ new
  | some h =>
      refine .moved old new h hold (registered?_update code hold new) ?_
      have hlt : h < (s.unregister old).handles.size := hs.lt_of_registered? hold
      have hbound : ∀ h', ((s.unregister old).rebind code h new).1.boundTo? h' =
          if h = h' then some new else s.boundTo? h' := boundTo?_rebind code hlt new
      rw [update_of_registered code hold]
      split
      · exact hbound
      · exact hbound

omit [DecidableEq κ] in
/-- A request to a handle that does not exist changes nothing. -/
theorem withHandle_cases {P : Store κ → Prop} {act : Handle κ → Store κ × Reply × List Event}
    (hnone : P s) (hsome : ∀ handle, s.handle? h = some handle → P (act handle).1) :
    P (s.withHandle h act).1 := by
  rw [withHandle]
  cases hhandle : s.handle? h with
  | none => exact hnone
  | some handle => exact hsome handle hhandle

/-- Every request does one of these things. -/
theorem turn_step (hs : Sound code s) (r : Request κ) : Turn s r (s.step code r).1 := by
  have hidle : Turn s r s := .same (SameBindings.refl s)
  cases r with
  | get f => exact turn_get s _ f
  | update old new => exact turn_update hs old new
  | evict f =>
      refine .dropped ?_ (fun _ => rfl)
      intro g h hg
      have hg : (s.unregister f).registered? g = some h := hg
      rw [registered?_unregister] at hg
      split at hg
      · cases hg
      · exact hg
  | clear =>
      refine .dropped ?_ (fun _ => rfl)
      intro g h hg
      cases show none = some h from hg
  | setEnabled enabled => exact .same ⟨rfl, fun _ => rfl⟩
  | dominance h direction =>
      exact withHandle_cases hidle fun _ _ => .same (sameBindings_request s h _ _ _ _ _)
  | reachability h =>
      exact withHandle_cases hidle fun _ _ => .same (sameBindings_request s h _ _ _ _ _)
  | frontier h direction =>
      exact withHandle_cases hidle fun handle _ =>
        .same (sameBindings_frontier s h handle direction)
  | keepBase h =>
      exact withHandle_cases hidle fun handle _ => .same (sameBindings_keepBase s h handle)
  | invalidate h =>
      exact withHandle_cases hidle fun _ _ => .same (sameBindings_modifyShelf s h fun _ => {})
  | rebind h f =>
      refine withHandle_cases hidle fun handle hhandle => .rebound h f rfl ?_
      obtain ⟨hlt, -⟩ := Array.getElem?_eq_some_iff.mp hhandle
      exact boundTo?_rebind code hlt f

/-! ## No handle is registered twice -/

/-- Different procedures have different handles. -/
def Exclusive (s : Store κ) : Prop :=
  ∀ f g h, s.registered? f = some h → s.registered? g = some h → f = g

theorem Turn.exclusive {r : Request κ} (hturn : Turn s r s') (hs : Sound code s)
    (hexclusive : Exclusive s) : Exclusive s' := by
  intro f g h hf hg
  cases hturn with
  | same view =>
      rw [registered?_congr view.registry] at hf hg
      exact hexclusive f g h hf hg
  | rebound handle f' registry boundTo? =>
      rw [registered?_congr registry] at hf hg
      exact hexclusive f g h hf hg
  | dropped registered boundTo? =>
      exact hexclusive f g h (registered f h hf) (registered g h hg)
  | opened f' registered boundTo? =>
      -- the number of the new handle is not in use yet
      have hfresh : ∀ k, s.registered? k ≠ some s.handles.size := fun k hk =>
        Nat.lt_irrefl _ (hs.lt_of_registered? hk)
      rw [registered] at hf hg
      split at hf <;> split at hg
      · rename_i h₁ h₂
        exact h₁.2.trans h₂.2.symm
      · exact absurd (hg.trans hf.symm) (hfresh g)
      · exact absurd (hf.trans hg.symm) (hfresh f)
      · exact hexclusive f g h hf hg
  | moved old new handle wasRegistered registered boundTo? =>
      -- and the handle that moves leaves its one procedure behind
      have hleft : ∀ k, k ≠ old → s.registered? k ≠ some handle := fun k hne hk =>
        hne (hexclusive k old handle hk wasRegistered)
      have hother : ∀ k h', (if k = old then none else s.registered? k) = some h' →
          k ≠ old ∧ s.registered? k = some h' := by
        intro k h' hk
        split at hk
        · cases hk
        · rename_i hne
          exact ⟨hne, hk⟩
      rw [registered] at hf hg
      split at hf <;> split at hg
      · rename_i h₁ h₂
        exact h₁.2.trans h₂.2.symm
      · obtain ⟨hne, hk⟩ := hother g h hg
        exact absurd (hk.trans hf.symm) (hleft g hne)
      · obtain ⟨hne, hk⟩ := hother f h hf
        exact absurd (hk.trans hg.symm) (hleft f hne)
      · exact hexclusive f g h (hother f h hf).2 (hother g h hg).2

theorem run_concat (s : Store κ) (requests : List (Request κ)) (r : Request κ) :
    s.run code (requests ++ [r]) = ((s.run code requests).step code r).1 := by
  show List.foldl _ s (requests ++ [r]) = _
  rw [List.foldl_append]
  rfl

/-- However a store was used, no handle is registered for two procedures. -/
theorem exclusive_run (code : κ → Procedure) (config : Config) (requests : List (Request κ)) :
    Exclusive ((new config).run code requests) := by
  induction requests using List.reverseRecOn with
  | nil => exact fun f g h hf => nomatch hf
  | append_singleton requests r ih =>
      have hsound := (run_sound (sound_new code config) requests).sound
      rw [run_concat]
      exact (turn_step hsound r).exclusive hsound ih

/-! ## How registration and binding come apart -/

/-- A handle is registered for one procedure and bound to another. -/
structure Strays (s : Store κ) (f : κ) (h : HandleId) (g : κ) : Prop where
  registered : s.registered? f = some h
  bound : s.boundTo? h = some g
  ne : g ≠ f

/-- A handle that strays after a request strayed before, or the request bound it
    directly to another procedure than the one it is registered for. -/
theorem Turn.strays {r : Request κ} (hturn : Turn s r s') (hs : Sound code s)
    (hexclusive : Exclusive s) (hstrays : Strays s' f h g) :
    Strays s f h g ∨ r = .rebind h g ∧ s.registered? f = some h := by
  obtain ⟨hregistered, hbound, hne⟩ := hstrays
  cases hturn with
  | same view =>
      rw [registered?_congr view.registry] at hregistered
      rw [view.boundTo?] at hbound
      exact Or.inl ⟨hregistered, hbound, hne⟩
  | dropped registered boundTo? =>
      rw [boundTo?] at hbound
      exact Or.inl ⟨registered f h hregistered, hbound, hne⟩
  | opened f' registered boundTo? =>
      rw [registered] at hregistered
      rw [boundTo?] at hbound
      split at hregistered
      · -- the new handle is bound to what it is registered for
        rename_i hnew
        rw [if_pos (Option.some.inj hregistered).symm] at hbound
        exact absurd ((Option.some.inj hbound).symm.trans hnew.2.symm) hne
      · have hlt := hs.lt_of_registered? hregistered
        rw [if_neg (Nat.ne_of_lt hlt)] at hbound
        exact Or.inl ⟨hregistered, hbound, hne⟩
  | moved old new handle wasRegistered registered boundTo? =>
      rw [registered] at hregistered
      rw [boundTo?] at hbound
      split at hregistered
      · rename_i hnew
        rw [if_pos (Option.some.inj hregistered)] at hbound
        exact absurd ((Option.some.inj hbound).symm.trans hnew.2.symm) hne
      · split at hregistered
        · cases hregistered
        · -- what moved is no longer registered for anything else
          rename_i hold
          have hother : handle ≠ h := by
            rintro rfl
            exact hold (hexclusive f old handle hregistered wasRegistered)
          rw [if_neg hother] at hbound
          exact Or.inl ⟨hregistered, hbound, hne⟩
  | rebound handle f' registry boundTo? =>
      rw [registered?_congr registry] at hregistered
      rw [boundTo?] at hbound
      split at hbound
      · rename_i heq
        subst heq
        rw [Option.some.inj hbound]
        exact Or.inr ⟨rfl, hregistered⟩
      · exact Or.inl ⟨hregistered, hbound, hne⟩

/-- In the course of the run the handle registered for `f` was bound directly to
    `g`, and has been registered for the one and bound to the other ever since. -/
def Displaced (code : κ → Procedure) (config : Config) (requests : List (Request κ)) (f : κ)
    (h : HandleId) (g : κ) : Prop :=
  g ≠ f ∧ ∃ earlier later, requests = earlier ++ .rebind h g :: later ∧
    ((new config).run code earlier).registered? f = some h ∧
    ∀ middle, middle <+: later →
      ((new config).run code (earlier ++ .rebind h g :: middle)).registered? f = some h ∧
      ((new config).run code (earlier ++ .rebind h g :: middle)).boundTo? h = some g

/-- A handle strays exactly if it was made to and nothing has put it right since. -/
theorem strays_run_iff (code : κ → Procedure) (config : Config) (requests : List (Request κ)) :
    Strays ((new config).run code requests) f h g ↔ Displaced code config requests f h g := by
  constructor
  · -- going back over the run to the request after which it began
    induction requests using List.reverseRecOn with
    | nil => exact fun hstrays => nomatch hstrays.registered
    | append_singleton requests r ih =>
        intro hstrays
        have hsound := (run_sound (sound_new code config) requests).sound
        have hexclusive := exclusive_run code config requests
        have hnow := hstrays
        rw [run_concat] at hstrays
        rcases (turn_step hsound r).strays hsound hexclusive hstrays with hbefore | ⟨rfl, hat⟩
        · obtain ⟨hne, earlier, later, rfl, hwas, hsince⟩ := ih hbefore
          refine ⟨hne, earlier, later ++ [r], by simp, hwas, ?_⟩
          intro middle hmiddle
          rcases List.prefix_concat_iff.mp hmiddle with rfl | hmiddle
          · have hwhole : earlier ++ .rebind h g :: (later ++ [r]) =
                earlier ++ .rebind h g :: later ++ [r] := by simp
            rw [hwhole]
            exact ⟨hnow.registered, hnow.bound⟩
          · exact hsince middle hmiddle
        · refine ⟨hnow.ne, requests, [], rfl, hat, ?_⟩
          intro middle hmiddle
          rw [List.prefix_nil.mp hmiddle]
          exact ⟨hnow.registered, hnow.bound⟩
  · rintro ⟨hne, earlier, later, rfl, -, hsince⟩
    obtain ⟨hregistered, hbound⟩ := hsince later (List.prefix_refl later)
    exact ⟨hregistered, hbound, hne⟩

/-! ## Asking for a handle -/

/-- What is asked for comes bound to the procedure, unless keeping is switched on
    and the registered handle strays. -/
theorem get_bound (hs : Sound code s) (f : κ) :
    (∃ h, (s.step code (.get f)).2.1 = .handle h ∧
      (s.step code (.get f)).1.boundTo? h = some f) ↔
    ¬ (s.enabled = true ∧ ∃ h g, Strays s f h g) := by
  have hstep : s.step code (.get f) = ((s.get code f).1, .handle (s.get code f).2.1,
    (s.get code f).2.2) := rfl
  have hnew : (s.handOut f).1.boundTo? s.handles.size = some f := by
    rw [boundTo?_handOut, if_pos rfl]
  rw [hstep]
  by_cases henabled : s.enabled = true
  · cases hregistered : s.registered? f with
    | none =>
        have hget : s.get code f = ((s.handOut f).1.register f s.handles.size, s.handles.size,
            [.registered (code f).name]) := by
          rw [get, if_pos henabled, hregistered]
          rfl
        rw [hget]
        refine ⟨?_, fun _ => ⟨s.handles.size, rfl, hnew⟩⟩
        rintro - ⟨-, h, g, hstrays⟩
        rw [hstrays.registered] at hregistered
        exact nomatch hregistered
    | some h =>
        have hget : s.get code f = (s, h, []) := by
          rw [get, if_pos henabled, hregistered]
        rw [hget]
        obtain ⟨g, hg⟩ := exists_boundTo? (hs.lt_of_registered? hregistered)
        constructor
        · rintro ⟨h', hreply, hbound⟩ ⟨-, h'', g', hstrays⟩
          obtain rfl : h = h' := Reply.handle.inj hreply
          obtain rfl : h = h'' := Option.some.inj (hregistered.symm.trans hstrays.registered)
          exact hstrays.ne (Option.some.inj (hstrays.bound.symm.trans hbound))
        · intro hkept
          refine ⟨h, rfl, ?_⟩
          by_cases hgf : g = f
          · rw [← hgf]
            exact hg
          · exact absurd ⟨henabled, h, g, hregistered, hg, hgf⟩ hkept
  · have hget : s.get code f = ((s.handOut f).1, s.handles.size, []) := by
      rw [get, if_neg henabled]
      rfl
    rw [hget]
    exact ⟨fun _ h => henabled h.1, fun _ => ⟨s.handles.size, rfl, hnew⟩⟩

/-- However a store was used, asking for the handle of a procedure gives one bound to
    that procedure, except while keeping is switched on and its registered handle is
    still bound to another procedure that it was directly bound to. -/
theorem get_bound_iff_not_displaced (code : κ → Procedure) (config : Config)
    (requests : List (Request κ)) (f : κ) :
    (∃ h, (((new config).run code requests).step code (.get f)).2.1 = .handle h ∧
      (((new config).run code requests).step code (.get f)).1.boundTo? h = some f) ↔
    ¬ (((new config).run code requests).enabled = true ∧
      ∃ h g, Displaced code config requests f h g) := by
  have hsound := (run_sound (sound_new code config) requests).sound
  rw [get_bound hsound f]
  simp only [strays_run_iff]

/-- Binding the registered handle of one procedure to another brings it about. -/
example : (((new .default).run loops [.get true, .rebind 0 false]).step loops (.get true)).2.1 =
      .handle 0 ∧
    (((new .default).run loops [.get true, .rebind 0 false]).step loops (.get true)).1.boundTo? 0 =
      some false :=
  ⟨rfl, rfl⟩

end Requests

end ControlFlow.Store
