import ControlFlow.Proofs.Registry

/-!
# Handles that leave the registry do not come back

    A store gives out a handle in two ways: it hands out a new one, or it answers
    with one that is registered.  So a handle that is registered for nothing, once
    handed out, is never the answer to anything again (`Retired`): no request
    registers a handle that is not registered already, except a new one.

    What is left is to say how a handle gets there.  `retires_iff` lists the requests
    that take a registered handle out of the registry, and there are no others.  The
    handles handed out while keeping is switched off have never been in it.
-/

namespace ControlFlow.Store

variable {κ : Type} [DecidableEq κ] {code : κ → Procedure} {s s' : Store κ} {h : HandleId}
  {f g : κ} {r : Request κ}

/-- The handle is registered for some procedure. -/
def IsRegistered (s : Store κ) (h : HandleId) : Prop :=
  ∃ f, s.registered? f = some h

/-- The handle a request is addressed to. -/
def Request.addressee : Request κ → Option HandleId
  | .dominance h _ => some h
  | .reachability h => some h
  | .frontier h _ => some h
  | .keepBase h => some h
  | .invalidate h => some h
  | .rebind h _ => some h
  | _ => none

/-- A request to a handle has no part in registrations. -/
theorem registry_of_addressee (hr : r.addressee = some h) :
    (s.step code r).1.registry = s.registry := by
  have hact : ∀ {h' act}, (∀ handle, (act handle).1.registry = s.registry) →
      (s.withHandle h' act).1.registry = s.registry := fun hact =>
    withHandle_cases (P := fun s' => s'.registry = s.registry) rfl fun handle _ => hact handle
  cases r with
  | dominance h direction => exact hact fun _ => (sameBindings_request s h _ _ _ _ _).registry
  | reachability h => exact hact fun _ => (sameBindings_request s h _ _ _ _ _).registry
  | frontier h direction =>
      exact hact fun handle => (sameBindings_frontier s h handle direction).registry
  | keepBase h => exact hact fun handle => (sameBindings_keepBase s h handle).registry
  | invalidate h => exact hact fun _ => rfl
  | rebind h f => exact hact fun _ => rfl
  | _ => exact nomatch hr

theorem isRegistered_congr (hregistry : s'.registry = s.registry) :
    s'.IsRegistered h ↔ s.IsRegistered h :=
  exists_congr fun f => by rw [registered?_congr hregistry]

/-! ## Handles registered for nothing -/

/-- The handle was handed out and is registered for nothing. -/
structure Retired (s : Store κ) (h : HandleId) : Prop where
  handedOut : h < s.handles.size
  unregistered : ¬ s.IsRegistered h

/-- No request registers a handle that is retired. -/
theorem Turn.retired (hturn : Turn s r s') (hsize : s.handles.size ≤ s'.handles.size)
    (hretired : Retired s h) : Retired s' h := by
  obtain ⟨hlt, hnot⟩ := hretired
  refine ⟨Nat.lt_of_lt_of_le hlt hsize, ?_⟩
  rintro ⟨f, hf⟩
  cases hturn with
  | same view => exact hnot ((isRegistered_congr view.registry).mp ⟨f, hf⟩)
  | dropped registered boundTo? => exact hnot ⟨f, registered f _ hf⟩
  | opened f' registered boundTo? =>
      rw [registered] at hf
      split at hf
      · -- only the new handle is registered
        exact Nat.lt_irrefl _ (Option.some.inj hf ▸ hlt)
      · exact hnot ⟨f, hf⟩
  | moved old new handle wasRegistered registered boundTo? =>
      rw [registered] at hf
      split at hf
      · exact hnot ⟨old, Option.some.inj hf ▸ wasRegistered⟩
      · split at hf
        · cases hf
        · exact hnot ⟨f, hf⟩
  | rebound handle f' registry boundTo? => exact hnot ((isRegistered_congr registry).mp ⟨f, hf⟩)

theorem Retired.run (hs : Sound code s) (hretired : Retired s h) (requests : List (Request κ)) :
    Retired (s.run code requests) h := by
  induction requests generalizing s with
  | nil => exact hretired
  | cons r requests ih =>
      have hstep := (step_sound hs r).continues
      exact ih hstep.sound ((turn_step hs r).retired hstep.size_le hretired)

/-- A handle is handed out as a new one or because it is registered. -/
theorem get_new_or_registered (s : Store κ) (f : κ) :
    (s.get code f).2.1 = s.handles.size ∨ s.IsRegistered (s.get code f).2.1 := by
  rw [get]
  split
  · split
    · rename_i h hregistered
      exact .inr ⟨f, hregistered⟩
    · exact .inl rfl
  · exact .inl rfl

omit [DecidableEq κ] in
/-- A request to a handle is not answered with a handle. -/
theorem withHandle_ne_handle {act : Handle κ → Store κ × Reply × List Event} {h' : HandleId}
    (hact : ∀ handle, (act handle).2.1 ≠ .handle h) : (s.withHandle h' act).2.1 ≠ .handle h := by
  rw [withHandle]
  cases s.handle? h' with
  | none => exact Reply.noConfusion
  | some handle => exact hact handle

/-- Whatever is asked, the answer is a new handle, a registered one or none. -/
theorem reply_new_or_registered (hreply : (s.step code r).2.1 = .handle h) :
    h = s.handles.size ∨ s.IsRegistered h := by
  have hget : ∀ f, Reply.handle (s.get code f).2.1 = .handle h →
      h = s.handles.size ∨ s.IsRegistered h := by
    intro f heq
    rw [← Reply.handle.inj heq]
    exact get_new_or_registered s f
  cases r with
  | get f => exact hget f hreply
  | update old new =>
      rw [step] at hreply
      cases hold : s.registered? old with
      | none =>
          rw [hold] at hreply
          exact hget new hreply
      | some h' =>
          rw [hold] at hreply
          exact .inr ⟨old, Reply.handle.inj hreply ▸ hold⟩
  | evict f => cases hreply
  | clear => cases hreply
  | setEnabled enabled => cases hreply
  | dominance h' direction => exact absurd hreply (withHandle_ne_handle fun _ => Reply.noConfusion)
  | reachability h' => exact absurd hreply (withHandle_ne_handle fun _ => Reply.noConfusion)
  | frontier h' direction => exact absurd hreply (withHandle_ne_handle fun _ => Reply.noConfusion)
  | keepBase h' => exact absurd hreply (withHandle_ne_handle fun _ => Reply.noConfusion)
  | invalidate h' => exact absurd hreply (withHandle_ne_handle fun _ => Reply.noConfusion)
  | rebind h' f => exact absurd hreply (withHandle_ne_handle fun _ => Reply.noConfusion)

/-- However the store is used from now on, no request is answered with the handle. -/
def NeverGiven (code : κ → Procedure) (s : Store κ) (h : HandleId) : Prop :=
  ∀ later r, ((s.run code later).step code r).2.1 ≠ .handle h

theorem Retired.neverGiven (hs : Sound code s) (hretired : Retired s h) :
    NeverGiven code s h := by
  intro later r hreply
  obtain ⟨hlt, hnot⟩ := hretired.run hs later
  rcases reply_new_or_registered hreply with rfl | hregistered
  · exact Nat.lt_irrefl _ hlt
  · exact hnot hregistered

/-! ## How a handle leaves the registry -/

/-- The requests that take a handle out of the registry. -/
inductive Retires (s : Store κ) : Request κ → HandleId → Prop where
  /-- The procedure it is registered for is evicted. -/
  | evicted {f : κ} {h : HandleId} (registered : s.registered? f = some h) : Retires s (.evict f) h
  /-- Everything is cleared. -/
  | cleared {f : κ} {h : HandleId} (registered : s.registered? f = some h) : Retires s .clear h
  /-- The procedure it is registered for is updated while keeping is switched off. -/
  | dismissed {old new : κ} {h : HandleId} (off : s.enabled = false)
      (registered : s.registered? old = some h) : Retires s (.update old new) h
  /-- Another procedure is updated to the one it is registered for. -/
  | replaced {old new : κ} {h h' : HandleId} (on : s.enabled = true) (ne : old ≠ new)
      (registered : s.registered? new = some h) (moved : s.registered? old = some h') :
      Retires s (.update old new) h

/-- Asking for a handle takes no other out of the registry. -/
theorem IsRegistered.get (hregistered : s.IsRegistered h) :
    (s.get code f).1.IsRegistered h := by
  obtain ⟨g, hg⟩ := hregistered
  rw [Store.get]
  split
  · split
    · exact ⟨g, hg⟩
    · rename_i hnone
      refine ⟨g, ?_⟩
      show ((s.handOut f).1.register f s.handles.size).registered? g = some _
      rw [registered?_register, if_neg]
      · exact hg
      · rintro rfl
        exact Option.some_ne_none h (hg.symm.trans hnone)
  · exact ⟨g, hg⟩

/-- An update takes out the handle it moves while keeping is switched off, and
    otherwise the one that stood in its new place. -/
theorem retires_update_iff (hexclusive : Exclusive s) {old new : κ} :
    Retires s (.update old new) h ↔
      s.IsRegistered h ∧ ¬ (s.step code (.update old new)).1.IsRegistered h := by
  cases hold : s.registered? old with
  | none =>
      rw [update_of_unregistered code hold]
      refine iff_of_false ?_ fun hleft => hleft.2 hleft.1.get
      intro hretires
      cases hretires with
      | dismissed off registered => exact nomatch hold.symm.trans registered
      | replaced on ne registered moved => exact nomatch hold.symm.trans moved
  | some h' =>
      have hafter := registered?_update code hold new
      constructor
      · intro hretires
        cases hretires with
        | dismissed off registered =>
            refine ⟨⟨old, registered⟩, ?_⟩
            rintro ⟨g, hg⟩
            rw [hafter, off, if_neg (fun hon => Bool.false_ne_true hon.1)] at hg
            split at hg
            · cases hg
            · rename_i hne
              exact hne (hexclusive g old h hg registered)
        | replaced on ne registered moved =>
            refine ⟨⟨new, registered⟩, ?_⟩
            rintro ⟨g, hg⟩
            rw [hafter] at hg
            split at hg
            · -- one handle would be registered for both
              exact ne (hexclusive old new h (hold.trans hg) registered)
            · rename_i hnew
              split at hg
              · cases hg
              · exact hnew ⟨on, hexclusive g new h hg registered⟩
      · rintro ⟨⟨g, hg⟩, hnot⟩
        by_cases hgold : g = old
        · subst hgold
          obtain rfl : h' = h := Option.some.inj (hold.symm.trans hg)
          cases henabled : s.enabled with
          | false => exact .dismissed henabled hold
          | true => exact absurd ⟨new, (hafter new).trans (if_pos ⟨henabled, rfl⟩)⟩ hnot
        · by_cases hnew : s.enabled = true ∧ g = new
          · obtain ⟨henabled, rfl⟩ := hnew
            exact .replaced henabled (Ne.symm hgold) hg hold
          · have hstays : (s.step code (.update old new)).1.registered? g = some h := by
              rw [hafter, if_neg hnew, if_neg hgold, hg]
            exact absurd ⟨g, hstays⟩ hnot

/-- A request takes a registered handle out of the registry in these ways only. -/
theorem retires_iff (hexclusive : Exclusive s) :
    Retires s r h ↔ s.IsRegistered h ∧ ¬ (s.step code r).1.IsRegistered h := by
  -- nothing leaves where the registry stays
  have hidle : (s.step code r).1.registry = s.registry →
      ¬ (s.IsRegistered h ∧ ¬ (s.step code r).1.IsRegistered h) := by
    intro hregistry hleft
    exact hleft.2 ((isRegistered_congr hregistry).mpr hleft.1)
  cases r with
  | get f => exact iff_of_false (by rintro ⟨⟩) fun hleft => hleft.2 hleft.1.get
  | update old new => exact retires_update_iff hexclusive
  | evict f =>
      have hafter : ∀ g, (s.step code (.evict f)).1.registered? g =
          if g = f then none else s.registered? g := registered?_unregister s f
      constructor
      · intro hretires
        cases hretires with
        | evicted registered =>
            refine ⟨⟨f, registered⟩, ?_⟩
            rintro ⟨g, hg⟩
            rw [hafter] at hg
            split at hg
            · cases hg
            · rename_i hne
              exact hne (hexclusive g f h hg registered)
      · rintro ⟨⟨g, hg⟩, hnot⟩
        by_cases hgf : g = f
        · exact .evicted (hgf ▸ hg)
        · exact absurd ⟨g, (hafter g).trans ((if_neg hgf).trans hg)⟩ hnot
  | clear =>
      constructor
      · intro hretires
        cases hretires with
        | cleared registered =>
            refine ⟨⟨_, registered⟩, ?_⟩
            rintro ⟨g, hg⟩
            cases hg
      · rintro ⟨⟨g, hg⟩, -⟩
        exact .cleared hg
  | setEnabled enabled => exact iff_of_false (by rintro ⟨⟩) (hidle rfl)
  | dominance h' direction => exact iff_of_false (by rintro ⟨⟩) (hidle (registry_of_addressee rfl))
  | reachability h' => exact iff_of_false (by rintro ⟨⟩) (hidle (registry_of_addressee rfl))
  | frontier h' direction => exact iff_of_false (by rintro ⟨⟩) (hidle (registry_of_addressee rfl))
  | keepBase h' => exact iff_of_false (by rintro ⟨⟩) (hidle (registry_of_addressee rfl))
  | invalidate h' => exact iff_of_false (by rintro ⟨⟩) (hidle (registry_of_addressee rfl))
  | rebind h' f => exact iff_of_false (by rintro ⟨⟩) (hidle (registry_of_addressee rfl))

theorem Retires.retired (hs : Sound code s) (hexclusive : Exclusive s) (hretires : Retires s r h) :
    Retired (s.step code r).1 h := by
  obtain ⟨⟨f, hf⟩, hnot⟩ := (retires_iff hexclusive).mp hretires
  exact ⟨Nat.lt_of_lt_of_le (hs.lt_of_registered? hf) (step_sound hs r).continues.size_le, hnot⟩

/-- While keeping is switched off a new handle is handed out and nobody registers it. -/
theorem retired_of_off (hs : Sound code s) (hoff : s.enabled = false)
    (hreply : (s.step code (.get f)).2.1 = .handle h) : Retired (s.step code (.get f)).1 h := by
  have hget : s.get code f = ((s.handOut f).1, s.handles.size, []) := by
    rw [get, hoff, if_neg Bool.false_ne_true]
    rfl
  have hnew : (s.get code f).2.1 = h := Reply.handle.inj hreply
  rw [hget] at hnew
  refine ⟨(step_sound hs (.get f)).handle_lt h hreply, ?_⟩
  rintro ⟨g, hg⟩
  have hbefore : s.registered? g = some h := by
    rw [← hg]
    show s.registered? g = (s.get code f).1.registered? g
    rw [hget]
    rfl
  exact Nat.ne_of_lt (hs.lt_of_registered? hbefore) hnew.symm

/-! ## The discipline of a registry -/

/-- What holds of registrations however a store is used. -/
structure Disciplined (code : κ → Procedure) (s : Store κ) : Prop where
  /-- No handle is registered for two procedures. -/
  exclusive : Exclusive s
  /-- These are the ways out of the registry. -/
  left_iff : ∀ r h, s.IsRegistered h ∧ ¬ (s.step code r).1.IsRegistered h ↔ Retires s r h
  /-- What has left is never given out again. -/
  left : ∀ r h, Retires s r h → NeverGiven code (s.step code r).1 h
  /-- Nor is what is given out while keeping is switched off. -/
  unkept : s.enabled = false → ∀ f h, (s.step code (.get f)).2.1 = .handle h →
    NeverGiven code (s.step code (.get f)).1 h
  /-- An update passes the handle of one procedure on to another, emptied. -/
  passed : s.enabled = true → ∀ old new h, s.registered? old = some h →
    (s.step code (.get old)).2.1 = .handle h ∧
      ((s.step code (.update old new)).1.step code (.get new)).2.1 = .handle h ∧
      ((s.step code (.update old new)).1.step code (.get new)).1.handle? h =
        some { subject := new, shelf := {} } ∧
      (old ≠ new → (s.step code (.update old new)).1.registered? old = none)

/-- While keeping is switched on, a registered handle is the answer and nothing changes. -/
theorem step_get_of_registered (code : κ → Procedure) (hon : s.enabled = true)
    (hf : s.registered? f = some h) : s.step code (.get f) = (s, .handle h, []) := by
  have hget : s.get code f = (s, h, []) := by
    rw [get, if_pos hon, hf]
  show ((s.get code f).1, Reply.handle (s.get code f).2.1, (s.get code f).2.2) = _
  rw [hget]

/-- The handle moved by an update is bound to the new procedure and keeps nothing. -/
theorem handle?_update (hs : Sound code s) (hon : s.enabled = true) {old : κ}
    (hold : s.registered? old = some h) (new : κ) :
    (s.step code (.update old new)).1.handle? h = some { subject := new, shelf := {} } := by
  have hlt := hs.lt_of_registered? hold
  have hhandle : (s.unregister old).handle? h = some s.handles[h] := Array.getElem?_eq_getElem hlt
  rw [update_of_registered code hold, if_pos hon]
  show ((s.unregister old).modifyHandle h fun _ => { subject := new }).handle? h = _
  rw [handle?_modifyHandle, if_pos rfl, hhandle, Option.map_some]

/-- However a store is used, its registry is kept in order: no handle is registered
    twice, what has left it or was never in it is not given out again, and an update
    passes a handle on. -/
theorem disciplined_run (code : κ → Procedure) (config : Config) (requests : List (Request κ)) :
    Disciplined code ((new config).run code requests) := by
  have hsound := (run_sound (sound_new code config) requests).sound
  have hexclusive := exclusive_run code config requests
  refine ⟨hexclusive, fun r h => (retires_iff hexclusive).symm, ?_, ?_, ?_⟩
  · intro r h hretires
    exact (hretires.retired hsound hexclusive).neverGiven (step_sound hsound r).continues.sound
  · intro hoff f h hreply
    exact (retired_of_off hsound hoff hreply).neverGiven (step_sound hsound _).continues.sound
  · intro hon old new h hold
    have hafter := registered?_update code hold new
    have hstill : ((run code (.new config) requests).step code (.update old new)).1.enabled =
        true := by
      rw [update_of_registered code hold, if_pos hon]
      exact hon
    have hnew := (hafter new).trans (if_pos ⟨hon, rfl⟩)
    rw [step_get_of_registered code hon hold, step_get_of_registered code hstill hnew]
    refine ⟨rfl, rfl, handle?_update hsound hon hold new, ?_⟩
    intro hne
    rw [hafter, if_neg fun hboth => hne hboth.2, if_pos rfl]

/-- Updating one of two registered procedures to the other takes the handle of the other
    out of the registry and puts the handle of the first in its place, emptied.  A handle
    that is given out after keeping was switched off is not given again either. -/
theorem disciplined_bothLoops :
    (bothLoops.enabled = true ∧ bothLoops.registered? true = some 0 ∧
      bothLoops.registered? false = some 1) ∧
    (Retires bothLoops (.update true false) 1 ∧
      (bothLoops.IsRegistered 1 ∧
        ¬ (bothLoops.step loops (.update true false)).1.IsRegistered 1) ∧
      NeverGiven loops (bothLoops.step loops (.update true false)).1 1) ∧
    (((bothLoops.step loops (.update true false)).1.step loops (.get false)).2.1 = .handle 0 ∧
      ((bothLoops.step loops (.update true false)).1.step loops (.get false)).1.handle? 0 =
        some { subject := false, shelf := {} } ∧
      (bothLoops.step loops (.update true false)).1.registered? true = none) ∧
    (bothLoops.run loops [.setEnabled false]).enabled = false ∧
      ((bothLoops.run loops [.setEnabled false]).step loops (.get true)).2.1 = .handle 2 ∧
      NeverGiven loops ((bothLoops.run loops [.setEnabled false]).step loops (.get true)).1 2 := by
  have hkept : Disciplined loops bothLoops := disciplined_run loops .default _
  have hunkept : Disciplined loops (bothLoops.run loops [.setEnabled false]) :=
    disciplined_run loops .default
      [.get true, .get false, .frontier 0 .forward, .setEnabled false]
  have hfirst : bothLoops.registered? true = some 0 := rfl
  have hsecond : bothLoops.registered? false = some 1 := rfl
  have hretires : Retires bothLoops (.update true false) 1 :=
    .replaced rfl (by decide) hsecond hfirst
  have hgiven : ((bothLoops.run loops [.setEnabled false]).step loops (.get true)).2.1 =
      .handle 2 := rfl
  obtain ⟨-, hpassed, hemptied, hfree⟩ := hkept.passed rfl true false 0 hfirst
  exact ⟨⟨rfl, hfirst, hsecond⟩,
    ⟨hretires, (hkept.left_iff _ 1).mpr hretires, hkept.left _ 1 hretires⟩,
    ⟨hpassed, hemptied, hfree (by decide)⟩,
    rfl, hgiven, hunkept.unkept rfl true 2 hgiven⟩

end ControlFlow.Store
