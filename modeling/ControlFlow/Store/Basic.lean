import ControlFlow.Dominance.Frontier
import ControlFlow.Reachability
import ControlFlow.Store.Config
import ControlFlow.Text.Quoted

/-!
# A store of analyses

    A store hands out one handle per procedure and keeps in it the analyses
    that were asked for.  Procedures are told apart by a key; `code` gives the
    procedure of a key.  A key stands for one procedure, which stays alive as
    long as anything may be asked about it: no other procedure ever gets its
    key, also where the registry still has the key and the handle is bound to
    something else.  Every computed analysis gets a serial number of its own,
    so that one can tell a kept result from one computed again.

    A handle can be bound to another procedure; then it forgets everything it
    kept.  While keeping is switched off, handles are handed out without being
    registered and every request is computed afresh.

    Requests come from a single thread and are answered one after the other.
    So the registry is a map from keys to handles and nothing more, and work
    that is given to the workers is done before the answer: how many they are
    shows in the text of the store and nowhere else.  A handle that is bound to
    another procedure while a result is computed must not keep that result.
    Between the request and the answer nobody can bind it, so here a result
    that is to be kept is kept without asking what the handle is bound to.
-/

namespace ControlFlow

/-- A result with the serial number of the computation it came from. -/
structure Stamped (α : Type) where
  serial : Nat
  value : α

/-- One thing for each direction. -/
structure PerDirection (α : Type) where
  forward : α
  backward : α

namespace PerDirection

variable {α : Type}

/-- What is there for a direction. -/
def get (p : PerDirection α) : Direction → α
  | .forward => p.forward
  | .backward => p.backward

/-- Replaces what is there for a direction. -/
def set (p : PerDirection α) (direction : Direction) (a : α) : PerDirection α :=
  match direction with
  | .forward => { p with forward := a }
  | .backward => { p with backward := a }

@[simp]
theorem get_set (p : PerDirection α) (direction other : Direction) (a : α) :
    (p.set direction a).get other = if direction = other then a else p.get other := by
  cases direction <;> cases other <;> rfl

end PerDirection

/-! ## Handles -/

/-- What a handle may keep. -/
structure Shelf where
  dominance : PerDirection (Option (Stamped Dominance)) := ⟨none, none⟩
  reachability : Option (Stamped Reachability) := none
  frontier : PerDirection (Option (Stamped Frontier)) := ⟨none, none⟩

/-- How many results are kept. -/
def Shelf.count (s : Shelf) : Nat :=
  s.dominance.forward.isSome.toNat + s.dominance.backward.isSome.toNat
    + s.reachability.isSome.toNat + s.frontier.forward.isSome.toNat
    + s.frontier.backward.isSome.toNat

/-- The procedure a handle is bound to and what is kept of it. -/
structure Handle (κ : Type) where
  subject : κ
  shelf : Shelf := {}

/-- The number of a handle, in the order they were handed out. -/
abbrev HandleId := Nat

/-! ## The store -/

/-- The state of a store. -/
structure Store (κ : Type) where
  config : Config
  enabled : Bool
  /-- Which handle is registered for which procedure. -/
  registry : List (κ × HandleId) := []
  /-- Every handle ever handed out. -/
  handles : Array (Handle κ) := #[]
  /-- The serial number of the next computation. -/
  serial : Nat := 0

/-- What can be asked of a store. -/
inductive Store.Request (κ : Type) where
  | get (subject : κ)
  | update (old new : κ)
  | evict (subject : κ)
  | clear
  | setEnabled (enabled : Bool)
  | dominance (handle : HandleId) (direction : Direction)
  | reachability (handle : HandleId)
  | frontier (handle : HandleId) (direction : Direction)
  | keepBase (handle : HandleId)
  | invalidate (handle : HandleId)
  | rebind (handle : HandleId) (subject : κ)
  deriving DecidableEq, Repr

/-- What a store answers. -/
inductive Store.Reply where
  | done
  | handle (handle : HandleId)
  | evicted (wasRegistered : Bool)
  | dominance (result : Stamped Dominance)
  | reachability (result : Stamped Reachability)
  | frontier (result : Stamped Frontier)
  | noSuchHandle

namespace Store

variable {κ : Type}

/-- A store without handles. -/
def new (config : Config) : Store κ :=
  { config := config, enabled := config.keep }

/-- How many procedures are registered. -/
def size (s : Store κ) : Nat :=
  s.registry.length

/-- The handle with the given number. -/
def handle? (s : Store κ) (h : HandleId) : Option (Handle κ) :=
  s.handles[h]?

/-- Changes a handle. -/
def modifyHandle (s : Store κ) (h : HandleId) (f : Handle κ → Handle κ) : Store κ :=
  { s with handles := s.handles.modify h f }

/-- Changes what a handle keeps. -/
def modifyShelf (s : Store κ) (h : HandleId) (f : Shelf → Shelf) : Store κ :=
  s.modifyHandle h fun handle => { handle with shelf := f handle.shelf }

/-- Hands out a handle that is not registered. -/
def handOut (s : Store κ) (subject : κ) : Store κ × HandleId :=
  ({ s with handles := s.handles.push { subject := subject } }, s.handles.size)

/-- Numbers a computed result. -/
def stamp {α : Type} (s : Store κ) (value : α) : Store κ × Stamped α :=
  ({ s with serial := s.serial + 1 }, { serial := s.serial, value := value })

/-! ### Registration -/

section Registry

variable [DecidableEq κ]

/-- The handle registered for a procedure. -/
def registered? (s : Store κ) (subject : κ) : Option HandleId :=
  s.registry.lookup subject

/-- Takes a procedure out of the registry. -/
def unregister (s : Store κ) (subject : κ) : Store κ :=
  { s with registry := s.registry.filter fun entry => entry.1 != subject }

/-- Registers a handle for a procedure, in place of the one that is there. -/
def register (s : Store κ) (subject : κ) (h : HandleId) : Store κ :=
  { s with registry := (subject, h) :: (s.unregister subject).registry }

/-- The handle of a procedure: the registered one, or a new one, which is
    registered while keeping is switched on. -/
def get (code : κ → Procedure) (s : Store κ) (subject : κ) : Store κ × HandleId × List Event :=
  if s.enabled then
    match s.registered? subject with
    | some h => (s, h, [])
    | none =>
        let (s, h) := s.handOut subject
        (s.register subject h, h, [.registered (code subject).name])
  else
    let (s, h) := s.handOut subject
    (s, h, [])

end Registry

/-! ### Analyses -/

/-- Drops what a handle keeps and binds it to a procedure. -/
def rebind (code : κ → Procedure) (s : Store κ) (h : HandleId) (subject : κ) :
    Store κ × List Event :=
  (s.modifyHandle h fun _ => { subject := subject }, [.rebound (code subject).name])

/-- Answers a request for a result: the kept one while keeping is switched on,
    otherwise a new one, which is then kept if it is. -/
def request {α : Type} (s : Store κ) (h : HandleId) (name : String)
    (kept : Option (Stamped α)) (compute : Unit → α) (report : α → Event)
    (keep : Stamped α → Shelf → Shelf) : Store κ × Stamped α × List Event :=
  match (if s.enabled then kept else none) with
  | some result => (s, result, [])
  | none =>
      let (s, result) := s.stamp (compute ())
      if s.enabled then
        (s.modifyShelf h (keep result), result, [report result.value, .cacheMiss name])
      else (s, result, [report result.value])

/-- Answers a request for dominators. -/
def dominance (code : κ → Procedure) (s : Store κ) (h : HandleId) (handle : Handle κ)
    (direction : Direction) : Store κ × Stamped Dominance × List Event :=
  let f := code handle.subject
  s.request h f.name (handle.shelf.dominance.get direction)
    (fun _ => Dominance.of f direction s.config.options) (Dominance.event f)
    fun result shelf =>
      { shelf with dominance := shelf.dominance.set direction (some result) }

/-- Answers a request for reachability. -/
def reachability (code : κ → Procedure) (s : Store κ) (h : HandleId) (handle : Handle κ) :
    Store κ × Stamped Reachability × List Event :=
  let f := code handle.subject
  s.request h f.name handle.shelf.reachability
    (fun _ => Reachability.of f) (Reachability.event f)
    fun result shelf => { shelf with reachability := some result }

/-- Answers a request for frontiers, which begins with one for the dominators
    they rest on. -/
def frontier (code : κ → Procedure) (s : Store κ) (h : HandleId) (handle : Handle κ)
    (direction : Direction) : Store κ × Stamped Frontier × List Event :=
  let f := code handle.subject
  let (s, d, earlier) := s.dominance code h handle direction
  let (s, result, later) :=
    s.request h f.name (handle.shelf.frontier.get direction)
      (fun _ => Frontier.of f d.value) (Frontier.event f)
      fun result shelf =>
        { shelf with frontier := shelf.frontier.set direction (some result) }
  (s, result, earlier ++ later)

/-- Computes dominators, post-dominators and reachability, and keeps them while
    keeping is switched on. -/
def keepBase (code : κ → Procedure) (s : Store κ) (h : HandleId) (handle : Handle κ) :
    Store κ × List Event :=
  let f := code handle.subject
  let d := Dominance.of f .forward s.config.options
  let p := Dominance.of f .backward s.config.options
  let r := Reachability.of f
  let report := [d.event f, p.event f, r.event f]
  if s.enabled then
    let (s, d) := s.stamp d
    let (s, p) := s.stamp p
    let (s, r) := s.stamp r
    (s.modifyShelf h fun shelf =>
      { shelf with dominance := ⟨some d, some p⟩, reachability := some r },
      report ++ [.baseStored f.name])
  else (s, report)

/-! ### Requests -/

/-- Passes a request on to a handle, if there is such a handle. -/
def withHandle (s : Store κ) (h : HandleId) (act : Handle κ → Store κ × Reply × List Event) :
    Store κ × Reply × List Event :=
  match s.handle? h with
  | some handle => act handle
  | none => (s, .noSuchHandle, [])

/-- Answers one request. -/
def step [DecidableEq κ] (code : κ → Procedure) (s : Store κ) :
    Request κ → Store κ × Reply × List Event
  | .get subject =>
      let (s, h, events) := s.get code subject
      (s, .handle h, events)
  | .update old new =>
      match s.registered? old with
      | none =>
          let (s, h, events) := s.get code new
          (s, .handle h, events)
      | some h =>
          let (s, events) := (s.unregister old).rebind code h new
          (if s.enabled then s.register new h else s, .handle h, events)
  | .evict subject => (s.unregister subject, .evicted (s.registered? subject).isSome, [])
  | .clear => ({ s with registry := [] }, .done, [])
  | .setEnabled enabled => ({ s with enabled := enabled }, .done, [.switched enabled])
  | .dominance h direction =>
      s.withHandle h fun handle =>
        let (s, result, events) := s.dominance code h handle direction
        (s, .dominance result, events)
  | .reachability h =>
      s.withHandle h fun handle =>
        let (s, result, events) := s.reachability code h handle
        (s, .reachability result, events)
  | .frontier h direction =>
      s.withHandle h fun handle =>
        let (s, result, events) := s.frontier code h handle direction
        (s, .frontier result, events)
  | .keepBase h =>
      s.withHandle h fun handle =>
        let (s, events) := s.keepBase code h handle
        (s, .done, events)
  | .invalidate h =>
      s.withHandle h fun handle =>
        (s.modifyShelf h fun _ => {}, .done, [.invalidated (code handle.subject).name])
  | .rebind h subject =>
      s.withHandle h fun _ =>
        let (s, events) := s.rebind code h subject
        (s, .done, events)

/-- The state after a run of requests. -/
def run [DecidableEq κ] (code : κ → Procedure) (s : Store κ) (requests : List (Request κ)) :
    Store κ :=
  requests.foldl (fun s r => (s.step code r).1) s

/-! ### As text -/

/-- The store as text. -/
def text (s : Store κ) : String :=
  "AnalysisCache \x7b config: " ++ s.config.text ++ ", enabled: " ++ toString s.enabled
    ++ ", threads: " ++ toString s.config.workers ++ ", functions: " ++ toString s.size ++ " \x7d"

end Store

/-- A handle as text. -/
def Handle.text {κ : Type} (code : κ → Procedure) (h : Handle κ) : String :=
  "FunctionAnalysisCache \x7b function: " ++ Text.Quoted.encode (code h.subject).name ++ ", cached: "
    ++ toString h.shelf.count ++ " \x7d"

end ControlFlow
