import ControlFlow.Proofs.WellFormed

/-!
# Users of definitions and definitions of uses

    Links between uses and definitions are kept in both directions: a definition
    lists its users, and a use points to its definition.  Linking a use once more
    adds to the one and overwrites the other.  So the list of users remembers
    every link that was ever made, the pointer only the latest, and the two say
    the same of a use exactly if all its links lead to one definition.

    `Ssa.Records` says how the two directions read off the series of links that
    construction made (`Draft.links`), refused ones left out.
-/

namespace ControlFlow

/-- The two directions as records of the links made so far, the latest one last. -/
structure Ssa.Records (ssa : Ssa) (made : List (OperandId × OperandId)) : Prop where
  users : ∀ u e, u ∈ ssa.users e ↔ (u, e) ∈ made
  uses : ∀ u, ssa.definingOperand? u = made.reverse.lookup u

namespace Ssa.Records

variable {ssa : Ssa} {made : List (OperandId × OperandId)}

/-- Registering a definition makes no link. -/
theorem define (h : ssa.Records made) (operand : OperandId) (version : Nat) :
    (ssa.define operand version).Records made where
  users u e := by
    rw [users_define]
    exact h.users u e
  uses := h.uses

/-- One more link is the latest one. -/
theorem link (h : ssa.Records made) {use operand : OperandId} {d : Definition}
    (hfound : ssa.definition? operand = some d) :
    (ssa.link use operand d).Records (made ++ [(use, operand)]) where
  users u e := by
    rw [mem_users_link hfound, h.users, List.mem_append, List.mem_singleton]
  uses u := by
    rw [definingOperand?_link, List.reverse_append, List.reverse_singleton, List.singleton_append,
      List.lookup_cons, ← h.uses]
    by_cases hu : u = use
    · rw [hu, if_pos rfl, beq_self_eq_true]
    · rw [if_neg (Ne.symm hu), beq_false_of_ne hu]

/-- What a use points to lists it among its users. -/
theorem mem_users_of_use (h : ssa.Records made) {u e : OperandId}
    (hu : ssa.definingOperand? u = some e) : u ∈ ssa.users e := by
  rw [h.uses] at hu
  obtain ⟨later, earlier, hsplit, -⟩ := List.lookup_eq_some_iff.mp hu
  rw [h.users, ← List.mem_reverse, hsplit]
  exact List.mem_append_right later List.mem_cons_self

/-- A use that was linked points to one of the definitions it was linked to. -/
theorem exists_use (h : ssa.Records made) {u e : OperandId} (hmade : (u, e) ∈ made) :
    ∃ e', ssa.definingOperand? u = some e' ∧ (u, e') ∈ made := by
  cases huse : ssa.definingOperand? u with
  | some e' => exact ⟨e', rfl, (h.users u e').mp (h.mem_users_of_use huse)⟩
  | none =>
      rw [h.uses, List.lookup_eq_none_iff] at huse
      have hne := huse (u, e) (List.mem_reverse.mpr hmade)
      simp at hne

theorem agree_iff (h : ssa.Records made) (u : OperandId) :
    (∀ e, u ∈ ssa.users e ↔ ssa.definingOperand? u = some e) ↔
      ∀ e e', (u, e) ∈ made → (u, e') ∈ made → e = e' := by
  constructor
  · intro hagree e e' he he'
    have hpoints := (hagree e).mp ((h.users u e).mpr he)
    have hpoints' := (hagree e').mp ((h.users u e').mpr he')
    exact Option.some.inj (hpoints.symm.trans hpoints')
  · intro hone e
    refine ⟨fun hu => ?_, h.mem_users_of_use⟩
    have hmade := (h.users u e).mp hu
    obtain ⟨e', hpoints, hmade'⟩ := h.exists_use hmade
    rw [hone e e' hmade hmade']
    exact hpoints

end Ssa.Records

/-! ## The order of users -/

/-- The uses that are linked to a definition, each where it was linked first. -/
def usersIn (made : List (OperandId × OperandId)) (e : OperandId) : List OperandId :=
  ((made.filter (·.2 == e)).map (·.1)).eraseDups

theorem usersIn_concat (made : List (OperandId × OperandId)) (use operand e : OperandId) :
    usersIn (made ++ [(use, operand)]) e =
      if operand = e ∧ use ∉ usersIn made e then usersIn made e ++ [use] else usersIn made e := by
  have hsplit : usersIn (made ++ [(use, operand)]) e =
      ((made.filter (·.2 == e)).map (·.1) ++ if operand = e then [use] else []).eraseDups := by
    rw [usersIn, List.filter_append, List.map_append]
    by_cases he : operand = e
    · simp [he]
    · simp [he]
  rw [hsplit]
  by_cases he : operand = e
  · rw [if_pos he, eraseDups_concat, ← usersIn]
    by_cases huse : use ∈ usersIn made e
    · rw [if_pos huse, if_neg (fun h => h.2 huse)]
    · rw [if_neg huse, if_pos ⟨he, huse⟩]
  · rw [if_neg he, if_neg (fun h => he h.1), List.append_nil, ← usersIn]

theorem Ssa.users_link {ssa : Ssa} {use operand : OperandId} {found : Ssa.Definition}
    (hfound : ssa.definition? operand = some found) (e : OperandId) :
    (ssa.link use operand found).users e =
      if operand = e ∧ use ∉ ssa.users e then ssa.users e ++ [use] else ssa.users e := by
  rw [Ssa.users, Ssa.definition?_link ssa use operand e found hfound]
  by_cases he : operand = e
  · subst he
    have hold : ssa.users operand = found.users := by rw [Ssa.users, hfound]; rfl
    rw [if_pos rfl, hold, Option.map_some, Option.getD_some]
    by_cases huse : use ∈ found.users
    · rw [if_pos huse, if_neg (fun h => h.2 huse)]
    · rw [if_neg huse, if_pos ⟨rfl, huse⟩]
  · rw [if_neg he, if_neg (fun h => he h.1)]
    rfl

namespace Draft

variable {d d' : Draft}

/-! ## Changes and runs -/

theorem Change.records {link : Option (OperandId × OperandId)} (hchange : Change d link d')
    {made : List (OperandId × OperandId)} (h : d.ssa.Records made) :
    d'.ssa.Records (made ++ link.toList) := by
  cases hchange with
  | define operand version hoperand =>
      rw [Option.toList_none, List.append_nil]
      exact h.define operand version
  | link use definition found huse hfound => exact h.link hfound
  | _ =>
      -- the other changes leave definitions and uses alone
      rw [Option.toList_none, List.append_nil]
      exact h

theorem Changes.records {made : List (OperandId × OperandId)} (hchanges : Changes d made d')
    (h : d.ssa.Records []) : d'.ssa.Records made := by
  induction hchanges with
  | nil => exact h
  | snoc _ last ih => exact last.records ih

theorem records_start (name : String) : (start name).ssa.Records [] where
  users u e := by simp [start, Ssa.users, Ssa.definition?]
  uses u := by simp [start, Ssa.definingOperand?]

/-- A definition lists its users in the order in which they were linked first. -/
theorem Changes.users_eq {made : List (OperandId × OperandId)} (hchanges : Changes d made d')
    (hstart : ∀ e, d.ssa.users e = []) (e : OperandId) : d'.ssa.users e = usersIn made e := by
  induction hchanges with
  | nil => exact hstart e
  | snoc _ last ih =>
      cases last with
      | define operand version hoperand =>
          rw [Option.toList_none, List.append_nil, ← ih]
          exact Ssa.users_define _ operand version e
      | link use definition found huse hfound =>
          rw [Option.toList_some, usersIn_concat, ← ih]
          exact Ssa.users_link hfound e
      | _ =>
          -- the other changes leave definitions and uses alone
          rw [Option.toList_none, List.append_nil]
          exact ih

end Draft

/-! ## Finished procedures -/

namespace Procedure

variable {f : Procedure}

theorem users_of_finish (name : String) (steps : List Draft.Step)
    (hfinish : ((Draft.start name).run steps).finish = .ok f) (e : OperandId) :
    f.ssa.users e = usersIn ((Draft.start name).links steps) e := by
  obtain ⟨rfl, -, -⟩ := Draft.finish_eq_ok.mp hfinish
  refine (Draft.changes_run (Draft.start name) steps).users_eq ?_ e
  intro e
  simp [Draft.start, Ssa.users, Ssa.definition?]

/-- The definition that a use points to lists it. -/
theorem Built.mem_users (hf : f.Built) {u e : OperandId}
    (hu : f.ssa.definingOperand? u = some e) : u ∈ f.ssa.users e := by
  obtain ⟨name, steps, hfinish⟩ := hf
  obtain ⟨rfl, -, -⟩ := Draft.finish_eq_ok.mp hfinish
  exact ((Draft.changes_run (Draft.start name) steps).records
    (Draft.records_start name)).mem_users_of_use hu

/-- In a finished procedure the definition that a use points to lists it as a user,
    and the two directions agree on a use exactly if all links that were made of it
    lead to one definition. -/
theorem users_agree_iff_one_definition (name : String) (steps : List Draft.Step)
    (hfinish : ((Draft.start name).run steps).finish = .ok f) (u : OperandId) :
    (∀ e, f.ssa.definingOperand? u = some e → u ∈ f.ssa.users e) ∧
    ((∀ e, u ∈ f.ssa.users e ↔ f.ssa.definingOperand? u = some e) ↔
      ∀ e e', (u, e) ∈ (Draft.start name).links steps →
        (u, e') ∈ (Draft.start name).links steps → e = e') := by
  obtain ⟨rfl, -, -⟩ := Draft.finish_eq_ok.mp hfinish
  have hrecords := (Draft.changes_run (Draft.start name) steps).records (Draft.records_start name)
  exact ⟨fun _ => hrecords.mem_users_of_use, hrecords.agree_iff u⟩

/-- A use linked to two definitions in turn is still listed by the first. -/
theorem users_disagree_busyBody :
    ((Draft.start "busy body").run busyBody.steps).finish = .ok busyBody ∧
      (Draft.start "busy body").links busyBody.steps = [(3, 0), (3, 1)] ∧
      ¬ ∀ e, 3 ∈ busyBody.ssa.users e ↔ busyBody.ssa.definingOperand? 3 = some e := by
  have hlinks : (Draft.start "busy body").links busyBody.steps = [(3, 0), (3, 1)] := by
    decide +kernel
  refine ⟨finish_busyBody, hlinks, ?_⟩
  rw [(users_agree_iff_one_definition "busy body" busyBody.steps finish_busyBody 3).2, hlinks]
  intro hone
  exact Nat.zero_ne_one (hone 0 1 (by simp) (by simp))

end Procedure

end ControlFlow
