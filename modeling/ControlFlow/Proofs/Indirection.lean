import ControlFlow.Proofs.Places

/-!
# Values behind indirections

    An indirection stands for what its base points to, so its value belongs to the
    definition of whatever its chain of bases ends at.  `RestsOn` follows bases
    without a bound.  The search in a procedure is bounded by the number of operands
    and answers nothing when it is given an operand that does not exist, and again
    when the bound is used up; `pursue` is the same search with these ends told apart.

    A base is older than the operand that goes through it (`Grounded`), so a chain
    that starts at index `e` is at its end within `e + 1` steps.  The bound is
    therefore never used up, and bounded and unbounded search agree
    (`Built.pursue_eq_found_iff`).
-/

namespace ControlFlow

theorem Ssa.definitionOf?_of_registered {ssa : Ssa} {d : OperandId}
    (h : (ssa.definition? d).isSome) : ssa.definitionOf? d = some d := by
  rw [definitionOf?, if_pos h]

namespace Procedure

variable {f : Procedure} {e p d : OperandId} {o : Operand}

/-- Following bases from an operand comes to an end at one that is no indirection. -/
inductive RestsOn (f : Procedure) : OperandId → OperandId → Prop where
  | direct {e : OperandId} {o : Operand} (ho : f.operand? e = some o)
      (hdirect : o.kind.base? = none) : RestsOn f e e
  | through {e base p : OperandId} {o : Operand} (ho : f.operand? e = some o)
      (hbase : o.kind.base? = some base) (rest : RestsOn f base p) : RestsOn f e p

/-- A chain of bases has one end. -/
theorem RestsOn.unique {q : OperandId} (hp : f.RestsOn e p) (hq : f.RestsOn e q) : p = q := by
  induction hp with
  | direct ho hdirect =>
      cases hq with
      | direct _ _ => rfl
      | through ho' hbase _ =>
          obtain rfl := Option.some.inj (ho.symm.trans ho')
          rw [hdirect] at hbase
          cases hbase
  | through ho hbase _ ih =>
      cases hq with
      | direct ho' hdirect =>
          obtain rfl := Option.some.inj (ho.symm.trans ho')
          rw [hdirect] at hbase
          cases hbase
      | through ho' hbase' rest' =>
          obtain rfl := Option.some.inj (ho.symm.trans ho')
          obtain rfl := Option.some.inj (hbase.symm.trans hbase')
          exact ih rest'

/-- An operand has the value of a definition: its chain of bases ends at that definition
    or at a use of it. -/
def Denotes (f : Procedure) (e d : OperandId) : Prop :=
  ∃ p, f.RestsOn e p ∧ f.ssa.definitionOf? p = some d

/-! ## The bounded search -/

/-- How a bounded search along bases ends. -/
inductive Pursuit where
  /-- At an operand that is no indirection. -/
  | found (operand : OperandId)
  /-- At an index that no operand has. -/
  | missing
  /-- At an indirection, with no step left. -/
  | exhausted
  deriving DecidableEq, Repr

/-- What is found, without the reason when it is nothing. -/
def Pursuit.found? : Pursuit → Option OperandId
  | .found operand => some operand
  | .missing | .exhausted => none

/-- Follows bases from an operand for at most the given number of steps. -/
def pursue (f : Procedure) : (steps : Nat) → OperandId → Pursuit
  | 0, _ => .exhausted
  | steps + 1, operand =>
      match f.operand? operand with
      | none => .missing
      | some o =>
          match o.kind.base? with
          | some base => f.pursue steps base
          | none => .found operand

theorem pursue_direct {steps : Nat} (ho : f.operand? e = some o) (hdirect : o.kind.base? = none) :
    f.pursue (steps + 1) e = .found e := by
  simp only [pursue, ho, hdirect]

theorem pursue_through {steps : Nat} {base : OperandId} (ho : f.operand? e = some o)
    (hbase : o.kind.base? = some base) : f.pursue (steps + 1) e = f.pursue steps base := by
  simp only [pursue, ho, hbase]

theorem pursue_missing {steps : Nat} (he : f.operands.size ≤ e) :
    f.pursue (steps + 1) e = .missing := by
  have hnone : f.operand? e = none := Array.getElem?_eq_none he
  simp only [pursue, hnone]

/-- Telling the ends apart does not change what is found. -/
theorem baseWithin_eq_found? (f : Procedure) (steps : Nat) (e : OperandId) :
    f.baseWithin steps e = (f.pursue steps e).found? := by
  induction steps generalizing e with
  | zero => rfl
  | succ steps ih =>
      rw [baseWithin]
      by_cases he : e < f.operands.size
      · obtain ⟨o, ho⟩ := exists_operand? he
        rw [ho, Option.bind_some]
        cases hbase : o.kind.base? with
        | none =>
            rw [pursue_direct ho hbase]
            rfl
        | some base =>
            rw [pursue_through ho hbase]
            exact ih base
      · rw [pursue_missing (Nat.le_of_not_lt he),
          show f.operand? e = none from Array.getElem?_eq_none (Nat.le_of_not_lt he)]
        rfl

/-- One step for the operand itself and one for each older operand are enough. -/
theorem Built.exists_pursue_eq_found (hf : f.Built) {steps : Nat} (he : e < f.operands.size)
    (hsteps : e < steps) : ∃ p, f.pursue steps e = .found p ∧ f.RestsOn e p := by
  induction steps generalizing e with
  | zero => exact absurd hsteps (Nat.not_lt_zero e)
  | succ steps ih =>
      obtain ⟨o, ho⟩ := exists_operand? he
      cases hbase : o.kind.base? with
      | none => exact ⟨e, pursue_direct ho hbase, .direct ho hbase⟩
      | some base =>
          have hlt : base < e := by
            refine hf.coherent.grounded e base ?_
            rw [show f.operands[e]? = some o from ho, Option.map_some, Option.bind_some, hbase]
          -- a base is older, so for it one step less is enough
          obtain ⟨p, hfound, hrests⟩ :=
            ih (Nat.lt_trans hlt he) (Nat.lt_of_lt_of_le hlt (Nat.le_of_lt_succ hsteps))
          exact ⟨p, (pursue_through ho hbase).trans hfound, .through ho hbase hrests⟩

theorem RestsOn.lt (h : f.RestsOn e p) : e < f.operands.size := by
  cases h with
  | direct ho _ => exact lt_of_operand? ho
  | through ho _ _ => exact lt_of_operand? ho

/-- The search ends where the chain does, or at once where there is no operand. -/
theorem Built.pursue_ends (hf : f.Built) (e : OperandId) :
    (∃ p, f.pursue (f.operands.size + 1) e = .found p ∧ f.RestsOn e p) ∨
      f.pursue (f.operands.size + 1) e = .missing ∧ f.operands.size ≤ e := by
  by_cases he : e < f.operands.size
  · exact .inl (hf.exists_pursue_eq_found he (Nat.lt_succ_of_lt he))
  · exact .inr ⟨pursue_missing (Nat.le_of_not_lt he), Nat.le_of_not_lt he⟩

theorem Built.pursue_eq_found_iff (hf : f.Built) :
    f.pursue (f.operands.size + 1) e = .found p ↔ f.RestsOn e p := by
  rcases hf.pursue_ends e with ⟨q, hq, hrests⟩ | ⟨hmissing, he⟩
  · rw [hq, Pursuit.found.injEq]
    exact ⟨fun heq => heq ▸ hrests, hrests.unique⟩
  · rw [hmissing]
    exact iff_of_false Pursuit.noConfusion fun hrests => Nat.not_le_of_lt hrests.lt he

theorem Built.pursue_eq_missing_iff (hf : f.Built) :
    f.pursue (f.operands.size + 1) e = .missing ↔ f.operands.size ≤ e := by
  rcases hf.pursue_ends e with ⟨q, hq, hrests⟩ | ⟨hmissing, he⟩
  · rw [hq]
    exact iff_of_false Pursuit.noConfusion (Nat.not_le_of_lt hrests.lt)
  · exact iff_of_true hmissing he

theorem Built.pursue_ne_exhausted (hf : f.Built) (e : OperandId) :
    f.pursue (f.operands.size + 1) e ≠ .exhausted := by
  rcases hf.pursue_ends e with ⟨q, hq, -⟩ | ⟨hmissing, -⟩
  · rw [hq]
    exact Pursuit.noConfusion
  · rw [hmissing]
    exact Pursuit.noConfusion

theorem Built.base?_eq_some_iff (hf : f.Built) : f.base? e = some p ↔ f.RestsOn e p := by
  rw [← hf.pursue_eq_found_iff, base?, baseWithin_eq_found?]
  cases f.pursue (f.operands.size + 1) e with
  | found q =>
      show some q = some p ↔ _
      rw [Option.some.injEq, Pursuit.found.injEq]
  | missing => exact iff_of_false (Option.some_ne_none p).symm Pursuit.noConfusion
  | exhausted => exact iff_of_false (Option.some_ne_none p).symm Pursuit.noConfusion

/-! ## Definitions -/

theorem Built.definitionOf?_eq_some_iff (hf : f.Built) :
    f.definitionOf? e = some d ↔ f.Denotes e d := by
  rw [definitionOf?, Option.bind_eq_some_iff]
  exact exists_congr fun p => and_congr_left' hf.base?_eq_some_iff

/-- What an operand denotes is registered. -/
theorem Built.exists_definition (hf : f.Built) (h : f.Denotes e d) :
    ∃ found, f.ssa.definition? d = some found := by
  obtain ⟨p, -, hp⟩ := h
  rw [Ssa.definitionOf?] at hp
  split at hp
  · rename_i hregistered
    obtain rfl := Option.some.inj hp
    exact Option.isSome_iff_exists.mp hregistered
  · exact Option.isSome_iff_exists.mp (hf.coherent.ssa.registered p d hp)

theorem Built.version?_eq (hf : f.Built) (h : f.Denotes e d) {found : Ssa.Definition}
    (hfound : f.ssa.definition? d = some found) : f.version? e = some found.version := by
  rw [version?, hf.definitionOf?_eq_some_iff.mpr h, Option.bind_some, hfound, Option.map_some]

/-- A registered definition that is no indirection denotes itself and nothing else. -/
theorem denotes_self_iff (ho : f.operand? e = some o) (hdirect : o.kind.base? = none)
    (hregistered : (f.ssa.definition? e).isSome) : f.Denotes e d ↔ d = e := by
  constructor
  · rintro ⟨p, hrests, hp⟩
    obtain rfl := hrests.unique (.direct ho hdirect)
    rw [Ssa.definitionOf?_of_registered hregistered] at hp
    exact (Option.some.inj hp).symm
  · rintro rfl
    exact ⟨d, .direct ho hdirect, Ssa.definitionOf?_of_registered hregistered⟩

/-- The search for the definition of an operand never runs out of steps: it ends where the
    chain of bases ends, and without a result only where there is no operand.  What it
    finds is the definition that the end of the chain belongs to.  That is always a
    registered one, so an operand has a version exactly if it has a definition, and a
    definition that is no indirection is its own. -/
theorem definitionOf?_follows_bases (hf : f.Built) (e : OperandId) :
    f.base? e = (f.pursue (f.operands.size + 1) e).found? ∧
    f.pursue (f.operands.size + 1) e ≠ .exhausted ∧
    (f.pursue (f.operands.size + 1) e = .missing ↔ f.operands.size ≤ e) ∧
    (∀ p, f.pursue (f.operands.size + 1) e = .found p ↔ f.RestsOn e p) ∧
    (∀ d, f.definitionOf? e = some d ↔
      ∃ p, f.RestsOn e p ∧ f.ssa.definitionOf? p = some d) ∧
    (∀ d, f.definitionOf? e = some d → (f.ssa.definition? d).isSome) ∧
    ((f.version? e).isSome ↔ (f.definitionOf? e).isSome) ∧
    ∀ d o, f.definitionOf? e = some d → f.operand? d = some o → o.kind.base? = none →
      f.definitionOf? d = some d := by
  have hregistered : ∀ d, f.definitionOf? e = some d → (f.ssa.definition? d).isSome := by
    intro d hd
    exact Option.isSome_iff_exists.mpr (hf.exists_definition (hf.definitionOf?_eq_some_iff.mp hd))
  refine ⟨baseWithin_eq_found? f _ e, hf.pursue_ne_exhausted e, hf.pursue_eq_missing_iff,
    fun p => hf.pursue_eq_found_iff, fun d => hf.definitionOf?_eq_some_iff, hregistered, ?_, ?_⟩
  · constructor
    · intro hversion
      obtain ⟨version, hversion⟩ := Option.isSome_iff_exists.mp hversion
      obtain ⟨d, hd, -⟩ := Option.bind_eq_some_iff.mp hversion
      exact Option.isSome_of_eq_some hd
    · intro hdefinition
      obtain ⟨d, hd⟩ := Option.isSome_iff_exists.mp hdefinition
      obtain ⟨found, hfound⟩ := Option.isSome_iff_exists.mp (hregistered d hd)
      rw [hf.version?_eq (hf.definitionOf?_eq_some_iff.mp hd) hfound, Option.isSome_some]
  · intro d o hd ho hdirect
    exact hf.definitionOf?_eq_some_iff.mpr
      ((denotes_self_iff ho hdirect (hregistered d hd)).mpr rfl)

/-- A pointer, a store through it that goes through two indirections, and a use of it. -/
def pointerStore.steps : List Draft.Step :=
  [.block 0, .instr 0 "lea" false, .operand 0 .var .destination "p", .instr 0 "store" false,
    .operand 1 (.indirection 0) .source "p", .operand 1 (.indirection 1) .destination "p",
    .instr 0 "ret" false, .operand 2 .var .source "p", .define 0 7, .use 3 0]

def pointerStore : Procedure :=
  (Draft.start "pointer store").run pointerStore.steps

theorem built_pointerStore : pointerStore.Built :=
  built_run (by decide +kernel) (by decide +kernel)

/-- The chain of the store takes as many steps as it is long and ends at the pointer. -/
theorem definitionOf?_pointerStore :
    pointerStore.Built ∧
      pointerStore.pursue 2 2 = .exhausted ∧ pointerStore.pursue 3 2 = .found 0 ∧
      pointerStore.pursue (pointerStore.operands.size + 1) 2 ≠ .exhausted ∧
      pointerStore.RestsOn 2 0 ∧ pointerStore.definitionOf? 2 = some 0 ∧
      (pointerStore.version? 2).isSome ∧ pointerStore.definitionOf? 0 = some 0 := by
  have hpointer : pointerStore.operand? 0 = some ⟨0, .var, .destination, "p", none, 0⟩ := by
    decide +kernel
  have hfound : pointerStore.pursue (pointerStore.operands.size + 1) 2 = .found 0 := by
    decide +kernel
  have hdefinition : pointerStore.definitionOf? 2 = some 0 := by decide +kernel
  obtain ⟨-, hends, -, hrests, -, -, hversion, hself⟩ :=
    definitionOf?_follows_bases built_pointerStore 2
  exact ⟨built_pointerStore, by decide +kernel, by decide +kernel, hends, (hrests 0).mp hfound,
    hdefinition, hversion.mpr (Option.isSome_of_eq_some hdefinition),
    hself 0 _ hdefinition hpointer rfl⟩

end Procedure

end ControlFlow
