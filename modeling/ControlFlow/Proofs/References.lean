import ControlFlow.Proofs.Links
import ControlFlow.Proofs.Places
import ControlFlow.Reference

/-!
# What the references to a value are

    The references to the value of an operand are listed in two parts: the operands
    to keep that have its name and its class, in the order of their indices, and on
    request the users of its definition that are not among them, in the order in
    which they were linked (`Lists`).  Nothing is lost on the way, because in a
    finished procedure every operand has a place, and nothing is listed twice,
    because a use joins the users of a definition only once.

    The list says of each operand how it refers to the value.  The operands it calls
    stores are not all that count as writers when the definition of a name is looked
    for.  The others are `overlooked`, and the two queries agree unless it depends on
    them whether there is just one writer.
-/

namespace ControlFlow

/-! ## Kinds of operands -/

/-- Immediates and labels stand for themselves, and no other kinds do; two operands are of
    one class if both stand for themselves or neither does. -/
def Operand.SameClass (q o : Operand) : Prop :=
  (q.kind = .immediate ∨ q.kind = .label) ↔ (o.kind = .immediate ∨ o.kind = .label)

instance (q o : Operand) : Decidable (q.SameClass o) :=
  inferInstanceAs (Decidable (_ ↔ _))

theorem Operand.Kind.isLiteral_iff (kind : Operand.Kind) :
    kind.isLiteral = true ↔ kind = .immediate ∨ kind = .label := by
  cases kind <;> simp [Operand.Kind.isLiteral]

theorem Procedure.comparable_eq (o q : Operand) :
    comparable o q = (q.name == o.name && decide (q.SameClass o)) := by
  have hclass : (q.kind.isLiteral == o.kind.isLiteral) = decide (q.SameClass o) := by
    rw [Bool.eq_iff_iff, beq_iff_eq, Bool.eq_iff_iff, Operand.Kind.isLiteral_iff,
      Operand.Kind.isLiteral_iff, decide_eq_true_iff, Operand.SameClass]
  rw [comparable, BEq.comm (a := o.name), BEq.comm (a := o.kind.isLiteral), hclass]

/-- An operand refers to a value as a store if it is written directly and not by its
    address. -/
theorem Reference.Kind.ofOperand_eq_store (q : Operand) :
    (Reference.Kind.ofOperand q == .store) =
      (q.isDestination && q.kind.base?.isNone && q.kind != .address) := by
  rw [Reference.Kind.ofOperand]
  cases q.kind <;> cases q.isDestination <;> rfl

namespace Procedure

variable {f : Procedure} {e p : OperandId} {o q : Operand} {r : Reference}

/-! ## Single references -/

/-- A reference carries the instruction of its operand and the block of that
    instruction. -/
def Carries (f : Procedure) (r : Reference) : Prop :=
  ∃ q i, f.operand? r.operand = some q ∧ f.instr? q.instr = some i ∧
    r.instr = q.instr ∧ r.block = i.block

theorem eq_of_reference? {kind : Reference.Kind} (h : f.reference? kind p = some r) :
    r.operand = p ∧ r.kind = kind := by
  obtain ⟨i, -, rfl⟩ := Option.map_eq_some_iff.mp h
  exact ⟨rfl, rfl⟩

theorem Built.exists_reference? (hf : f.Built) (hq : f.operand? p = some q)
    (kind : Reference.Kind) : ∃ r, f.reference? kind p = some r := by
  obtain ⟨i, b, hlies, -⟩ := hf.exists_lies hq
  exact ⟨_, congrArg (Option.map _) hlies.instr⟩

theorem Built.carries (hf : f.Built) {kind : Reference.Kind} (h : f.reference? kind p = some r) :
    f.Carries r := by
  obtain ⟨i, hi, rfl⟩ := Option.map_eq_some_iff.mp h
  obtain ⟨q, hq, hinstr⟩ := Option.bind_eq_some_iff.mp hi
  exact ⟨q, i, hq, hinstr, hf.instr_id hinstr, rfl⟩

/-- Operands that exist all have their references. -/
theorem Built.map_operand_filterMap {α : Type} (hf : f.Built) (kind : α → Reference.Kind)
    (operand : α → OperandId) {xs : List α}
    (hxs : ∀ x ∈ xs, ∃ q, f.operand? (operand x) = some q) :
    (xs.filterMap fun x => f.reference? (kind x) (operand x)).map (·.operand)
      = xs.map operand := by
  induction xs with
  | nil => rfl
  | cons x xs ih =>
      obtain ⟨q, hq⟩ := hxs x List.mem_cons_self
      obtain ⟨r, hr⟩ := hf.exists_reference? hq (kind x)
      have ih := ih fun y hy => hxs y (List.mem_cons_of_mem x hy)
      simp only [List.filterMap_cons, hr, List.map_cons, (eq_of_reference? hr).1, ih]

/-! ## References by name -/

/-- The operands to keep that can refer to the value of an operand: those with its
    name and of its class. -/
def namesakes (f : Procedure) (o : Operand) (keep : Operand → Bool) : List OperandId :=
  f.operandsWith fun q => q.name == o.name && decide (q.SameClass o) && keep q

theorem Built.map_id_comparable (hf : f.Built) (o : Operand) (keep : Operand → Bool) :
    (f.operands.toList.filter fun q => comparable o q && keep q).map (·.id)
      = f.namesakes o keep := by
  rw [namesakes, ← hf.map_id_filter]
  simp only [comparable_eq]

theorem Built.map_operand_referencesByName (hf : f.Built) (o : Operand) (keep : Operand → Bool) :
    (f.referencesByName o keep).map (·.operand) = f.namesakes o keep := by
  rw [← hf.map_id_comparable, referencesByName]
  refine hf.map_operand_filterMap Reference.Kind.ofOperand (·.id) fun q hq => ?_
  exact ⟨q, hf.operand?_of_mem (List.mem_of_mem_filter hq)⟩

/-- The references of one kind are those of the operands that refer so. -/
theorem filter_kind_referencesByName (f : Procedure) (o : Operand) (keep : Operand → Bool)
    (kind : Reference.Kind) : (f.referencesByName o keep).filter (·.kind == kind) =
      f.referencesByName o fun q => keep q && Reference.Kind.ofOperand q == kind := by
  have hfilter : (f.operands.toList.filter fun q =>
        comparable o q && (keep q && Reference.Kind.ofOperand q == kind)) =
      (f.operands.toList.filter fun q => comparable o q && keep q).filter
        fun q => Reference.Kind.ofOperand q == kind := by
    rw [List.filter_filter]
    refine List.filter_congr fun q _ => ?_
    rw [← Bool.and_assoc, Bool.and_comm]
  rw [referencesByName, referencesByName, hfilter]
  generalize (f.operands.toList.filter fun q => comparable o q && keep q) = kept
  rw [List.filter_filterMap, List.filterMap_filter]
  refine List.filterMap_congr fun q _ => ?_
  cases hr : f.reference? (.ofOperand q) q.id with
  | none => simp
  | some r => simp [Option.filter, (eq_of_reference? hr).2]

theorem Built.mem_referencesByName (hf : f.Built) {keep : Operand → Bool}
    (hr : r ∈ f.referencesByName o keep) :
    (∃ q, f.operand? r.operand = some q ∧ r.kind = .ofOperand q) ∧ f.Carries r := by
  obtain ⟨q, hq, hfound⟩ := List.mem_filterMap.mp hr
  obtain ⟨hoperand, hkind⟩ := eq_of_reference? hfound
  refine ⟨⟨q, ?_, hkind⟩, hf.carries hfound⟩
  rw [hoperand]
  exact hf.operand?_of_mem (List.mem_of_mem_filter hq)

/-! ## Users behind them -/

theorem addUse_eq (f : Procedure) (listed : List Reference) (user : OperandId) :
    f.addUse listed user = if user ∈ listed.map (·.operand) then listed
      else listed ++ (f.reference? .ssa user).toList := by
  simp only [addUse, List.any_eq_true, beq_iff_eq, List.mem_map]

/-- Users without repetition are added if they were not listed before; those added on
    the way do not matter. -/
theorem foldl_addUse (f : Procedure) {users : List OperandId} (hnodup : users.Nodup)
    (listed : List Reference) :
    users.foldl f.addUse listed = listed ++
      (users.filter fun u => u ∉ listed.map (·.operand)).filterMap (f.reference? .ssa) := by
  induction users generalizing listed with
  | nil => simp
  | cons user users ih =>
      obtain ⟨hnew, hnodup⟩ := List.nodup_cons.mp hnodup
      rw [List.foldl_cons, ih hnodup]
      by_cases hlisted : user ∈ listed.map (·.operand)
      · rw [addUse_eq, if_pos hlisted, List.filter_cons_of_neg (by simpa using hlisted)]
      · -- what is added here is no later user, so the rest is filtered as before
        have hadded : ∀ u ∈ users, (u ∈ (f.addUse listed user).map (·.operand) ↔
            u ∈ listed.map (·.operand)) := by
          intro u hu
          rw [addUse_eq, if_neg hlisted, List.map_append, List.mem_append, or_iff_left]
          intro hmem
          obtain ⟨r, hr, rfl⟩ := List.mem_map.mp hmem
          rw [Option.mem_toList] at hr
          exact hnew ((eq_of_reference? hr).1 ▸ hu)
        have hsame : (users.filter fun u => u ∉ (f.addUse listed user).map (·.operand)) =
            users.filter fun u => u ∉ listed.map (·.operand) :=
          List.filter_congr fun u hu => decide_eq_decide.mpr (not_congr (hadded u hu))
        rw [hsame, List.filter_cons_of_pos (by simpa using hlisted), addUse_eq,
          if_neg hlisted, List.append_assoc]
        congr 1
        cases hr : f.reference? .ssa user with
        | none => rw [List.filterMap_cons_none hr, Option.toList_none, List.nil_append]
        | some r => rw [List.filterMap_cons_some hr, Option.toList_some, List.singleton_append]

/-! ## The whole list -/

/-- The references list the operands `named` and then the operands `further`: none is
    lost and none comes twice, the former refer to the value as their kinds and roles
    say, the latter as users, and each with its instruction and block. -/
structure Lists (f : Procedure) (named further : List OperandId) (refs : List Reference) :
    Prop where
  operands : refs.map (·.operand) = named ++ further
  nodup : (refs.map (·.operand)).Nodup
  kind_named : ∀ r ∈ refs, r.operand ∈ named →
    ∃ q, f.operand? r.operand = some q ∧ r.kind = .ofOperand q
  kind_further : ∀ r ∈ refs, r.operand ∈ further → r.kind = .ssa
  carries : ∀ r ∈ refs, f.Carries r

theorem Built.lists_referencesByName (hf : f.Built) (o : Operand) (keep : Operand → Bool) :
    f.Lists (f.namesakes o keep) [] (f.referencesByName o keep) where
  operands := by rw [hf.map_operand_referencesByName, List.append_nil]
  nodup := by
    rw [hf.map_operand_referencesByName]
    exact f.nodup_operandsWith _
  kind_named r hr _ := (hf.mem_referencesByName hr).1
  kind_further r _ hfurther := absurd hfurther List.not_mem_nil
  carries r hr := (hf.mem_referencesByName hr).2

/-- Users that exist and are not listed yet may follow. -/
theorem Lists.append_users {named users : List OperandId} {refs : List Reference} (hf : f.Built)
    (h : f.Lists named [] refs) (husers : ∀ u ∈ users, u < f.operands.size)
    (hnodup : users.Nodup) (hunlisted : ∀ u ∈ users, u ∉ named) :
    f.Lists named users (refs ++ users.filterMap (f.reference? .ssa)) := by
  have hnamed : refs.map (·.operand) = named := by rw [h.operands, List.append_nil]
  have hadded : (users.filterMap (f.reference? .ssa)).map (·.operand) = users := by
    have hmap := hf.map_operand_filterMap (fun _ => .ssa) (fun u => u)
      fun u hu => exists_operand? (husers u hu)
    rwa [List.map_id'] at hmap
  have hof : ∀ r ∈ users.filterMap (f.reference? .ssa),
      r.operand ∈ users ∧ r.kind = .ssa ∧ f.Carries r := by
    intro r hr
    obtain ⟨u, hu, hfound⟩ := List.mem_filterMap.mp hr
    obtain ⟨rfl, hkind⟩ := eq_of_reference? hfound
    exact ⟨hu, hkind, hf.carries hfound⟩
  constructor
  case operands => rw [List.map_append, hnamed, hadded]
  case nodup =>
    rw [List.map_append, hnamed, hadded, List.nodup_append]
    refine ⟨hnamed ▸ h.nodup, hnodup, fun u hu v hv heq => hunlisted v hv (heq ▸ hu)⟩
  case kind_named =>
    intro r hr hmem
    rcases List.mem_append.mp hr with hold | hnew
    · exact h.kind_named r hold hmem
    · exact absurd hmem (hunlisted _ (hof r hnew).1)
  case kind_further =>
    intro r hr hmem
    rcases List.mem_append.mp hr with hold | hnew
    · exact absurd (hnamed ▸ List.mem_map_of_mem hold) (hunlisted _ hmem)
    · exact (hof r hnew).2.1
  case carries =>
    intro r hr
    rcases List.mem_append.mp hr with hold | hnew
    · exact h.carries r hold
    · exact (hof r hnew).2.2

/-- In a finished procedure the references to the value of an operand are the operands
    to keep with its name and class, in the order of their indices, and on request the
    uses that construction linked to its definition, in the order of the links and
    without those already listed. -/
theorem references_list_namesakes_and_users (name : String) (steps : List Draft.Step)
    (hfinish : ((Draft.start name).run steps).finish = .ok f) (ho : f.operand? e = some o)
    (withUses : Bool) (keep : Operand → Bool) :
    f.Lists (f.namesakes o keep)
      (if withUses then
        (((f.definitionOf? e).map (usersIn ((Draft.start name).links steps))).getD []).filter
          fun u => u ∉ f.namesakes o keep
      else [])
      (f.references e withUses keep) := by
  have hf : f.Built := ⟨name, steps, hfinish⟩
  have hbyName := hf.lists_referencesByName o keep
  have husers : ((f.definitionOf? e).map (usersIn ((Draft.start name).links steps))).getD [] =
      f.uses e := by
    rw [uses, ← funext (users_of_finish name steps hfinish)]
  rw [husers, references, ho]
  cases withUses with
  | false => exact hbyName
  | true =>
      have hnodup : (f.uses e).Nodup := by
        rw [← husers]
        cases f.definitionOf? e with
        | none => exact List.nodup_nil
        | some d => exact nodup_eraseDups _
      have hlt : ∀ u ∈ f.uses e, u < f.operands.size := by
        intro u hu
        cases hd : f.definitionOf? e with
        | none =>
            rw [uses, hd] at hu
            exact absurd hu List.not_mem_nil
        | some d =>
            rw [uses, hd] at hu
            exact hf.coherent.ssa.user_lt d u hu
      show f.Lists _ _ ((f.uses e).foldl f.addUse (f.referencesByName o keep))
      rw [foldl_addUse f hnodup, hf.map_operand_referencesByName, if_pos rfl]
      refine hbyName.append_users hf ?_ (hnodup.filter _) ?_
      · exact fun u hu => hlt u (List.mem_of_mem_filter hu)
      · exact fun u hu => by simpa using (List.mem_filter.mp hu).2

/-- An address that is written, and a variable, a constant and a label with one name. -/
def sharedNames.steps : List Draft.Step :=
  [.block 0, .instr 0 "lea" false, .operand 0 .address .destination "x", .instr 0 "mov" false,
    .operand 1 .var .destination "1", .operand 1 .immediate .source "1",
    .operand 1 .label .source "1"]

def sharedNames : Procedure :=
  (Draft.start "shared names").run sharedNames.steps

theorem finish_sharedNames :
    ((Draft.start "shared names").run sharedNames.steps).finish = .ok sharedNames := rfl

theorem built_sharedNames : sharedNames.Built :=
  ⟨"shared names", sharedNames.steps, finish_sharedNames⟩

/-- In the busy body the definition of `x` has one user.  It is listed by name, and as a
    user where names are not kept.  Of the three operands named `1` the constant and the
    label refer to each other, and the variable only to itself. -/
theorem references_busyBody_and_sharedNames :
    (((Draft.start "busy body").run busyBody.steps).finish = .ok busyBody ∧
      busyBody.Lists [0, 3] [] (busyBody.references 0 true fun _ => true) ∧
      busyBody.Lists [] [3] (busyBody.references 0 true fun _ => false)) ∧
    ((Draft.start "shared names").run sharedNames.steps).finish = .ok sharedNames ∧
      sharedNames.Lists [1] [] (sharedNames.references 1 false fun _ => true) ∧
      sharedNames.Lists [2, 3] [] (sharedNames.references 2 false fun _ => true) := by
  have hx : busyBody.operand? 0 = some ⟨0, .var, .destination, "x", some "i32", 0⟩ := by
    decide +kernel
  have huses : ((busyBody.definitionOf? 0).map (usersIn ((Draft.start "busy body").links
      busyBody.steps))).getD [] = [3] := by decide +kernel
  have hall : busyBody.namesakes ⟨0, .var, .destination, "x", some "i32", 0⟩ (fun _ => true) =
      [0, 3] := by decide +kernel
  have hnone : busyBody.namesakes ⟨0, .var, .destination, "x", some "i32", 0⟩ (fun _ => false) =
      [] := by decide +kernel
  have hkept := references_list_namesakes_and_users "busy body" busyBody.steps finish_busyBody hx
    true fun _ => true
  have hdropped := references_list_namesakes_and_users "busy body" busyBody.steps finish_busyBody hx
    true fun _ => false
  rw [huses, hall] at hkept
  rw [huses, hnone] at hdropped
  have hvariable : sharedNames.operand? 1 = some ⟨1, .var, .destination, "1", none, 1⟩ := by
    decide +kernel
  have hconstant : sharedNames.operand? 2 = some ⟨2, .immediate, .source, "1", none, 1⟩ := by
    decide +kernel
  have halone : sharedNames.namesakes ⟨1, .var, .destination, "1", none, 1⟩ (fun _ => true) =
      [1] := by decide +kernel
  have hboth : sharedNames.namesakes ⟨2, .immediate, .source, "1", none, 1⟩ (fun _ => true) =
      [2, 3] := by decide +kernel
  have hfirst := references_list_namesakes_and_users "shared names" sharedNames.steps
    finish_sharedNames hvariable false fun _ => true
  have hsecond := references_list_namesakes_and_users "shared names" sharedNames.steps
    finish_sharedNames hconstant false fun _ => true
  rw [halone] at hfirst
  rw [hboth] at hsecond
  exact ⟨⟨finish_busyBody, hkept, hdropped⟩, finish_sharedNames, hfirst, hsecond⟩

/-! ## Stores and writers -/

/-- The operands that the references to the value of an operand call stores. -/
def stores (f : Procedure) (e : OperandId) : List OperandId :=
  ((f.references e false fun _ => true).filter (·.kind == .store)).map (·.operand)

/-- Whether an operand writes a name directly. -/
def writes (name : String) (q : Operand) : Bool :=
  q.name == name && q.isDestination && q.kind.base?.isNone

/-- The direct writers of the name of an operand that are no stores to it: what they
    write is an address, or they are not of its class. -/
def overlooked (f : Procedure) (e : OperandId) : List OperandId :=
  match f.operand? e with
  | none => []
  | some o => f.operandsWith fun q =>
      writes o.name q && (q.kind == .address || !decide (q.SameClass o))

theorem Built.writersOf_eq (hf : f.Built) (name : String) :
    f.writersOf name = f.operandsWith (writes name) :=
  hf.map_id_filter (writes name)

theorem Built.stores_eq (hf : f.Built) (ho : f.operand? e = some o) :
    f.stores e = f.operandsWith fun q =>
      writes o.name q && !(q.kind == .address || !decide (q.SameClass o)) := by
  have hrefs : f.references e false (fun _ => true) = f.referencesByName o fun _ => true := by
    rw [references, ho]
    rfl
  rw [stores, hrefs, filter_kind_referencesByName, hf.map_operand_referencesByName, namesakes]
  congr 1
  funext q
  simp only [writes, Reference.Kind.ofOperand_eq_store, bne, Bool.not_or, Bool.not_not,
    Bool.true_and]
  ac_rfl

/-- A property splits the operands with another one. -/
theorem operandsWith_append_perm (f : Procedure) (property cut : Operand → Bool) :
    ((f.operandsWith fun q => property q && !cut q) ++
      f.operandsWith fun q => property q && cut q).Perm (f.operandsWith property) := by
  have hpart : ∀ part : Operand → Bool, (f.operandsWith fun q => property q && part q) =
      (f.operandsWith property).filter fun p => (f.operand? p).any part := by
    intro part
    rw [operandsWith, operandsWith, List.filter_filter]
    refine List.filter_congr fun p _ => ?_
    cases f.operand? p with
    | none => rfl
    | some q => exact Bool.and_comm (property q) (part q)
  have hrest : ((f.operandsWith property).filter fun p => (f.operand? p).any cut) =
      (f.operandsWith property).filter fun p => !(f.operand? p).any fun q => !cut q := by
    refine List.filter_congr fun p hp => ?_
    obtain ⟨q, hq, -⟩ := mem_operandsWith.mp hp
    rw [hq, Option.any_some, Option.any_some, Bool.not_not]
  rw [hpart, hpart, hrest]
  exact List.filter_append_perm _ _

theorem definitionByName?_eq_some_iff (ho : f.operand? e = some o) {d : OperandId} :
    f.definitionByName? e = some d ↔ f.writersOf o.name = [d] := by
  rw [definitionByName?, ho, Option.bind_some]
  split
  · rename_i writer hone
    rw [hone, Option.some.injEq, List.cons.injEq, and_iff_left rfl]
  · rename_i hmany
    exact iff_of_false (Option.some_ne_none d ∘ Eq.symm) (hmany d)

/-- The writer of a name is unique if it is the only one among the stores and those
    that are overlooked. -/
theorem Built.definitionByName?_iff_append (hf : f.Built) (e d : OperandId) :
    f.definitionByName? e = some d ↔ f.stores e ++ f.overlooked e = [d] := by
  cases ho : f.operand? e with
  | none =>
      have hstores : f.stores e = [] := by rw [stores, references, ho]; rfl
      have hoverlooked : f.overlooked e = [] := by rw [overlooked, ho]
      rw [hstores, hoverlooked, definitionByName?, ho]
      exact iff_of_false (Option.some_ne_none d ∘ Eq.symm) (List.cons_ne_nil d [] ∘ Eq.symm)
  | some o =>
      have hoverlooked : f.overlooked e = f.operandsWith fun q =>
          writes o.name q && (q.kind == .address || !decide (q.SameClass o)) := by
        rw [overlooked, ho]
      have hperm := f.operandsWith_append_perm (writes o.name) fun q =>
        q.kind == .address || !decide (q.SameClass o)
      rw [← hf.stores_eq ho, ← hoverlooked, ← hf.writersOf_eq] at hperm
      rw [definitionByName?_eq_some_iff ho, ← List.perm_singleton, ← List.perm_singleton]
      exact ⟨hperm.trans, hperm.symm.trans⟩

/-- A list is a single element whether or not a second one follows it, unless that holds
    something and the first alone or both together have length one. -/
theorem append_eq_singleton_iff_left {α : Type} (xs ys : List α) :
    (∀ a, xs ++ ys = [a] ↔ xs = [a]) ↔
      (ys ≠ [] → xs.length ≠ 1 ∧ xs.length + ys.length ≠ 1) := by
  constructor
  · intro hsame hys
    have hone : xs.length ≠ 1 := by
      intro hlength
      obtain ⟨a, rfl⟩ := List.length_eq_one_iff.mp hlength
      exact hys (List.append_right_eq_self.mp ((hsame a).mpr rfl))
    refine ⟨hone, fun hlength => ?_⟩
    rw [← List.length_append] at hlength
    obtain ⟨a, ha⟩ := List.length_eq_one_iff.mp hlength
    exact hone (List.length_eq_one_iff.mpr ⟨a, (hsame a).mp ha⟩)
  · intro hdiffer a
    by_cases hys : ys = []
    · rw [hys, List.append_nil]
    · obtain ⟨hone, htotal⟩ := hdiffer hys
      refine iff_of_false (fun h => htotal ?_) (fun h => hone ?_)
      · rw [← List.length_append, h]
        rfl
      · rw [h]
        rfl

/-- A name has one direct writer among the stores and those overlooked.  So the writer
    is found exactly where the references show a single store, unless something is
    overlooked beside a single store or is the only writer. -/
theorem definition_matches_sole_store_iff (hf : f.Built) (e : OperandId) :
    (∀ d, f.definitionByName? e = some d ↔ f.stores e ++ f.overlooked e = [d]) ∧
    ((∀ d, f.definitionByName? e = some d ↔ f.stores e = [d]) ↔
      (f.overlooked e ≠ [] →
        (f.stores e).length ≠ 1 ∧ (f.stores e).length + (f.overlooked e).length ≠ 1)) := by
  have hwriter := hf.definitionByName?_iff_append e
  refine ⟨hwriter, ?_⟩
  simp only [hwriter]
  exact append_eq_singleton_iff_left (f.stores e) (f.overlooked e)

/-- The address defines its name without being a store, and the constant has a
    definition that is no reference to it at all. -/
theorem definition_without_store_sharedNames :
    sharedNames.Built ∧
      (sharedNames.definitionByName? 0 = some 0 ∧ sharedNames.stores 0 = []) ∧
      (sharedNames.definitionByName? 2 = some 1 ∧ sharedNames.stores 2 = []) ∧
      ¬ (∀ d, sharedNames.definitionByName? 0 = some d ↔ sharedNames.stores 0 = [d]) ∧
      ¬ ∀ d, sharedNames.definitionByName? 2 = some d ↔ sharedNames.stores 2 = [d] := by
  have haddress : sharedNames.stores 0 = [] ∧ sharedNames.overlooked 0 = [0] := by decide +kernel
  have hconstant : sharedNames.stores 2 = [] ∧ sharedNames.overlooked 2 = [1] := by decide +kernel
  obtain ⟨hwriter, hagree⟩ := definition_matches_sole_store_iff built_sharedNames 0
  obtain ⟨hwriter', hagree'⟩ := definition_matches_sole_store_iff built_sharedNames 2
  rw [haddress.1, haddress.2] at hwriter hagree
  rw [hconstant.1, hconstant.2] at hwriter' hagree'
  refine ⟨built_sharedNames, ⟨(hwriter 0).mpr rfl, haddress.1⟩,
    ⟨(hwriter' 1).mpr rfl, hconstant.1⟩, ?_, ?_⟩
  · rw [haddress.1, hagree]
    decide
  · rw [hconstant.1, hagree']
    decide

end Procedure

end ControlFlow
