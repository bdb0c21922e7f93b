import ControlFlow.Proofs.Counterpart
import ControlFlow.Proofs.Indirection

/-!
# Which instruction is similar

    Instructions of two versions are lined up by values: similar to an instruction is
    the one that defines the value which its first destination has.  To have a value
    is less than to define it.  A destination that is an indirection has the value of
    the pointer behind it, and one that is linked as a use has the value of its
    definition, and either may be defined elsewhere.

    So when a procedure is compared with itself, an instruction is led to the one that
    the denoted definition belongs to (`Built.similarInstr?_eq_some_iff`).  That is the
    instruction itself if its first destination is a definition and no indirection.
-/

namespace ControlFlow.Procedure

variable {f : Procedure} {n m : InstrId} {p d : OperandId}

/-- The first destination of an instruction. -/
def WritesFirst (f : Procedure) (n : InstrId) (p : OperandId) : Prop :=
  ∃ i, f.instr? n = some i ∧ i.destinations.head? = some p

/-- The instruction of an operand. -/
def BelongsTo (f : Procedure) (p : OperandId) (n : InstrId) : Prop :=
  ∃ o, f.operand? p = some o ∧ o.instr = n

theorem BelongsTo.unique (hn : f.BelongsTo p n) (hm : f.BelongsTo p m) : n = m := by
  obtain ⟨o, ho, rfl⟩ := hn
  obtain ⟨o', ho', rfl⟩ := hm
  rw [Option.some.inj (ho.symm.trans ho')]

theorem WritesFirst.belongsTo (hp : f.WritesFirst n p) (hf : f.Built) : f.BelongsTo p n := by
  obtain ⟨i, hi, hfirst⟩ := hp
  exact hf.exists_operand?_of_mem hi (List.mem_append_right _ (List.mem_of_mem_head? hfirst))

/-! ## Versions and their instructions -/

theorem Built.instrOf?_of_belongsTo (hf : f.Built) (hd : f.BelongsTo d m) :
    ∃ i, f.instrOf? d = some i ∧ i.id = m := by
  obtain ⟨o, ho, rfl⟩ := hd
  obtain ⟨i, b, hlies, hid⟩ := hf.exists_lies ho
  exact ⟨i, hlies.instr, hid⟩

theorem Built.exists_belongsTo (hf : f.Built) {found : Ssa.Definition}
    (hfound : f.ssa.definition? d = some found) : ∃ m, f.BelongsTo d m := by
  obtain ⟨o, ho⟩ := exists_operand? (hf.coherent.ssa.definition_lt d found hfound)
  exact ⟨o.instr, o, ho, rfl⟩

/-- Every definition has an instruction, so no version is left out. -/
theorem Built.map_definingInstrs (hf : f.Built) :
    f.definingInstrs.map (·.1) = f.ssa.toList.map (·.2.version) := by
  rw [definingInstrs, List.map_filterMap, ← List.filterMap_eq_map]
  refine List.filterMap_congr fun c hc => ?_
  have hfound : f.ssa.definition? c.1 = some c.2 :=
    Std.TreeMap.mem_toList_iff_getElem?_eq_some.mp hc
  obtain ⟨m, hbelongs⟩ := hf.exists_belongsTo hfound
  obtain ⟨i, hi, -⟩ := hf.instrOf?_of_belongsTo hbelongs
  simp [hi]

theorem Built.find?_definingInstrs (hf : f.Built) (hdistinct : f.VersionsDistinct)
    {found : Ssa.Definition} (hfound : f.ssa.definition? d = some found)
    (hbelongs : f.BelongsTo d m) :
    f.definingInstrs.find? (·.1 == found.version) = some (found.version, m) := by
  have hnodup : (f.definingInstrs.map (·.1)).Nodup := hf.map_definingInstrs ▸ hdistinct
  obtain ⟨i, hi, rfl⟩ := hf.instrOf?_of_belongsTo hbelongs
  have hmem : (found.version, i.id) ∈ f.definingInstrs := by
    refine List.mem_filterMap.mpr ⟨(d, found), ?_, ?_⟩
    · exact Std.TreeMap.mem_toList_iff_getElem?_eq_some.mpr hfound
    · simp [hi]
  exact find?_key_of_nodup hnodup hmem

/-! ## A procedure and itself -/

theorem Built.similarInstr?_of_denotes (hf : f.Built) (hdistinct : f.VersionsDistinct)
    (hp : f.WritesFirst n p) (hd : f.Denotes p d) (hbelongs : f.BelongsTo d m) :
    f.similarInstr? f n = some m := by
  obtain ⟨i, hi, hfirst⟩ := hp
  obtain ⟨found, hfound⟩ := hf.exists_definition hd
  rw [similarInstr?, hi, Option.bind_some, hfirst, Option.bind_some, hf.version?_eq hd hfound,
    Option.bind_some]
  exact congrArg (Option.map Prod.snd) (hf.find?_definingInstrs hdistinct hfound hbelongs)

/-- Similar to an instruction is the one of the definition that its first destination
    denotes. -/
theorem Built.similarInstr?_eq_some_iff (hf : f.Built) (hdistinct : f.VersionsDistinct) :
    f.similarInstr? f n = some m ↔
      ∃ p d, f.WritesFirst n p ∧ f.Denotes p d ∧ f.BelongsTo d m := by
  constructor
  · intro hsimilar
    obtain ⟨version, hversion, -⟩ := Option.bind_eq_some_iff.mp hsimilar
    obtain ⟨p, hfirst, hversion⟩ := Option.bind_eq_some_iff.mp hversion
    have hp : f.WritesFirst n p := Option.bind_eq_some_iff.mp hfirst
    obtain ⟨d, hd, -⟩ := Option.bind_eq_some_iff.mp hversion
    have hdenotes := hf.definitionOf?_eq_some_iff.mp hd
    obtain ⟨found, hfound⟩ := hf.exists_definition hdenotes
    obtain ⟨k, hbelongs⟩ := hf.exists_belongsTo hfound
    rw [hf.similarInstr?_of_denotes hdistinct hp hdenotes hbelongs] at hsimilar
    exact ⟨p, d, hp, hdenotes, Option.some.inj hsimilar ▸ hbelongs⟩
  · rintro ⟨p, d, hp, hd, hbelongs⟩
    exact hf.similarInstr?_of_denotes hdistinct hp hd hbelongs

/-- Looked for in the procedure itself, the instruction similar to another is the one that
    the definition denoted by its first destination belongs to.  That is the instruction
    itself if the destination is a definition and no indirection; and it is never another
    one exactly if the denoted definition is among the instruction's own operands. -/
theorem similarInstr?_self_iff_denotes_own (hf : f.Built) (hdistinct : f.VersionsDistinct)
    (n : InstrId) :
    (∀ m, f.similarInstr? f n = some m ↔
      ∃ p d, f.WritesFirst n p ∧ f.Denotes p d ∧ f.BelongsTo d m) ∧
    (∀ p o, f.WritesFirst n p → f.operand? p = some o → o.kind.base? = none →
      (f.ssa.definition? p).isSome → f.similarInstr? f n = some n) ∧
    ((f.similarInstr? f n = none ∨ f.similarInstr? f n = some n) ↔
      ∀ p d, f.WritesFirst n p → f.Denotes p d → f.BelongsTo d n) := by
  refine ⟨fun m => hf.similarInstr?_eq_some_iff hdistinct, ?_, ?_, ?_⟩
  · intro p o hp ho hdirect hregistered
    have hself : f.Denotes p p := (denotes_self_iff ho hdirect hregistered).mpr rfl
    exact hf.similarInstr?_of_denotes hdistinct hp hself (hp.belongsTo hf)
  · intro hstays p d hp hd
    obtain ⟨found, hfound⟩ := hf.exists_definition hd
    obtain ⟨m, hbelongs⟩ := hf.exists_belongsTo hfound
    rw [hf.similarInstr?_of_denotes hdistinct hp hd hbelongs] at hstays
    rcases hstays with hnone | hsome
    · exact absurd hnone (Option.some_ne_none m)
    · exact Option.some.inj hsome ▸ hbelongs
  · intro hown
    cases hsimilar : f.similarInstr? f n with
    | none => exact .inl rfl
    | some m =>
        obtain ⟨p, d, hp, hd, hbelongs⟩ := (hf.similarInstr?_eq_some_iff hdistinct).mp hsimilar
        exact .inr (congrArg some (hbelongs.unique (hown p d hp hd)))

/-- A store through a pointer is led to the instruction that defines the pointer, which is
    led to itself. -/
theorem similarInstr?_pointerStore :
    pointerStore.Built ∧ pointerStore.VersionsDistinct ∧
      (∃ p d, pointerStore.WritesFirst 1 p ∧ pointerStore.Denotes p d ∧
        pointerStore.BelongsTo d 0) ∧
      pointerStore.similarInstr? pointerStore 1 = some 0 ∧
      (¬ ∀ p d, pointerStore.WritesFirst 1 p → pointerStore.Denotes p d →
        pointerStore.BelongsTo d 1) ∧
      pointerStore.similarInstr? pointerStore 0 = some 0 := by
  have hdistinct : pointerStore.VersionsDistinct := by decide +kernel
  have hfirst : pointerStore.WritesFirst 0 0 :=
    ⟨⟨0, 0, 0, "lea", false, [], [0]⟩, by decide +kernel, rfl⟩
  have hpointer : pointerStore.operand? 0 = some ⟨0, .var, .destination, "p", none, 0⟩ := by
    decide +kernel
  have hmoved : pointerStore.similarInstr? pointerStore 1 = some 0 := by decide +kernel
  obtain ⟨hstore, -, hstays⟩ :=
    similarInstr?_self_iff_denotes_own built_pointerStore hdistinct 1
  obtain ⟨-, hself, -⟩ := similarInstr?_self_iff_denotes_own built_pointerStore hdistinct 0
  refine ⟨built_pointerStore, hdistinct, (hstore 0).mp hmoved, hmoved, ?_,
    hself 0 _ hfirst hpointer rfl (by decide +kernel)⟩
  rw [← hstays, hmoved]
  rintro (hnone | hsome)
  · exact absurd hnone (Option.some_ne_none 0)
  · exact absurd (Option.some.inj hsome) Nat.zero_ne_one

end ControlFlow.Procedure
