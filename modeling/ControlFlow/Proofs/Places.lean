import ControlFlow.Proofs.WellFormed

/-!
# Where operands lie

    In a finished procedure every operand is found under its own index and belongs
    to an instruction that exists, and with it to a block, at the place that the
    instruction has there (`Lies`).  Its table can therefore be read by index: the
    operands with a property are a part of the range of indices (`operandsWith`).
    Places tell the instructions of a block apart and numbers tell blocks apart.
-/

namespace ControlFlow

theorem Instruction.mem_operands_of_withRole (i : Instruction) {role : Operand.Role} {p : OperandId}
    (hp : p ∈ i.withRole role) : p ∈ i.operands := by
  cases role with
  | destination => exact List.mem_append_right i.sources hp
  | source | parameter => exact List.mem_append_left i.destinations hp

namespace Procedure

variable {f : Procedure} {p r : OperandId} {q o : Operand} {i j : Instruction} {b c : Block}

theorem Built.coherent (hf : f.Built) : Draft.Coherent f := by
  obtain ⟨name, steps, hfinish⟩ := hf
  obtain ⟨rfl, -, -⟩ := Draft.finish_eq_ok.mp hfinish
  exact Draft.coherent_run name steps

/-! ## Operands by index -/

theorem Built.operand_id (hf : f.Built) (hq : f.operand? p = some q) : q.id = p :=
  hf.coherent.mentioned.id p q.id (congrArg (Option.map Operand.id) hq)

theorem exists_operand? (hp : p < f.operands.size) : ∃ q, f.operand? p = some q :=
  ⟨_, Array.getElem?_eq_getElem hp⟩

theorem lt_of_operand? (hq : f.operand? p = some q) : p < f.operands.size :=
  (Array.getElem?_eq_some_iff.mp hq).1

theorem Built.operand?_of_mem (hf : f.Built) (hq : q ∈ f.operands.toList) :
    f.operand? q.id = some q := by
  obtain ⟨p, hp⟩ := List.mem_iff_getElem?.mp hq
  have hp : f.operand? p = some q := by rwa [Array.getElem?_toList] at hp
  rw [hf.operand_id hp, hp]

/-- The operands with a property, in the order of their indices. -/
def operandsWith (f : Procedure) (property : Operand → Bool) : List OperandId :=
  (List.range f.operands.size).filter fun p => (f.operand? p).any property

theorem mem_operandsWith {property : Operand → Bool} :
    p ∈ f.operandsWith property ↔ ∃ q, f.operand? p = some q ∧ property q = true := by
  rw [operandsWith, List.mem_filter, List.mem_range, Option.any_eq_true]
  constructor
  · rintro ⟨-, hq⟩
    exact hq
  · rintro ⟨q, hq, hproperty⟩
    exact ⟨lt_of_operand? hq, q, hq, hproperty⟩

theorem pairwise_operandsWith (f : Procedure) (property : Operand → Bool) :
    (f.operandsWith property).Pairwise (· < ·) :=
  List.pairwise_lt_range.filter _

theorem nodup_operandsWith (f : Procedure) (property : Operand → Bool) :
    (f.operandsWith property).Nodup :=
  List.nodup_range.filter _

/-- Reading the table row by row gives the same operands in the same order. -/
theorem Built.map_id_filter (hf : f.Built) (property : Operand → Bool) :
    (f.operands.toList.filter property).map (·.id) = f.operandsWith property := by
  have hrange : f.operands.toList.map (·.id) = List.range f.operands.size := by
    refine List.ext_getElem? fun p => ?_
    rw [List.getElem?_map, Array.getElem?_toList]
    by_cases hp : p < f.operands.size
    · rw [List.getElem?_range hp, Array.getElem?_eq_getElem hp, Option.map_some,
        hf.operand_id (Array.getElem?_eq_getElem hp)]
    · rw [Array.getElem?_eq_none (Nat.le_of_not_lt hp), List.getElem?_eq_none (by simpa using hp)]
      rfl
  rw [operandsWith, ← hrange, List.filter_map]
  congr 1
  refine List.filter_congr fun q hq => ?_
  rw [Function.comp_apply, hf.operand?_of_mem hq, Option.any_some]

/-! ## Instructions and blocks -/

/-- The instruction that mentions an operand, and the block it is in. -/
structure Lies (f : Procedure) (p : OperandId) (i : Instruction) (b : Block) : Prop where
  instr : f.instrOf? p = some i
  block : f.block? i.block = some b

theorem blockOf?_eq_some : f.blockOf? p = some b ↔ ∃ i, f.Lies p i b := by
  rw [blockOf?, Option.bind_eq_some_iff]
  exact exists_congr fun i => ⟨fun h => ⟨h.1, h.2⟩, fun h => ⟨h.instr, h.block⟩⟩

theorem Built.instr_id (hf : f.Built) {n : InstrId} (hi : f.instr? n = some i) : i.id = n :=
  hf.coherent.placed.id n i.id (congrArg (Option.map Instruction.id) hi)

theorem instrOf?_of_operand? (hq : f.operand? p = some q) : f.instrOf? p = f.instr? q.instr := by
  rw [instrOf?, hq, Option.bind_some]

theorem Built.exists_lies (hf : f.Built) (hq : f.operand? p = some q) :
    ∃ i b, f.Lies p i b ∧ i.id = q.instr := by
  obtain ⟨i, hi, -⟩ := hf.coherent.mentioned.listed p q.instr q.role
    (congrArg (Option.map fun operand => (operand.instr, operand.role)) hq)
  have hplace := (hf.coherent.placed.place i.block i.index q.instr).mpr
    (congrArg (Option.map fun instr => (instr.block, instr.index)) hi)
  obtain ⟨instrs, hinstrs, -⟩ := Option.bind_eq_some_iff.mp hplace
  obtain ⟨b, hb, -⟩ := Option.map_eq_some_iff.mp hinstrs
  exact ⟨i, b, ⟨(instrOf?_of_operand? hq).trans hi, hb⟩, hf.instr_id hi⟩

/-- Different instructions have no operand in common. -/
theorem Built.instr_unique (hf : f.Built) {m n : InstrId} (hi : f.instr? m = some i)
    (hj : f.instr? n = some j) (hp : p ∈ i.operands) (hp' : p ∈ j.operands) : m = n := by
  have hdisjoint := List.pairwise_iff_getElem.mp
    (List.nodup_flatMap.mp hf.coherent.mentioned.nodup_mentions).2
  obtain ⟨hm, rfl⟩ := Array.getElem?_eq_some_iff.mp hi
  obtain ⟨hn, rfl⟩ := Array.getElem?_eq_some_iff.mp hj
  rcases Nat.lt_trichotomy m n with hlt | heq | hgt
  · exact absurd hp' (hdisjoint m n hm hn hlt hp)
  · exact heq
  · exact absurd hp (hdisjoint n m hn hm hgt hp')

/-- An operand belongs to the instruction that lists it. -/
theorem Built.exists_operand?_of_mem (hf : f.Built) {n : InstrId} (hi : f.instr? n = some i)
    (hp : p ∈ i.operands) : ∃ q, f.operand? p = some q ∧ q.instr = n := by
  have hmem : p ∈ mentions f.instrs :=
    List.mem_flatMap.mpr ⟨i, Array.mem_toList_iff.mpr (Array.mem_of_getElem? hi), hp⟩
  obtain ⟨q, hq⟩ := exists_operand? (hf.coherent.mentioned.mem_mentions_iff.mp hmem)
  obtain ⟨j, hj, hrole⟩ := hf.coherent.mentioned.listed p q.instr q.role
    (congrArg (Option.map fun operand => (operand.instr, operand.role)) hq)
  exact ⟨q, hq, (hf.instr_unique hi hj hp (j.mem_operands_of_withRole hrole)).symm⟩

/-- Operands whose instructions have the same place in the same block belong to one
    instruction. -/
theorem Built.instr_eq_of_place (hf : f.Built) (hq : f.operand? p = some q)
    (ho : f.operand? r = some o) (hi : f.Lies p i b) (hj : f.Lies r j c)
    (hblock : i.block = j.block) (hindex : i.index = j.index) : q.instr = o.instr := by
  have hplace : ∀ {s : OperandId} {u : Operand} {k : Instruction} {d : Block},
      f.operand? s = some u → f.Lies s k d →
        (f.blocks[k.block]?.map Block.instrs).bind (·[k.index]?) = some u.instr := by
    intro s u k d hu hk
    refine (hf.coherent.placed.place k.block k.index u.instr).mpr ?_
    have hfound : f.instr? u.instr = some k := (instrOf?_of_operand? hu).symm.trans hk.instr
    exact congrArg (Option.map fun instr => (instr.block, instr.index)) hfound
  have hhere := hplace hq hi
  rw [hblock, hindex, hplace ho hj] at hhere
  exact (Option.some.inj hhere).symm

end Procedure

end ControlFlow
