import ControlFlow.Proofs.Changes
import ControlFlow.Proofs.Tables
import Mathlib.Data.List.Range

/-!
# Finished procedures are well formed

    The tables of a procedure refer to one another by index: blocks list their
    instructions, instructions know their block and their place in it and list
    their operands, operands know their instruction, and definitions and uses are
    kept by operand.  Every analysis follows these references without a check.
    `Procedure.WellFormed` says that they all lead where they should.

    The route: each pair of tables that refer to one another has an invariant of
    its own (`Numbered`, `Placed`, `Mentioned`, `Grounded`, `Ssa.Within`), stated of
    those tables only, so that a change elsewhere leaves it as it is.  Together they
    survive every change (`Change.coherent`), hence every run.
-/

namespace ControlFlow

/-! ## Blocks by number -/

/-- Blocks know their index, and numbers lead to the blocks that have them. -/
structure Numbered (blocks : Array Block) (numbers : Std.TreeMap Nat NodeId) : Prop where
  id : ∀ b i : NodeId, blocks[b]?.map Block.id = some i → i = b
  number : Keyed Block.number blocks numbers

namespace Numbered

variable {blocks : Array Block} {numbers : Std.TreeMap Nat NodeId}

/-- A block with a new number may join. -/
theorem push (h : Numbered blocks numbers) {number : Nat} (hnew : numbers[number]? = none) :
    Numbered (blocks.push (Block.fresh blocks.size number)) (numbers.insert number blocks.size) where
  id b i hi := by
    rw [Array.getElem?_push] at hi
    split at hi
    · rename_i hb
      rw [hb]
      exact (Option.some.inj hi).symm
    · exact h.id b i hi
  number := h.number.push hnew

/-- A block may change in all but its index and its number. -/
theorem modify (h : Numbered blocks numbers) (b : NodeId) (change : Block → Block)
    (hid : ∀ block, (change block).id = block.id)
    (hnumber : ∀ block, (change block).number = block.number) :
    Numbered (blocks.modify b change) numbers where
  id c i := by
    rw [map_getElem?_modify blocks b c hid]
    exact h.id c i
  number := h.number.modify b change hnumber

end Numbered

/-! ## Instructions and their places -/

/-- Instructions know their index, and are listed in their block at their place
    and nowhere else. -/
structure Placed (blocks : Array Block) (instrs : Array Instruction) : Prop where
  id : ∀ i j : InstrId, instrs[i]?.map Instruction.id = some j → j = i
  place : ∀ (b : NodeId) (k : Nat) (i : InstrId),
    (blocks[b]?.map Block.instrs).bind (·[k]?) = some i ↔
      instrs[i]?.map (fun instr => (instr.block, instr.index)) = some (b, k)

namespace Placed

variable {blocks : Array Block} {instrs : Array Instruction}

/-- A block without instructions may join. -/
theorem pushBlock (h : Placed blocks instrs) (number : Nat) :
    Placed (blocks.push (Block.fresh blocks.size number)) instrs where
  id := h.id
  place b k i := by
    rw [← h.place, Array.getElem?_push]
    split
    · rename_i hb
      simp [hb, Block.fresh]
    · rfl

/-- A block may change in all but its instructions. -/
theorem modifyBlock (h : Placed blocks instrs) (b : NodeId) (change : Block → Block)
    (hkeep : ∀ block, (change block).instrs = block.instrs) :
    Placed (blocks.modify b change) instrs where
  id := h.id
  place c k i := by
    rw [map_getElem?_modify blocks b c hkeep]
    exact h.place c k i

/-- An instruction may change in all but its index and its place. -/
theorem modifyInstr (h : Placed blocks instrs) (i : InstrId) (change : Instruction → Instruction)
    (hid : ∀ instr, (change instr).id = instr.id)
    (hplace : ∀ instr, ((change instr).block, (change instr).index) = (instr.block, instr.index)) :
    Placed blocks (instrs.modify i change) where
  id j k := by
    rw [map_getElem?_modify instrs i j hid]
    exact h.id j k
  place b k j := by
    rw [map_getElem?_modify instrs i j hplace]
    exact h.place b k j

/-- The next instruction goes to the end of its block. -/
theorem addInstr (h : Placed blocks instrs) {instr : Instruction} {home : NodeId} {block : Block}
    (hid : instr.id = instrs.size) (hhome : instr.block = home)
    (hblock : blocks[home]? = some block) (hindex : instr.index = block.instrs.length) :
    Placed (blocks.modify home (·.addInstr instrs.size)) (instrs.push instr) where
  id i j hj := by
    rw [Array.getElem?_push] at hj
    split at hj
    · rename_i hi
      rw [hi, ← hid]
      exact (Option.some.inj hj).symm
    · exact h.id i j hj
  place b k i := by
    subst hhome
    -- the next index is not listed anywhere yet
    have hunlisted : ∀ (b : NodeId) (k : Nat),
        (blocks[b]?.map Block.instrs).bind (·[k]?) ≠ some instrs.size := by
      intro b k hk
      have hnone := (h.place b k instrs.size).mp hk
      rw [Array.getElem?_eq_none (Nat.le_refl _)] at hnone
      exact nomatch hnone
    have hold := h.place b k i
    rw [Array.getElem?_modify, Array.getElem?_push]
    by_cases hb : instr.block = b
    · subst hb
      have hnot := hunlisted instr.block k
      rw [hblock, Option.map_some, Option.bind_some] at hold hnot
      rw [if_pos rfl, hblock, Option.map_some, Option.map_some, Option.bind_some]
      rw [show (block.addInstr instrs.size).instrs = block.instrs ++ [instrs.size] from rfl,
        getElem?_concat]
      by_cases hi : i = instrs.size
      · subst hi
        by_cases hk : k = block.instrs.length
        · simp [hk, hindex]
        · simp [hk, hnot, hindex, Ne.symm hk]
      · rw [if_neg hi, ← hold]
        by_cases hk : k = block.instrs.length
        · simp [hk, Ne.symm hi]
        · rw [if_neg hk]
    · rw [if_neg hb]
      by_cases hi : i = instrs.size
      · subst hi
        simp [hb, hunlisted]
      · rw [if_neg hi]
        exact hold

end Placed

/-! ## Operands and their mentions -/

/-- All operands that instructions list, in order. -/
def mentions (instrs : Array Instruction) : List OperandId :=
  instrs.toList.flatMap Instruction.operands

/-- The operands of an instruction that have a role. -/
def Instruction.withRole (i : Instruction) : Operand.Role → List OperandId
  | .destination => i.destinations
  | .source | .parameter => i.sources

/-- One more operand is one more operand of its role. -/
theorem Instruction.withRole_addOperand (i : Instruction) (role role' : Operand.Role)
    (o : OperandId) : (i.addOperand role o).withRole role' =
      if role'.isRead = role.isRead then i.withRole role' ++ [o] else i.withRole role' := by
  cases role <;> cases role' <;> rfl

theorem Instruction.operands_addOperand (i : Instruction) (role : Operand.Role) (o : OperandId) :
    (i.addOperand role o).operands.Perm (o :: i.operands) := by
  cases role with
  | destination =>
      show (i.sources ++ (i.destinations ++ [o])).Perm _
      rw [← List.append_assoc]
      exact List.perm_append_singleton o _
  | source | parameter =>
      show (i.sources ++ [o] ++ i.destinations).Perm _
      rw [List.append_assoc]
      exact List.perm_middle

open scoped List in
theorem mentions_addOperand {instrs : Array Instruction} {i : InstrId} (hi : i < instrs.size)
    (role : Operand.Role) (o : OperandId) :
    (mentions (instrs.modify i (·.addOperand role o))).Perm (o :: mentions instrs) := by
  have hlen : i < instrs.toList.length := hi
  have hsplit : instrs.toList = instrs.toList.take i ++ instrs.toList[i] ::
      instrs.toList.drop (i + 1) := by
    rw [List.getElem_cons_drop, List.take_append_drop]
  have hmodify : (instrs.modify i (·.addOperand role o)).toList = instrs.toList.take i ++
      instrs.toList[i].addOperand role o :: instrs.toList.drop (i + 1) := by
    rw [Array.toList_modify, List.modify_eq_take_cons_drop hlen]
  have hone := (instrs.toList[i].operands_addOperand role o).append_right
    ((instrs.toList.drop (i + 1)).flatMap Instruction.operands)
  calc mentions (instrs.modify i (·.addOperand role o))
      = (instrs.toList.take i).flatMap Instruction.operands ++
          ((instrs.toList[i].addOperand role o).operands ++
            (instrs.toList.drop (i + 1)).flatMap Instruction.operands) := by
        rw [mentions, hmodify, List.flatMap_append, List.flatMap_cons]
    _ ~ (instrs.toList.take i).flatMap Instruction.operands ++
          o :: (instrs.toList[i].operands ++
            (instrs.toList.drop (i + 1)).flatMap Instruction.operands) :=
        hone.append_left _
    _ ~ o :: ((instrs.toList.take i).flatMap Instruction.operands ++
          (instrs.toList[i].operands ++
            (instrs.toList.drop (i + 1)).flatMap Instruction.operands)) :=
        List.perm_middle
    _ = o :: mentions instrs := by
        rw [← List.flatMap_cons, ← List.flatMap_append, ← hsplit, mentions]

/-- Operands know their index, each is listed once in all, and that by its own
    instruction among those of its role. -/
structure Mentioned (instrs : Array Instruction) (operands : Array Operand) : Prop where
  id : ∀ o i : OperandId, operands[o]?.map Operand.id = some i → i = o
  once : (mentions instrs).Perm (List.range operands.size)
  listed : ∀ (o : OperandId) (i : InstrId) (role : Operand.Role),
    operands[o]?.map (fun operand => (operand.instr, operand.role)) = some (i, role) →
      ∃ instr, instrs[i]? = some instr ∧ o ∈ instr.withRole role

namespace Mentioned

variable {instrs : Array Instruction} {operands : Array Operand}

/-- An instruction without operands may join. -/
theorem pushInstr (h : Mentioned instrs operands) {instr : Instruction}
    (hempty : instr.operands = []) : Mentioned (instrs.push instr) operands where
  id := h.id
  once := by
    rw [mentions, Array.toList_push, List.flatMap_append, List.flatMap_singleton, hempty,
      List.append_nil]
    exact h.once
  listed o i role ho := by
    obtain ⟨found, hfound, hmem⟩ := h.listed o i role ho
    have hlt := (Array.getElem?_eq_some_iff.mp hfound).1
    refine ⟨found, ?_, hmem⟩
    rw [Array.getElem?_push, if_neg (Nat.ne_of_lt hlt)]
    exact hfound

/-- An operand may change in all but its index, its instruction and its role. -/
theorem modifyOperand (h : Mentioned instrs operands) (p : OperandId) (change : Operand → Operand)
    (hid : ∀ operand, (change operand).id = operand.id)
    (hkeep : ∀ operand, ((change operand).instr, (change operand).role) =
      (operand.instr, operand.role)) : Mentioned instrs (operands.modify p change) where
  id o i := by
    rw [map_getElem?_modify operands p o hid]
    exact h.id o i
  once := by
    rw [Array.size_modify]
    exact h.once
  listed o i role := by
    rw [map_getElem?_modify operands p o hkeep]
    exact h.listed o i role

/-- The next operand goes behind those of its role. -/
theorem addOperand (h : Mentioned instrs operands) {operand : Operand} {home : InstrId}
    {role : Operand.Role} (hid : operand.id = operands.size) (hhome : operand.instr = home)
    (hrole : operand.role = role) (hlt : home < instrs.size) :
    Mentioned (instrs.modify home (·.addOperand role operands.size)) (operands.push operand) where
  id o i hi := by
    rw [Array.getElem?_push] at hi
    split at hi
    · rename_i ho
      rw [ho, ← hid]
      exact (Option.some.inj hi).symm
    · exact h.id o i hi
  once := by
    rw [Array.size_push, List.range_succ]
    refine (mentions_addOperand hlt role operands.size).trans ?_
    exact (h.once.cons operands.size).trans (List.perm_append_singleton _ _).symm
  listed o i role' ho := by
    rw [Array.getElem?_push] at ho
    rw [Array.getElem?_modify]
    split at ho
    · rename_i hlast
      obtain ⟨hi, hrole'⟩ := Prod.mk.inj (Option.some.inj ho)
      rw [if_pos (hhome.symm.trans hi), ← hi, ← hrole', hhome, hrole,
        Array.getElem?_eq_getElem hlt, hlast]
      refine ⟨_, rfl, ?_⟩
      rw [Instruction.withRole_addOperand, if_pos rfl]
      exact List.mem_concat_self
    · obtain ⟨found, hfound, hmem⟩ := h.listed o i role' ho
      rw [hfound]
      split
      · refine ⟨_, rfl, ?_⟩
        rw [Instruction.withRole_addOperand]
        split
        · exact List.mem_append_left _ hmem
        · exact hmem
      · exact ⟨found, rfl, hmem⟩

theorem mem_mentions_iff (h : Mentioned instrs operands) {o : OperandId} :
    o ∈ mentions instrs ↔ o < operands.size := by
  rw [h.once.mem_iff, List.mem_range]

theorem nodup_mentions (h : Mentioned instrs operands) : (mentions instrs).Nodup :=
  h.once.nodup_iff.mpr List.nodup_range

/-- No operand is both read and written by an instruction. -/
theorem disjoint_roles (h : Mentioned instrs operands) {i : InstrId} {instr : Instruction}
    (hinstr : instrs[i]? = some instr) {o : OperandId} (hsource : o ∈ instr.sources)
    (hdestination : o ∈ instr.destinations) : False := by
  have hmem : instr ∈ instrs.toList := Array.mem_toList_iff.mpr (Array.mem_of_getElem? hinstr)
  have hnodup : (instr.sources ++ instr.destinations).Nodup :=
    (List.nodup_flatMap.mp h.nodup_mentions).1 instr hmem
  exact List.disjoint_of_nodup_append hnodup hsource hdestination

/-- The role says which list of the instruction an operand is in. -/
theorem mem_iff_role (h : Mentioned instrs operands) {o : OperandId} {operand : Operand}
    (ho : operands[o]? = some operand) :
    ∃ instr, instrs[operand.instr]? = some instr ∧
      (o ∈ instr.destinations ↔ operand.role = .destination) ∧
      (o ∈ instr.sources ↔ operand.role ≠ .destination) := by
  obtain ⟨instr, hinstr, hmem⟩ := h.listed o operand.instr operand.role (by rw [ho]; rfl)
  refine ⟨instr, hinstr, ?_⟩
  have hnot := h.disjoint_roles hinstr (o := o)
  cases hrole : operand.role with
  | destination =>
      rw [hrole] at hmem
      exact ⟨iff_of_true hmem rfl, iff_of_false (fun hs => hnot hs hmem) (fun hne => hne rfl)⟩
  | source | parameter =>
      rw [hrole] at hmem
      exact ⟨iff_of_false (fun hd => hnot hmem hd) nofun, iff_of_true hmem nofun⟩

end Mentioned

/-! ## Indirections -/

/-- An indirection goes through an older operand. -/
def Grounded (operands : Array Operand) : Prop :=
  ∀ o base : OperandId,
    (operands[o]?.map Operand.kind).bind Operand.Kind.base? = some base → base < o

namespace Grounded

variable {operands : Array Operand}

theorem push (h : Grounded operands) {operand : Operand}
    (hbase : ∀ base, operand.kind.base? = some base → base < operands.size) :
    Grounded (operands.push operand) := by
  intro o base ho
  rw [Array.getElem?_push] at ho
  split at ho
  · rename_i hlast
    rw [hlast]
    exact hbase base ho
  · exact h o base ho

theorem modify (h : Grounded operands) (p : OperandId) (change : Operand → Operand)
    (hkeep : ∀ operand, (change operand).kind = operand.kind) :
    Grounded (operands.modify p change) := by
  intro o base
  rw [map_getElem?_modify operands p o hkeep]
  exact h o base

end Grounded

/-! ## Definitions and uses -/

/-- Definitions, their users and uses are among the first `size` operands, and uses
    are linked to registered definitions. -/
structure Ssa.Within (size : Nat) (ssa : Ssa) : Prop where
  definition_lt : ∀ e d, ssa.definition? e = some d → e < size
  user_lt : ∀ e, ∀ u ∈ ssa.users e, u < size
  use_lt : ∀ u e, ssa.definingOperand? u = some e → u < size
  registered : ∀ u e, ssa.definingOperand? u = some e → (ssa.definition? e).isSome

namespace Ssa

variable {ssa : Ssa}

@[simp]
theorem users_define (ssa : Ssa) (operand version e : Nat) :
    (ssa.define operand version).users e = ssa.users e := by
  rw [users, definition?_define]
  split
  · rename_i heq
    rw [heq]
    rfl
  · rfl

theorem mem_users_link {use operand : OperandId} {d : Definition}
    (hfound : ssa.definition? operand = some d) {u e : OperandId} :
    u ∈ (ssa.link use operand d).users e ↔ u ∈ ssa.users e ∨ (u, e) = (use, operand) := by
  rw [users, definition?_link ssa use operand e d hfound]
  by_cases he : operand = e
  · subst he
    have hold : ssa.users operand = d.users := by rw [users, hfound]; rfl
    rw [if_pos rfl, hold, Option.map_some, Option.getD_some]
    by_cases hmem : use ∈ d.users
    · simp only [if_pos hmem, Prod.mk.injEq, and_true]
      exact ⟨Or.inl, fun h => h.elim (fun hu => hu) fun heq => heq ▸ hmem⟩
    · simp [if_neg hmem]
  · rw [if_neg he]
    simp [users, Ne.symm he]

namespace Within

variable {n : Nat}

theorem mono (h : ssa.Within n) {m : Nat} (hle : n ≤ m) : ssa.Within m where
  definition_lt e d hd := Nat.lt_of_lt_of_le (h.definition_lt e d hd) hle
  user_lt e u hu := Nat.lt_of_lt_of_le (h.user_lt e u hu) hle
  use_lt u e hu := Nat.lt_of_lt_of_le (h.use_lt u e hu) hle
  registered := h.registered

theorem define (h : ssa.Within n) {operand : OperandId} (hlt : operand < n) (version : Nat) :
    (ssa.define operand version).Within n where
  definition_lt e d hd := by
    rw [definition?_define] at hd
    split at hd
    · rename_i heq
      exact heq ▸ hlt
    · exact h.definition_lt e d hd
  user_lt e u hu := by
    rw [users_define] at hu
    exact h.user_lt e u hu
  use_lt := h.use_lt
  registered u e hu := by
    rw [definition?_define]
    split
    · rfl
    · exact h.registered u e hu

theorem link (h : ssa.Within n) {use operand : OperandId} {d : Definition}
    (hfound : ssa.definition? operand = some d) (huse : use < n) :
    (ssa.link use operand d).Within n where
  definition_lt e d' hd' := by
    rw [definition?_link ssa use operand e d hfound] at hd'
    split at hd'
    · rename_i heq
      exact heq ▸ h.definition_lt operand d hfound
    · exact h.definition_lt e d' hd'
  user_lt e u hu := by
    rcases (mem_users_link hfound).mp hu with hold | hnew
    · exact h.user_lt e u hold
    · obtain ⟨rfl, -⟩ := Prod.mk.inj hnew
      exact huse
  use_lt u e hu := by
    rw [definingOperand?_link] at hu
    split at hu
    · rename_i heq
      exact heq ▸ huse
    · exact h.use_lt u e hu
  registered u e hu := by
    rw [definition?_link ssa use operand e d hfound]
    rw [definingOperand?_link] at hu
    split at hu
    · rw [if_pos (Option.some.inj hu)]
      rfl
    · split
      · rfl
      · exact h.registered u e hu

end Within

end Ssa

namespace Draft

variable {d d' : Draft}

/-! ## The invariant -/

/-- The references between the tables of a draft, edges apart. -/
structure Coherent (d : Draft) : Prop where
  numbered : Numbered d.blocks d.numbers
  placed : Placed d.blocks d.instrs
  mentioned : Mentioned d.instrs d.operands
  grounded : Grounded d.operands
  ssa : d.ssa.Within d.operands.size

theorem coherent_start (name : String) : Coherent (start name) where
  numbered := ⟨nofun, Keyed.empty⟩
  placed := ⟨nofun, fun b k i => by simp [start]⟩
  mentioned := ⟨nofun, List.Perm.refl _, nofun⟩
  grounded _ _ h := nomatch h
  ssa := by constructor <;> simp [start, Ssa.users, Ssa.definition?, Ssa.definingOperand?]

theorem Change.coherent {link : Option (OperandId × OperandId)} (hchange : Change d link d')
    (h : Coherent d) : Coherent d' := by
  cases hchange with
  | block number hnew =>
      exact ⟨h.numbered.push hnew, h.placed.pushBlock number, h.mentioned, h.grounded, h.ssa⟩
  | label block text =>
      exact ⟨h.numbered.modify block (·.setLabel text) (fun _ => rfl) (fun _ => rfl),
        h.placed.modifyBlock block (·.setLabel text) (fun _ => rfl), h.mentioned, h.grounded, h.ssa⟩
  | edge source target =>
      refine ⟨?_, ?_, h.mentioned, h.grounded, h.ssa⟩
      · exact (h.numbered.modify source (·.addSuccessor target) (fun _ => rfl) (fun _ => rfl)).modify
          target (·.addPredecessor source) (fun _ => rfl) (fun _ => rfl)
      · exact (h.placed.modifyBlock source (·.addSuccessor target) (fun _ => rfl)).modifyBlock
          target (·.addPredecessor source) (fun _ => rfl)
  | entry block => exact ⟨h.numbered, h.placed, h.mentioned, h.grounded, h.ssa⟩
  | exit block => exact ⟨h.numbered, h.placed, h.mentioned, h.grounded, h.ssa⟩
  | instr block opcode isCall hblock =>
      have hfound : d.blocks[block]? = some d.blocks[block] := Array.getElem?_eq_getElem hblock
      refine ⟨h.numbered.modify block (·.addInstr d.instrs.size) (fun _ => rfl) (fun _ => rfl), ?_,
        h.mentioned.pushInstr rfl, h.grounded, h.ssa⟩
      refine h.placed.addInstr rfl rfl hfound ?_
      show ((d.blocks[block]?).map (·.instrs.length)).getD 0 = _
      rw [hfound]
      rfl
  | operand instr kind role name hinstr hbase =>
      refine ⟨h.numbered, ?_, h.mentioned.addOperand rfl rfl rfl hinstr, h.grounded.push hbase,
        h.ssa.mono (by simp)⟩
      refine h.placed.modifyInstr instr (·.addOperand role d.operands.size) ?_ ?_
      · intro i
        cases role <;> rfl
      · intro i
        cases role <;> rfl
  | type operand text =>
      exact ⟨h.numbered, h.placed,
        h.mentioned.modifyOperand operand (·.setType text) (fun _ => rfl) (fun _ => rfl),
        h.grounded.modify operand (·.setType text) (fun _ => rfl), h.ssa.mono (by simp)⟩
  | define operand version hoperand =>
      exact ⟨h.numbered, h.placed, h.mentioned, h.grounded, h.ssa.define hoperand version⟩
  | link use definition found huse hfound =>
      exact ⟨h.numbered, h.placed, h.mentioned, h.grounded, h.ssa.link hfound huse⟩

theorem Changes.coherent {made : List (OperandId × OperandId)} (hchanges : Changes d made d')
    (h : Coherent d) : Coherent d' := by
  induction hchanges with
  | nil => exact h
  | snoc _ last ih => exact last.coherent ih

theorem coherent_run (name : String) (steps : List Step) : Coherent ((start name).run steps) :=
  (changes_run (start name) steps).coherent (coherent_start name)

end Draft

/-! ## Well-formed procedures -/

namespace Procedure

variable {f : Procedure}

/-- Everything in a procedure that refers to something else leads where it should. -/
structure WellFormed (f : Procedure) : Prop where
  block_id : ∀ b block, f.block? b = some block → block.id = b
  blockByNumber?_iff : ∀ n b,
    f.blockByNumber? n = some b ↔ ∃ block, f.block? b = some block ∧ block.number = n
  number_injective : ∀ b c block other, f.block? b = some block → f.block? c = some other →
    block.number = other.number → b = c
  edges_mirrored : ∀ u v, v ∈ f.successors u ↔ u ∈ f.predecessors v
  edges_lead_to_blocks : ∀ u v, v ∈ f.successors u → v < f.blocks.size
  nodup_successors : ∀ u, (f.successors u).Nodup
  nodup_predecessors : ∀ v, (f.predecessors v).Nodup
  instr_id : ∀ i instr, f.instr? i = some instr → instr.id = i
  instr_place : ∀ (b : NodeId) (k : Nat) (i : InstrId),
    (∃ block, f.block? b = some block ∧ block.instrs[k]? = some i) ↔
      ∃ instr, f.instr? i = some instr ∧ instr.block = b ∧ instr.index = k
  operand_id : ∀ o operand, f.operand? o = some operand → operand.id = o
  operand_once : ∀ o operand, f.operand? o = some operand → (mentions f.instrs).count o = 1
  mentions_exist : ∀ o ∈ mentions f.instrs, o < f.operands.size
  operand_role : ∀ o operand, f.operand? o = some operand →
    ∃ instr, f.instr? operand.instr = some instr ∧
      (o ∈ instr.destinations ↔ operand.role = .destination) ∧
      (o ∈ instr.sources ↔ operand.role ≠ .destination)
  base_lt : ∀ o operand base, f.operand? o = some operand → operand.kind = .indirection base →
    base < operand.id
  definition_lt : ∀ e d, f.ssa.definition? e = some d →
    e < f.operands.size ∧ ∀ u ∈ d.users, u < f.operands.size
  use_lt : ∀ u e, f.ssa.definingOperand? u = some e →
    u < f.operands.size ∧ e < f.operands.size ∧ ∃ d, f.ssa.definition? e = some d
  entry_lt : ∀ b, f.entry = some b → b < f.blocks.size
  exit_lt : ∀ b, f.exit = some b → b < f.blocks.size

/-- Whatever steps were taken and whichever were refused, what finishing does not
    refuse is well formed. -/
theorem wellFormed_of_finish (name : String) (steps : List Draft.Step)
    (hfinish : ((Draft.start name).run steps).finish = .ok f) : f.WellFormed := by
  obtain ⟨rfl, hentry, hexit⟩ := Draft.finish_eq_ok.mp hfinish
  have hlinked := Draft.linked_run name steps
  have hcoherent := Draft.coherent_run name steps
  have hid : ∀ o operand, ((Draft.start name).run steps).operand? o = some operand →
      operand.id = o := fun o operand ho => hcoherent.mentioned.id o _ (congrArg _ ho)
  constructor
  case block_id => exact fun b block hb => hcoherent.numbered.id b _ (congrArg _ hb)
  case blockByNumber?_iff => exact fun n b => hcoherent.numbered.number.getElem?_eq_some
  case number_injective =>
    exact fun b c block other hb hc heq => hcoherent.numbered.number.injective hb hc heq
  case edges_mirrored => exact hlinked.mirrored
  case edges_lead_to_blocks => exact hlinked.bounded
  case nodup_successors => exact hlinked.nodup_successors
  case nodup_predecessors => exact hlinked.nodup_predecessors
  case instr_id => exact fun i instr hi => hcoherent.placed.id i _ (congrArg _ hi)
  case instr_place =>
    intro b k i
    have hplace := hcoherent.placed.place b k i
    simp only [Option.bind_eq_some_iff, Option.map_eq_some_iff, Prod.mk.injEq] at hplace
    rw [← show _ ↔ ∃ instr, ((Draft.start name).run steps).instr? i = some instr ∧
      instr.block = b ∧ instr.index = k from hplace]
    constructor
    · rintro ⟨block, hblock, hk⟩
      exact ⟨block.instrs, ⟨block, hblock, rfl⟩, hk⟩
    · rintro ⟨_, ⟨block, hblock, rfl⟩, hk⟩
      exact ⟨block, hblock, hk⟩
  case operand_id => exact hid
  case operand_once =>
    intro o operand ho
    have hlt : o < _ := (Array.getElem?_eq_some_iff.mp ho).1
    exact List.count_eq_one_of_mem hcoherent.mentioned.nodup_mentions
      (hcoherent.mentioned.mem_mentions_iff.mpr hlt)
  case mentions_exist => exact fun o ho => hcoherent.mentioned.mem_mentions_iff.mp ho
  case operand_role => exact fun o operand ho => hcoherent.mentioned.mem_iff_role ho
  case base_lt =>
    intro o operand base ho hkind
    rw [hid o operand ho]
    refine hcoherent.grounded o base ?_
    rw [show ((Draft.start name).run steps).operands[o]? = some operand from ho, Option.map_some,
      Option.bind_some, hkind]
    rfl
  case definition_lt =>
    intro e d hd
    refine ⟨hcoherent.ssa.definition_lt e d hd, fun u hu => hcoherent.ssa.user_lt e u ?_⟩
    rw [Ssa.users, hd]
    exact hu
  case use_lt =>
    intro u e hu
    obtain ⟨d, hd⟩ := Option.isSome_iff_exists.mp (hcoherent.ssa.registered u e hu)
    exact ⟨hcoherent.ssa.use_lt u e hu, hcoherent.ssa.definition_lt e d hd, d, hd⟩
  case entry_lt => exact hentry
  case exit_lt => exact hexit

/-- Repeated numbers and edges, a loop at a block, refused steps, a call, an
    indirection, and a use linked to two definitions in turn. -/
def busyBody.steps : List Draft.Step :=
  [.block 7, .block 3, .block 7, .edge 0 1, .edge 0 1, .edge 1 1, .edge 0 5, .label 1 "out",
    .instr 0 "load" false, .operand 0 .var .destination "x", .operand 0 (.indirection 0) .source "p",
    .operand 0 (.indirection 9) .source "q", .call 1 "helper", .instr 0 "add" false,
    .operand 2 .var .parameter "x", .type 0 "i32", .use 3 0, .define 0 1, .define 1 2, .use 3 0,
    .use 3 1, .entry 0, .exit 1]

def busyBody : Procedure :=
  (Draft.start "busy body").run busyBody.steps

theorem finish_busyBody :
    ((Draft.start "busy body").run busyBody.steps).finish = .ok busyBody := by
  have hsize : busyBody.blocks.size = 2 := by decide +kernel
  have hentry : busyBody.entry = some 0 := by decide +kernel
  have hexit : busyBody.exit = some 1 := by decide +kernel
  refine Draft.finish_eq_ok.mpr ⟨rfl, fun b hb => ?_, fun b hb => ?_⟩
  · obtain rfl : 0 = b := Option.some.inj (hentry.symm.trans hb)
    exact hsize ▸ Nat.zero_lt_two
  · obtain rfl : 1 = b := Option.some.inj (hexit.symm.trans hb)
    exact hsize ▸ Nat.one_lt_two

theorem wellFormed_busyBody :
    ((Draft.start "busy body").run busyBody.steps).finish = .ok busyBody ∧ busyBody.WellFormed :=
  ⟨finish_busyBody, wellFormed_of_finish "busy body" busyBody.steps finish_busyBody⟩

end Procedure

end ControlFlow
