import ControlFlow.Code.Draft
import ControlFlow.Proofs.Walk

/-!
# What construction guarantees about edges

    A procedure is built when it is what some series of construction steps
    comes to, refused ones passed over, and finishing does not refuse it.  Its
    edges are then sound data: recorded at both ends, once each, and between
    blocks that exist.

    The route: every construction step has one lemma that says when it is not
    refused and what the draft is afterwards (`setLabel_eq_ok`, `addEdge_eq_ok`,
    ...).  Seen from the edges a step does one of two things (`step_flow`): it
    leaves all successor and predecessor lists alone, or it records one new
    edge.  `Procedure.Linked` survives both, so it holds at the end of every
    run (`run_invariant`).
-/

namespace ControlFlow

/-- A procedure that construction can come to. -/
def Procedure.Built (f : Procedure) : Prop :=
  ∃ (name : String) (steps : List Draft.Step), ((Draft.start name).run steps).finish = .ok f

/-- Edges are recorded at both ends, once each, and lead to blocks that exist. -/
structure Procedure.Linked (f : Procedure) : Prop where
  mirrored : ∀ u v, v ∈ f.successors u ↔ u ∈ f.predecessors v
  bounded : ∀ u v, v ∈ f.successors u → v < f.blocks.size
  nodup_successors : ∀ u, (f.successors u).Nodup
  nodup_predecessors : ∀ v, (f.predecessors v).Nodup

namespace Draft

variable {d d' : Draft}

/-! ## What each step does -/

/-- A computation in two parts succeeds when both parts do. -/
theorem andThen_eq_ok {α β : Type} {first : Except Error α} {second : α → Except Error β} {r : β} :
    first >>= second = .ok r ↔ ∃ a, first = .ok a ∧ second a = .ok r := by
  constructor
  · intro h
    cases first with
    | error e => exact nomatch h
    | ok a => exact ⟨a, rfl, h⟩
  · rintro ⟨a, rfl, h⟩
    exact h

theorem checkBlock_eq_ok {block : NodeId} {u : Unit} :
    d.checkBlock block = .ok u ↔ block < d.blocks.size := by
  unfold checkBlock
  split <;> simp_all

theorem checkInstr_eq_ok {instr : InstrId} {u : Unit} :
    d.checkInstr instr = .ok u ↔ instr < d.instrs.size := by
  unfold checkInstr
  split <;> simp_all

theorem checkOperand_eq_ok {operand : OperandId} {u : Unit} :
    d.checkOperand operand = .ok u ↔ operand < d.operands.size := by
  unfold checkOperand
  split <;> simp_all

theorem setLabel_eq_ok {block : NodeId} {label : String} :
    d.setLabel block label = .ok d' ↔
      block < d.blocks.size ∧ d' = { d with blocks := d.blocks.modify block (·.setLabel label) } := by
  unfold setLabel
  simp only [andThen_eq_ok, checkBlock_eq_ok, pure, Except.pure, Except.ok.injEq, exists_const]
  exact and_congr_right fun _ => eq_comm

theorem addEdge_eq_ok {source target : NodeId} :
    d.addEdge source target = .ok d' ↔
      source < d.blocks.size ∧ target < d.blocks.size ∧
        d' = if target ∈ d.successors source then d
          else { d with
            blocks := (d.blocks.modify source (·.addSuccessor target)).modify target
              (·.addPredecessor source) } := by
  unfold addEdge
  simp only [andThen_eq_ok, checkBlock_eq_ok, exists_const]
  refine and_congr_right fun _ => and_congr_right fun _ => ?_
  split
  · exact ⟨fun h => (Except.ok.inj h).symm, fun h => congrArg Except.ok h.symm⟩
  · exact ⟨fun h => (Except.ok.inj h).symm, fun h => congrArg Except.ok h.symm⟩

theorem addInstr_eq_ok {block : NodeId} {opcode : String} {isCall : Bool} {instr : InstrId} :
    d.addInstr block opcode isCall = .ok (d', instr) ↔
      block < d.blocks.size ∧ instr = d.instrs.size ∧
        d' = { d with
          instrs := d.instrs.push
            { id := d.instrs.size, block := block
              index := ((d.block? block).map (·.instrs.length)).getD 0
              opcode := opcode, isCall := isCall, sources := [], destinations := [] }
          blocks := d.blocks.modify block (·.addInstr d.instrs.size) } := by
  unfold addInstr
  simp only [andThen_eq_ok, checkBlock_eq_ok, pure, Except.pure, Except.ok.injEq, exists_const,
    Prod.mk.injEq]
  exact and_congr_right fun _ => ⟨fun ⟨hd, hi⟩ => ⟨hi.symm, hd.symm⟩, fun ⟨hi, hd⟩ => ⟨hd.symm, hi.symm⟩⟩

theorem addOperand_eq_ok {instr : InstrId} {kind : Operand.Kind} {role : Operand.Role}
    {name : String} {operand : OperandId} :
    d.addOperand instr kind role name = .ok (d', operand) ↔
      instr < d.instrs.size ∧ d.checkBase kind = .ok () ∧ operand = d.operands.size ∧
        d' = { d with
          operands := d.operands.push
            { id := d.operands.size, kind := kind, role := role, name := name, type := none
              instr := instr }
          instrs := d.instrs.modify instr (·.addOperand role d.operands.size) } := by
  unfold addOperand
  simp only [andThen_eq_ok, checkInstr_eq_ok, pure, Except.pure, Except.ok.injEq, exists_const,
    Prod.mk.injEq]
  refine and_congr_right fun _ => ?_
  constructor
  · rintro ⟨u, hbase, hd, hi⟩
    exact ⟨hbase, hi.symm, hd.symm⟩
  · rintro ⟨hbase, hi, hd⟩
    exact ⟨(), hbase, hd.symm, hi.symm⟩

theorem setType_eq_ok {operand : OperandId} {type : String} :
    d.setType operand type = .ok d' ↔
      operand < d.operands.size ∧
        d' = { d with operands := d.operands.modify operand (·.setType type) } := by
  unfold setType
  simp only [andThen_eq_ok, checkOperand_eq_ok, pure, Except.pure, Except.ok.injEq, exists_const]
  exact and_congr_right fun _ => eq_comm

theorem define_eq_ok {operand : OperandId} {version : Nat} :
    d.define operand version = .ok d' ↔
      operand < d.operands.size ∧ d' = { d with ssa := d.ssa.define operand version } := by
  unfold define
  simp only [andThen_eq_ok, checkOperand_eq_ok, pure, Except.pure, Except.ok.injEq, exists_const]
  exact and_congr_right fun _ => eq_comm

theorem linkUse_eq_ok {use definition : OperandId} :
    d.linkUse use definition = .ok d' ↔
      use < d.operands.size ∧ definition < d.operands.size ∧
        ∃ found, d.ssa.definition? definition = some found ∧
          d' = { d with ssa := d.ssa.link use definition found } := by
  unfold linkUse
  simp only [andThen_eq_ok, checkOperand_eq_ok, exists_const]
  refine and_congr_right fun _ => and_congr_right fun _ => ?_
  split
  · rename_i hnone
    simp [hnone]
  · rename_i found hfound
    simp [hfound, pure, Except.pure, eq_comm]

/-! ## Steps seen from the edges -/

/-- All successor and predecessor lists are as before, and no block is gone. -/
structure SameFlow (d d' : Draft) : Prop where
  successors : ∀ b, d'.successors b = d.successors b
  predecessors : ∀ b, d'.predecessors b = d.predecessors b
  size_le : d.blocks.size ≤ d'.blocks.size

theorem SameFlow.trans {d'' : Draft} (h₁ : SameFlow d d') (h₂ : SameFlow d' d'') :
    SameFlow d d'' where
  successors b := (h₂.successors b).trans (h₁.successors b)
  predecessors b := (h₂.predecessors b).trans (h₁.predecessors b)
  size_le := Nat.le_trans h₁.size_le h₂.size_le

/-- A step that keeps the blocks keeps the flow. -/
theorem sameFlow_of_blocks (h : d'.blocks = d.blocks) : SameFlow d d' where
  successors b := by
    unfold Procedure.successors Procedure.block?
    rw [h]
  predecessors b := by
    unfold Procedure.predecessors Procedure.block?
    rw [h]
  size_le := Nat.le_of_eq (by rw [h])

/-- So does one that changes a block, but not its edges. -/
theorem sameFlow_of_modify (block : NodeId) (change : Block → Block)
    (h : d'.blocks = d.blocks.modify block change)
    (hsucc : ∀ b, (change b).successors = b.successors)
    (hpred : ∀ b, (change b).predecessors = b.predecessors) : SameFlow d d' where
  successors b := by
    unfold Procedure.successors Procedure.block?
    rw [h, Array.getElem?_modify]
    split
    · rw [Option.map_map]
      congr 2
      exact funext hsucc
    · rfl
  predecessors b := by
    unfold Procedure.predecessors Procedure.block?
    rw [h, Array.getElem?_modify]
    split
    · rw [Option.map_map]
      congr 2
      exact funext hpred
    · rfl
  size_le := Nat.le_of_eq (by rw [h, Array.size_modify])

/-- So does one more block, which has no edges yet. -/
theorem sameFlow_of_push {id : NodeId} {number : Nat}
    (h : d'.blocks = d.blocks.push (Block.fresh id number)) : SameFlow d d' where
  successors b := by
    unfold Procedure.successors Procedure.block?
    rw [h, Array.getElem?_push]
    split
    · rename_i hb
      simp [hb, Block.fresh]
    · rfl
  predecessors b := by
    unfold Procedure.predecessors Procedure.block?
    rw [h, Array.getElem?_push]
    split
    · rename_i hb
      simp [hb, Block.fresh]
    · rfl
  size_le := by rw [h, Array.size_push]; exact Nat.le_succ _

/-- One edge is recorded that was not there, at the end of both lists. -/
structure GainsEdge (d d' : Draft) (source target : NodeId) : Prop where
  source_lt : source < d.blocks.size
  target_lt : target < d.blocks.size
  isNew : target ∉ d.successors source
  successors : ∀ b, d'.successors b =
    if source = b then d.successors b ++ [target] else d.successors b
  predecessors : ∀ b, d'.predecessors b =
    if target = b then d.predecessors b ++ [source] else d.predecessors b
  size_eq : d'.blocks.size = d.blocks.size

/-- Adding an edge records it, unless it is there already. -/
theorem addEdge_flow {source target : NodeId} (h : d.addEdge source target = .ok d') :
    (target ∈ d.successors source ∧ SameFlow d d') ∨ GainsEdge d d' source target := by
  obtain ⟨hs, ht, hd'⟩ := addEdge_eq_ok.mp h
  by_cases hmem : target ∈ d.successors source
  · rw [if_pos hmem] at hd'
    exact Or.inl ⟨hmem, sameFlow_of_blocks (by rw [hd'])⟩
  · rw [if_neg hmem] at hd'
    refine Or.inr ⟨hs, ht, hmem, ?_, ?_, ?_⟩
    · intro b
      subst hd'
      unfold Procedure.successors Procedure.block?
      simp only [Array.getElem?_modify]
      -- the predecessor entry at the target leaves successor lists alone
      by_cases hsb : source = b
      · have hb : b < d.blocks.size := hsb ▸ hs
        by_cases htb : target = b <;>
          simp [hsb, htb, hb, Block.addSuccessor, Block.addPredecessor]
      · by_cases htb : target = b
        · cases d.blocks[b]? <;> simp [hsb, htb, Block.addPredecessor]
        · simp [hsb, htb]
    · intro b
      subst hd'
      unfold Procedure.predecessors Procedure.block?
      simp only [Array.getElem?_modify]
      by_cases htb : target = b
      · have hb : b < d.blocks.size := htb ▸ ht
        by_cases hsb : source = b <;>
          simp [hsb, htb, hb, Block.addSuccessor, Block.addPredecessor]
      · by_cases hsb : source = b
        · cases d.blocks[b]? <;> simp [hsb, htb, Block.addSuccessor]
        · simp [hsb, htb]
    · subst hd'
      simp only [Array.size_modify]

theorem addBlock_flow (d : Draft) (number : Nat) : SameFlow d (d.addBlock number).1 := by
  unfold addBlock
  split
  · exact sameFlow_of_blocks rfl
  · exact sameFlow_of_push rfl

theorem addInstr_flow {block : NodeId} {opcode : String} {isCall : Bool} {instr : InstrId}
    (h : d.addInstr block opcode isCall = .ok (d', instr)) : SameFlow d d' := by
  obtain ⟨-, -, rfl⟩ := addInstr_eq_ok.mp h
  exact sameFlow_of_modify block (·.addInstr d.instrs.size) rfl (fun _ => rfl) (fun _ => rfl)

theorem addOperand_flow {instr : InstrId} {kind : Operand.Kind} {role : Operand.Role}
    {name : String} {operand : OperandId}
    (h : d.addOperand instr kind role name = .ok (d', operand)) : SameFlow d d' := by
  obtain ⟨-, -, -, rfl⟩ := addOperand_eq_ok.mp h
  exact sameFlow_of_blocks rfl

/-- A call is an instruction with an operand. -/
theorem addCall_flow {block : NodeId} {target : String} {instr : InstrId}
    (h : d.addCall block target = .ok (d', instr)) : SameFlow d d' := by
  unfold addCall at h
  obtain ⟨⟨d₁, i⟩, hinstr, h⟩ := andThen_eq_ok.mp h
  obtain ⟨⟨d₂, o⟩, hoperand, h⟩ := andThen_eq_ok.mp h
  have hd : d₂ = d' := congrArg Prod.fst (Except.ok.inj h)
  subst hd
  exact (addInstr_flow hinstr).trans (addOperand_flow hoperand)

/-- Steps pass on what they are made of. -/
theorem eq_ok_of_return {α : Type} {first : Except Error α} {outcome : α → Draft × Option Nat}
    {index : Option Nat} (h : (first >>= fun a => pure (outcome a)) = .ok (d', index)) :
    ∃ a, first = .ok a ∧ (outcome a).1 = d' := by
  obtain ⟨a, hfirst, heq⟩ := andThen_eq_ok.mp h
  exact ⟨a, hfirst, congrArg Prod.fst (Except.ok.inj heq)⟩

/-- A step that is not refused adds an edge or keeps the flow. -/
theorem step_edge_or_sameFlow {s : Step} {index : Option Nat} (h : d.step s = .ok (d', index)) :
    (∃ source target, s = .edge source target ∧ d.addEdge source target = .ok d') ∨
      (∀ source target, s ≠ .edge source target) ∧ SameFlow d d' := by
  cases s with
  | block number =>
      have hd : (d.addBlock number).1 = d' := congrArg Prod.fst (Except.ok.inj h)
      exact Or.inr ⟨nofun, hd ▸ addBlock_flow d number⟩
  | label block text =>
      obtain ⟨d₁, hstep, rfl⟩ := eq_ok_of_return h
      obtain ⟨-, rfl⟩ := setLabel_eq_ok.mp hstep
      exact Or.inr ⟨nofun,
        sameFlow_of_modify block (·.setLabel text) rfl (fun _ => rfl) (fun _ => rfl)⟩
  | edge source target =>
      obtain ⟨d₁, hstep, rfl⟩ := eq_ok_of_return h
      exact Or.inl ⟨source, target, rfl, hstep⟩
  | entry block =>
      have hd : d.setEntry block = d' := congrArg Prod.fst (Except.ok.inj h)
      exact Or.inr ⟨nofun, sameFlow_of_blocks (by rw [← hd]; rfl)⟩
  | exit block =>
      have hd : d.setExit block = d' := congrArg Prod.fst (Except.ok.inj h)
      exact Or.inr ⟨nofun, sameFlow_of_blocks (by rw [← hd]; rfl)⟩
  | instr block opcode isCall =>
      obtain ⟨⟨d₁, i⟩, hstep, rfl⟩ := eq_ok_of_return h
      exact Or.inr ⟨nofun, addInstr_flow hstep⟩
  | call block target =>
      obtain ⟨⟨d₁, i⟩, hstep, rfl⟩ := eq_ok_of_return h
      exact Or.inr ⟨nofun, addCall_flow hstep⟩
  | operand instr kind role name =>
      obtain ⟨⟨d₁, o⟩, hstep, rfl⟩ := eq_ok_of_return h
      exact Or.inr ⟨nofun, addOperand_flow hstep⟩
  | type operand text =>
      obtain ⟨d₁, hstep, rfl⟩ := eq_ok_of_return h
      obtain ⟨-, rfl⟩ := setType_eq_ok.mp hstep
      exact Or.inr ⟨nofun, sameFlow_of_blocks rfl⟩
  | define operand version =>
      obtain ⟨d₁, hstep, rfl⟩ := eq_ok_of_return h
      obtain ⟨-, rfl⟩ := define_eq_ok.mp hstep
      exact Or.inr ⟨nofun, sameFlow_of_blocks rfl⟩
  | use use definition =>
      obtain ⟨d₁, hstep, rfl⟩ := eq_ok_of_return h
      obtain ⟨-, -, found, -, rfl⟩ := linkUse_eq_ok.mp hstep
      exact Or.inr ⟨nofun, sameFlow_of_blocks rfl⟩

/-- What a step that is not refused does to the edges. -/
theorem step_flow {s : Step} {index : Option Nat} (h : d.step s = .ok (d', index)) :
    SameFlow d d' ∨ ∃ source target, GainsEdge d d' source target := by
  rcases step_edge_or_sameFlow h with ⟨source, target, -, hedge⟩ | ⟨-, hsame⟩
  · rcases addEdge_flow hedge with ⟨-, hsame⟩ | hgain
    · exact Or.inl hsame
    · exact Or.inr ⟨source, target, hgain⟩
  · exact Or.inl hsame

/-! ## Runs -/

/-- What every step that is not refused keeps is kept by a whole run. -/
theorem run_invariant {P : Draft → Prop}
    (hstep : ∀ d s d' index, P d → d.step s = .ok (d', index) → P d')
    (steps : List Step) (d : Draft) (h : P d) : P (d.run steps) := by
  induction steps generalizing d with
  | nil => exact h
  | cons s rest ih =>
      refine ih (d.attempt s) ?_
      unfold attempt
      split
      · rename_i d' index hs
        exact hstep d s d' index h hs
      · exact h

theorem SameFlow.linked (h : SameFlow d d') (hd : Procedure.Linked d) : Procedure.Linked d' where
  mirrored u v := by
    rw [h.successors, h.predecessors]
    exact hd.mirrored u v
  bounded u v hv := by
    rw [h.successors] at hv
    exact Nat.lt_of_lt_of_le (hd.bounded u v hv) h.size_le
  nodup_successors u := by
    rw [h.successors]
    exact hd.nodup_successors u
  nodup_predecessors v := by
    rw [h.predecessors]
    exact hd.nodup_predecessors v

theorem GainsEdge.linked {source target : NodeId} (h : GainsEdge d d' source target)
    (hd : Procedure.Linked d) : Procedure.Linked d' where
  mirrored u v := by
    have hold := hd.mirrored u v
    rw [h.successors, h.predecessors]
    by_cases hu : source = u <;> by_cases hv : target = v
    · subst hu; subst hv
      simp
    · subst hu
      simp [hv, Ne.symm hv, hold]
    · subst hv
      simp [hu, Ne.symm hu, hold]
    · simp [hu, hv, hold]
  bounded u v hv := by
    rw [h.successors] at hv
    rw [h.size_eq]
    split at hv
    · rcases List.mem_append.mp hv with hmem | hmem
      · exact hd.bounded u v hmem
      · exact List.mem_singleton.mp hmem ▸ h.target_lt
    · exact hd.bounded u v hv
  nodup_successors u := by
    rw [h.successors]
    split
    · rename_i hu
      subst hu
      refine List.nodup_append.mpr ⟨hd.nodup_successors source, by simp, ?_⟩
      intro a ha b hb hab
      rw [hab, List.mem_singleton.mp hb] at ha
      exact h.isNew ha
    · exact hd.nodup_successors u
  nodup_predecessors v := by
    rw [h.predecessors]
    split
    · rename_i hv
      subst hv
      refine List.nodup_append.mpr ⟨hd.nodup_predecessors target, by simp, ?_⟩
      intro a ha b hb hab
      rw [hab, List.mem_singleton.mp hb] at ha
      exact h.isNew ((hd.mirrored source target).mpr ha)
    · exact hd.nodup_predecessors v

theorem linked_run (name : String) (steps : List Step) :
    Procedure.Linked ((start name).run steps) := by
  refine run_invariant ?_ steps (start name) ?_
  · intro d s d' index hd hs
    rcases step_flow hs with hsame | ⟨source, target, hgain⟩
    · exact hsame.linked hd
    · exact hgain.linked hd
  · -- no blocks, hence no edges
    constructor <;> intros <;> simp_all [Procedure.successors, Procedure.predecessors,
      Procedure.block?, start]

/-- Finishing hands the draft over as it is, with an entry and an exit that exist
    where they are set. -/
theorem finish_eq_ok {f : Procedure} :
    d.finish = .ok f ↔ f = d ∧ (∀ b, d.entry = some b → b < d.blocks.size) ∧
      ∀ b, d.exit = some b → b < d.blocks.size := by
  unfold finish
  cases hentry : d.entry with
  | none =>
      cases hexit : d.exit with
      | none => simp [eq_comm]
      | some b =>
          by_cases hb : d.blocks.size ≤ b
          · simp [Option.filter, hb, Nat.not_lt.mpr hb]
          · simp [Option.filter, hb, Nat.lt_of_not_le hb, eq_comm]
  | some a =>
      by_cases ha : d.blocks.size ≤ a
      · simp [Option.filter, ha, Nat.not_lt.mpr ha]
      · cases hexit : d.exit with
        | none => simp [Option.filter, ha, Nat.lt_of_not_le ha, eq_comm]
        | some b =>
            by_cases hb : d.blocks.size ≤ b
            · simp [Option.filter, ha, hb, Nat.not_lt.mpr hb]
            · simp [Option.filter, ha, hb, Nat.lt_of_not_le ha, Nat.lt_of_not_le hb, eq_comm]

end Draft

/-! ## Built procedures -/

namespace Procedure

variable {f : Procedure}

/-- Where neither an entry nor an exit is named, nothing is refused in the end. -/
theorem built_run {name : String} {steps : List Draft.Step}
    (hentry : ((Draft.start name).run steps).entry = none)
    (hexit : ((Draft.start name).run steps).exit = none) :
    Built ((Draft.start name).run steps) := by
  refine ⟨name, steps, Draft.finish_eq_ok.mpr ⟨rfl, fun b hb => ?_, fun b hb => ?_⟩⟩
  · exact absurd (hentry.symm.trans hb) (Option.some_ne_none b).symm
  · exact absurd (hexit.symm.trans hb) (Option.some_ne_none b).symm

theorem Built.linked (h : f.Built) : f.Linked := by
  obtain ⟨name, steps, hfinish⟩ := h
  obtain ⟨rfl, -, -⟩ := Draft.finish_eq_ok.mp hfinish
  exact Draft.linked_run name steps

/-- The start block of a built procedure, where it is set, exists. -/
theorem Built.start_lt (h : f.Built) {direction : Direction} {start : NodeId}
    (hstart : direction.start? f = some start) : start < f.blocks.size := by
  obtain ⟨name, steps, hfinish⟩ := h
  obtain ⟨rfl, hentry, hexit⟩ := Draft.finish_eq_ok.mp hfinish
  cases direction with
  | forward => exact hentry start hstart
  | backward => exact hexit start hstart

theorem Built.entry_lt (h : f.Built) {entry : NodeId} (hentry : f.entry = some entry) :
    entry < f.blocks.size :=
  have hstart : Direction.forward.start? f = some entry := hentry
  h.start_lt hstart

/-- The flow in a direction is what the graph of that direction shows. -/
theorem Linked.mem_successors_graph (h : f.Linked) {direction : Direction} {u v : NodeId} :
    v ∈ (direction.graph f).successors u ↔ direction.Flow f u v := by
  cases direction with
  | forward => exact Iff.rfl
  | backward => exact (h.mirrored v u).symm

/-- The incoming blocks are those with a step of the flow into the block. -/
theorem Linked.mem_incoming (h : f.Linked) {direction : Direction} {u v : NodeId} :
    u ∈ direction.incoming f v ↔ direction.Flow f u v := by
  cases direction with
  | forward => exact (h.mirrored u v).symm
  | backward => exact Iff.rfl

theorem Linked.nodup_incoming (h : f.Linked) (direction : Direction) (v : NodeId) :
    (direction.incoming f v).Nodup := by
  cases direction with
  | forward => exact h.nodup_predecessors v
  | backward => exact h.nodup_successors v

theorem Linked.flow_lt (h : f.Linked) {direction : Direction} {u v : NodeId}
    (hflow : direction.Flow f u v) : v < f.blocks.size := by
  cases direction with
  | forward => exact h.bounded u v hflow
  | backward =>
      -- a block that is not in the table has no edges at all
      refine Nat.lt_of_not_le fun hge => ?_
      have hmem : u ∈ f.successors v := hflow
      have hnone : f.blocks[v]? = none := Array.getElem?_eq_none hge
      rw [show f.successors v = [] by simp [successors, block?, hnone]] at hmem
      exact absurd hmem List.not_mem_nil

/-- A loop between two blocks that is entered at both, a way from it back to the
    entry, and a block that is not reached. -/
def twoEntryLoop.steps : List Draft.Step :=
  [.block 0, .block 1, .block 2, .block 3, .block 4, .edge 0 1, .edge 0 2, .edge 1 2, .edge 2 1,
    .edge 2 3, .edge 3 0, .edge 4 1, .entry 0, .exit 3]

def twoEntryLoop : Procedure :=
  (Draft.start "two-entry loop").run twoEntryLoop.steps

theorem built_twoEntryLoop : twoEntryLoop.Built :=
  ⟨"two-entry loop", twoEntryLoop.steps, rfl⟩

end Procedure

end ControlFlow
