import ControlFlow.Proofs.Guarded.Dominators
import Mathlib.Data.Finset.Card

/-!
# The shape of a chain

    The chain of a block is what one comes by when going from immediate dominator to
    immediate dominator, however many steps that takes.  From a reached block it ends
    at the start, and it has passed exactly the dominators of the block by then, the
    nearest first and none of them twice (`Lineage`).

    Each part is proved along the chain (`Idoms.idom_induction`).  The chain of a block
    is the block and behind it the chain of its immediate dominator, and everything
    else that dominates the block dominates the immediate dominator too.  So the chain
    of a dominator is found again at the end of the chain of what it dominates.
-/

namespace ControlFlow

variable {f : Procedure} {direction : Direction} {a b : NodeId}

namespace Idoms

/-- The chain of a reached block begins with the block. -/
theorem exists_chain_eq (hf : f.Built) (hb : direction.Reached f b) :
    ∃ above, (of f (.of f direction)).chain b = b :: above := by
  cases hidom : (of f (.of f direction)).idom? b with
  | none => exact ⟨[], chain_of_idom?_none hf hb hidom⟩
  | some c => exact ⟨_, chain_of_idom? hf hidom⟩

/-- It ends with the start. -/
theorem getLast?_chain (hf : f.Built) (hb : direction.Reached f b) :
    ((of f (.of f direction)).chain b).getLast? = direction.start? f := by
  refine idom_induction hf
    (P := fun b => ((of f (.of f direction)).chain b).getLast? = direction.start? f) ?_ ?_ hb
  · intro b hb hidom
    rw [chain_of_idom?_none hf hb hidom, start_of_idom?_none hf hb hidom]
    rfl
  · intro b c hb hidom ih
    obtain ⟨start, hstart, -⟩ := hb
    rw [chain_of_idom? hf hidom, List.getLast?_cons, ih, hstart]
    rfl

/-- No block is in a chain twice: what dominates a block does not have the block among
    its own dominators. -/
theorem nodup_chain (hf : f.Built) (hb : direction.Reached f b) :
    ((of f (.of f direction)).chain b).Nodup := by
  refine idom_induction hf (P := fun b => ((of f (.of f direction)).chain b).Nodup) ?_ ?_ hb
  · intro b hb hidom
    rw [chain_of_idom?_none hf hb hidom]
    exact List.nodup_singleton b
  · intro b c hb hidom ih
    obtain ⟨⟨hne, hcb⟩, -⟩ := (idom?_eq_some_iff hf).mp hidom
    rw [chain_of_idom? hf hidom]
    refine List.nodup_cons.mpr ⟨?_, ih⟩
    intro hmem
    exact hne (hcb.antisymm hf ((mem_chain_iff hf).mp hmem))

/-- Each block of a chain is followed by its immediate dominator. -/
theorem isChain_chain (hf : f.Built) (hb : direction.Reached f b) :
    ((of f (.of f direction)).chain b).IsChain
      fun x y => (of f (.of f direction)).idom? x = some y := by
  refine idom_induction hf (P := fun b => ((of f (.of f direction)).chain b).IsChain
    fun x y => (of f (.of f direction)).idom? x = some y) ?_ ?_ hb
  · intro b hb hidom
    rw [chain_of_idom?_none hf hb hidom]
    exact List.isChain_singleton b
  · intro b c hb hidom ih
    obtain ⟨⟨-, hcb⟩, -⟩ := (idom?_eq_some_iff hf).mp hidom
    obtain ⟨above, habove⟩ := exists_chain_eq hf hcb.reached.1
    rw [habove] at ih
    rw [chain_of_idom? hf hidom, habove]
    exact List.isChain_cons_cons.mpr ⟨hidom, ih⟩

/-- The chain of a dominator is the end of the chain of what it dominates. -/
theorem chain_suffix (hf : f.Built) (h : direction.Dominates f a b) :
    (of f (.of f direction)).chain a <:+ (of f (.of f direction)).chain b := by
  refine idom_induction hf
    (P := fun b => direction.Dominates f a b →
      (of f (.of f direction)).chain a <:+ (of f (.of f direction)).chain b) ?_ ?_ h.reached.2 h
  · intro b hb hidom hdom
    rw [hdom.eq_start (start_of_idom?_none hf hb hidom)]
  · intro b c hb hidom ih hdom
    by_cases hab : a = b
    · rw [hab]
    · -- any other dominator is passed behind the block
      obtain ⟨-, hall⟩ := (idom?_eq_some_iff hf).mp hidom
      rw [chain_of_idom? hf hidom]
      exact (ih (hall a hab hdom)).trans (List.suffix_cons b _)

end Idoms

namespace Dominance

/-- A chain from a block up to the start: each block is followed by its immediate
    dominator, none comes twice, and they are the dominators of the block. -/
structure Lineage (d : Dominance) (start b : NodeId) (chain : List NodeId) : Prop where
  head : chain.head? = some b
  last : chain.getLast? = some start
  nodup : chain.Nodup
  steps : chain.IsChain fun x y => d.idom? x = some y
  mem_iff : ∀ a, a ∈ chain ↔ d.dominates a b = true

/-- A dominance question about a reached block asks what is in its chain. -/
theorem mem_chain_iff_dominates (hf : f.Built) (options : Options) (hb : direction.Reached f b) :
    a ∈ (of f direction options).chain b ↔ (of f direction options).dominates a b = true := by
  rw [dominates_iff hf]
  constructor
  · intro hmem
    exact .inr ((Idoms.mem_chain_iff hf).mp hmem)
  · rintro (rfl | hdom)
    · exact (Idoms.mem_chain_iff hf).mpr hb.dominates_self
    · exact (Idoms.mem_chain_iff hf).mpr hdom

theorem lineage_chain {start : NodeId} (hf : f.Built) (options : Options)
    (hstart : direction.start? f = some start) (hb : direction.Reached f b) :
    (of f direction options).Lineage start b ((of f direction options).chain b) where
  head := by
    obtain ⟨above, habove⟩ := Idoms.exists_chain_eq hf hb
    show ((Idoms.of f (.of f direction)).chain b).head? = some b
    rw [habove]
    rfl
  last := (Idoms.getLast?_chain hf hb).trans hstart
  nodup := Idoms.nodup_chain hf hb
  steps := Idoms.isChain_chain hf hb
  mem_iff _ := mem_chain_iff_dominates hf options hb

/-- The depth of a reached block counts the blocks in its chain behind itself, and those
    are the blocks that dominate it strictly. -/
theorem depth?_eq_card (hf : f.Built) (options : Options) (hb : direction.Reached f b) :
    ∃ above : Finset NodeId,
      (∀ a, a ∈ above ↔ (of f direction options).strictlyDominates a b = true) ∧
        (of f direction options).depth? b = some above.card := by
  obtain ⟨p, hp⟩ := (BlockOrder.exists_position?_iff hf).mpr hb
  obtain ⟨above, habove⟩ : ∃ above, (of f direction options).chain b = b :: above :=
    Idoms.exists_chain_eq hf hb
  have hnodup : (b :: above).Nodup := habove ▸ Idoms.nodup_chain hf hb
  obtain ⟨hnew, hnodup'⟩ := List.nodup_cons.mp hnodup
  refine ⟨above.toFinset, fun a => ?_, ?_⟩
  · rw [List.mem_toFinset, strictlyDominates, Bool.and_eq_true, bne_iff_ne,
      ← mem_chain_iff_dominates hf options hb, habove, List.mem_cons]
    constructor
    · intro hmem
      refine ⟨?_, .inr hmem⟩
      rintro rfl
      exact hnew hmem
    · rintro ⟨hne, hmem⟩
      exact hmem.resolve_left hne
  · rw [Idoms.depth?, order_of, hp, Option.map_some, habove, List.toFinset_card_of_nodup hnodup']
    rfl

/-- Going from immediate dominator to immediate dominator, without any limit, ends for
    every reached block.  It leads from the block to the start past exactly the dominators
    of the block, none of them twice; the depth of the block is the number of those that
    dominate it strictly; and the chain of each is the end of the chain of the block. -/
theorem chain_ends_at_start (hf : f.Built) (direction : Direction) (options : Options)
    (hb : direction.Reached f b) :
    Guarded.Yields (Guarded.dominators f direction options)
        (fun d => d.chain b = pure ((of f direction options).chain b)) ∧
      (∃ start, direction.start? f = some start ∧
        (of f direction options).Lineage start b ((of f direction options).chain b)) ∧
      (∃ above : Finset NodeId,
        (∀ a, a ∈ above ↔ (of f direction options).strictlyDominates a b = true) ∧
          (of f direction options).depth? b = some above.card) ∧
      ∀ a, (of f direction options).dominates a b = true →
        (of f direction options).chain a <:+ (of f direction options).chain b := by
  refine ⟨?_, ?_, depth?_eq_card hf options hb, ?_⟩
  · exact (Guarded.dominators_shows hf direction options).mono fun d hd => hd.chain_eq hf b
  · obtain ⟨start, hstart, -⟩ := id hb
    exact ⟨start, hstart, lineage_chain hf options hstart hb⟩
  · intro a hdom
    have hmem := (mem_chain_iff_dominates hf options hb).mpr hdom
    exact Idoms.chain_suffix hf ((Idoms.mem_chain_iff hf).mp hmem)

/-- From behind the loop with two entries the chain passes the one block of the loop that
    every way out leads through, and the entry; the chain of that block is its end. -/
theorem chain_twoEntryLoop :
    Procedure.twoEntryLoop.Built ∧ Direction.forward.Reached .twoEntryLoop 3 ∧
      (of .twoEntryLoop .forward ⟨false, false⟩).Lineage 0 3 [3, 2, 0] ∧
      (of .twoEntryLoop .forward ⟨false, false⟩).chain 2 <:+ [3, 2, 0] := by
  have hreached : Direction.forward.Reached .twoEntryLoop 3 :=
    (BlockOrder.contains_iff Procedure.built_twoEntryLoop).mp (by decide +kernel)
  have hchain : (of .twoEntryLoop .forward ⟨false, false⟩).chain 3 = [3, 2, 0] := by
    decide +kernel
  have hdom : (of .twoEntryLoop .forward ⟨false, false⟩).dominates 2 3 = true := by
    decide +kernel
  obtain ⟨-, ⟨start, hstart, hlineage⟩, -, hsuffix⟩ :=
    chain_ends_at_start Procedure.built_twoEntryLoop .forward ⟨false, false⟩ hreached
  obtain rfl : 0 = start := Option.some.inj hstart
  exact ⟨Procedure.built_twoEntryLoop, hreached, hchain ▸ hlineage, hchain ▸ hsuffix 2 hdom⟩

end Dominance

end ControlFlow
