import ControlFlow.Dominance.Tree
import ControlFlow.Proofs.BlockOrder
import ControlFlow.Proofs.Slots
import Mathlib.Data.List.Nodup

/-!
# The nodes of a dominator tree

    Nodes are numbered against the postorder, so node and position of a block add
    up to the number of the last position.  What is said here is how to read the
    tree by number and by block, and that on rising slots the numbers in it are
    those of nodes, a parent's smaller than its child's.
-/

namespace ControlFlow.DomTree

variable {order : BlockOrder} {slots : Slots} {i j : Nat} {b : NodeId}

/-- Looking for the first entry with a key is looking for the key. -/
theorem find?_key {α : Type} (key : α → NodeId) (b : NodeId) (entries : List α) :
    entries.find? (key · == b) = ((entries.map key).idxOf? b).bind (entries[·]?) := by
  induction entries with
  | nil => rfl
  | cons entry entries ih =>
      rw [List.find?_cons, List.map_cons, List.idxOf?_cons, ih]
      cases key entry == b with
      | true => rfl
      | false => cases (entries.map key).idxOf? b <;> rfl

/-- The node of a number. -/
theorem node?_of (order : BlockOrder) (slots : Slots) (i : Nat) :
    (of order slots).node? i = (order.reversePostorder[i]?).map fun block =>
      { block := block
        parent := parentOf slots order.size i
        children := (List.range order.size).filter fun child =>
          parentOf slots order.size child == some i } := by
  rw [node?, of, List.getElem?_toArray, List.getElem?_map, List.getElem?_zipIdx]
  cases order.reversePostorder[i]? with
  | none => rfl
  | some block =>
      rw [Option.map_some, Option.map_some, Nat.zero_add]
      rfl

theorem size_of (order : BlockOrder) (slots : Slots) : (of order slots).nodes.size = order.size := by
  rw [of, List.size_toArray, List.length_map, List.length_zipIdx, BlockOrder.reversePostorder,
    List.length_reverse]
  rfl

theorem lt_size_of_node? {node : Node} (h : (of order slots).node? i = some node) : i < order.size := by
  rw [← size_of order slots]
  exact (Array.getElem?_eq_some_iff.mp h).1

/-- The blocks of the nodes, in the order of the nodes. -/
theorem map_block_nodes (order : BlockOrder) (slots : Slots) :
    (of order slots).nodes.toList.map Node.block = order.reversePostorder := by
  rw [of, List.map_map]
  exact List.zipIdx_map_fst 0 order.reversePostorder

/-- The node of a block is the one at the place of the block in the reverse
    postorder. -/
theorem nodeOf?_of (order : BlockOrder) (slots : Slots) (b : NodeId) :
    (of order slots).nodeOf? b =
      (order.reversePostorder.idxOf? b).bind (of order slots).node? := by
  rw [nodeOf?, find?_key Node.block, map_block_nodes]
  congr 1
  funext i
  rw [node?, Array.getElem?_toList]

/-- The block of a number stands as far from the end of the postorder. -/
theorem block?_eq_some : (of order slots).block? i = some b ↔
    ∃ p, p + i + 1 = order.size ∧ order.postorder[p]? = some b := by
  have hat : (of order slots).block? i = order.reversePostorder[i]? := by
    rw [block?, node?_of]
    cases order.reversePostorder[i]? <;> rfl
  rw [hat, BlockOrder.reversePostorder]
  constructor
  · intro hb
    have hlt : i < order.size := by
      have hlt := (List.getElem?_eq_some_iff.mp hb).1
      rwa [List.length_reverse] at hlt
    rw [List.getElem?_reverse hlt] at hb
    exact ⟨order.size - 1 - i, by omega, hb⟩
  · rintro ⟨p, hp, hb⟩
    have hlt : i < order.postorder.length := by
      show i < order.size
      omega
    have hplace : order.postorder.length - 1 - i = p := by
      show order.size - 1 - i = p
      omega
    rw [List.getElem?_reverse hlt, hplace]
    exact hb

/-- Where no block is ordered twice, the node found by a block is the one that has it. -/
theorem nodeOf?_eq_some {node : Node} (h : order.postorder.Nodup) :
    (of order slots).nodeOf? b = some node ↔
      ∃ i, (of order slots).node? i = some node ∧ node.block = b := by
  have hreverse : order.reversePostorder.Nodup := List.nodup_reverse.mpr h
  rw [nodeOf?_of, Option.bind_eq_some_iff]
  refine exists_congr fun i => ?_
  rw [BlockOrder.idxOf?_of_nodup hreverse, and_comm]
  refine and_congr_right fun hi => ?_
  rw [node?_of] at hi
  obtain ⟨block, hblock, rfl⟩ := Option.map_eq_some_iff.mp hi
  rw [hblock, Option.some.injEq]

/-! ## Parents -/

/-- The parent of any node but the root is the node of its slot. -/
theorem parentOf_of_slot {p q : Nat} (hp : p + i + 1 = order.size) (hi : i ≠ 0)
    (hq : slots.slot? p = some q) : parentOf slots order.size i = some (order.size - 1 - q) := by
  have hat : order.size - 1 - i = p := by omega
  rw [parentOf, if_neg hi, hat, hq]
  rfl

/-- On rising slots a parent has a smaller number than its child. -/
theorem parentOf_lt (h : Slots.Rising slots (order.size - 1)) (hi : i < order.size)
    (hj : parentOf slots order.size i = some j) : j < i := by
  rw [parentOf] at hj
  split at hj
  · exact nomatch hj
  · obtain ⟨q, hq, rfl⟩ := Option.map_eq_some_iff.mp hj
    have hlt := h.slot_lt _ q (by omega) hq
    omega

/-- The numbers of children are numbers of nodes. -/
theorem child_lt {node : Node} (h : (of order slots).node? i = some node) (hj : j ∈ node.children) :
    j < order.size := by
  rw [node?_of] at h
  obtain ⟨block, -, rfl⟩ := Option.map_eq_some_iff.mp h
  exact List.mem_range.mp ((List.mem_filter.mp hj).1)

/-- On rising slots the number of a parent is that of a node. -/
theorem parent_lt {node : Node} (hrising : Slots.Rising slots (order.size - 1))
    (h : (of order slots).node? i = some node) (hj : node.parent = some j) : j < order.size := by
  have hi := lt_size_of_node? h
  rw [node?_of] at h
  obtain ⟨block, -, rfl⟩ := Option.map_eq_some_iff.mp h
  exact Nat.lt_trans (parentOf_lt hrising hi hj) hi

end ControlFlow.DomTree
