import Mathlib.Data.List.Nodup
import Std.Data.TreeMap

/-!
# Tables and their indices

    Rows are kept in arrays and referred to by their place.  What a change of one
    row does to a column is said here once, and so is what it means that a map
    finds rows by a key: blocks by their numbers, functions by their names.
-/

namespace ControlFlow

/-! ## Columns -/

/-- Changing a row leaves alone what the change keeps. -/
theorem map_getElem?_modify {α β : Type} (table : Array α) (i j : Nat) {change : α → α} {view : α → β}
    (hkeep : ∀ a, view (change a) = view a) :
    (table.modify i change)[j]?.map view = table[j]?.map view := by
  rw [Array.getElem?_modify]
  split
  · rw [Option.map_map]
    exact congrArg (Option.map · table[j]?) (funext hkeep)
  · rfl

theorem getElem?_concat {α : Type} (xs : List α) (a : α) (k : Nat) :
    (xs ++ [a])[k]? = if k = xs.length then some a else xs[k]? := by
  split
  · rename_i hk
    rw [hk, List.getElem?_concat_length]
  · rename_i hk
    rcases Nat.lt_or_gt_of_ne hk with hlt | hgt
    · exact List.getElem?_append_left hlt
    · rw [List.getElem?_eq_none (by simp; omega), List.getElem?_eq_none (by omega)]

/-! ## Repetitions -/

/-- No element is left twice. -/
theorem nodup_eraseDups {α : Type} [BEq α] [LawfulBEq α] : ∀ xs : List α, xs.eraseDups.Nodup
  | [] => List.nodup_nil
  | a :: xs => by
      have hshorter : (xs.filter fun b => !b == a).length < xs.length + 1 :=
        Nat.lt_succ_of_le (List.length_filter_le _ _)
      rw [List.eraseDups_cons, List.nodup_cons, List.mem_eraseDups, List.mem_filter]
      refine ⟨?_, nodup_eraseDups _⟩
      rintro ⟨-, hne⟩
      simp at hne
termination_by xs => xs.length

/-- One more element is left at the end, if it is new. -/
theorem eraseDups_concat {α : Type} [BEq α] [LawfulBEq α] (xs : List α) (a : α) :
    (xs ++ [a]).eraseDups = if a ∈ xs.eraseDups then xs.eraseDups else xs.eraseDups ++ [a] := by
  rw [List.eraseDups_append]
  by_cases ha : a ∈ xs
  · simp [List.removeAll, ha]
  · simp [List.removeAll, ha, List.eraseDups_cons]

/-! ## Keys -/

/-- Looking for a key that no other entry has finds its entry. -/
theorem find?_key_of_nodup {α β : Type} [BEq β] [LawfulBEq β] {key : α → β} {entries : List α}
    (hnodup : (entries.map key).Nodup) {a : α} (ha : a ∈ entries) :
    entries.find? (key · == key a) = some a := by
  cases hfind : entries.find? (key · == key a) with
  | none =>
      have hnot := List.find?_eq_none.mp hfind a ha
      simp at hnot
  | some b =>
      have hkey : key b = key a := by simpa using List.find?_some hfind
      rw [List.inj_on_of_nodup_map hnodup (List.mem_of_find?_eq_some hfind) ha hkey]

section Keyed

variable {α β : Type} [Ord β]

/-- The index leads from a key to the row that has it, and to no other. -/
def Keyed (key : α → β) (table : Array α) (index : Std.TreeMap β Nat) : Prop :=
  ∀ (k : β) (i : Nat), index[k]? = some i ↔ table[i]?.map key = some k

namespace Keyed

variable {key : α → β} {table : Array α} {index : Std.TreeMap β Nat}

theorem empty [Std.TransOrd β] : Keyed key #[] {} := by
  intro k i
  simp

/-- A row with a new key may join. -/
theorem push [Std.TransOrd β] [Std.LawfulEqOrd β] (h : Keyed key table index) {a : α}
    (hnew : index[key a]? = none) :
    Keyed key (table.push a) (index.insert (key a) table.size) := by
  intro k i
  have hcompare : compare (key a) k = .eq ↔ key a = k := Std.compare_eq_iff_eq
  rw [Std.TreeMap.getElem?_insert, Array.getElem?_push]
  by_cases hi : i = table.size
  · -- no old key leads behind the end
    have hend : index[k]? ≠ some table.size := by
      rw [Ne, h k table.size, Array.getElem?_eq_none (Nat.le_refl _)]
      exact nofun
    rw [if_pos hi, Option.map_some, Option.some.injEq]
    by_cases hk : key a = k
    · rw [if_pos (hcompare.mpr hk)]
      exact iff_of_true (congrArg some hi.symm) hk
    · rw [if_neg (mt hcompare.mp hk)]
      exact iff_of_false (hi ▸ hend) hk
  · rw [if_neg hi, ← h k i]
    by_cases hk : key a = k
    · rw [if_pos (hcompare.mpr hk), ← hk, hnew]
      exact iff_of_false (fun heq => hi (Option.some.inj heq).symm) nofun
    · rw [if_neg (mt hcompare.mp hk)]

/-- A row may change in all but its key. -/
theorem modify (h : Keyed key table index) (i : Nat) (change : α → α)
    (hkeep : ∀ a, key (change a) = key a) : Keyed key (table.modify i change) index := by
  intro k j
  rw [map_getElem?_modify table i j hkeep]
  exact h k j

theorem getElem?_eq_some (h : Keyed key table index) {k : β} {i : Nat} :
    index[k]? = some i ↔ ∃ a, table[i]? = some a ∧ key a = k :=
  (h k i).trans Option.map_eq_some_iff

theorem lt (h : Keyed key table index) {k : β} {i : Nat} (hi : index[k]? = some i) :
    i < table.size := by
  obtain ⟨a, ha, -⟩ := h.getElem?_eq_some.mp hi
  exact (Array.getElem?_eq_some_iff.mp ha).1

/-- No two rows have the same key. -/
theorem injective (h : Keyed key table index) {i j : Nat} {a b : α} (hi : table[i]? = some a)
    (hj : table[j]? = some b) (heq : key a = key b) : i = j := by
  have hi' := h.getElem?_eq_some.mpr ⟨a, hi, heq⟩
  rw [h.getElem?_eq_some.mpr ⟨b, hj, rfl⟩] at hi'
  exact (Option.some.inj hi').symm

theorem mem_map_iff (h : Keyed key table index) {k : β} :
    k ∈ table.toList.map key ↔ ∃ i, index[k]? = some i := by
  rw [List.mem_iff_getElem?]
  refine exists_congr fun i => ?_
  rw [List.getElem?_map, Array.getElem?_toList]
  exact (h k i).symm

theorem nodup_map (h : Keyed key table index) : (table.toList.map key).Nodup := by
  rw [List.nodup_iff_getElem?_ne_getElem?]
  intro i j hlt hj heq
  rw [List.length_map, Array.length_toList] at hj
  rw [List.getElem?_map, List.getElem?_map, Array.getElem?_toList, Array.getElem?_toList,
    Array.getElem?_eq_getElem (Nat.lt_trans hlt hj), Array.getElem?_eq_getElem hj] at heq
  have hsame := h.injective (Array.getElem?_eq_getElem (Nat.lt_trans hlt hj))
    (Array.getElem?_eq_getElem hj) (Option.some.inj heq)
  exact Nat.ne_of_lt hlt hsame

end Keyed

end Keyed

end ControlFlow
