import ControlFlow.Proofs.Guarded.Reachability

/-!
# The shape of a path

    A path is asked for with two blocks and comes as a list, the target first.  It is
    empty where the one block does not reach the other.  Otherwise it leads back from
    the target to the source, along edges and without a detour (`IsPath`).

    That it follows edges between the right ends is known from walks
    (`Reachability.walk_path`).  That no block comes twice is a matter of the trail:
    what a block was found from was found before it, so that going back never returns
    to a block left behind (`Trail.nodup_retrace`).
-/

namespace ControlFlow

/-! ## Lists of walks -/

namespace Walk

variable {next : NodeId → NodeId → Prop} {u w : NodeId} {visited : List NodeId}

theorem head?_eq (h : Walk next u visited w) : visited.head? = some u := by
  cases h with
  | here => rfl
  | step => rfl

theorem getLast?_eq (h : Walk next u visited w) : visited.getLast? = some w := by
  rcases h.last_step with ⟨-, rfl⟩ | ⟨before, v, -, -, rfl⟩
  · rfl
  · exact List.getLast?_concat

/-- Neighbours on a walk are steps. -/
theorem isChain (h : Walk next u visited w) : visited.IsChain next := by
  induction h with
  | here v => exact List.isChain_singleton v
  | @step u v w visited huv hrest ih =>
      refine List.isChain_cons.mpr ⟨fun x hx => ?_, ih⟩
      rw [hrest.head?_eq] at hx
      exact Option.some.inj hx ▸ huv

end Walk

namespace Reachability

/-! ## No block twice -/

section Trails

variable {next : NodeId → NodeId → Prop} {source block x : NodeId} {trail : List (NodeId × NodeId)}

/-- Going back passes only through blocks that were found. -/
theorem Trail.mem_of_mem_retrace (h : Trail next source trail)
    (hblock : block ∈ source :: trail.map Prod.fst) (hx : x ∈ retrace block trail) :
    x ∈ source :: trail.map Prod.fst := by
  induction h generalizing block with
  | nil =>
      rw [List.mem_singleton.mp hx]
      exact hblock
  | @cons found via trail _ hvia _ _ ih =>
      rw [retrace] at hx
      split at hx
      · rcases List.mem_cons.mp hx with rfl | hrest
        · exact hblock
        · exact found_cons (ih hvia hrest)
      · rename_i hne
        exact found_cons (ih (found_of_ne hblock hne) hx)

/-- Going back never comes to a block a second time. -/
theorem Trail.nodup_retrace (h : Trail next source trail)
    (hblock : block ∈ source :: trail.map Prod.fst) : (retrace block trail).Nodup := by
  induction h generalizing block with
  | nil => exact List.nodup_singleton block
  | @cons found via trail before hvia _ hnew ih =>
      rw [retrace]
      split
      · rename_i heq
        subst heq
        -- the block is new, and going back from where it was found stays with older ones
        exact List.nodup_cons.mpr ⟨fun hmem => hnew (before.mem_of_mem_retrace hvia hmem), ih hvia⟩
      · rename_i hne
        exact ih (found_of_ne hblock hne)

end Trails

/-! ## Paths -/

/-- A list of blocks that leads back from the target to the source: each is a successor
    of the next one, and none comes twice. -/
structure IsPath (f : Procedure) (source target : NodeId) (path : List NodeId) : Prop where
  head : path.head? = some target
  last : path.getLast? = some source
  nodup : path.Nodup
  steps : path.IsChain fun later earlier => later ∈ f.successors earlier

variable {f : Procedure} {source target : NodeId} {path : List NodeId}

theorem IsPath.ne_nil (h : IsPath f source target path) : path ≠ [] := by
  rintro rfl
  exact Option.some_ne_none target h.head.symm

/-- From a block to itself there is no way but to stay. -/
theorem IsPath.eq_singleton (h : IsPath f source source path) : path = [source] := by
  obtain ⟨rest, rfl⟩ := List.head?_eq_some_iff.mp h.head
  cases rest with
  | nil => rfl
  | cons b rest =>
      have hlast := h.last
      rw [List.getLast?_cons_cons] at hlast
      exact absurd (List.mem_of_getLast? hlast) (List.nodup_cons.mp h.nodup).1

/-- The path found between blocks is one. -/
theorem isPath_path (hf : f.Built) (h : (of f).reaches source target = true) :
    IsPath f source target ((of f).path source target) := by
  have hwalk := walk_path hf h
  obtain ⟨hsource, hreach⟩ := (reaches_iff hf).mp h
  obtain ⟨htrail, htarget⟩ :=
    (Searching.start (of f) source target).run (reaches_leads hf hsource hreach)
  refine ⟨?_, ?_, ?_, ?_⟩
  · rw [← List.getLast?_reverse]
    exact hwalk.getLast?_eq
  · rw [← List.head?_reverse]
    exact hwalk.head?_eq
  · rw [path, if_pos h]
    exact htrail.nodup_retrace htarget
  · exact List.isChain_reverse.mp hwalk.isChain

/-- A path is empty exactly where the one block does not reach the other.  Otherwise it
    leads back from the target to the source, along edges and to no block twice, and from
    a block to itself it is that block.  Looked up in tables of parents and distances the
    path is the same: the search does find the target, and each block but the source has
    a parent, so that the way back is never given up. -/
theorem path_eq_nil_iff_and_isPath (hf : f.Built) (source target : NodeId) :
    ((of f).path source target = [] ↔ (of f).reaches source target = false) ∧
      ((of f).reaches source target = true →
        IsPath f source target ((of f).path source target) ∧
          (source = target → (of f).path source target = [source])) ∧
      Guarded.path (of f) source target = pure ((of f).path source target) := by
  refine ⟨?_, fun h => ⟨isPath_path hf h, ?_⟩, Guarded.path_eq hf source target⟩
  · constructor
    · intro hempty
      rw [← Bool.not_eq_true]
      exact fun h => (isPath_path hf h).ne_nil hempty
    · intro hnot
      rw [path, if_neg (Bool.not_eq_true _ ▸ hnot)]
  · rintro rfl
    exact (isPath_path hf h).eq_singleton

/-- The way back through the loop to the entry passes the block behind it, and the block
    that is not reached has no path even to itself. -/
theorem path_twoEntryLoop :
    Procedure.twoEntryLoop.Built ∧ (of .twoEntryLoop).path 1 0 = [0, 3, 2, 1] ∧
      IsPath .twoEntryLoop 1 0 [0, 3, 2, 1] ∧ (of .twoEntryLoop).path 4 4 = [] := by
  have hshape := path_eq_nil_iff_and_isPath Procedure.built_twoEntryLoop
  have hback : (of .twoEntryLoop).reaches 1 0 = true := by decide +kernel
  have hout : (of .twoEntryLoop).reaches 4 4 = false := by decide +kernel
  have hpath : (of .twoEntryLoop).path 1 0 = [0, 3, 2, 1] := by decide +kernel
  refine ⟨Procedure.built_twoEntryLoop, hpath, ?_, (hshape 4 4).1.mpr hout⟩
  exact hpath ▸ ((hshape 1 0).2.1 hback).1

end Reachability

end ControlFlow
