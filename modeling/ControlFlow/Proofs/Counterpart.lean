import ControlFlow.Counterpart
import ControlFlow.Proofs.Links
import ControlFlow.Proofs.Places
import Mathlib.Data.List.MinMax

/-!
# Which operand is the counterpart

    The counterpart of an operand is the best match among candidates: of the same
    role, in a block that corresponds to its own as near as possible, otherwise the
    first.  Two results say what that comes to.

    Without a version the candidates are the operands that mention the same value,
    and the counterpart is optimal among all of them (`Suits`, `Apart`).  Looked for
    in the procedure itself, an operand is its own candidate at distance zero, by
    whichever of the four ways the search goes, so what is found has its role and its
    place.
-/

namespace ControlFlow

/-! ## The first of the least -/

theorem firstLeast_eq_argmin {α : Type} (measure : α → Nat) (xs : List α) :
    firstLeast measure xs = xs.argmin measure := by
  cases xs with
  | nil => rfl
  | cons a rest =>
      show some (rest.foldl _ a) = rest.foldl _ (some a)
      induction rest generalizing a with
      | nil => rfl
      | cons b rest ih =>
          rw [List.foldl_cons, List.foldl_cons, ih]
          congr 1
          exact apply_ite some (measure b < measure a) b a

/-- In an ascending list the places of elements compare as the elements do. -/
theorem idxOf_le_idxOf_iff {xs : List Nat} (hsorted : xs.Pairwise (· < ·)) {a b : Nat} (ha : a ∈ xs)
    (hb : b ∈ xs) : xs.idxOf a ≤ xs.idxOf b ↔ a ≤ b := by
  have hlt : ∀ {c d : Nat}, c ∈ xs → d ∈ xs → xs.idxOf c < xs.idxOf d → c < d := by
    intro c d hc hd hcd
    have h := List.pairwise_iff_getElem.mp hsorted (xs.idxOf c) (xs.idxOf d)
      (List.idxOf_lt_length_of_mem hc) (List.idxOf_lt_length_of_mem hd) hcd
    rwa [List.getElem_idxOf, List.getElem_idxOf] at h
  constructor
  · intro hle
    rcases Nat.lt_or_eq_of_le hle with h | h
    · exact Nat.le_of_lt (hlt ha hb h)
    · exact Nat.le_of_eq ((List.idxOf_inj ha).mp h)
  · intro hle
    refine Nat.le_of_not_lt fun h => ?_
    exact Nat.not_lt_of_le hle (hlt hb ha h)

/-- Of an ascending list the lowest of the least is taken. -/
theorem firstLeast_eq_some_iff {measure : Nat → Nat} {xs : List Nat}
    (hsorted : xs.Pairwise (· < ·)) {a : Nat} :
    firstLeast measure xs = some a ↔
      a ∈ xs ∧ ∀ b ∈ xs, measure a < measure b ∨ measure a = measure b ∧ a ≤ b := by
  rw [firstLeast_eq_argmin, List.argmin_eq_some_iff]
  refine and_congr_right fun ha => ⟨fun h b hb => ?_, fun h => ⟨fun b hb => ?_, fun b hb hle => ?_⟩⟩
  · rcases Nat.lt_or_eq_of_le (h.1 b hb) with hlt | heq
    · exact .inl hlt
    · exact .inr ⟨heq, (idxOf_le_idxOf_iff hsorted ha hb).mp (h.2 b hb (Nat.le_of_eq heq.symm))⟩
  · rcases h b hb with hlt | ⟨heq, -⟩
    · exact Nat.le_of_lt hlt
    · exact Nat.le_of_eq heq
  · rcases h b hb with hlt | ⟨-, hab⟩
    · exact absurd hle (Nat.not_le_of_lt hlt)
    · exact (idxOf_le_idxOf_iff hsorted ha hb).mpr hab

theorem head?_eq_some_iff_of_sorted {xs : List Nat} (hsorted : xs.Pairwise (· < ·)) {a : Nat} :
    xs.head? = some a ↔ a ∈ xs ∧ ∀ b ∈ xs, a ≤ b := by
  cases xs with
  | nil => simp
  | cons c rest =>
      obtain ⟨hc, -⟩ := List.pairwise_cons.mp hsorted
      rw [List.head?_cons, Option.some.injEq]
      constructor
      · rintro rfl
        refine ⟨List.mem_cons_self, fun b hb => ?_⟩
        rcases List.mem_cons.mp hb with rfl | hb
        · exact Nat.le_refl _
        · exact Nat.le_of_lt (hc b hb)
      · rintro ⟨ha, hleast⟩
        rcases List.mem_cons.mp ha with rfl | ha
        · rfl
        · exact absurd (hc a ha) (Nat.not_lt_of_le (hleast c List.mem_cons_self))

/-! ## Corresponding blocks and values -/

theorem Block.correspondsTo_iff {b c : Block} :
    b.correspondsTo c = true ↔
      b.number = c.number ∨ ∃ label, b.label = some label ∧ c.label = some label := by
  rw [Block.correspondsTo, Bool.or_eq_true, Bool.and_eq_true, beq_iff_eq, beq_iff_eq,
    Option.isSome_iff_exists]
  refine or_congr_right ⟨?_, ?_⟩
  · rintro ⟨⟨label, hb⟩, heq⟩
    exact ⟨label, hb, heq ▸ hb⟩
  · rintro ⟨label, hb, hc⟩
    exact ⟨⟨label, hb⟩, hb.trans hc.symm⟩

theorem Block.correspondsTo_symm {b c : Block} (h : b.correspondsTo c = true) :
    c.correspondsTo b = true := by
  rw [correspondsTo_iff] at h ⊢
  refine h.imp Eq.symm ?_
  rintro ⟨label, hb, hc⟩
  exact ⟨label, hc, hb⟩

theorem Operand.sameValueAs_iff {q o : Operand} :
    q.sameValueAs o = true ↔
      q.name = o.name ∧ ∀ t u, q.type = some t → o.type = some u → t = u := by
  rw [Operand.sameValueAs, Bool.and_eq_true, beq_iff_eq]
  refine and_congr_right fun _ => ?_
  cases q.type with
  | none => simp
  | some t => cases o.type with
    | none => simp
    | some u => simp

theorem gap_eq_zero_iff {a b : Nat} : gap a b = 0 ↔ a = b := by
  rw [gap]
  omega

namespace Procedure

variable {f g : Procedure} {e p : OperandId} {o q : Operand} {i : Instruction} {b : Block}

theorem Lies.placeOf_eq (h : f.Lies p i b) : f.placeOf p = i.index := by
  rw [placeOf, h.instr, Option.map_some, Option.getD_some]

/-- An operand `p` of `f` lies `n` places away from an operand `e` of `g`, in a block
    that corresponds to its block. -/
def Apart (f g : Procedure) (e p : OperandId) (n : Nat) : Prop :=
  ∃ i b j c, g.Lies e i b ∧ f.Lies p j c ∧ b.correspondsTo c = true ∧ gap i.index j.index = n

/-- How far the places of two operands are apart, whatever their blocks. -/
def distance (f g : Procedure) (e p : OperandId) : Nat :=
  gap (g.placeOf e) (f.placeOf p)

theorem apart_iff {n : Nat} :
    f.Apart g e p n ↔ f.sharesBlock g e p = true ∧ f.distance g e p = n := by
  constructor
  · rintro ⟨i, b, j, c, he, hp, hblocks, rfl⟩
    have hb := blockOf?_eq_some.mpr ⟨i, he⟩
    have hc := blockOf?_eq_some.mpr ⟨j, hp⟩
    rw [sharesBlock, hb, hc, distance, he.placeOf_eq, hp.placeOf_eq]
    exact ⟨hblocks, rfl⟩
  · rintro ⟨hshares, rfl⟩
    rw [sharesBlock] at hshares
    split at hshares
    · rename_i b c hb hc
      obtain ⟨i, he⟩ := blockOf?_eq_some.mp hb
      obtain ⟨j, hp⟩ := blockOf?_eq_some.mp hc
      exact ⟨i, b, j, c, he, hp, hshares, by rw [distance, he.placeOf_eq, hp.placeOf_eq]⟩
    · exact absurd hshares Bool.false_ne_true

theorem Apart.distance_eq {n : Nat} (h : f.Apart g e p n) : f.distance g e p = n :=
  (apart_iff.mp h).2

/-! ## The best match -/

/-- The candidates with the role of an operand. -/
def peers (f : Procedure) (o : Operand) (candidates : List OperandId) : List OperandId :=
  candidates.filter fun c => (f.operand? c).any (·.role == o.role)

theorem mem_peers {candidates : List OperandId} :
    p ∈ f.peers o candidates ↔
      p ∈ candidates ∧ ∃ q, f.operand? p = some q ∧ q.role = o.role := by
  rw [peers, List.mem_filter, Option.any_eq_true]
  simp only [beq_iff_eq]

/-- Those of them in a block that corresponds to the one of an operand of `g`. -/
def neighbours (f g : Procedure) (o : Operand) (candidates : List OperandId) : List OperandId :=
  (f.peers o candidates).filter (f.sharesBlock g o.id)

theorem mem_neighbours {candidates : List OperandId} :
    p ∈ f.neighbours g o candidates ↔
      p ∈ f.peers o candidates ∧ f.Apart g o.id p (f.distance g o.id p) := by
  rw [neighbours, List.mem_filter, apart_iff, and_iff_left rfl]

theorem bestMatch_eq (f g : Procedure) (o : Operand) (candidates : List OperandId) :
    f.bestMatch g o candidates =
      (firstLeast (f.distance g o.id) (f.neighbours g o candidates)).or
        (f.peers o candidates).head? := rfl

/-- A neighbour among the candidates is matched by one that is no farther away. -/
theorem exists_bestMatch_of_neighbour {candidates : List OperandId} {n : Nat}
    (he : e ∈ f.peers o candidates) (hapart : f.Apart g o.id e n) :
    ∃ p m, f.bestMatch g o candidates = some p ∧ p ∈ f.peers o candidates ∧
      f.Apart g o.id p m ∧ m ≤ n := by
  obtain rfl := hapart.distance_eq
  have hmem : e ∈ f.neighbours g o candidates := mem_neighbours.mpr ⟨he, hapart⟩
  rw [bestMatch_eq, firstLeast_eq_argmin]
  cases hleast : (f.neighbours g o candidates).argmin (f.distance g o.id) with
  | none =>
      rw [List.argmin_eq_none.mp hleast] at hmem
      exact absurd hmem List.not_mem_nil
  | some p =>
      obtain ⟨hpeer, hnear⟩ := mem_neighbours.mp (List.argmin_mem hleast)
      exact ⟨p, _, rfl, hpeer, hnear, List.le_of_mem_argmin hmem hleast⟩

theorem bestMatch_eq_none_iff {candidates : List OperandId} :
    f.bestMatch g o candidates = none ↔ f.peers o candidates = [] := by
  rw [bestMatch_eq, Option.or_eq_none_iff, List.head?_eq_none_iff, and_iff_right_iff_imp]
  intro hnone
  rw [neighbours, hnone]
  rfl

/-- Among candidates in ascending order the match is the lowest of the nearest
    neighbours, or without neighbours the lowest with the role. -/
theorem bestMatch_eq_some_iff {candidates : List OperandId}
    (hsorted : candidates.Pairwise (· < ·)) :
    f.bestMatch g o candidates = some p ↔
      p ∈ f.peers o candidates ∧
        ((∃ n, f.Apart g o.id p n ∧ ∀ r ∈ f.peers o candidates, ∀ m, f.Apart g o.id r m →
          n < m ∨ n = m ∧ p ≤ r) ∨
        (∀ r ∈ f.peers o candidates, ∀ m, ¬ f.Apart g o.id r m) ∧
          ∀ r ∈ f.peers o candidates, p ≤ r) := by
  have hpeers : (f.peers o candidates).Pairwise (· < ·) := hsorted.filter _
  have hneighbours : (f.neighbours g o candidates).Pairwise (· < ·) := hpeers.filter _
  rw [bestMatch_eq, Option.or_eq_some_iff, firstLeast_eq_some_iff hneighbours,
    head?_eq_some_iff_of_sorted hpeers, firstLeast_eq_argmin, List.argmin_eq_none]
  constructor
  · rintro (⟨hp, hleast⟩ | ⟨hnone, hp, hleast⟩)
    · obtain ⟨hpeer, hapart⟩ := mem_neighbours.mp hp
      refine ⟨hpeer, .inl ⟨_, hapart, fun r hr m hm => ?_⟩⟩
      obtain rfl := hm.distance_eq
      exact hleast r (mem_neighbours.mpr ⟨hr, hm⟩)
    · refine ⟨hp, .inr ⟨fun r hr m hm => ?_, hleast⟩⟩
      obtain rfl := hm.distance_eq
      have hnear : r ∈ f.neighbours g o candidates := mem_neighbours.mpr ⟨hr, hm⟩
      rw [hnone] at hnear
      exact List.not_mem_nil hnear
  · rintro ⟨hp, ⟨n, hapart, hleast⟩ | ⟨hnone, hleast⟩⟩
    · obtain rfl := hapart.distance_eq
      refine .inl ⟨mem_neighbours.mpr ⟨hp, hapart⟩, fun r hr => ?_⟩
      obtain ⟨hpeer, hm⟩ := mem_neighbours.mp hr
      exact hleast r hpeer _ hm
    · refine .inr ⟨List.eq_nil_iff_forall_not_mem.mpr fun r hr => ?_, hp, hleast⟩
      obtain ⟨hpeer, hm⟩ := mem_neighbours.mp hr
      exact hnone r hpeer _ hm

/-! ## Counterparts by name -/

/-- An operand of `f` can stand for the value of an operand of another version: they
    have the same name and role, and their types do not conflict. -/
def Suits (f : Procedure) (o : Operand) (p : OperandId) : Prop :=
  ∃ q, f.operand? p = some q ∧ q.name = o.name ∧ q.role = o.role ∧
    ∀ t u, q.type = some t → o.type = some u → t = u

theorem mem_peers_sameValue :
    p ∈ f.peers o (f.operandsWith (·.sameValueAs o)) ↔ f.Suits o p := by
  rw [mem_peers, mem_operandsWith]
  constructor
  · rintro ⟨⟨q, hq, hsame⟩, q', hq', hrole⟩
    obtain rfl : q = q' := Option.some.inj (hq.symm.trans hq')
    obtain ⟨hname, htype⟩ := Operand.sameValueAs_iff.mp hsame
    exact ⟨q, hq, hname, hrole, htype⟩
  · rintro ⟨q, hq, hname, hrole, htype⟩
    exact ⟨⟨q, hq, Operand.sameValueAs_iff.mpr ⟨hname, htype⟩⟩, q, hq, hrole⟩

theorem Built.counterpartByName?_eq (hf : f.Built) (g : Procedure) (o : Operand) :
    f.counterpartByName? g o = f.bestMatch g o (f.operandsWith (·.sameValueAs o)) := by
  rw [counterpartByName?, hf.map_id_filter]

theorem counterpart?_of_version?_none (ho : g.operand? e = some o) (hnone : g.version? e = none)
    (onlyVersion : Bool) : f.counterpart? g e onlyVersion = f.counterpartByName? g o := by
  rw [counterpart?, ho, Option.bind_some, hnone]

/-- Where no version is known, names decide whatever is asked for: there is a
    counterpart if any operand suits, and it is the lowest of the nearest in
    corresponding blocks, or if none lies in such a block the lowest of all. -/
theorem counterpart?_nearest_or_lowest (hf : f.Built) (hg : g.Built) (ho : g.operand? e = some o)
    (hnone : g.version? e = none) (onlyVersion : Bool) :
    f.counterpart? g e onlyVersion = f.counterpart? g e (!onlyVersion) ∧
    (f.counterpart? g e onlyVersion = none ↔ ∀ p, ¬ f.Suits o p) ∧
    ∀ p, f.counterpart? g e onlyVersion = some p ↔
      f.Suits o p ∧
        ((∃ n, f.Apart g e p n ∧
          ∀ r, f.Suits o r → ∀ m, f.Apart g e r m → n < m ∨ n = m ∧ p ≤ r) ∨
        (∀ r, f.Suits o r → ∀ m, ¬ f.Apart g e r m) ∧ ∀ r, f.Suits o r → p ≤ r) := by
  have hid : o.id = e := hg.operand_id ho
  rw [counterpart?_of_version?_none ho hnone, counterpart?_of_version?_none ho hnone,
    hf.counterpartByName?_eq]
  refine ⟨rfl, ?_, fun p => ?_⟩
  · rw [bestMatch_eq_none_iff, List.eq_nil_iff_forall_not_mem]
    exact forall_congr' fun p => not_congr mem_peers_sameValue
  · rw [bestMatch_eq_some_iff (f.pairwise_operandsWith _), hid]
    simp only [mem_peers_sameValue]

/-- Two blocks with one label, the second with two uses of `x`. -/
def twinBlocks.steps : List Draft.Step :=
  [.block 0, .block 1, .block 2, .label 1 "body", .label 2 "body", .instr 0 "mov" false,
    .operand 0 .var .destination "x", .instr 1 "add" false, .operand 1 .var .source "x",
    .instr 2 "add" false, .operand 2 .var .source "x", .instr 2 "ret" false,
    .operand 3 .var .source "x", .define 0 1, .use 1 0, .use 2 0, .use 3 0]

def twinBlocks : Procedure :=
  (Draft.start "twin blocks").run twinBlocks.steps

theorem built_twinBlocks : twinBlocks.Built :=
  built_run (by decide +kernel) (by decide +kernel)

/-- Another version with that label, where `x` is used second. -/
def soleBlock.steps : List Draft.Step :=
  [.block 7, .label 0 "body", .instr 0 "nop" false, .instr 0 "ret" false,
    .operand 1 .var .source "x"]

def soleBlock : Procedure :=
  (Draft.start "sole block").run soleBlock.steps

theorem built_soleBlock : soleBlock.Built :=
  built_run (by decide +kernel) (by decide +kernel)

/-- Three uses lie in corresponding blocks; the last one is at the very place. -/
theorem counterpart?_soleBlock_twinBlocks :
    twinBlocks.Built ∧ soleBlock.Built ∧ soleBlock.version? 0 = none ∧
      twinBlocks.counterpart? soleBlock 0 true = twinBlocks.counterpart? soleBlock 0 false ∧
      twinBlocks.counterpart? soleBlock 0 true = some 3 ∧
      ∃ n, twinBlocks.Apart soleBlock 0 3 n ∧
        ∀ r, twinBlocks.Suits ⟨0, .var, .source, "x", none, 1⟩ r →
          ∀ m, twinBlocks.Apart soleBlock 0 r m → n < m ∨ n = m ∧ 3 ≤ r := by
  have hx : soleBlock.operand? 0 = some ⟨0, .var, .source, "x", none, 1⟩ := by decide +kernel
  have hnone : soleBlock.version? 0 = none := by decide +kernel
  have hthree : twinBlocks.counterpart? soleBlock 0 true = some 3 := by decide +kernel
  have hshares : twinBlocks.sharesBlock soleBlock 0 3 = true := by decide +kernel
  obtain ⟨hboth, -, hsome⟩ :=
    counterpart?_nearest_or_lowest built_twinBlocks built_soleBlock hx hnone true
  refine ⟨built_twinBlocks, built_soleBlock, hnone, hboth, hthree, ?_⟩
  obtain ⟨hsuits, hnearest | ⟨hnone, -⟩⟩ := (hsome 3).mp hthree
  · exact hnearest
  · exact absurd (apart_iff.mpr ⟨hshares, rfl⟩) (hnone 3 hsuits _)

/-! ## Counterparts in the procedure itself -/

/-- No two definitions have the same version. -/
def VersionsDistinct (f : Procedure) : Prop :=
  (f.ssa.toList.map (·.2.version)).Nodup

instance (f : Procedure) : Decidable f.VersionsDistinct :=
  inferInstanceAs (Decidable (List.Nodup _))

/-- No two blocks have the same label. -/
def LabelsDistinct (f : Procedure) : Prop :=
  (f.blocks.toList.filterMap (·.label)).Nodup

theorem VersionsDistinct.definitionOfVersion?_eq (h : f.VersionsDistinct) {d : OperandId}
    {found : Ssa.Definition} (hd : f.ssa.definition? d = some found) :
    f.definitionOfVersion? found.version = some d := by
  have hmem : (d, found) ∈ f.ssa.toList := Std.TreeMap.mem_toList_iff_getElem?_eq_some.mpr hd
  exact congrArg (Option.map Prod.fst) (find?_key_of_nodup h hmem)

/-- Blocks that correspond are the same if no label is shared. -/
theorem LabelsDistinct.eq_of_correspondsTo (h : f.LabelsDistinct) (hf : f.Built) {m n : NodeId}
    {b c : Block} (hb : f.block? m = some b) (hc : f.block? n = some c)
    (hblocks : b.correspondsTo c = true) : m = n := by
  rcases Block.correspondsTo_iff.mp hblocks with hnumber | ⟨label, hlabel, hlabel'⟩
  · exact hf.coherent.numbered.number.injective hb hc hnumber
  · have hdiffer : ∀ {m n : NodeId} {b c : Block}, f.block? m = some b → f.block? n = some c →
        b.label = some label → c.label = some label → ¬ m < n := by
      intro m n b c hb hc hlabel hlabel' hlt
      obtain ⟨hm, rfl⟩ := Array.getElem?_eq_some_iff.mp hb
      obtain ⟨hn, rfl⟩ := Array.getElem?_eq_some_iff.mp hc
      have hpairs := List.pairwise_iff_getElem.mp (List.pairwise_filterMap.mp h) m n
        (by simpa using hm) (by simpa using hn) hlt
      exact hpairs label (by simpa using hlabel) label (by simpa using hlabel') rfl
    rcases Nat.lt_trichotomy m n with hlt | heq | hgt
    · exact absurd hlt (hdiffer hb hc hlabel hlabel')
    · exact heq
    · exact absurd hgt (hdiffer hc hb hlabel' hlabel)

/-- An operand that is no indirection is at the end of its chain. -/
theorem definitionOf?_of_direct (ho : f.operand? e = some o) (hdirect : o.kind.base? = none) :
    f.definitionOf? e = f.ssa.definitionOf? e := by
  rw [definitionOf?, base?, baseWithin, ho, Option.bind_some, hdirect, Option.bind_some]

theorem version?_of_direct (ho : f.operand? e = some o) (hdirect : o.kind.base? = none) :
    f.version? e = f.ssa.version? e := by
  rw [version?, definitionOf?_of_direct ho hdirect, Ssa.version?]

/-- An operand lies at its own place. -/
theorem Built.apart_self (hf : f.Built) (ho : f.operand? e = some o) : f.Apart f e e 0 := by
  obtain ⟨i, b, hlies, -⟩ := hf.exists_lies ho
  exact ⟨i, b, i, b, hlies, hlies, Block.correspondsTo_iff.mpr (.inl rfl), gap_eq_zero_iff.mpr rfl⟩

/-- An operand has the role of another and lies at its place, in a block that
    corresponds to its block. -/
def Echoes (f : Procedure) (e : OperandId) (o : Operand) (p : OperandId) : Prop :=
  (∃ q, f.operand? p = some q ∧ q.role = o.role) ∧ f.Apart f e p 0

/-- Among candidates that hold the operand itself, an echo of it is the best match. -/
theorem Built.bestMatch_echoes (hf : f.Built) (ho : f.operand? e = some o)
    {candidates : List OperandId} (he : e ∈ candidates) :
    ∃ p, f.bestMatch f o candidates = some p ∧ f.Echoes e o p := by
  have hid : o.id = e := hf.operand_id ho
  have hself : f.Apart f o.id e 0 := hid.symm ▸ hf.apart_self ho
  obtain ⟨p, m, hmatch, hpeer, hapart, hle⟩ :=
    exists_bestMatch_of_neighbour (mem_peers.mpr ⟨he, o, ho, rfl⟩) hself
  rw [Nat.le_zero.mp hle, hid] at hapart
  exact ⟨p, hmatch, (mem_peers.mp hpeer).2, hapart⟩

theorem Built.counterpartByName?_echoes (hf : f.Built) (ho : f.operand? e = some o) :
    ∃ p, f.counterpartByName? f o = some p ∧ f.Echoes e o p := by
  rw [hf.counterpartByName?_eq]
  refine hf.bestMatch_echoes ho (mem_operandsWith.mpr ⟨o, ho, ?_⟩)
  exact Operand.sameValueAs_iff.mpr ⟨rfl, fun t u ht hu => Option.some.inj (ht.symm.trans hu)⟩

/-- A definition of a version that no other defines is its own counterpart. -/
theorem Built.counterpart?_of_definition (hf : f.Built) (hdistinct : f.VersionsDistinct)
    (ho : f.operand? e = some o) (hdirect : o.kind.base? = none) {found : Ssa.Definition}
    (hfound : f.ssa.definition? e = some found) : f.counterpart? f e false = some e := by
  have hversion : f.version? e = some found.version := by
    rw [version?_of_direct ho hdirect, Ssa.version?, Ssa.definitionOf?, hfound]
    simp [hfound]
  have hfind : f.counterpartByVersion? f o found.version = some e := by
    rw [counterpartByVersion?, hdistinct.definitionOfVersion?_eq hfound, Option.bind_some, ho,
      hf.operand_id ho, hfound]
    simp
  rw [counterpart?, ho, Option.bind_some, hversion]
  simp only [hfind]

/-- A use is echoed among the users of its definition if that has its name, otherwise
    by name. -/
theorem Built.counterpart?_of_use (hf : f.Built) (hdistinct : f.VersionsDistinct)
    (ho : f.operand? e = some o) (hdirect : o.kind.base? = none)
    (hnone : f.ssa.definition? e = none) {d : OperandId}
    (huse : f.ssa.definingOperand? e = some d) :
    ∃ p, f.counterpart? f e false = some p ∧ f.Echoes e o p := by
  obtain ⟨found, hfound⟩ := Option.isSome_iff_exists.mp (hf.coherent.ssa.registered e d huse)
  have hversion : f.version? e = some found.version := by
    rw [version?_of_direct ho hdirect, Ssa.version?, Ssa.definitionOf?, hnone, huse]
    simp [hfound]
  rw [counterpart?, ho, Option.bind_some, hversion]
  cases hname : (f.operand? d).any (·.name == o.name) with
  | true =>
      obtain ⟨p, hmatch, hechoes⟩ := hf.bestMatch_echoes ho (hf.mem_users huse)
      have hfind : f.counterpartByVersion? f o found.version = some p := by
        rw [counterpartByVersion?, hdistinct.definitionOfVersion?_eq hfound, Option.bind_some,
          hname, hf.operand_id ho, hnone, hmatch]
        rfl
      simp only [hfind]
      exact ⟨p, rfl, hechoes⟩
  | false =>
      have hfind : f.counterpartByVersion? f o found.version = none := by
        rw [counterpartByVersion?, hdistinct.definitionOfVersion?_eq hfound, Option.bind_some,
          hname]
        rfl
      simp only [hfind]
      exact hf.counterpartByName?_echoes ho

/-- Looked for in the procedure itself, an operand that is no indirection is matched by
    one of its role at its place, in a corresponding block.  Without shared labels that
    is a place in its own instruction, and a definition is matched by itself. -/
theorem counterpart?_self_at_place (hf : f.Built) (hdistinct : f.VersionsDistinct)
    (ho : f.operand? e = some o) (hdirect : o.kind.base? = none) :
    ∃ p q, f.counterpart? f e false = some p ∧ f.operand? p = some q ∧ q.role = o.role ∧
      (∃ i b j c, f.Lies e i b ∧ f.Lies p j c ∧ j.index = i.index ∧ c.correspondsTo b = true) ∧
      (f.LabelsDistinct → q.instr = o.instr) ∧
      ((f.ssa.definition? e).isSome → p = e) := by
  have hfound : ∃ p, f.counterpart? f e false = some p ∧ f.Echoes e o p ∧
      ((f.ssa.definition? e).isSome → p = e) := by
    cases hdefinition : f.ssa.definition? e with
    | some found =>
        exact ⟨e, hf.counterpart?_of_definition hdistinct ho hdirect hdefinition,
          ⟨⟨o, ho, rfl⟩, hf.apart_self ho⟩, fun _ => rfl⟩
    | none =>
        have hnot : ∀ p, (none : Option Ssa.Definition).isSome → p = e :=
          fun p h => absurd h Bool.false_ne_true
        cases huse : f.ssa.definingOperand? e with
        | some d =>
            obtain ⟨p, hp, hechoes⟩ :=
              hf.counterpart?_of_use hdistinct ho hdirect hdefinition huse
            exact ⟨p, hp, hechoes, hnot p⟩
        | none =>
            have hversion : f.version? e = none := by
              rw [version?_of_direct ho hdirect, Ssa.version?, Ssa.definitionOf?, hdefinition, huse]
              rfl
            obtain ⟨p, hp, hechoes⟩ := hf.counterpartByName?_echoes ho
            exact ⟨p, (counterpart?_of_version?_none ho hversion false).trans hp, hechoes, hnot p⟩
  obtain ⟨p, hp, ⟨⟨q, hq, hrole⟩, i, b, j, c, he, hlies, hblocks, hgap⟩, hself⟩ := hfound
  have hindex : i.index = j.index := gap_eq_zero_iff.mp hgap
  refine ⟨p, q, hp, hq, hrole, ⟨i, b, j, c, he, hlies, hindex.symm,
    Block.correspondsTo_symm hblocks⟩, fun hlabels => ?_, hself⟩
  have hblock := hlabels.eq_of_correspondsTo hf he.block hlies.block hblocks
  exact (hf.instr_eq_of_place ho hq he hlies hblock hindex).symm

/-- A use in the second of two blocks with one label is matched by the one at its place
    in the first; the definition is matched by itself. -/
theorem counterpart?_self_twinBlocks :
    twinBlocks.Built ∧ twinBlocks.VersionsDistinct ∧
      (twinBlocks.counterpart? twinBlocks 2 false = some 1 ∧
        ∃ i b j c, twinBlocks.Lies 2 i b ∧ twinBlocks.Lies 1 j c ∧ j.index = i.index ∧
          c.correspondsTo b = true) ∧
      twinBlocks.counterpart? twinBlocks 0 false = some 0 := by
  have hdistinct : twinBlocks.VersionsDistinct := by decide +kernel
  have huse : twinBlocks.operand? 2 = some ⟨2, .var, .source, "x", none, 2⟩ := by decide +kernel
  have hdefinition : twinBlocks.operand? 0 = some ⟨0, .var, .destination, "x", none, 0⟩ := by
    decide +kernel
  have hone : twinBlocks.counterpart? twinBlocks 2 false = some 1 := by decide +kernel
  obtain ⟨p, q, hp, -, -, hplace, -⟩ :=
    counterpart?_self_at_place built_twinBlocks hdistinct huse rfl
  obtain ⟨p', q', hp', -, -, -, -, hself⟩ :=
    counterpart?_self_at_place built_twinBlocks hdistinct hdefinition rfl
  obtain rfl : 1 = p := Option.some.inj (hone.symm.trans hp)
  obtain rfl : p' = 0 := hself (by decide +kernel)
  exact ⟨built_twinBlocks, hdistinct, ⟨hone, hplace⟩, hp'⟩

end Procedure

end ControlFlow
