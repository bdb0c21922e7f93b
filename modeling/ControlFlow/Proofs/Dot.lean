import ControlFlow.Dot
import ControlFlow.Ident
import Mathlib.Data.List.Basic

/-!
# Drawings read back

    A drawing is a text, and what it says depends on how the text is read: where its
    lines end, and where its quoted labels do.  Here both are read by the rules of the
    language, which know nothing of how the text was written.  A line ends at a line
    feed.  A label ends at the first quote that is not taken along by a backslash
    (`inside?`), and is then decoded pair by pair (`decode`).

    Any text is written so that it stays within its label and within its line
    (`Confined`, which a scanner with three states decides), so reading gives back the
    text, less its carriage returns (`label?_escape`), texts that differ in more than those
    are written differently (`escape_eq_escape_iff`), and the lines of a drawing are the
    lines that were written (`splitOn_unlines`).
-/

namespace ControlFlow.Dot

/-! ## Labels -/

/-- A text that can stand between quotes: a backslash takes the next character with it,
    no other character is a quote, and all of it is on one line. -/
inductive Confined : List Char → Prop where
  | nil : Confined []
  | plain {c : Char} {text : List Char} :
      c ≠ '\\' → c ≠ '"' → c ≠ '\n' → c ≠ '\r' → Confined text → Confined (c :: text)
  | pair {c : Char} {text : List Char} :
      c ≠ '\n' → c ≠ '\r' → Confined text → Confined ('\\' :: c :: text)

/-- What stands between quotes, and what comes after: the text is read up to the first
    quote that no backslash takes with it. -/
def inside? : List Char → Option (List Char × List Char)
  | [] => none
  | '"' :: text => some ([], text)
  | '\\' :: c :: text => (inside? text).map fun r => ('\\' :: c :: r.1, r.2)
  | c :: text => (inside? text).map fun r => (c :: r.1, r.2)

/-- What a character means after a backslash: `n` is a line feed, any other is itself. -/
def decodeChar (c : Char) : Char :=
  if c = 'n' then '\n' else c

/-- What a label says. -/
def decode : List Char → List Char
  | [] => []
  | '\\' :: c :: text => decodeChar c :: decode text
  | c :: text => c :: decode text

/-- A text without its carriage returns. -/
def withoutReturns (text : String) : List Char :=
  text.toList.filter (· ≠ '\r')

/-- What a label says whose opening quote has been read, and what comes after it. -/
def label? (text : List Char) : Option (List Char × List Char) :=
  (inside? text).map fun r => (decode r.1, r.2)

/-- A confined text is read up to the quote behind it. -/
theorem Confined.inside?_eq {text : List Char} (h : Confined text) (rest : List Char) :
    inside? (text ++ '"' :: rest) = some (text, rest) := by
  induction h with
  | nil => rfl
  | plain hback hquote _ _ _ ih =>
      rw [List.cons_append, inside?, ih]
      · rfl
      · exact hquote
      · intro c text' hc
        exact absurd hc hback
  | pair _ _ _ ih =>
      rw [List.cons_append, List.cons_append, inside?, ih]
      rfl

theorem Confined.newline_not_mem {text : List Char} (h : Confined text) : '\n' ∉ text := by
  induction h with
  | nil => exact List.not_mem_nil
  | plain _ _ hnewline _ _ ih => simp [ih, hnewline.symm]
  | pair hnewline _ _ ih => simp [ih, hnewline.symm]

/-- However a character is written, a label stays confined. -/
theorem Confined.escapeChar {text : List Char} (h : Confined text) (c : Char) :
    Confined (escapeChar c ++ text) := by
  fun_cases Dot.escapeChar c with
  | case1 => exact .pair (by decide) (by decide) h
  | case2 => exact .pair (by decide) (by decide) h
  | case3 => exact .pair (by decide) (by decide) h
  | case4 => exact h
  | case5 => exact .pair (by decide) (by decide) h
  | case6 => exact .pair (by decide) (by decide) h
  | case7 c hback hquote hnewline hreturn _ _ => exact .plain hback hquote hnewline hreturn h

/-- Decoding takes back how a character is written, unless that was dropped. -/
theorem decode_escapeChar (c : Char) (text : List Char) :
    decode (escapeChar c ++ text) = [c].filter (· ≠ '\r') ++ decode text := by
  fun_cases Dot.escapeChar c with
  | case1 => rfl
  | case2 => rfl
  | case3 => rfl
  | case4 => rfl
  | case5 => rfl
  | case6 => rfl
  | case7 c hback _ _ hreturn _ _ =>
      have hkept : [c].filter (· ≠ '\r') = [c] := List.filter_eq_self.mpr (by simpa using hreturn)
      rw [List.singleton_append, decode, hkept]
      · rfl
      · intro c' text' hc
        exact absurd hc hback

theorem confined_escape (text : String) : Confined (escape text).toList := by
  rw [escape, String.toList_ofList]
  induction text.toList with
  | nil => exact .nil
  | cons c text ih => exact ih.escapeChar c

theorem decode_escape (text : String) : decode (escape text).toList = withoutReturns text := by
  rw [escape, String.toList_ofList, withoutReturns]
  induction text.toList with
  | nil => rfl
  | cons c text ih =>
      rw [List.flatMap_cons, decode_escapeChar, ih, ← List.filter_append]
      rfl

/-- A quoted text ends at its own closing quote, and says what was written less the
    carriage returns. -/
theorem label?_escape (text : String) (rest : List Char) :
    label? ((escape text).toList ++ '"' :: rest) = some (withoutReturns text, rest) := by
  rw [label?, (confined_escape text).inside?_eq, Option.map_some, decode_escape]

/-! ## Scanning -/

/-- Where a scanner of quoted text stands: within the text, behind a backslash that takes
    the next character with it, or off the text, from a bare quote or the end of a line on. -/
inductive Scanner where
  | within
  | behind
  | off
  deriving DecidableEq

namespace Scanner

/-- Takes in one more character. -/
def next (scanner : Scanner) (c : Char) : Scanner :=
  if c = '\n' ∨ c = '\r' then off
  else
    match scanner with
    | within => if c = '\\' then behind else if c = '"' then off else within
    | behind => within
    | off => off

theorem next_line {c : Char} (hline : c = '\n' ∨ c = '\r') (scanner : Scanner) :
    scanner.next c = off :=
  if_pos hline

theorem next_behind {c : Char} (hline : ¬ (c = '\n' ∨ c = '\r')) : behind.next c = within :=
  if_neg hline

theorem next_within {c : Char} (hline : ¬ (c = '\n' ∨ c = '\r')) (hback : c ≠ '\\') :
    within.next c = if c = '"' then off else within := by
  rw [next, if_neg hline]
  exact if_neg hback

/-- There is no way back into a text. -/
theorem foldl_off_ne (text : List Char) : text.foldl next off ≠ within := by
  induction text with
  | nil => exact fun h => Scanner.noConfusion h
  | cons c text ih =>
      have hnext : off.next c = off := ite_self off
      rwa [List.foldl_cons, hnext]

end Scanner

/-- A text is confined when a scanner is within it at its end, with no backslash waiting
    for one more character. -/
theorem confined_iff_scanner (text : List Char) :
    Confined text ↔ text.foldl Scanner.next .within = .within := by
  constructor
  · intro h
    induction h with
    | nil => rfl
    | plain hback hquote hnewline hreturn _ ih =>
        rwa [List.foldl_cons, Scanner.next_within (not_or.mpr ⟨hnewline, hreturn⟩) hback,
          if_neg hquote]
    | pair hnewline hreturn _ ih =>
        show List.foldl _ (Scanner.behind.next _) _ = _
        rwa [Scanner.next_behind (not_or.mpr ⟨hnewline, hreturn⟩)]
  · -- pair by pair, as a label is decoded
    induction text using decode.induct with
    | case1 => exact fun _ => .nil
    | case2 c text ih =>
        show List.foldl _ (Scanner.behind.next c) text = _ → _
        by_cases hline : c = '\n' ∨ c = '\r'
        · rw [Scanner.next_line hline]
          exact fun h => absurd h (Scanner.foldl_off_ne text)
        · obtain ⟨hnewline, hreturn⟩ := not_or.mp hline
          rw [Scanner.next_behind hline]
          exact fun h => .pair hnewline hreturn (ih h)
    | case3 c text hpair ih =>
        rw [List.foldl_cons]
        by_cases hline : c = '\n' ∨ c = '\r'
        · rw [Scanner.next_line hline]
          exact fun h => absurd h (Scanner.foldl_off_ne text)
        · obtain ⟨hnewline, hreturn⟩ := not_or.mp hline
          by_cases hback : c = '\\'
          · -- nothing comes after the backslash
            cases text with
            | nil =>
                subst hback
                exact fun h => Scanner.noConfusion h
            | cons c' text => exact absurd rfl (hpair c' text hback)
          · rw [Scanner.next_within hline hback]
            by_cases hquote : c = '"'
            · rw [if_pos hquote]
              exact fun h => absurd h (Scanner.foldl_off_ne text)
            · rw [if_neg hquote]
              exact fun h => .plain hback hquote hnewline hreturn (ih h)

instance : DecidablePred Confined :=
  fun text => decidable_of_iff _ (confined_iff_scanner text).symm

/-! ## Texts written alike -/

theorem withoutReturns_eq_toList {text : String} (h : '\r' ∉ text.toList) :
    withoutReturns text = text.toList :=
  List.filter_eq_self.mpr fun _ hc => decide_eq_true fun heq => h (heq ▸ hc)

/-- Carriage returns leave nothing behind. -/
theorem escape_eq_flatMap_withoutReturns (text : String) :
    escape text = String.ofList ((withoutReturns text).flatMap escapeChar) := by
  rw [escape, withoutReturns]
  refine congrArg String.ofList ?_
  induction text.toList with
  | nil => rfl
  | cons c text ih =>
      by_cases hreturn : c = '\r'
      · subst hreturn
        exact ih
      · rw [List.filter_cons_of_pos (by simpa using hreturn), List.flatMap_cons,
          List.flatMap_cons, ih]

/-- Two texts are written alike exactly when they are the same but for carriage returns. -/
theorem escape_eq_escape_iff {a b : String} :
    escape a = escape b ↔ withoutReturns a = withoutReturns b := by
  constructor
  · intro h
    rw [← decode_escape, ← decode_escape, h]
  · intro h
    rw [escape_eq_flatMap_withoutReturns, escape_eq_flatMap_withoutReturns, h]

/-- A text is written so that a scanner stays within it up to its end, and decoding gives
    back the text less its carriage returns.  What is written tells texts apart that differ
    in anything else, so in particular all texts that have no carriage returns. -/
theorem escape_confines_and_decodes :
    (∀ text, Confined (escape text).toList ∧
      decode (escape text).toList = withoutReturns text) ∧
    (∀ a b, escape a = escape b ↔ withoutReturns a = withoutReturns b) ∧
    ∀ a b, '\r' ∉ a.toList → '\r' ∉ b.toList → escape a = escape b → a = b := by
  refine ⟨fun text => ⟨confined_escape text, decode_escape text⟩,
    fun a b => escape_eq_escape_iff, fun a b ha hb h => ?_⟩
  rw [escape_eq_escape_iff, withoutReturns_eq_toList ha, withoutReturns_eq_toList hb] at h
  exact String.toList_inj.mp h

/-- Four texts that cannot stand between quotes as they are.  A backslash before an `n` and a
    line feed are written differently, and each is decoded as what it was. -/
theorem escape_confines_backslashes :
    ¬ Confined "say \"hi".toList ∧ ¬ Confined "a\\".toList ∧ ¬ Confined "a\nb".toList ∧
      ¬ Confined "a\\\rb".toList ∧ Confined (escape "\\n\r\n\"<\\").toList ∧
      decode (escape "\\n\r\n\"<\\").toList = "\\n\n\"<\\".toList ∧
      '\r' ∉ "\\n".toList ∧ '\r' ∉ "\n".toList ∧ escape "\\n" ≠ escape "\n" := by
  obtain ⟨hwritten, -, hinjective⟩ := escape_confines_and_decodes
  obtain ⟨hconfined, hdecode⟩ := hwritten "\\n\r\n\"<\\"
  refine ⟨by decide, by decide, by decide, by decide, hconfined, ?_, by decide, by decide, ?_⟩
  · rw [hdecode]
    decide
  · intro halike
    exact absurd (hinjective _ _ (by decide) (by decide) halike) (by decide)

/-! ## Lines -/

/-- Lines without a line feed of their own are found again, with nothing after the last
    one. -/
theorem splitOn_unlines {lines : List String} (h : ∀ line ∈ lines, '\n' ∉ line.toList) :
    (unlines lines).toList.splitOn '\n' = lines.map String.toList ++ [[]] := by
  have htext : (unlines lines).toList = lines.flatMap fun line => line.toList ++ ['\n'] := by
    simp [unlines, String.toList_join, List.flatMap_map]
  rw [htext]
  clear htext
  induction lines with
  | nil => rfl
  | cons line lines ih =>
      rw [List.flatMap_cons, List.append_assoc, List.singleton_append,
        List.splitOn_append_cons_self_of_not_mem (h line List.mem_cons_self),
        ih fun other hother => h other (List.mem_cons_of_mem line hother)]
      rfl

/-! ## Numbers -/

/-- The number at the beginning of a text, and what comes after its digits. -/
def number? (text : List Char) : Option (Nat × List Char) :=
  match text.takeWhile Char.isDigit with
  | [] => none
  | digits => some (Nat.ofDigitChars 10 digits 0, text.dropWhile Char.isDigit)

theorem isDigit_of_mem_toString (n : Nat) (c : Char) (hc : c ∈ (toString n).toList) :
    c.isDigit = true := by
  rw [Nat.toString_eq_ofList_toDigits, String.toList_ofList] at hc
  exact Nat.isDigit_of_mem_toDigits (by decide) (by decide) hc

theorem number?_toString (n : Nat) (rest : List Char)
    (hrest : ∀ c ∈ rest.head?, c.isDigit = false) :
    number? ((toString n).toList ++ rest) = some (n, rest) := by
  have hdigits := isDigit_of_mem_toString n
  -- what comes after the digits is left over
  have hafter : rest.takeWhile Char.isDigit = [] ∧ rest.dropWhile Char.isDigit = rest := by
    cases rest with
    | nil => exact ⟨rfl, rfl⟩
    | cons c rest =>
        have hc := hrest c rfl
        simp [hc]
  rw [number?, List.takeWhile_append_of_pos hdigits, List.dropWhile_append_of_pos hdigits, hafter.1,
    hafter.2, List.append_nil, Nat.toString_eq_ofList_toDigits, String.toList_ofList]
  split
  · rename_i hnil
    exact absurd hnil Nat.toDigits_ne_nil
  · rw [Nat.ofDigitChars_ten_toDigits]

theorem escapeChar_of_isDigit {c : Char} (h : c.isDigit = true) : escapeChar c = [c] := by
  revert h
  fun_cases escapeChar c with
  | case7 => exact fun _ => rfl
  | _ => exact fun h => absurd h (by decide)

/-- Between quotes a number stands as it is. -/
theorem label?_toString (n : Nat) (rest : List Char) :
    label? ((toString n).toList ++ '"' :: rest) = some ((toString n).toList, rest) := by
  have hdigits := isDigit_of_mem_toString n
  have hescape : escape (toString n) = toString n := by
    rw [escape, List.flatMap_congr fun c hc => escapeChar_of_isDigit (hdigits c hc),
      List.flatMap_singleton', String.ofList_toList]
  have hreturns : withoutReturns (toString n) = (toString n).toList :=
    withoutReturns_eq_toList fun hc => absurd (hdigits _ hc) (by decide)
  have hlabel := label?_escape (toString n) rest
  rwa [hescape, hreturns] at hlabel

/-! ## Lines that say something -/

/-- What the title of a drawing is, and what comes after it on its line. -/
def readTitle (line : List Char) : Option (List Char × List Char) := do
  let text ← line.dropPrefix? "    label=\"".toList
  label? text

/-- The number of a node, its label, and what comes after that on its line. -/
def readNode (line : List Char) : Option (Nat × List Char × List Char) := do
  let id ← number? (← line.dropPrefix? "    n".toList)
  let label ← label? (← id.2.dropPrefix? " [label=\"".toList)
  return (id.1, label)

/-- The count in the label of an edge, which is one if there is no label. -/
def readCount (text : List Char) : Option Nat :=
  if text = ";".toList then some 1
  else do
    let label ← label? (← text.dropPrefix? " [label=\"".toList)
    let count ← number? label.1
    if count.2 = [] ∧ label.2 = "];".toList then some count.1 else none

/-- The ends of an edge and its count. -/
def readEdge (line : List Char) : Option (Nat × Nat × Nat) := do
  let source ← number? (← line.dropPrefix? "    n".toList)
  let target ← number? (← source.2.dropPrefix? " -> n".toList)
  let count ← readCount target.2
  return (source.1, target.1, count)

theorem readTitle_titleLine (title : String) :
    readTitle ("    label=" ++ quoted title ++ ";").toList =
      some (withoutReturns title, ";".toList) := by
  have hline : ("    label=" ++ quoted title ++ ";").toList =
      "    label=\"".toList ++ ((escape title).toList ++ '"' :: ";".toList) := by
    simp [quoted]
  rw [hline, readTitle, List.dropPrefix?_append_of_beq _ BEq.rfl, Option.bind_eq_bind,
    Option.bind_some, label?_escape]

/-- A node line is read as the node and the label it was written for. -/
theorem readNode_nodeLine (id : NodeId) (label style : String) :
    readNode (nodeLine (IdSort.node.short id) label style).toList =
      some (id, withoutReturns label, (style ++ "];").toList) := by
  have hline : (nodeLine (IdSort.node.short id) label style).toList =
      "    n".toList ++ ((toString id).toList ++ (" [label=\"".toList ++
        ((escape label).toList ++ '"' :: (style ++ "];").toList))) := by
    simp [nodeLine, quoted, IdSort.short, IdSort.tag]
  rw [hline, readNode, List.dropPrefix?_append_of_beq _ BEq.rfl, Option.bind_eq_bind,
    Option.bind_some, number?_toString id _ (by simp), Option.bind_eq_bind, Option.bind_some,
    List.dropPrefix?_append_of_beq _ BEq.rfl, Option.bind_eq_bind, Option.bind_some, label?_escape]
  rfl

theorem readCount_label (n : Nat) :
    readCount (" [label=\"".toList ++ ((toString n).toList ++ '"' :: "];".toList)) = some n := by
  have hnumber : number? (toString n).toList = some (n, []) := by
    have h := number?_toString n [] (by simp)
    rwa [List.append_nil] at h
  rw [readCount, if_neg (by simp), List.dropPrefix?_append_of_beq _ BEq.rfl, Option.bind_eq_bind,
    Option.bind_some, label?_toString, Option.bind_eq_bind, Option.bind_some, hnumber]
  rfl

/-- The ends of an edge are read off whatever comes after them. -/
theorem readEdge_ends (source target : NodeId) (text : List Char)
    (htext : ∀ c ∈ text.head?, c.isDigit = false) :
    readEdge ("    n".toList ++ ((toString source).toList ++ (" -> n".toList ++
      ((toString target).toList ++ text)))) =
        (readCount text).map fun count => (source, target, count) := by
  rw [readEdge, List.dropPrefix?_append_of_beq _ BEq.rfl, Option.bind_eq_bind, Option.bind_some,
    number?_toString source _ (by simp), Option.bind_eq_bind, Option.bind_some,
    List.dropPrefix?_append_of_beq _ BEq.rfl, Option.bind_eq_bind, Option.bind_some,
    number?_toString target text htext, Option.bind_some]
  cases readCount text <;> rfl

/-- An edge line is read as the edge and the count it was written for. -/
theorem readEdge_edgeLine (source target : NodeId) (count : Option Nat) :
    readEdge (edgeLine (IdSort.node.short source) (IdSort.node.short target) count).toList =
      some (source, target, count.getD 1) := by
  cases count with
  | none =>
      have hends := readEdge_ends source target ";".toList (by simp)
      rw [readCount, if_pos rfl] at hends
      simpa [edgeLine, IdSort.short, IdSort.tag] using hends
  | some n =>
      have hends := readEdge_ends source target
        (" [label=\"".toList ++ ((toString n).toList ++ '"' :: "];".toList)) (by simp)
      rw [readCount_label] at hends
      simpa [edgeLine, IdSort.short, IdSort.tag] using hends

/-! ## Lines stay lines -/

theorem newline_not_mem_toDigits (n : Nat) : '\n' ∉ Nat.toDigits 10 n := by
  intro hmem
  exact absurd (Nat.isDigit_of_mem_toDigits (by decide) (by decide) hmem) (by decide)

theorem newline_not_mem_nodeLine (id : NodeId) (label : String) {style : String}
    (hstyle : '\n' ∉ style.toList) :
    '\n' ∉ (nodeLine (IdSort.node.short id) label style).toList := by
  have hlabel := (confined_escape label).newline_not_mem
  simp [nodeLine, quoted, IdSort.short, IdSort.tag, hlabel, hstyle, newline_not_mem_toDigits]

theorem newline_not_mem_edgeLine (source target : NodeId) (count : Option Nat) :
    '\n' ∉ (edgeLine (IdSort.node.short source) (IdSort.node.short target) count).toList := by
  cases count <;> simp [edgeLine, IdSort.short, IdSort.tag, newline_not_mem_toDigits]

theorem newline_not_mem_opening {name : String} (title : String) (hname : '\n' ∉ name.toList) :
    ∀ line ∈ opening name title, '\n' ∉ line.toList := by
  have htitle := (confined_escape title).newline_not_mem
  simp [opening, quoted, hname, htitle]

end ControlFlow.Dot
