/-!
# Drawings as text

    Graphs are drawn in the DOT language.  A drawing is a list of lines: an
    opening, one line per node, an empty line, one line per edge, and the
    closing brace.

    A label stands between double quotes; `escape` writes any text so that it
    stays inside them and on one line: a backslash, a quote and an angle bracket
    are preceded by a backslash, a line feed becomes backslash and `n`, a
    carriage return is dropped.
-/

namespace ControlFlow.Dot

/-! ## Labels -/

/-- How one character is written inside a quoted label. -/
def escapeChar : Char → List Char
  | '\\' => ['\\', '\\']
  | '"' => ['\\', '"']
  | '\n' => ['\\', 'n']
  | '\r' => []
  | '<' => ['\\', '<']
  | '>' => ['\\', '>']
  | c => [c]

/-- A text as it is written inside a quoted label. -/
def escape (text : String) : String :=
  String.ofList (text.toList.flatMap escapeChar)

/-- A label between its quotes. -/
def quoted (label : String) : String :=
  "\"" ++ escape label ++ "\""

/-! ## Lines -/

/-- Lines as one text, each ended by a line feed. -/
def unlines (lines : List String) : String :=
  String.join (lines.map (· ++ "\n"))

/-- The opening of a drawing: its name, its title, how nodes and edges look,
    and an empty line. -/
def opening (name title : String) : List String :=
  ["digraph " ++ name ++ " \x7b",
    "    label=" ++ quoted title ++ ";",
    "    labelloc=t;",
    "    node [shape=box, fontname=\"Courier\", fontsize=10];",
    "    edge [fontname=\"Courier\", fontsize=9];",
    "    rankdir=TB;",
    ""]

/-- A node with its label and how it looks. -/
def nodeLine (id label style : String) : String :=
  "    " ++ id ++ " [label=" ++ quoted label ++ style ++ "];"

/-- An edge, with a count where one is given. -/
def edgeLine (source target : String) (count : Option Nat) : String :=
  match count with
  | none => "    " ++ source ++ " -> " ++ target ++ ";"
  | some n => "    " ++ source ++ " -> " ++ target ++ " [label=\"" ++ toString n ++ "\"];"

/-- The lines of a whole drawing. -/
def drawing (name title : String) (nodes edges : List String) : List String :=
  opening name title ++ nodes ++ [""] ++ edges ++ ["\x7d"]

end ControlFlow.Dot
