import ControlFlow.Dominance.Basic

/-!
# How analyses are kept

    Whether results are kept at all, how many workers compute them, and what
    dominance analyses prepare.
-/

namespace ControlFlow

/-- The settings of a store. -/
structure Config where
  keep : Bool
  workers : Nat
  options : Dominance.Options
  deriving DecidableEq, Repr

/-- What an option set is called, option by option. -/
def Dominance.Options.text (o : Dominance.Options) : String :=
  let named :=
    (if o.tree then ["BUILD_TREE"] else []) ++ (if o.pairs then ["BUILD_QUERY_CACHE"] else [])
  "DominatorOptions(" ++ (if named.isEmpty then "0x0" else " | ".intercalate named) ++ ")"

namespace Config

/-- Results are kept, as many workers as the machine offers, dominator trees. -/
def default : Config :=
  { keep := true, workers := 0, options := { tree := true, pairs := false } }

/-- Nothing is kept or prepared, one worker. -/
def disabled : Config :=
  { keep := false, workers := 1, options := { tree := false, pairs := false } }

/-- Everything is kept and prepared. -/
def comprehensive : Config :=
  { keep := true, workers := 0, options := { tree := true, pairs := true } }

/-- The settings as text. -/
def text (c : Config) : String :=
  "AnalysisConfig \x7b enable_cache: " ++ toString c.keep ++ ", worker_threads: "
    ++ toString c.workers ++ ", dominator_options: " ++ c.options.text ++ " \x7d"

end Config

end ControlFlow
