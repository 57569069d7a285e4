import WorstCase.Graph.Cut

/-!
# Summaries and exports

The two numbers that sum a graph up, the longest path from the start to the end and the number of
such paths, and two texts that show what was found in it: the edges of a longest path, and the
cuts with their costs.
-/

/-! ### Summaries -/

namespace WorstCase

/-- The longest path from the start to the end, and the number of paths. -/
structure Summary where
  longest : LongestPath
  paths : Nat
deriving DecidableEq, Repr

/-- Why a graph cannot be summed up. -/
inductive SummaryError where
  | longestPath (violation : Violation)
  | countPaths (violation : Violation)
deriving DecidableEq, Repr

namespace SummaryError

/-- The wording of a `SummaryError`. -/
def message : SummaryError → String
  | .longestPath violation => "longest syntactic path: " ++ violation.message
  | .countPaths violation => "counting paths: " ++ violation.message

/-- The violation behind a `SummaryError`. -/
def violation : SummaryError → Violation
  | .longestPath violation => violation
  | .countPaths violation => violation

end SummaryError

/-- Sums a graph up. -/
def Graph.summary (g : Graph) : Except SummaryError Summary :=
  match g.longestSyntacticPath with
  | .error v => .error (.longestPath v)
  | .ok longest =>
    match g.countPaths g.start g.stop with
    | .error v => .error (.countPaths v)
    | .ok paths => .ok { longest, paths }

/-! ### Exports -/

namespace Graph

/-- How one block shows on the longest path: it ends the line of the edge into it and begins
that of the edge out of it. -/
def pathPiece (g : Graph) (uid : Int) : String :=
  (if uid = g.start then "" else ", " ++ g.labelOf uid ++ ")\n") ++
    (if uid = g.stop then "" else "(" ++ g.labelOf uid)

/-- The edges of a longest path from the start to the end, one `(src, dst)` a line. -/
def longestPathText (g : Graph) : Except Violation String := do
  return String.join ((← g.longestSyntacticPath).path.map g.pathPiece)

/-- The cuts with their costs, one a line. -/
def cutList (g : Graph) : String :=
  String.join (g.sortedCuts.map fun c => c.costName ++ " " ++ Decimal.text c.cost.toInt ++ "\n")

end Graph

end WorstCase
