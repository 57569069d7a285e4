import WorstCase.Data.Tree
import WorstCase.Digest
import WorstCase.Encoding.Emit
import WorstCase.Text.Pieces

/-!
# Reports

A report sums a graph up for a reader: its size, its ends, the longest syntactic path, the
number of paths and the cuts, together with the input that the graph came from and the encoding
of the problem that was made of it. Texts that are empty say nothing.

A report is shown to people as plain text, with the digits of numbers grouped by three. Programs
read fields into a report one after the other, and the lists of a report may be given more than
once; a **draft** is a report together with what its lists remember until the reading is over.
-/

/-! ### Reports of graphs -/

namespace WorstCase

/-- A cut as a report shows it. -/
structure CutEntry where
  name : String := ""
  head : String := ""
  tail : String := ""
  cost : Int64 := 0
deriving DecidableEq, Repr, Inhabited

/-- A report. Lists may be absent. -/
structure Report where
  input : String := ""
  digest : String := ""
  encoding : String := ""
  blocks : Int64 := 0
  edges : Int64 := 0
  start : String := ""
  stop : String := ""
  longestPath : Int64 := 0
  path : Option (List String) := none
  paths : String := ""
  pathDigits : Int64 := 0
  cuts : Option (List CutEntry) := none
deriving DecidableEq, Repr, Inhabited

namespace Report

/-- The report of a graph. It adds no cut. -/
def ofGraph (g : Graph) : Except SummaryError Report := do
  let { longest, paths } ← g.summary
  let paths := Decimal.text paths
  return {
    blocks := Int64.ofNat g.blocks.length
    edges := Int64.ofNat g.edges.length
    start := g.labelOf g.start
    stop := g.labelOf g.stop
    longestPath := longest.cost
    path := some (longest.path.map g.labelOf)
    paths
    pathDigits := Int64.ofNat paths.length
    cuts := some (g.sortedCuts.map fun c =>
      { name := c.costName, head := g.labelOf c.id.head, tail := g.labelOf c.id.tail
        cost := c.cost }) }

/-- A report that also names an input and the digest of its contents. -/
def withInput (r : Report) (name : String) (contents : ByteArray) : Report :=
  { r with input := name, digest := Digest.of contents [] }

/-- A report that also names the encoding of a problem. -/
def withEncoding (r : Report) (encoding : String) : Report :=
  { r with encoding }

/-! ### Field names -/

/-- The names of the fields, in order. -/
def fieldNames : List String :=
  ["input", "digest", "encoding", "nodes", "edges", "start", "end", "longest_path", "path",
    "paths", "paths_digits", "cuts"]

end Report

/-- The names of the fields of a cut entry, in order. -/
def CutEntry.fieldNames : List String := ["var", "head", "tail", "cost"]

/-! ### Reports for people -/

/-- A number of paths with its digits grouped, or the text as it is if it is no number. -/
def groupedText (s : String) : String :=
  match Decimal.readInt? s.toList with
  | some n => Decimal.grouped n
  | none => s

/-- The line about a cut. -/
def CutEntry.line (c : CutEntry) : String :=
  "  " ++ c.name ++ "  " ++ c.head ++ " -> " ++ c.tail ++ "  " ++ Decimal.grouped c.cost.toInt ++
    "\n"

namespace Report

/-- A line that is left out where there is nothing to say. -/
def optionalLine (title value : String) : String :=
  if value = "" then "" else title ++ value ++ "\n"

/-- A report as text. -/
def text (r : Report) : String :=
  let cuts := r.cuts.getD []
  (if r.input = "" then "=== WCET report ===\n" else "=== WCET report: " ++ r.input ++ " ===\n") ++
    optionalLine "Digest: " r.digest ++ optionalLine "Encoding: " r.encoding ++
    "Blocks: " ++ Decimal.grouped r.blocks.toInt ++ ", edges: " ++
    Decimal.grouped r.edges.toInt ++ "\n" ++
    "Start: " ++ r.start ++ ", end: " ++ r.stop ++ "\n" ++
    "Longest syntactic path: " ++ Decimal.grouped r.longestPath.toInt ++ "\n" ++
    "  " ++ Text.joinWith " -> " (r.path.getD []) ++ "\n" ++
    "Paths: " ++ groupedText r.paths ++ " (" ++ Decimal.text r.pathDigits.toInt ++ " digits)\n" ++
    "\nCuts (" ++ Decimal.text cuts.length ++ "):\n" ++ String.join (cuts.map CutEntry.line)

end Report

/-! ### Reports being read -/

/-- A report that is being read. -/
structure ReportDraft extends Report where
  /-- What stood after the end of the path. -/
  pathBehind : List String := []
  /-- What stood after the last cut. -/
  cutsBehind : List CutEntry := []
deriving DecidableEq, Repr, Inhabited

namespace ReportDraft

/-- The path as a list to read into. -/
def pathShelf (r : ReportDraft) : Shelf String := ⟨r.path, r.pathBehind⟩

/-- The cuts as a list to read into. -/
def cutsShelf (r : ReportDraft) : Shelf CutEntry := ⟨r.cuts, r.cutsBehind⟩

/-- A draft with another path. -/
def withPath (r : ReportDraft) (s : Shelf String) : ReportDraft :=
  { r with path := s.items, pathBehind := s.behind }

/-- A draft with other cuts. -/
def withCuts (r : ReportDraft) (s : Shelf CutEntry) : ReportDraft :=
  { r with cuts := s.items, cutsBehind := s.behind }

end ReportDraft

end WorstCase
