import WorstCase.Data.Json.Read
import WorstCase.Data.Json.Write
import WorstCase.Data.Yaml.Overlay
import WorstCase.Data.Yaml.Write
import WorstCase.Report.Basic

/-!
# Reports as data

A report as a record with its fields in a fixed order, which JSON and YAML write each in its own
way, and back. The three texts that may be empty are left out if they are. Reading lays the
fields of a record over an empty report.
-/

namespace WorstCase

/-- A cut entry as data. -/
def CutEntry.tree (c : CutEntry) : Datum :=
  .record [("var", .text c.name), ("head", .text c.head), ("tail", .text c.tail),
    ("cost", .int c.cost.toInt)]

namespace Report

/-- A field that is left out if its text is empty. -/
def optionalField (name value : String) : List (String × Datum) :=
  if value = "" then [] else [(name, .text value)]

/-- The fields of a report; `absent` stands for lists that are absent. -/
def tree (absent : Datum) (r : Report) : List (String × Datum) :=
  optionalField "input" r.input ++ optionalField "digest" r.digest ++
    optionalField "encoding" r.encoding ++
    [ ("nodes", .int r.blocks.toInt)
    , ("edges", .int r.edges.toInt)
    , ("start", .text r.start)
    , ("end", .text r.stop)
    , ("longest_path", .int r.longestPath.toInt)
    , ("path", .ofList? absent (r.path.map (·.map Datum.text)))
    , ("paths", .text r.paths)
    , ("paths_digits", .int r.pathDigits.toInt)
    , ("cuts", .ofList? absent (r.cuts.map (·.map CutEntry.tree))) ]

end Report

/-! ### Reading -/

section

variable {δ : Type} [Overlay δ]

/-- A field laid over a cut entry. -/
def CutEntry.overField (c : CutEntry) : String → δ → Option CutEntry
  | "var", d => (Overlay.overText c.name d).map fun name => { c with name }
  | "head", d => (Overlay.overText c.head d).map fun head => { c with head }
  | "tail", d => (Overlay.overText c.tail d).map fun tail => { c with tail }
  | "cost", d => (Overlay.overInt c.cost d).map fun cost => { c with cost }
  | _, _ => some c

/-- A record laid over a cut entry. -/
def CutEntry.overlaid? (c : CutEntry) : δ → Option CutEntry :=
  Overlay.overRecord CutEntry.fieldNames CutEntry.overField c

/-- A field laid over a report. -/
def ReportDraft.overField (r : ReportDraft) : String → δ → Option ReportDraft
  | "input", d => (Overlay.overText r.input d).map fun input => { r with input }
  | "digest", d => (Overlay.overText r.digest d).map fun digest => { r with digest }
  | "encoding", d => (Overlay.overText r.encoding d).map fun encoding => { r with encoding }
  | "nodes", d => (Overlay.overInt r.blocks d).map fun blocks => { r with blocks }
  | "edges", d => (Overlay.overInt r.edges d).map fun edges => { r with edges }
  | "start", d => (Overlay.overText r.start d).map fun start => { r with start }
  | "end", d => (Overlay.overText r.stop d).map fun stop => { r with stop }
  | "longest_path", d =>
    (Overlay.overInt r.longestPath d).map fun longestPath => { r with longestPath }
  | "path", d => (Overlay.overList "" Overlay.overText r.pathShelf d).map r.withPath
  | "paths", d => (Overlay.overText r.paths d).map fun paths => { r with paths }
  | "paths_digits", d =>
    (Overlay.overInt r.pathDigits d).map fun pathDigits => { r with pathDigits }
  | "cuts", d => (Overlay.overList {} CutEntry.overlaid? r.cutsShelf d).map r.withCuts
  | _, _ => some r

/-- A report from data. -/
def Report.ofData? (d : δ) : Option Report :=
  (Overlay.overRecord fieldNames ReportDraft.overField {} d).map (·.toReport)

end

/-! ### Formats -/

namespace Report

/-- A report as JSON. -/
def json (r : Report) : String :=
  Json.indented (.record (r.tree .null)) ++ "\n"

/-- A report from JSON. -/
def ofJson? (s : String) : Option Report :=
  (Json.read? s).bind ofData?

/-- A report as YAML, where an absent list is an empty one. -/
def yaml (r : Report) : String :=
  Yaml.write 2 (r.tree (.list []))

/-- A report from YAML. There must be a document. -/
def ofYaml? (s : String) : Option Report :=
  (Yaml.spot? s).join.bind ofData?

end Report

end WorstCase
