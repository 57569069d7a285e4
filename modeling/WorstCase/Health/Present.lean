import WorstCase.Data.Json.Write
import WorstCase.Data.Yaml.Write
import WorstCase.Health.Check
import WorstCase.Text.Quoted

/-!
# Shown examinations

An examination of a graph as text, JSON or YAML.
-/

namespace WorstCase.Health

/-- The formats of examinations. -/
inductive Format where
  | text
  | json
  | yaml
deriving DecidableEq, Repr

/-- The format of a name; no name means text. -/
def Format.ofName? : String → Option Format
  | "" | "text" => some .text
  | "json" => some .json
  | "yaml" => some .yaml
  | _ => none

/-- What is said about a name that no format has. -/
def Format.unknownMessage (name : String) : String :=
  "unknown format " ++ Text.quoted name ++ " (use text, json or yaml)"

/-- The sign for a status. -/
def Status.sign : Status → String
  | .ok => Text.spelled "✓"
  | .warn => Text.spelled "◐"
  | .error => Text.spelled "✗"

/-- A text filled up with blanks to a width. -/
def padded (width : Nat) (s : String) : String :=
  s ++ String.ofList (List.replicate (width - s.length) ' ')

/-- The lines about a remark. -/
def Remark.lines (r : Remark) : String :=
  "  " ++ r.status.sign ++ " " ++ padded 13 r.check ++ " " ++ r.status.name ++ "\n" ++
    if r.detail = "" then "" else "      " ++ r.detail ++ "\n"

/-- A remark as data. -/
def Remark.tree (r : Remark) : Datum :=
  .record ([("check", .text r.check), ("status", .text r.status.name)] ++
    if r.detail = "" then [] else [("detail", .text r.detail)])

namespace Examination

/-- An examination as data. -/
def tree (e : Examination) : List (String × Datum) :=
  [("nodes", .int e.blocks), ("edges", .int e.edges),
    ("findings", .list (e.remarks.map Remark.tree))]

/-- An examination of the graph of an input as text. -/
def text (e : Examination) (input : String) : String :=
  "Graph: " ++ input ++ " (" ++ Decimal.text e.blocks ++ " blocks, " ++ Decimal.text e.edges ++
    " edges)\n\n" ++ String.join (e.remarks.map Remark.lines)

/-- An examination of the graph of an input in a format. -/
def write (e : Examination) (input : String) : Format → String
  | .text => e.text input
  | .json => Json.indented (.record e.tree) ++ "\n"
  | .yaml => Yaml.write 2 e.tree

end Examination

end WorstCase.Health
