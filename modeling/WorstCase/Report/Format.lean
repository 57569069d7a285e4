import WorstCase.Report.Basic
import WorstCase.Report.Data
import WorstCase.Report.Packed
import WorstCase.Text.Blank
import WorstCase.Text.Octets
import WorstCase.Text.Quoted

/-!
# Report formats

A report is written as text, JSON, YAML or MessagePack, and read in the last three. Users name a
format in any letter case and with blanks around it; programs name it exactly.
-/

namespace WorstCase

/-- The formats of reports. -/
inductive ReportFormat where
  | text
  | json
  | yaml
  | msgpack
deriving DecidableEq, Repr, Inhabited

namespace ReportFormat

/-- The name of a format. -/
def name : ReportFormat → String
  | text => "text"
  | json => "json"
  | yaml => "yaml"
  | msgpack => "msgpack"

/-- All formats. -/
def all : List ReportFormat := [text, json, yaml, msgpack]

/-- The format with exactly this name. -/
def ofName? (s : String) : Option ReportFormat :=
  all.find? fun f => f.name = s

/-- The format that a user names. -/
def parse? (s : String) : Option ReportFormat :=
  ofName? (Text.lower (Text.trimmed s))

/-- What is said about a format that no user can mean. -/
def unknownMessage (s : String) : String :=
  "unknown report format " ++ Text.quoted s ++ " (use text, json, yaml or msgpack)"

end ReportFormat

/-- Why a report cannot be read. -/
inductive ReportError where
  /-- Reports in this format are not read. -/
  | unreadable (format : String)
  /-- The data is not a report in this format. -/
  | malformed (format : ReportFormat)
deriving DecidableEq, Repr

/-- The wording of an error. -/
def ReportError.message : ReportError → String
  | .unreadable format => "cannot read " ++ format ++ " reports"
  | .malformed format => "decoding " ++ format.name ++ " report: malformed data"

namespace Report

/-- The bytes of a report in a format. -/
def write (r : Report) : ReportFormat → ByteArray
  | .text => Text.toBytes r.text
  | .json => Text.toBytes r.json
  | .yaml => Text.toBytes r.yaml
  | .msgpack => ⟨r.packedBytes.toArray⟩

/-- The bytes of a report in the format of a name; no name means text. -/
def writeNamed (r : Report) (format : String) : Except String ByteArray :=
  match ReportFormat.ofName? (if format = "" then "text" else format) with
  | some f => .ok (r.write f)
  | none => .error ("unknown report format " ++ Text.quoted format)

/-- A report from its bytes in the format of a name. -/
def read (bytes : ByteArray) (format : String) : Except ReportError Report :=
  let decode (f : ReportFormat) (r : Option Report) : Except ReportError Report :=
    match r with
    | some r => .ok r
    | none => .error (.malformed f)
  match ReportFormat.ofName? format with
  | some .json => decode .json (ofJson? (Text.ofBytes bytes))
  | some .yaml => decode .yaml (ofYaml? (Text.ofBytes bytes))
  | some .msgpack => decode .msgpack (ofPackedBytes? bytes.toList)
  | _ => .error (.unreadable format)

end Report

end WorstCase
