import WorstCase.Data.Yaml.Overlay
import WorstCase.Data.Yaml.Write
import WorstCase.Encoding.Basic
import WorstCase.Report.Format
import WorstCase.Scan.Walk

/-!
# Settings

What a user can set, as files and environment variables say it: the encoding of problems, which
cuts are added, how reports and logs are written, which inputs a batch takes and where it
remembers them. Settings are **valid** if the encoding and the report format are known, the
timeout is not negative, and there are patterns to include and a directory for the cache.
-/

namespace WorstCase

/-- The settings. -/
structure Settings where
  encoding : Int64 := 0
  /-- In seconds; zero means that there is none. -/
  timeout : Int64 := 0
  noSummaries : Bool := false
  recursiveCuts : Bool := false
  edgeImpliesNodes : Bool := false
  produceModels : Bool := false
  reportFormat : String := ReportFormat.text.name
  patterns : List String := ({} : Scan.Options).patterns
  cacheDirectory : String := ".wcet/cache"
  verbose : Bool := false
  logJson : Bool := false
deriving DecidableEq, Repr, Inhabited

namespace Settings

/-! ### Validity -/

/-- What is wrong with settings. -/
inductive Invalid where
  | encoding (code : Int64)
  | timeout
  | reportFormat (name : String)
  | noPatterns
  | noCacheDirectory
deriving DecidableEq, Repr

/-- The wording of what is wrong. -/
def Invalid.message : Invalid → String
  | encoding code => "invalid encoding: " ++ Encoding.unknownMessage code.toInt
  | timeout => "timeout must be non-negative"
  | reportFormat name => "invalid report_format: " ++ ReportFormat.unknownMessage name
  | noPatterns => "include must list at least one pattern"
  | noCacheDirectory => "cache_dir is required"

/-- The first thing that is wrong with settings, if anything is. -/
def invalid? (s : Settings) : Option Invalid :=
  if (Encoding.ofCode? s.encoding.toInt).isNone then some (.encoding s.encoding)
  else if s.timeout < 0 then some .timeout
  else if (ReportFormat.parse? s.reportFormat).isNone then some (.reportFormat s.reportFormat)
  else if s.patterns.isEmpty then some .noPatterns
  else if s.cacheDirectory = "" then some .noCacheDirectory
  else none

/-! ### YAML -/

/-- The names of the fields, in order. -/
def fieldNames : List String :=
  ["encoding", "timeout", "no_summaries", "recursive_cuts", "edge_implies_nodes",
    "produce_models", "report_format", "include", "cache_dir", "verbose", "log_json"]

/-- A field laid over settings. -/
def overField {δ : Type} [Overlay δ] (s : Settings) : String → δ → Option Settings
  | "encoding", d => (Overlay.overInt s.encoding d).map fun encoding => { s with encoding }
  | "timeout", d => (Overlay.overInt s.timeout d).map fun timeout => { s with timeout }
  | "no_summaries", d =>
    (Overlay.overBool s.noSummaries d).map fun noSummaries => { s with noSummaries }
  | "recursive_cuts", d =>
    (Overlay.overBool s.recursiveCuts d).map fun recursiveCuts => { s with recursiveCuts }
  | "edge_implies_nodes", d =>
    (Overlay.overBool s.edgeImpliesNodes d).map fun edgeImpliesNodes => { s with edgeImpliesNodes }
  | "produce_models", d =>
    (Overlay.overBool s.produceModels d).map fun produceModels => { s with produceModels }
  | "report_format", d =>
    (Overlay.overText s.reportFormat d).map fun reportFormat => { s with reportFormat }
  | "include", d =>
    (Overlay.overList "" Overlay.overText ⟨some s.patterns, []⟩ d).map fun shelf =>
      { s with patterns := shelf.items.getD [] }
  | "cache_dir", d =>
    (Overlay.overText s.cacheDirectory d).map fun cacheDirectory => { s with cacheDirectory }
  | "verbose", d => (Overlay.overBool s.verbose d).map fun verbose => { s with verbose }
  | "log_json", d => (Overlay.overBool s.logJson d).map fun logJson => { s with logJson }
  | _, _ => some s

/-- Settings after a YAML document is laid over them. A text without a document changes
nothing. -/
def overYaml? (s : Settings) (text : String) : Option Settings := do
  match ← Yaml.spot? text with
  | none => return s
  | some spot => Overlay.overRecord fieldNames overField s spot

/-- Settings as data. -/
def tree (s : Settings) : List (String × Datum) :=
  [ ("encoding", .int s.encoding.toInt)
  , ("timeout", .int s.timeout.toInt)
  , ("no_summaries", .bool s.noSummaries)
  , ("recursive_cuts", .bool s.recursiveCuts)
  , ("edge_implies_nodes", .bool s.edgeImpliesNodes)
  , ("produce_models", .bool s.produceModels)
  , ("report_format", .text s.reportFormat)
  , ("include", .list (s.patterns.map Datum.text))
  , ("cache_dir", .text s.cacheDirectory)
  , ("verbose", .bool s.verbose)
  , ("log_json", .bool s.logJson) ]

/-- Settings in YAML. -/
def yaml (s : Settings) : String :=
  Yaml.write 4 s.tree

end Settings

end WorstCase
