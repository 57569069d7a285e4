import WorstCase.Digest
import WorstCase.Pipeline.Generate
import WorstCase.Scan.Walk
import WorstCase.Tracker.Store

/-!
# Jobs

A job brings the problem of one input up to date. The digest of an input stands for everything
that its problem depends on: the contents of the input, the options of the pipeline and the
contents of the files that accompany it. If the tracker remembers that digest and the problem is
still there, nothing is left to do. Otherwise the problem is generated and written, and the
tracker remembers it; an input that no problem can be generated from is forgotten.

Jobs share a tracker. Each job looks at it once and changes it at most once, in single steps.
-/

namespace WorstCase

/-- What a batch of jobs does. -/
structure BatchOptions where
  /-- The patterns of the inputs; if there are none, the usual ones. -/
  patterns : List String := []
  /-- The directory that the problems are written to. If it is empty, each problem is written next
  to its input. -/
  outputDirectory : String := ""
  /-- The directory of the tracker, from the root of the batch on. -/
  cacheDirectory : String := ""
  /-- Whether problems are generated even if they are up to date. -/
  force : Bool := false
deriving DecidableEq, Repr, Inhabited

/-- Why a job fails. -/
inductive JobError where
  | digest (cause : DigestError)
  | generate (cause : GenerateError)
deriving Repr

/-- The wording of an error. -/
def JobError.message : JobError → String
  | digest cause => cause.message
  | generate cause => cause.message

/-- What became of one input. -/
structure BatchItem where
  input : String
  output : String
  /-- Whether the problem was up to date. -/
  skipped : Bool := false
  error : Option JobError := none
deriving Repr

namespace Batch

/-- The file name extension of problems. -/
def problemExtension : String := ".smt2"

/-- Where the problem of an input is written. -/
def outputPath (outputDirectory : String) (input : Scan.Found) : String :=
  let name := Scan.stem (Path.base input.full) ++ problemExtension
  if outputDirectory = "" then Path.join [Path.directory input.full, name]
  else Path.join [outputDirectory, Path.directory input.path, name]

/-! ### Digests -/

/-- A truth value as it stands in a fingerprint. -/
def truthText (b : Bool) : String := if b then "true" else "false"

/-- A text that stands for the options that a problem depends on. -/
def fingerprint (o : PipelineOptions) : String :=
  "enc=" ++ Decimal.text o.encoding ++ " edge-implies-nodes=" ++ truthText o.edgeImpliesNodes ++
    " no-summaries=" ++ truthText o.noSummaries ++
    " recursive-cuts=" ++ truthText o.recursiveCuts ++
    " timeout=" ++ Decimal.text o.timeout.toInt ++
    " produce-models=" ++ truthText o.produceModels

/-- The texts that are hashed after the contents of an input: the fingerprint of the options, and
the digests of its matching and cuts files, which are empty if there is no such file. -/
def salts (o : PipelineOptions) (matching cuts : String) : List String :=
  [fingerprint o, matching, cuts]

/-- The digest of a file that may accompany an input. -/
def companionDigest (path : String) : Script Tracker (Except DigestError String) :=
  if path = "" then return .ok "" else Digest.ofFile path []

/-- The digest of an input, with what accompanies it. -/
def inputDigest (o : PipelineOptions) (input : Scan.Found) :
    ExceptT DigestError (Script Tracker) String := do
  let matching ← ExceptT.mk (companionDigest input.matching)
  let cuts ← ExceptT.mk (companionDigest input.cuts)
  ExceptT.mk (Digest.ofFile input.full (salts o matching cuts))

/-! ### Jobs -/

/-- The options for one input: the files that accompany it, and no files that show the graph. -/
def jobOptions (o : PipelineOptions) (input : Scan.Found) : PipelineOptions :=
  { o with
    matchingFile := input.matching
    cutsFile := input.cuts
    labelMapFile := ""
    longestPathFile := ""
    cutListFile := "" }

/-- Generates the problem of an input and writes it. -/
def build (o : PipelineOptions) (logger : Option Log.Logger) (canceled : Bool)
    (input : Scan.Found) (digest output : String) : Script Tracker (Option JobError) := do
  match ← (Pipeline.generateFile (jobOptions o input) logger canceled input.full).run with
  | .error e =>
    Script.modify fun t => t.forget input.full
    return some (.generate e)
  | .ok generated =>
    match ← (Pipeline.writeProblem generated.problem output).run with
    | .error e => return some (.generate e)
    | .ok () =>
      let built := (← Script.time).seconds
      Script.modify fun t => t.record { input := input.full, digest, output, built }
      Log.sayAt logger .debug "generated" [("input", .text input.path), ("output", .text output),
        ("cuts", .int generated.stats.cuts)]
      return none

/-- Whether the problem of an input has to be generated. -/
def isDue (force : Bool) (input digest : String) : Script Tracker Bool := do
  if force then return true
  (← Script.state).isStale input digest

/-- Brings the problem of an input up to date. -/
def attempt (o : PipelineOptions) (b : BatchOptions) (logger : Option Log.Logger)
    (canceled : Bool) (input : Scan.Found) : Script Tracker BatchItem := do
  let output := outputPath b.outputDirectory input
  match ← (inputDigest o input).run with
  | .error e => return { input := input.path, output, error := some (.digest e) }
  | .ok digest =>
    if ← isDue b.force input.full digest then
      return { input := input.path, output,
               error := ← build o logger canceled input digest output }
    else
      Log.sayAt logger .debug "up to date" [("input", .text input.path)]
      return { input := input.path, output, skipped := true }

/-- Brings the problem of an input up to date and logs if that fails. -/
def job (o : PipelineOptions) (b : BatchOptions) (logger : Option Log.Logger) (canceled : Bool)
    (input : Scan.Found) : Script Tracker BatchItem := do
  let item ← attempt o b logger canceled input
  match item.error with
  | none => return item
  | some e =>
    Log.sayAt logger .error "generation failed" [("input", .text input.path),
      ("err", .shown e.message)]
    return item

end Batch

end WorstCase
