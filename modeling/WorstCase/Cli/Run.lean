import WorstCase.Cli.Error

/-!
# Running commands

Each command is a script. A command line is understood first, then the settings are loaded, and
flags are laid over them; only then the command runs. What a command prints goes to the output,
what it logs and its error go to the channel for errors.
-/

namespace WorstCase.Cli

/-- Scripts of commands. -/
abbrev Action (α : Type) := ExceptT Error (Script Tracker) α

/-- The answer of a script, or its error as one of a command. -/
def orFail {ε α : Type} (wrap : ε → Error) (s : Script Tracker (Except ε α)) : Action α :=
  ExceptT.mk do return (← s).mapError wrap

/-- A result that needs no script. -/
def orThrow {α : Type} (r : Except Error α) : Action α :=
  ExceptT.mk (pure r)

/-- Prints to the output. -/
def print (s : String) : Action Unit :=
  ExceptT.lift (Script.print .output s)

/-- What a command works with. -/
structure Session where
  arguments : Arguments
  settings : Settings
deriving Repr

namespace Session

/-- The logger of a session. -/
def logger (s : Session) : Log.Logger :=
  { threshold := if s.settings.verbose then Log.Level.debug.rank else Log.Level.info.rank
    json := s.settings.logJson }

/-- Logs a message for the user. -/
def inform (s : Session) (message : String) (fields : List (String × Log.Value)) : Action Unit :=
  ExceptT.lift (Log.sayAt (some s.logger) .info message fields)

/-- Loads the settings and lays the shared flags over them. -/
def start (a : Arguments) : Action Session := do
  let path := a.text "config"
  let settings ← orFail .settings
    (if path = "" then Settings.load else Settings.loadFile path)
  return {
    arguments := a
    settings := { settings with
      verbose := a.truthOr "verbose" settings.verbose
      logJson := a.truthOr "log-json" settings.logJson } }

/-- The options of the pipeline: the settings, with the flags laid over them. -/
def pipelineOptions (s : Session) : Except Error PipelineOptions := do
  let a := s.arguments
  let c := s.settings
  let encoding := a.intOr "encoding" c.encoding
  let timeout := a.intOr "timeout" c.timeout
  if (Encoding.ofCode? encoding.toInt).isNone then throw (.encoding encoding)
  if timeout < 0 then throw (.timeout timeout)
  return {
    encoding := encoding.toInt
    timeout
    noSummaries := a.truthOr "no-summaries" c.noSummaries
    recursiveCuts := a.truthOr "recursive-cuts" c.recursiveCuts
    edgeImpliesNodes := a.truthOr "edge-implies-nodes" c.edgeImpliesNodes
    produceModels := a.truthOr "produce-models" c.produceModels
    matchingFile := a.text "matching"
    cutsFile := a.text "cuts"
    labelMapFile := a.text "smt-matching"
    longestPathFile := a.text "print-longest-syntactic"
    cutListFile := a.text "print-cuts-list" }

/-- The format of reports: that of the flag if it is given, and that of the settings if not. -/
def reportFormat (s : Session) : Except Error ReportFormat :=
  let name := if (s.arguments.value? "format").isSome then s.arguments.text "format"
    else s.settings.reportFormat
  match ReportFormat.parse? name with
  | some f => .ok f
  | none => .error (.reportFormat name)

/-- Runs the pipeline on an input. -/
def runPipeline (s : Session) (o : PipelineOptions) (input : String) : Action Generated :=
  orFail .generate (Pipeline.generateFile o (some s.logger) false input).run

end Session

/-- The report on a generated problem. -/
def reportOn (generated : Generated) (input : String) : Except Error Report := do
  let r ← (Report.ofGraph generated.graph).mapError .report
  return (r.withInput input generated.contents).withEncoding generated.stats.encoding.name

/-- Writes bytes to the file of a report, or to the channel for errors if the file is `-`. -/
def writeReport (path : String) (bytes : ByteArray) : Action Unit :=
  if path = "-" then ExceptT.lift (Script.emit .errors bytes)
  else orFail .createReport (Script.writeFile path bytes)

/-! ### Commands -/

/-- Generates the problem of an input. -/
def generate (s : Session) (input : String) : Action Unit := do
  let o ← orThrow s.pipelineOptions
  let generated ← s.runPipeline o input
  orFail .writeProblem (Pipeline.writeProblem generated.problem (s.arguments.text "output")).run
  s.inform "generated problem" [("input", .text input),
    ("encoding", .shown generated.stats.encoding.name), ("cuts", .int generated.stats.cuts),
    ("longest_path", .text (Decimal.grouped generated.stats.longest.toInt)),
    ("paths", .text (Decimal.grouped generated.stats.paths))]
  let path := s.arguments.text "report"
  if path ≠ "" then
    let format ← orThrow s.reportFormat
    let report ← orThrow (reportOn generated input)
    writeReport path (report.write format)

/-- Reports on an input. -/
def inspect (s : Session) (input : String) : Action Unit := do
  let o ← orThrow s.pipelineOptions
  let format ← orThrow s.reportFormat
  let generated ← s.runPipeline o input
  let report ← orThrow (reportOn generated input)
  ExceptT.lift (Script.emit .output (report.write format))

/-- Examines the graph of an input. -/
def doctor (s : Session) (input : String) : Action Unit := do
  let (combined, _) ← orFail .input (Input.readCombined input)
  let g ← orThrow ((Graph.ofListing combined.listing).mapError .listing)
  let examination := Health.examine g
  let name := s.arguments.text "format"
  match Health.Format.ofName? name with
  | none => throw (.examinationFormat name)
  | some format =>
    print (examination.write input format)
    if !examination.isHealthy then throw (.unhealthy input)

/-- The line about an item of a batch. -/
def itemLine (i : BatchItem) : String :=
  match i.error with
  | some e => Text.spelled "✗ " ++ i.input ++ ": " ++ e.message ++ "\n"
  | none =>
    if i.skipped then "- " ++ i.input ++ " (up to date)\n"
    else Text.spelled "✓ " ++ i.input ++ " -> " ++ i.output ++ "\n"

/-- Generates the problems of all inputs below a directory. -/
def batch (s : Session) (root : String) : Action Unit := do
  let o ← orThrow s.pipelineOptions
  let options : BatchOptions := {
    patterns := s.settings.patterns
    outputDirectory := s.arguments.text "output-dir"
    cacheDirectory := s.settings.cacheDirectory
    force := s.arguments.truthOr "force" false }
  let summary ← orFail .batch (Batch.run o options (some s.logger) false root)
  print (String.join (summary.items.map itemLine))
  s.inform "batch complete" [("generated", .int summary.generated),
    ("skipped", .int summary.skipped), ("failed", .int summary.failed),
    ("pruned", .int summary.pruned)]
  if summary.failed ≠ 0 then throw (.jobs summary.failed summary.items.length)

/-- What the program can do. -/
def usage : String :=
  "wcet encodes a loop-free control-flow graph with block costs into an SMT-LIB2\n" ++
  "optimization problem whose optimum bounds the worst-case execution time.\n\n" ++
  "Usage:\n  wcet [command] [flags]\n\nCommands:\n" ++
  "  generate    Generate the optimization problem for one input\n" ++
  "  inspect     Show graph statistics\n" ++
  "  doctor      Check the structural assumptions on a graph\n" ++
  "  batch       Generate problems for every input under a directory\n" ++
  "  init        Create a configuration file interactively\n"

/-- Runs a command with its arguments. -/
def runCommand (c : Command) (a : Arguments) : Action Unit := do
  if !c.arity.allows a.words.length then throw (.wordCount c.arity a.words.length)
  match c with
  | .generate => generate (← Session.start a) (a.words.headD "")
  | .inspect => inspect (← Session.start a) (a.words.headD "")
  | .doctor => doctor (← Session.start a) (a.words.headD "")
  | .batch => batch (← Session.start a) (a.words.headD ".")
  | .init => throw .noTerminal
  | .help => print usage

/-- Runs a command line. -/
def runWords (words : List String) : Action Unit := do
  let (command, words) ← orThrow ((Command.find words).mapError .unknownCommand)
  let flags := match command with
    | some c => c.flags
    | none => Command.sharedFlags ++ [Command.helpFlag]
  let a ← orThrow ((parse flags words).mapError .flag)
  match command with
  | none => print usage
  | some c => if a.truthOr Command.helpFlag.name false then print usage else runCommand c a

/-- Runs a command line and prints its error, if there is one. -/
def run (words : List String) : Script Tracker (Option Error) := do
  match ← (runWords words).run with
  | .ok () => return none
  | .error e =>
    Script.print .errors e.print
    return some e

end WorstCase.Cli
