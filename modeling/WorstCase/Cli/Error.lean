import WorstCase.Batch.Run
import WorstCase.Cli.Command
import WorstCase.Health.Present
import WorstCase.Settings.Load

/-!
# Errors of commands

Why a command fails.
-/

namespace WorstCase.Cli

/-- Why a command fails. -/
inductive Error where
  | unknownCommand (name : String)
  | flag (cause : FlagError)
  /-- A command does not take so many plain words. -/
  | wordCount (expected : Command.Arity) (received : Nat)
  | settings (cause : Settings.Error)
  | encoding (code : Int64)
  | timeout (seconds : Int64)
  | input (cause : InputError)
  | listing (cause : ReadError)
  | generate (cause : GenerateError)
  | writeProblem (cause : GenerateError)
  | reportFormat (name : String)
  | report (cause : SummaryError)
  | createReport (cause : FileError)
  | examinationFormat (name : String)
  /-- The graph of an input is not healthy. -/
  | unhealthy (input : String)
  | batch (cause : BatchError)
  /-- Some jobs of a batch failed. -/
  | jobs (failed total : Nat)
  /-- A command needs a terminal. -/
  | noTerminal

/-- The suggestions for an unknown command. -/
def suggestionText (name : String) : String :=
  match Command.suggestions name with
  | [] => ""
  | names => "\n\nDid you mean this?\n" ++ String.join (names.map fun n => "\t" ++ n ++ "\n")

/-- The wording of an error. -/
def Error.message : Error → String
  | unknownCommand name =>
    "unknown command " ++ Text.quoted name ++ " for \"wcet\"" ++ suggestionText name
  | flag cause => cause.message
  | wordCount expected received =>
    "accepts " ++ expected.text ++ " arg(s), received " ++ Decimal.text received
  | settings cause => "loading config: " ++ cause.message
  | encoding code => Encoding.unknownMessage code.toInt
  | timeout seconds => "timeout must be non-negative, got " ++ Decimal.text seconds.toInt
  | input cause => cause.message
  | listing cause => cause.message
  | generate cause => cause.message
  | writeProblem cause => "writing problem: " ++ cause.message
  | reportFormat name => ReportFormat.unknownMessage name
  | report cause => "building report: " ++ cause.message
  | createReport cause => "creating report: " ++ cause.message
  | examinationFormat name => Health.Format.unknownMessage name
  | unhealthy name => "health check failed: " ++ name ++ " violates generation assumptions"
  | batch cause => cause.message
  | jobs failed total =>
    Decimal.text failed ++ " of " ++ Decimal.text total ++ " inputs failed"
  | noTerminal => "interactive prompt failed: there is no terminal"

/-- What is printed for an error. -/
def Error.print (e : Error) : String :=
  let hint := match e with
    | unknownCommand _ => "Run 'wcet --help' for usage.\n"
    | _ => ""
  "Error: " ++ e.message ++ "\n" ++ hint

end WorstCase.Cli
