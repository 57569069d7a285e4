import WorstCase.Encoding.Emit
import WorstCase.Formula.Header
import WorstCase.Graph.Cut
import WorstCase.Graph.ReadError
import WorstCase.Input.Read

/-!
# Errors of the pipeline

Why no problem is generated from an input, by the stage that fails.
-/

namespace WorstCase

/-- Why no problem is generated. -/
inductive GenerateError where
  /-- The input cannot be read. -/
  | input (cause : InputError)
  | header (cause : HeaderError)
  | listing (cause : ReadError)
  | matchingFile (cause : InputError)
  | matching (cause : LineError)
  | cutsFile (cause : InputError)
  | cuts (cause : LineError)
  /-- A cut cannot be added. -/
  | cut (cause : CutFailure)
  /-- The graph is not as it should be. -/
  | graph (cause : Violation)
  | makeDirectory (path : String) (cause : FileError)
  | createFile (cause : ResourceError)
  /-- What should be written to a file cannot be computed. -/
  | contents (path : String) (cause : Violation)
  | emit (code : Int) (cause : EmitError)
  | canceled
  /-- An error with the input that it is about. -/
  | within (path : String) (cause : GenerateError)
deriving Repr

/-- The wording of an error. -/
def GenerateError.message : GenerateError → String
  | .input cause => cause.message
  | .header cause => "loading formula header: " ++ cause.message
  | .listing cause => cause.message
  | .matchingFile cause => "matching file: " ++ cause.message
  | .matching cause => cause.message
  | .cutsFile cause => "cuts file: " ++ cause.message
  | .cuts cause => cause.message
  | .cut cause => cause.message
  | .graph cause => cause.message
  | .makeDirectory path cause => "creating " ++ path ++ ": " ++ cause.message
  | .createFile cause => cause.message
  | .contents path cause => "writing " ++ path ++ ": " ++ cause.message
  | .emit code cause => "emitting " ++ Encoding.codeName code ++ " encoding: " ++ cause.message
  | .canceled => "context canceled"
  | .within path cause => path ++ ": " ++ cause.message

end WorstCase
