/-!
# File errors

What can go wrong with a file: which operation failed, on which path as the program gave it, and
why.
-/

namespace WorstCase

/-- Why an operation on a file fails. -/
inductive FileCause where
  | missing
  | notDirectory
  | isDirectory
  | occupied
  | tooManyLinks
  /-- A component or the whole path has too many octets. -/
  | nameTooLong
  /-- A path holds the octet zero. -/
  | invalid
  /-- Anything else, in the words of the system. -/
  | other (text : String)
deriving DecidableEq, Repr

/-- The wording of a cause. -/
def FileCause.text : FileCause → String
  | missing => "no such file or directory"
  | notDirectory => "not a directory"
  | isDirectory => "is a directory"
  | occupied => "file exists"
  | tooManyLinks => "too many levels of symbolic links"
  | nameTooLong => "file name too long"
  | invalid => "invalid argument"
  | other text => text

/-- The operations on files. -/
inductive FileOperation where
  | openFile
  | readFile
  | makeDirectory
deriving DecidableEq, Repr

/-- The name of an operation. -/
def FileOperation.name : FileOperation → String
  | .openFile => "open"
  | .readFile => "read"
  | .makeDirectory => "mkdir"

/-- An operation on a file that failed. -/
structure FileError where
  operation : FileOperation
  path : String
  cause : FileCause
deriving DecidableEq, Repr

/-- The wording of an error. -/
def FileError.message (e : FileError) : String :=
  e.operation.name ++ " " ++ e.path ++ ": " ++ e.cause.text

end WorstCase
