import WorstCase.Archive.Unpack
import WorstCase.Files.Script
import WorstCase.Text.Octets
import WorstCase.Text.Pieces
import WorstCase.Text.Quoted

/-!
# Reading inputs

Inputs are files, which may be packed. A file that cannot be opened or read is a **resource
error**; a file that is read but cannot be unpacked is another one.

A combined input is a formula header and the listing of a graph, with a separator between them.
If the separator occurs several times, the last one counts; an input without it is all listing.
-/

namespace WorstCase

/-! ### Combined inputs -/

/-- A combined input, taken apart. -/
structure Combined where
  header : String := ""
  listing : String
deriving DecidableEq, Repr, Inhabited

namespace Combined

/-- What stands between the header and the listing. -/
def separator : String := "-------"

/-- Takes a combined input apart. -/
def ofText (s : String) : Combined :=
  match Text.cutLast? separator.toList s.toList with
  | some (header, listing) => { header := String.ofList header, listing := String.ofList listing }
  | none => { listing := s }

end Combined

/-! ### Errors -/

/-- A file that cannot be opened or read. -/
structure ResourceError where
  name : String
  cause : FileError
deriving DecidableEq, Repr

namespace ResourceError

/-- The wording of an error. -/
def message (e : ResourceError) : String :=
  "file " ++ Text.quoted e.name ++ " does not exist or can not be read"

/-- Whether the file does not exist. -/
def isMissing (e : ResourceError) : Bool :=
  e.cause.cause = .missing

end ResourceError

/-- Why an input cannot be read. -/
inductive InputError where
  | resource (cause : ResourceError)
  /-- A file was opened but could not be read. -/
  | file (name : String) (cause : FileError)
  /-- A file could not be unpacked. -/
  | packed (name : String) (cause : Archive.UnpackError)
  /-- The contents of an open file could not be unpacked. -/
  | contents (cause : Archive.UnpackError)
deriving DecidableEq, Repr

/-- The wording of an error. -/
def InputError.message : InputError → String
  | .resource cause => cause.message
  | .file name cause => "reading " ++ name ++ ": " ++ cause.message
  | .packed name cause => "reading " ++ name ++ ": " ++ cause.message
  | .contents cause => cause.message

/-! ### Reading -/

namespace Input

variable {σ : Type}

/-- The contents of a file, unpacked. -/
def read (path : String) : Script σ (Except InputError ByteArray) := do
  match ← Script.readFile path with
  | .error e => return .error (.resource ⟨path, e⟩)
  | .ok bytes => return (Archive.unpack bytes).mapError (.packed path)

/-- The contents of a file, unpacked while it is read: what is wrong with the first bytes is
noticed when the file is opened, and what is wrong later is no longer about the file. -/
def stream (path : String) : Script σ (Except InputError ByteArray) := do
  match ← Script.readFile path with
  | .error e =>
    return .error (if e.operation = .openFile then .resource ⟨path, e⟩ else .file path e)
  | .ok bytes =>
    return (Archive.unpack bytes).mapError fun e =>
      if e.isEarly then .packed path e else .contents e

/-- The combined input in a file, and its contents. -/
def readCombined (path : String) : Script σ (Except InputError (Combined × ByteArray)) := do
  match ← read path with
  | .error e => return .error e
  | .ok bytes => return .ok (.ofText (Text.ofBytes bytes), bytes)

end Input

end WorstCase
