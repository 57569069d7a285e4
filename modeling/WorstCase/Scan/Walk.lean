import WorstCase.Files.Path
import WorstCase.Files.Script
import WorstCase.Scan.Ignore
import WorstCase.Text.LetterCase
import WorstCase.Text.Octets

/-!
# Scanning for inputs

A scan goes through a directory and everything below it and finds the inputs: the regular files
that match one of the patterns to include and that no ignore file leaves out.

The walk meets a directory before what is in it, and siblings in the order of their names. The
patterns of an ignore file hold from the moment when its directory is met, for the rest of the
walk. A directory that is hidden, excluded by its name or ignored is not entered. An ignore file
below the root that cannot be used counts as empty; one in the root is an error.

The matching file and the cuts file next to an input, which have its stem, belong to it.

The name of an input tells how it is stored: plain, or compressed with gzip or Zstandard. Its
**stem** is its name without the suffix of the compression and without its extension.
-/

/-! ### Kinds of inputs -/

namespace WorstCase.Scan

/-- How an input is stored. -/
inductive Storage where
  | plain
  | gzip
  | zstd
deriving DecidableEq, Repr

/-- The name of a kind of storage. -/
def Storage.name : Storage → String
  | plain => "plain"
  | gzip => "gzip"
  | zstd => "zstd"

/-- The compression that an extension stands for, in any letter case. -/
def compressionOf? (extension : String) : Option Storage :=
  match Text.lower extension with
  | ".gz" => some .gzip
  | ".zst" => some .zstd
  | _ => none

/-- How an input of this name is stored. -/
def storageOf (name : String) : Storage :=
  (compressionOf? (Path.extension name)).getD .plain

/-- The stem of a name. -/
def stem (name : String) : String :=
  Path.dropExtension (match compressionOf? (Path.extension name) with
    | some _ => Path.dropExtension name
    | none => name)

/-! ### The walk -/

/-- What to look for. -/
structure Options where
  /-- The patterns of which an input matches at least one. -/
  patterns : List String := ["**/*.wcet", "**/*.wcet.gz", "**/*.wcet.zst"]
  /-- Whether names that begin with a dot are passed over. -/
  skipHidden : Bool := true
  /-- The names of directories that are never entered, in any letter case. -/
  excludes : List String := [".git", ".wcet", "node_modules", "vendor"]
  /-- The name of ignore files; there are none if it is empty. -/
  ignoreFile : String := ".wcetignore"
deriving Repr, Inhabited

/-- An input that was found. -/
structure Found where
  /-- Its path from the root of the scan on. -/
  path : String
  /-- Its absolute path. -/
  full : String
  storage : Storage
  size : Nat
  /-- The absolute path of its matching file, or nothing. -/
  matching : String := ""
  /-- The absolute path of its cuts file, or nothing. -/
  cuts : String := ""
deriving DecidableEq, Repr

/-- Why a scan fails. -/
inductive ScanError where
  /-- A pattern to include is no glob. -/
  | pattern (text : String)
  /-- The ignore file of the root cannot be read. -/
  | ignoreFile (cause : FileError)
  /-- The ignore file of the root cannot be used. -/
  | ignore (cause : IgnoreError)
deriving DecidableEq, Repr

/-- The wording of an error. -/
def ScanError.message : ScanError → String
  | pattern text => "invalid include pattern " ++ Text.quoted text
  | ignoreFile cause => "loading ignore patterns: " ++ cause.message
  | ignore cause => "loading ignore patterns: " ++ cause.message

section

variable {σ : Type}

/-! ### Companions -/

/-- The path of the file that has the stem of an input and this extension, or nothing if there is
none. -/
def companion (full extension : String) : Script σ String := do
  let (directory, name) := Path.splitLast full
  let path := directory ++ stem name ++ extension
  return if ← Script.isFile path then path else ""

/-! ### Ignore files -/

/-- The patterns of the ignore file in a directory, given by its absolute path and by its path
from the root of the scan on. -/
def loadIgnore (o : Options) (directory base : String) :
    Script σ (Except ScanError (List IgnorePattern)) := do
  if o.ignoreFile = "" then return .ok []
  match ← Script.readFile (Path.join [directory, o.ignoreFile]) with
  | .error e => return if e.cause = .missing then .ok [] else .error (.ignoreFile e)
  | .ok bytes => return (ignorePatterns (Text.ofBytes bytes) base).mapError .ignore

/-! ### Walking -/

/-- What a walk knows. -/
structure Walk where
  ignored : List IgnorePattern
  /-- The directory that was last passed over. -/
  passed : Option (List String) := none
  /-- The inputs so far, last first. -/
  found : List Found := []

/-- Whether an input may have this path. -/
def Options.includes (o : Options) (path : String) : Bool :=
  o.patterns.any fun p => Glob.isMatch p path

/-- Whether directories of this name are never entered. -/
def Options.isExcluded (o : Options) (name : String) : Bool :=
  o.excludes.any fun e => Text.foldCase e = Text.foldCase name

/-- The walk after it meets something, given by its path from the root on. -/
def visit (o : Options) (root : String) (w : Walk) (place : List String) (kind : FileKind) :
    Script σ Walk := do
  let name := place.getLast?.getD ""
  let path := Text.joinWith "/" place
  let full := Path.join (root :: place)
  if w.passed.any (·.isPrefixOf place) then return w
  else if o.skipHidden && name.toList.head? = some '.' then
    return if kind = .directory then { w with passed := some place } else w
  else
    match kind with
    | .directory =>
      if o.isExcluded name || ignores w.ignored (path ++ "/") then
        return { w with passed := some place }
      else
        match ← loadIgnore o full path with
        | .ok more => return { w with ignored := w.ignored ++ more }
        | .error _ => return w
    | .file size =>
      if o.includes path && !ignores w.ignored path then
        let matching ← companion full ".matching"
        let cuts ← companion full ".cuts"
        let found : Found := { path, full, storage := storageOf name, size, matching, cuts }
        return { w with found := found :: w.found }
      else return w
    | .other => return w

/-- The walk after it meets one thing after another. -/
def visitAll (o : Options) (root : String) (w : Walk) :
    List (List String × FileKind) → Script σ Walk
  | [] => return w
  | (place, kind) :: rest => do
    let w ← visit o root w place kind
    visitAll o root w rest

/-- The inputs below a directory, in the order of their paths. -/
def scan (o : Options) (root : String) : Script σ (Except ScanError (List Found)) := do
  match o.patterns.find? fun p => !Glob.isValid p with
  | some p => return .error (.pattern p)
  | none =>
    let root := Path.absolute (← Script.workingDirectory) root
    match ← loadIgnore o root "" with
    | .error e => return .error e
    | .ok ignored =>
      let w ← visitAll o root { ignored } (← Script.listOf root)
      return .ok (sortBy (fun a b => decide (a.path ≤ b.path)) w.found.reverse)

end

end WorstCase.Scan
