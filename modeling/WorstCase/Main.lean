import Std.Time.Format
import WorstCase.Cli.Run

/-!
# The program

Runs a command line on the files of the machine. This is the only part of the program that
touches them: it carries out the steps of a script one by one, and decides nothing. The machine
hands over names and words as characters, and the program takes the octets that spell them.
-/

namespace WorstCase.Machine

/-- The name that the machine knows a path by. -/
def nameOf (path : String) : String :=
  String.ofList (Text.readable path.toList)

/-- Why the machine refused an operation on a file. -/
def causeOf : IO.Error → FileCause
  | .noFileOrDirectory .. => .missing
  | .alreadyExists .. => .occupied
  | .inappropriateType _ 20 _ => .notDirectory
  | .inappropriateType _ 21 _ => .isDirectory
  | e => .other (Text.spelled e.toString)

/-- The answer of the machine to an operation on a file. -/
def attempt {α : Type} (operation : FileOperation) (path : String) (action : IO α) :
    IO (Except FileError α) := do
  try return .ok (← action)
  catch e => return .error ⟨operation, path, causeOf e⟩

/-- The kind of what metadata are about. -/
def kindOf (m : IO.FS.Metadata) : FileKind :=
  match m.type with
  | .file => .file m.byteSize.toNat
  | .dir => .directory
  | _ => .other

/-- What a path leads to, if anything. -/
def kind? (path : String) : IO (Option FileKind) := do
  try return some (kindOf (← ((← IO.currentDir) / nameOf path).metadata))
  catch _ => return none

/-- Reads a file. A directory can be opened but not read. -/
def read (path : String) : IO (Except FileError ByteArray) := do
  if (← kind? path) = some .directory then return .error ⟨.readFile, path, .isDirectory⟩
  attempt .openFile path (IO.FS.readBinFile (nameOf path))

/-- Makes a directory together with those that it is in. -/
def makeDirectories : (fuel : Nat) → (path : String) → IO (Except FileError Unit)
  | 0, _ => return .ok ()
  | fuel + 1, path => do
    match ← kind? path with
    | some .directory => return .ok ()
    | some _ => return .error ⟨.makeDirectory, path, .notDirectory⟩
    | none =>
      let above ← (match Path.parentText? path with
        | some parent => makeDirectories fuel parent
        | none => return .ok ())
      match above with
      | .error e => return .error e
      | .ok () => attempt .makeDirectory path (IO.FS.createDir (nameOf path))

/-- Everything below a directory, to a depth, in the order of a walk. -/
def listing : (depth : Nat) → (path : String) → IO (List (List String × FileKind))
  | 0, _ => return []
  | depth + 1, path => do
    let directory := (← IO.currentDir) / nameOf path
    let entries ← (try
        if (← directory.symlinkMetadata).type == .dir then directory.readDir else pure #[]
      catch _ => pure #[])
    let names := entries.toList.map fun entry => Text.spelled entry.fileName
    let names := sortBy (fun a b => decide (a ≤ b)) names
    let parts ← names.mapM fun name => do
      let full := Path.join [path, name]
      let kind := kindOf (← ((← IO.currentDir) / nameOf full).symlinkMetadata)
      let below ← if kind = .directory then listing depth full else pure []
      return ([name], kind) :: below.map fun (place, kind) => (name :: place, kind)
    return parts.flatten

/-- The greatest depth of directories that is looked at. -/
def maxDepth : Nat := 4096

/-- The variables of the environment that the program knows. -/
def environment : IO (List (String × String)) := do
  let values ← ("HOME" :: Settings.variableNames).mapM fun name => do
    return (← IO.getEnv name).map fun value => (name, Text.spelled value)
  return values.filterMap id

/-- The time. -/
def now : IO Moment := do
  let text := (← Std.Time.PlainDateTime.now).format "uuuu-MM-dd HH:mm:ss"
  return ⟨text, Int64.ofInt (← Std.Time.Timestamp.now).toSecondsSinceUnixEpoch.val⟩

/-- The stream of a channel. -/
def stream : Channel → IO IO.FS.Stream
  | .output => IO.getStdout
  | .errors => IO.getStderr

/-- Carries out a script: its value, and the state that it leaves. -/
def perform {σ α : Type} : Script σ α → σ → IO (α × σ)
  | .done a, s => return (a, s)
  | .read path next, s => do perform (next (← read path)) s
  | .write path contents next, s => do
    perform (next (← attempt .openFile path (IO.FS.writeBinFile (nameOf path) contents))) s
  | .makeDirectories path next, s => do
    perform (next (← makeDirectories (path.length + 1) path)) s
  | .kind path next, s => do perform (next (← kind? path)) s
  | .listing path next, s => do perform (next (← listing maxDepth path)) s
  | .here next, s => do perform (next (Text.spelled (← IO.currentDir).toString)) s
  | .environment next, s => do perform (next (← environment)) s
  | .now next, s => do perform (next (← now)) s
  | .put channel bytes next, s => do
    (← stream channel).write bytes
    perform next s
  | .look next, s => perform (next s) s
  | .update f next, s => perform next (f s)

end WorstCase.Machine

/-- Runs the command line. -/
def main (words : List String) : IO UInt32 := do
  let words := words.map WorstCase.Text.spelled
  let (error, _) ← WorstCase.Machine.perform (WorstCase.Cli.run words) {}
  return if error.isSome then 1 else 0
