import WorstCase.Data.Msgpack
import WorstCase.Files.Script
import WorstCase.Text.Decimal
import WorstCase.Tracker.Basic

/-!
# Stored trackers

A tracker is stored in a file between two runs, in MessagePack: a version and the entries in
order. A file of another version is not read, and a missing file stands for a tracker that
remembers nothing.
-/

namespace WorstCase

/-- Why a stored tracker cannot be read or written. -/
inductive TrackerError where
  /-- The data is no tracker. -/
  | malformed
  /-- The tracker is of a version that is not known. -/
  | version (number : Int64)
  | openFile (cause : FileError)
  | makeDirectory (cause : FileError)
  | createFile (cause : FileError)
deriving DecidableEq, Repr

/-- The wording of an error. -/
def TrackerError.message : TrackerError → String
  | .malformed => "failed to decode batch state: malformed data"
  | .version number => "unsupported batch state version " ++ Decimal.text number.toInt
  | .openFile cause => "failed to open cache file: " ++ cause.message
  | .makeDirectory cause => "failed to create cache directory: " ++ cause.message
  | .createFile cause => "failed to create cache file: " ++ cause.message

/-! ### Bytes -/

namespace TrackerEntry

/-- An entry as a MessagePack value. -/
def packed (e : TrackerEntry) : Msg :=
  .map [(.ofText "input", .ofText e.input), (.ofText "digest", .ofText e.digest),
    (.ofText "output", .ofText e.output), (.ofText "built", .int64 e.built)]

/-- A field read into an entry. -/
def putPacked (e : TrackerEntry) : String × Msg → Option TrackerEntry
  | ("input", m) => m.asText?.map fun input => { e with input }
  | ("digest", m) => m.asText?.map fun digest => { e with digest }
  | ("output", m) => m.asText?.map fun output => { e with output }
  | ("built", m) => m.asInt?.map fun built => { e with built }
  | _ => some e

/-- A MessagePack value read into an entry. -/
def overPacked (e : TrackerEntry) : Msg → Option TrackerEntry :=
  Msg.overRecord ["input", "digest", "output", "built"] {} putPacked e

end TrackerEntry

/-- What is stored. -/
structure StoredTracker where
  version : Int64 := 0
  entries : Shelf TrackerEntry := {}

namespace StoredTracker

/-- A field read into what is stored. -/
def putPacked (s : StoredTracker) : String × Msg → Option StoredTracker
  | ("version", m) => m.asInt?.map fun version => { s with version }
  | ("entries", m) =>
    (m.overShelf {} TrackerEntry.overPacked s.entries).map fun entries => { s with entries }
  | _ => some s

/-- What is stored in a MessagePack value. -/
def ofPacked? (m : Msg) : Option StoredTracker :=
  m.overRecord ["version", "entries"] {} putPacked {}

end StoredTracker

namespace Tracker

/-- The version of stored trackers. -/
def version : Int64 := 1

/-- The bytes of a stored tracker. -/
def toBytes (t : Tracker) : List UInt8 :=
  (Msg.map [(.ofText "version", .int version.toInt),
    (.ofText "entries", .array (t.entries.map TrackerEntry.packed))]).encode

/-- A tracker from its bytes. -/
def ofBytes (bytes : List UInt8) : Except TrackerError Tracker :=
  match (Msg.decode? bytes).bind StoredTracker.ofPacked? with
  | none => .error .malformed
  | some s =>
    if s.version = version then .ok (ofEntries (s.entries.items.getD []))
    else .error (.version s.version)

/-! ### Files -/

/-- Where trackers are stored. -/
structure Store where
  directory : String := ".wcet/cache"
  file : String := "batch.msgpack"
deriving Repr, Inhabited

/-- The path of a stored tracker. -/
def Store.path (s : Store) : String :=
  Path.join [s.directory, s.file]

variable {σ : Type}

/-- Stores a tracker. -/
def save (t : Tracker) (store : Store) : Script σ (Except TrackerError Unit) := do
  match ← Script.makeDirs store.directory with
  | .error e => return .error (.makeDirectory e)
  | .ok () =>
    match ← Script.writeFile store.path ⟨t.toBytes.toArray⟩ with
    | .error e => return .error (.createFile e)
    | .ok () => return .ok ()

/-- A stored tracker, or `none` if there is none. -/
def load? (store : Store) : Script σ (Except TrackerError (Option Tracker)) := do
  match ← Script.readFile store.path with
  | .ok bytes => return (ofBytes bytes.toList).map some
  | .error e =>
    return if e.cause = .missing then .ok none
      else if e.operation = .readFile then .error .malformed
      else .error (.openFile e)

/-- Whether the problem of an input must be generated again: it was never generated, it was
generated from something else, or it is no longer there. -/
def isStale (t : Tracker) (input digest : String) : Script σ Bool :=
  match t.freshness input digest with
  | .stale => return true
  | .fresh => return false
  | .ifPresent output => return (← Script.kindOf output).isNone

end Tracker

end WorstCase
