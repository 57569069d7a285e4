import WorstCase.Ascending
import WorstCase.Batch.Job

/-!
# Batches

A batch scans a directory for inputs and runs a job for each of them. A job that fails does not
stop the others. At the end the tracker drops the inputs that are gone and is stored for the next
batch. A tracker that cannot be read is put aside with a warning; the batch then generates all
problems.

A batch that was canceled still runs its jobs, which fail early, and then fails itself without
storing the tracker.
-/

namespace WorstCase

/-- Why a batch fails as a whole. -/
inductive BatchError where
  | scan (cause : Scan.ScanError)
  | save (cause : TrackerError)
  | canceled
deriving Repr

/-- The wording of an error. -/
def BatchError.message : BatchError → String
  | scan cause => cause.message
  | save cause => "saving batch cache: " ++ cause.message
  | canceled => GenerateError.canceled.message

/-- What became of a batch. -/
structure BatchSummary where
  /-- In the order of the inputs. -/
  items : List BatchItem
  /-- The number of inputs that the tracker dropped. -/
  pruned : Nat
deriving Repr

namespace BatchSummary

/-- The number of jobs that failed. -/
def failed (s : BatchSummary) : Nat :=
  s.items.countP fun i => i.error.isSome

/-- The number of problems that were up to date. -/
def skipped (s : BatchSummary) : Nat :=
  s.items.countP fun i => i.error.isNone && i.skipped

/-- The number of problems that were generated. -/
def generated (s : BatchSummary) : Nat :=
  s.items.countP fun i => i.error.isNone && !i.skipped

end BatchSummary

namespace Batch

/-- The options of the scan for inputs. -/
def scanOptions (b : BatchOptions) : Scan.Options :=
  if b.patterns.isEmpty then {} else { patterns := b.patterns }

/-- Where the tracker of a batch is stored. -/
def store (b : BatchOptions) (root : String) : Tracker.Store :=
  let directory := if b.cacheDirectory = "" then ({} : Tracker.Store).directory
    else b.cacheDirectory
  { directory := if directory.startsWith "/" then directory else Path.join [root, directory] }

/-- The stored tracker, or an empty one if it cannot be read. -/
def loadTracker (logger : Option Log.Logger) (s : Tracker.Store) : Script Tracker Tracker := do
  match ← Tracker.load? s with
  | .ok t => return t.getD {}
  | .error e =>
    Log.sayAt logger .warn "ignoring unreadable batch cache" [("dir", .text s.directory),
      ("err", .shown e.message)]
    return {}

/-- Runs jobs one after the other. -/
def runJobs (job : Scan.Found → Script Tracker BatchItem) :
    List Scan.Found → Script Tracker (List BatchItem)
  | [] => return []
  | input :: rest => do
    let item ← job input
    return item :: (← runJobs job rest)

/-- The items of a batch in the order of their inputs. -/
def sortItems (items : List BatchItem) : List BatchItem :=
  sortBy (fun a b => decide (a.input ≤ b.input)) items

/-- Drops from the tracker the inputs that are gone: how many there were. -/
def pruneTo (inputs : List Scan.Found) : Script Tracker Nat := do
  let before ← Script.state
  let after := before.prune (inputs.map (·.full))
  Script.modify fun _ => after
  return before.size - after.size

/-- Runs a batch over a directory. -/
def run (o : PipelineOptions) (b : BatchOptions) (logger : Option Log.Logger) (canceled : Bool)
    (root : String) : Script Tracker (Except BatchError BatchSummary) := do
  match ← Scan.scan (scanOptions b) root with
  | .error e => return .error (.scan e)
  | .ok inputs =>
    let s := store b root
    let tracker ← loadTracker logger s
    Script.modify fun _ => tracker
    let items ← runJobs (job o b logger canceled) inputs
    if canceled && !inputs.isEmpty then return .error .canceled
    let pruned ← pruneTo inputs
    match ← (← Script.state).save s with
    | .error e => return .error (.save e)
    | .ok () => return .ok { items := sortItems items, pruned }

end Batch

end WorstCase
