import WorstCase.Proofs.Batch.Sharing
import WorstCase.Proofs.Files.Upkeep
import WorstCase.Proofs.Tracker.Stored

/-!
# Histories of batches

Batches over one root follow one another. Between them files are edited, made and deleted, and a
batch may be canceled while it runs (`Batch.Event`). All that one batch knows of those before it is
the tracker that it finds in the store (`Batch.remembered`).

What is remembered of an input is worth something as long as nobody else touches the output that was
recorded with it. An event is **fair** to the input if that is so (`Batch.Event.Fair`):

* what is not a batch that succeeds leaves the output alone or deletes it, and the stored tracker
  too;
* a batch that succeeds either leaves the output alone or generates the problem of the input, and
  then writes nothing else there.

A batch that stores its tracker stores what it remembers in the end (`Batch.remembered_run`). What
happens to one input in it, from its turn to the end, is put together in `Batch.Passage`.
-/

namespace WorstCase

open Files (Grows)
open Scan (Found)

/-! ### What is left alone -/

namespace Files

/-- What a path leads to stays, or is gone. -/
def Spares (fs fs' : Files) (here : List String) (path : String) : Prop :=
  fs'.find? here path = fs.find? here path ∨ fs'.find? here path = none

variable {fs fs' : Files} {here : List String} {path : String}

/-- What is there stays there in a tree that grows. -/
theorem Grows.find?_ne_none {made written : Set (List String)} (h : Grows made written fs fs')
    (hfind : fs.find? here path ≠ none) : fs'.find? here path ≠ none := by
  obtain ⟨e, he⟩ := Option.ne_none_iff_exists'.mp hfind
  obtain ⟨place, hplace⟩ := locate_of_find? he
  have hfollows := h.locate .look here path
  rw [hplace] at hfollows
  obtain ⟨e', he', -⟩ := hfollows
  rw [find?, he']
  exact Option.some_ne_none e'

end Files

namespace Tracker

variable {fs fs' : Files} {here : List String} {s : Store} {k : String} {e : TrackerEntry}

theorem ofStore_read (fs : Files) (here : List String) (s : Store) :
    ofStore (fs.read here) s =
      match fs.find? here s.path with
      | some (.file bytes) => (ofBytes bytes.toList).toOption.getD {}
      | _ => {} := by
  rw [ofStore, loadedFrom, Files.read, Files.find?]
  rcases fs.locate .look here s.path with cause | ⟨place, _ | bytes | _ | _⟩
  · dsimp only
    by_cases hcause : cause = .missing <;> simp [hcause]
  · simp
  · dsimp only
    rcases ofBytes bytes.toList with e | t <;> rfl
  · simp
  · simp

theorem ordered_ofStore (fs : Files) (here : List String) (s : Store) :
    (ofStore (fs.read here) s).Ordered := by
  rw [ofStore_read]
  split
  · rename_i bytes _
    rw [ofBytes_eq]
    rcases storedEntries bytes.toList with e | entries
    · exact ordered_empty
    · exact ordered_ofEntries entries
  · exact ordered_empty

/-- A store that is spared holds what it held, or nothing. -/
theorem find?_ofStore_of_spares (h : fs.Spares fs' here s.path)
    (hk : (ofStore (fs'.read here) s).find? k = some e) :
    (ofStore (fs.read here) s).find? k = some e := by
  rw [ofStore_read] at hk ⊢
  rcases h with h | h <;> rw [h] at hk
  · exact hk
  · exact absurd hk (by simp [find?])

/-- A tracker that the format of stored trackers has room for. -/
structure Storable (t : Tracker) : Prop where
  carried : ∀ e ∈ t.entries, e.Carried
  size : t.size < 2 ^ 32

end Tracker

namespace Batch

/-! ### Events -/

/-- What the next batch finds in the store. -/
def remembered (s : Tracker.Store) (w : World) : Tracker :=
  Tracker.ofStore (w.files.read w.here) s

/-- A batch that is canceled while it runs: the jobs that are too late fail early, and no tracker is
stored. -/
def interrupted (o : PipelineOptions) (b : BatchOptions) (logger : Option Log.Logger)
    (late : Found → Bool) (root : String) : Script Tracker (Except BatchError Unit) := do
  match ← Scan.scan (scanOptions b) root with
  | .error e => return .error (.scan e)
  | .ok inputs =>
    let tracker ← loadTracker logger (store b root)
    Script.modify fun _ => tracker
    let _ ← runJobs (fun f => job o b logger (late f) f) inputs
    return .error .canceled

/-- What happens to a root. -/
inductive Event where
  /-- Files are edited, made and deleted, and time goes by. -/
  | edit (files : Files) (moment : Moment)
  /-- A batch runs; it may be canceled before. -/
  | run (o : PipelineOptions) (b : BatchOptions) (logger : Option Log.Logger) (canceled : Bool)
  /-- A batch is canceled while it runs. -/
  | interrupted (o : PipelineOptions) (b : BatchOptions) (logger : Option Log.Logger)
      (late : Found → Bool)

/-- The world after an event. -/
def Event.happen (root : String) (w : World) : Event → World
  | .edit files moment => { w with files, moment }
  | .run o b logger canceled => ((Batch.run o b logger canceled root).run {} w).2.2
  | .interrupted o b logger late => ((Batch.interrupted o b logger late root).run {} w).2.2

/-- The world after several events. -/
def after (root : String) (w : World) (events : List Event) : World :=
  events.foldl (Event.happen root) w

theorem after_singleton (root : String) (w : World) (event : Event) :
    after root w [event] = event.happen root w := rfl

/-! ### Events that are fair to an input -/

/-- What is remembered of an input keeps the output that was recorded, unless that is gone. -/
def SparesOutput (s : Tracker.Store) (k : String) (w w' : World) : Prop :=
  ∀ e, (remembered s w').find? k = some e → w.files.Spares w'.files w.here e.output

/-- An item is the one of an input that the scan finds under its absolute path. -/
def IsItemOf (b : BatchOptions) (root : String) (w : World) (k : String) (item : BatchItem) : Prop :=
  ∃ inputs, ((Scan.scan (scanOptions b) root).run ({} : Tracker) w).1 = .ok inputs ∧
    ∃ f ∈ inputs, f.full = k ∧ item.input = f.path

/-- A batch that succeeds is fair to an input: what is remembered can be stored; the output where
the problem of the input is generated is not shared; and if no problem is generated, the output that
was recorded is left alone. -/
structure FairRun (s : Tracker.Store) (root k : String) (b : BatchOptions) (w : World)
    (summary : BatchSummary) (t : Tracker) (w' : World) : Prop where
  storable : t.Storable
  unshared : ∀ item ∈ summary.items, IsItemOf b root w k item → isGenerated item = true →
    Unshared summary.items s w' item
  spares : (∀ item ∈ summary.items, IsItemOf b root w k item → isGenerated item = false) →
    SparesOutput s k w w'

/-- An event is fair to an input: nobody but its own job, in a batch that stores its tracker, writes
where its recorded output is. -/
def Event.Fair (s : Tracker.Store) (root k : String) (w : World) : Event → Prop
  | .edit files moment =>
    ({ w with files, moment } : World).Sound ∧ w.files.Spares files w.here s.path ∧
      SparesOutput s k w { w with files, moment }
  | .run o b logger canceled =>
    store b root = s ∧
      match (Batch.run o b logger canceled root).run {} w with
      | (.ok summary, t, w') => FairRun s root k b w summary t w'
      | (.error _, _, w') => w.files.Spares w'.files w.here s.path ∧ SparesOutput s k w w'
  | .interrupted o b logger late =>
    let w' := ((Batch.interrupted o b logger late root).run {} w).2.2
    w.files.Spares w'.files w.here s.path ∧ SparesOutput s k w w'

/-- All events of a history are fair to an input. -/
def FairAll (s : Tracker.Store) (root k : String) : World → List Event → Prop
  | _, [] => True
  | w, event :: events =>
    event.Fair s root k w ∧ FairAll s root k (event.happen root w) events

theorem fairAll_concat {s : Tracker.Store} {root k : String} {w : World} {events : List Event}
    {event : Event} : FairAll s root k w (events ++ [event]) ↔
      FairAll s root k w events ∧ event.Fair s root k (after root w events) := by
  induction events generalizing w with
  | nil => exact and_comm
  | cons first events ih =>
    rw [List.cons_append, FairAll, ih, FairAll, and_assoc]
    rfl

section

variable {o : PipelineOptions} {b : BatchOptions} {logger : Option Log.Logger} {canceled : Bool}
  {root : String} {w w' : World} {inputs : List Found} {summary : BatchSummary} {t : Tracker}
  {f : Found}

/-- The world after a batch. -/
theorem happen_run {r : Except BatchError BatchSummary}
    (hrun : (run o b logger canceled root).run {} w = (r, t, w')) :
    (Event.run o b logger canceled).happen root w = w' :=
  congrArg (fun r => r.2.2) hrun

theorem fair_run_iff {s : Tracker.Store} {k : String}
    (hrun : (run o b logger canceled root).run {} w = (.ok summary, t, w')) :
    (Event.run o b logger canceled).Fair s root k w ↔
      store b root = s ∧ FairRun s root k b w summary t w' := by
  rw [Event.Fair, hrun]

theorem here_happen (root : String) (w : World) (event : Event) :
    (event.happen root w).here = w.here := by
  cases event with
  | edit files moment => rfl
  | run o b logger canceled => exact Script.here_run _ _ _
  | interrupted o b logger late => exact Script.here_run _ _ _

theorem Event.Fair.sound {s : Tracker.Store} {k : String} {event : Event} (hw : w.Sound)
    (h : event.Fair s root k w) : (event.happen root w).Sound := by
  cases event with
  | edit files moment => exact h.1
  | run o b logger canceled => exact Script.run_sound _ _ hw
  | interrupted o b logger late => exact Script.run_sound _ _ hw

/-! ### Batches that succeed -/

/-- A batch succeeds only if its scan does. -/
theorem exists_scan_of_run
    (hrun : (run o b logger canceled root).run {} w = (.ok summary, t, w')) :
    ∃ inputs, ((Scan.scan (scanOptions b) root).run ({} : Tracker) w).1 = .ok inputs := by
  obtain ⟨r, hscan, -⟩ := Scan.run_scan (scanOptions b) root ({} : Tracker) w
  rcases r with e | inputs
  · have hfailed : (run o b logger canceled root).run {} w = (.error (.scan e), {}, w) := by
      unfold run
      exact Script.run_bind_of hscan
    exact absurd (hfailed.symm.trans hrun) (by simp)
  · exact ⟨inputs, by rw [hscan]⟩

/-- **What a batch that succeeds leaves**: it was not canceled, unless there was nothing to do, and
the tracker that it ends with is in the store. -/
theorem exists_stored (hfs : w.files.WellFormed)
    (hscan : ((Scan.scan (scanOptions b) root).run ({} : Tracker) w).1 = .ok inputs)
    (hrun : (run o b logger canceled root).run {} w = (.ok summary, t, w')) :
    (canceled = true → inputs = []) ∧
    let r := course o b logger canceled root w inputs
    t = r.2.1.prune (inputs.map (·.full)) ∧ summary.items = sortItems r.1 ∧
      w'.here = r.2.2.here ∧ r.2.2.here = w.here ∧
      ∃ place, w'.files.locate .look w'.here (store b root).path =
          .ok ⟨place, some (.file ⟨t.toBytes.toArray⟩)⟩ ∧
        Grows Set.univ {place} r.2.2.files w'.files := by
  have hcourse := course_grows o logger canceled root w
    (outputPath_ne_of_scan hfs hscan b.outputDirectory)
  rcases run_cases o logger canceled (Scan.sightings hfs hscan).1 with
    (⟨-, hfailed⟩ | ⟨e, _, hfailed, -⟩) | ⟨hcanceled, place, _, hok, hhere, hgrows, hstore⟩
  · exact absurd (hfailed.symm.trans hrun) (by simp)
  · exact absurd (hfailed.symm.trans hrun) (by simp)
  · obtain ⟨hsummary, hend⟩ := Prod.mk.inj (hok.symm.trans hrun)
    obtain ⟨rfl, rfl⟩ := Prod.mk.inj hend
    obtain rfl := Except.ok.inj hsummary
    exact ⟨hcanceled, rfl, rfl, hhere, hcourse.1, place, hstore, hgrows⟩

/-- All that a batch that succeeds writes are the problems that it generates, and its tracker. -/
theorem grows_of_run (hfs : w.files.WellFormed)
    (hrun : (run o b logger canceled root).run {} w = (.ok summary, t, w')) :
    w'.here = w.here ∧ ∃ place c,
      w'.files.locate .look w'.here (store b root).path = .ok ⟨place, some (.file c)⟩ ∧
        Grows Set.univ (writtenFor summary.items w' ∪ {place}) w.files w'.files := by
  obtain ⟨inputs, hscan⟩ := exists_scan_of_run hrun
  obtain ⟨-, -, hitems, hend_here, hcourse_here, place, hstore, hsave⟩ :=
    exists_stored hfs hscan hrun
  have hcourse := (course_grows o logger canceled root w
    (outputPath_ne_of_scan hfs hscan b.outputDirectory)).2
  have hsubset : writtenFor (course o b logger canceled root w inputs).1
      (course o b logger canceled root w inputs).2.2 ⊆ writtenFor summary.items w' :=
    (writtenFor_subset hsave hend_here _).trans
      (writtenFor_mono (fun i hi => hitems ▸ mem_sortItems.mpr hi) _)
  exact ⟨hend_here.trans hcourse_here, place, _, hstore,
    (hcourse.mono subset_rfl (hsubset.trans Set.subset_union_left)).trans
      (hsave.mono subset_rfl Set.subset_union_right)⟩

/-- Without links a batch that succeeds leaves alone what neither an output nor the store is the
path of. -/
theorem locate_of_run_of_unlinked (hfs : w.files.WellFormed) (hlinks : w.files.Unlinked)
    (hrun : (run o b logger canceled root).run {} w = (.ok summary, t, w')) {path : String}
    {place : List String} {e : FileEntry}
    (hplace : w.files.locate .look w.here path = .ok ⟨place, some e⟩)
    (hitems : ∀ i ∈ summary.items, isGenerated i = true →
      Files.placeOf w.here i.output ≠ Files.placeOf w.here path)
    (hstore : Files.placeOf w.here (store b root).path ≠ Files.placeOf w.here path) :
    w'.files.locate .look w'.here path = .ok ⟨place, some e⟩ := by
  obtain ⟨hhere, storePlace, c, hstored, hgrows⟩ := grows_of_run hfs hrun
  have hlinks' := hlinks.grows hgrows
  have hwritten : place ∉ writtenFor summary.items w' ∪ {storePlace} := by
    rw [hlinks.place_eq_of_locate hplace]
    rintro (⟨i, hi, hgenerated, e', he'⟩ | heq)
    · exact hitems i hi hgenerated (hhere ▸ (hlinks'.place_eq_of_locate he').symm)
    · refine hstore ?_
      rw [Set.mem_singleton_iff.mp heq, ← hhere]
      exact (hlinks'.place_eq_of_locate hstored).symm
  have hfollows := hgrows.locate .look w.here path
  rw [hplace] at hfollows
  obtain ⟨e', he', hkept⟩ := hfollows
  rw [hhere, he', hkept.eq hwritten]

/-- **The next batch finds what this one remembers in the end.** -/
theorem remembered_run (hfs : w.files.WellFormed)
    (hrun : (run o b logger canceled root).run {} w = (.ok summary, t, w')) (ht : t.Storable) :
    remembered (store b root) w' = t := by
  obtain ⟨inputs, hscan⟩ := exists_scan_of_run hrun
  obtain ⟨-, hprune, -, -, -, place, hstore, -⟩ := exists_stored hfs hscan hrun
  have hordered : t.Ordered := by
    obtain ⟨w₁, -, hcourse⟩ := exists_course o b logger canceled root w
    rw [hprune, hcourse]
    exact (ordered_runJobs _ _ _ _ _ (outputPath_ne_of_scan hfs hscan _)
      (Tracker.ordered_ofStore _ _ _)).prune _
  have hfind : w'.files.find? w'.here (store b root).path =
      some (.file ⟨t.toBytes.toArray⟩) := by rw [Files.find?, hstore]
  have hbytes : (⟨t.toBytes.toArray⟩ : ByteArray).toList = t.toBytes := by
    rw [toList_eq_data_toList]
  rw [remembered, Tracker.ofStore_read, hfind]
  dsimp only
  rw [hbytes, hordered.ofBytes_toBytes ht.carried ht.size]
  rfl

/-- What the batch remembers of an input in the end is what its turn left. -/
theorem Passage.find_end {above : List Found} {item : BatchItem} (hf : f ∈ inputs)
    (h : Passage o b logger canceled root w inputs above f item) :
    ((course o b logger canceled root w inputs).2.1.prune (inputs.map (·.full))).find? f.full =
      (course o b logger canceled root w (above ++ [f])).2.1.find? f.full := by
  rw [Tracker.find?_prune, if_pos (List.mem_map_of_mem hf), h.find_back]

end

end Batch

end WorstCase
