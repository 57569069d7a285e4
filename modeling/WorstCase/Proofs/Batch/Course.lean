import WorstCase.Proofs.Batch.Output
import WorstCase.Proofs.Batch.Turn
import WorstCase.Proofs.Files.Missing
import WorstCase.Proofs.Tracker.Remembered
import Mathlib.Data.Set.Insert

/-!
# The course of a batch

After the scan a batch loads its tracker; then one job after the other takes its turn
(`Batch.course`); and unless the batch is canceled, the tracker drops the inputs that are gone and
is stored (`Batch.run_of_scan`, `Tracker.run_save`). A job changes what is remembered of its own
input only (`Turn.find?_of_ne`), and all that the jobs write are the outputs of the problems that
they generate (`Batch.runJobs_grows`).
-/

namespace WorstCase

open Files (Grows)
open Scan (Found Sighting)

variable {σ : Type}

/-! ### Loading and storing trackers -/

namespace Tracker

/-- What is loaded from a store, by the contents of files. -/
def loadedFrom (files : String → Except FileError ByteArray) (s : Store) :
    Except TrackerError (Option Tracker) :=
  match files s.path with
  | .ok bytes => (ofBytes bytes.toList).map some
  | .error e =>
    if e.cause = .missing then .ok none
    else if e.operation = .readFile then .error .malformed
    else .error (.openFile e)

/-- The tracker in a store, which remembers nothing if it cannot be loaded. -/
def ofStore (files : String → Except FileError ByteArray) (s : Store) : Tracker :=
  match loadedFrom files s with
  | .ok t => t.getD {}
  | .error _ => {}

theorem tells_load (files : String → Except FileError ByteArray) (s : Store) :
    Script.Tells files {s.path} (load? s : Script σ _) (loadedFrom files s) := by
  refine Script.Tells.bind (Script.Tells.readFile (Set.mem_singleton s.path)) ?_
  rw [loadedFrom]
  cases files s.path <;> exact .done

/-- Storing a tracker writes its bytes to the store, if it succeeds. -/
theorem run_save (t : Tracker) (s : Store) (t₀ : σ) (w : World) :
    ∃ r w', (t.save s).run t₀ w = (r, t₀, w') ∧ w'.here = w.here ∧
      ((r = .ok () ∧ ∃ place, Grows Set.univ {place} w.files w'.files ∧
          w'.files.locate .look w'.here s.path =
            .ok ⟨place, some (.file ⟨t.toBytes.toArray⟩)⟩) ∨
        ∃ e, r = .error e ∧ Grows Set.univ ∅ w.files w'.files) := by
  have hmake := Files.makeDirectories_grows w.files w.here (s.directory.length + 1) s.directory
  unfold save
  rcases hmade : w.files.makeDirectories w.here (s.directory.length + 1) s.directory with ⟨fs, e | _⟩
  all_goals
    rw [hmade] at hmake
    have hdirs : (Script.makeDirs s.directory : Script σ _).run t₀ w =
        ((w.makeDirectories s.directory).1, t₀, (w.makeDirectories s.directory).2) := rfl
    rw [World.makeDirectories, hmade] at hdirs
  · exact ⟨_, _, Script.run_bind_of hdirs, rfl, .inr ⟨_, rfl, hmake⟩⟩
  have hwrite : (Script.writeFile s.path ⟨t.toBytes.toArray⟩ : Script σ _).run t₀
      { w with files := fs } = ((({ w with files := fs } : World).write s.path ⟨t.toBytes.toArray⟩).1,
        t₀, (({ w with files := fs } : World).write s.path ⟨t.toBytes.toArray⟩).2) := rfl
  rcases hwritten : fs.write w.here s.path ⟨t.toBytes.toArray⟩ with e | fs' <;>
    rw [World.write, hwritten] at hwrite
  · exact ⟨_, _, (Script.run_bind_of hdirs).trans (Script.run_bind_of hwrite), rfl,
      .inr ⟨_, rfl, hmake⟩⟩
  · obtain ⟨place, -, -, -, hplace, hgrows⟩ := Files.write_eq_ok hwritten
    exact ⟨_, _, (Script.run_bind_of hdirs).trans (Script.run_bind_of hwrite), rfl,
      .inl ⟨rfl, place, (hmake.mono subset_rfl (Set.empty_subset _)).trans
        (hgrows.mono (Set.empty_subset _) subset_rfl), hplace⟩⟩

end Tracker

namespace Batch

theorem tells_loadTracker (files : String → Except FileError ByteArray)
    (logger : Option Log.Logger) (s : Tracker.Store) :
    Script.Tells files {s.path} (loadTracker logger s) (Tracker.ofStore files s) := by
  refine Script.Tells.bind (Tracker.tells_load files s) ?_
  rw [Tracker.ofStore]
  rcases Tracker.loadedFrom files s with e | t
  · exact (Log.tells_sayAt ..).bind .done
  · exact .done

/-! ### One turn after the other -/

section

variable {o : PipelineOptions} {b : BatchOptions} {canceled : Bool} {f : Found}
  {st st' : Tracker × World} {item : BatchItem}

theorem Turn.here (h : Turn o b canceled f st item st') : st'.2.here = st.2.here := by
  cases h with
  | unread _ hw => exact hw.here
  | upToDate _ hw => exact hw.here
  | ungenerated _ hw => exact hw.here
  | undelivered _ _ hhere => exact hhere
  | delivered _ _ hhere => exact hhere

theorem Turn.item_eq (h : Turn o b canceled f st item st') :
    item.input = f.path ∧ item.output = outputPath b.outputDirectory f := by
  cases h <;> exact ⟨rfl, rfl⟩

/-- What is remembered of other inputs stays. -/
theorem Turn.find?_of_ne (h : Turn o b canceled f st item st') {k : String} (hk : k ≠ f.full) :
    st'.1.find? k = st.1.find? k := by
  cases h with
  | unread => rfl
  | upToDate => rfl
  | ungenerated => rw [Tracker.find?_forget, if_neg hk]
  | undelivered => rfl
  | delivered => rw [Tracker.find?_record, if_neg hk]

theorem Turn.ordered (h : Turn o b canceled f st item st') (ht : st.1.Ordered) : st'.1.Ordered := by
  cases h with
  | unread => exact ht
  | upToDate => exact ht
  | ungenerated => exact ht.forget _
  | undelivered => exact ht
  | delivered => exact ht.record _

/-- Whether an item is that of a problem that was generated. -/
def isGenerated (i : BatchItem) : Bool := i.error.isNone && !i.skipped

/-- Where the problems are that were generated. -/
def writtenFor (items : List BatchItem) (w : World) : Set (List String) :=
  {q | ∃ i ∈ items, isGenerated i = true ∧
    ∃ e, w.files.locate .look w.here i.output = .ok ⟨q, some e⟩}

/-- **A turn writes** the problem that is generated, and nothing else. -/
theorem Turn.grows (h : Turn o b canceled f st item st') :
    Grows Set.univ (writtenFor [item] st'.2) st.2.files st'.2.files := by
  cases h with
  | unread _ hw => exact hw.files ▸ .refl _ _ _
  | upToDate _ hw => exact hw.files ▸ .refl _ _ _
  | ungenerated _ hw => exact hw.files ▸ .refl _ _ _
  | undelivered _ hdeliver _ =>
    exact (Files.deliver_error hdeliver).mono subset_rfl (Set.empty_subset _)
  | delivered _ hdeliver hhere =>
    obtain ⟨place, hplace, hgrows⟩ := Files.deliver_ok hdeliver
    refine hgrows.mono subset_rfl (Set.singleton_subset_iff.mpr ?_)
    exact ⟨_, List.mem_singleton_self _, rfl, _, hhere ▸ hplace⟩

/-- A problem is generated only by delivering it. -/
theorem Turn.delivered_of_isGenerated (h : Turn o b canceled f st item st')
    (hitem : isGenerated item = true) :
    ∃ digest g, fate o b.force canceled st.2.files st.2.here (st.1.find? f.full) f =
        .generated digest g ∧
      st.2.files.deliver st.2.here (outputPath b.outputDirectory f)
        (Text.toBytes g.problem.render) = (st'.2.files, .ok ()) := by
  cases h with
  | unread => exact absurd hitem (by simp [isGenerated])
  | upToDate => exact absurd hitem (by simp [isGenerated])
  | ungenerated => exact absurd hitem (by simp [isGenerated])
  | undelivered => exact absurd hitem (by simp [isGenerated])
  | delivered hfate hdeliver _ => exact ⟨_, _, hfate, hdeliver⟩

end

/-- What was written for some items stays where it is. -/
theorem writtenFor_subset {made written : Set (List String)} {w w' : World}
    (h : Grows made written w.files w'.files) (hhere : w'.here = w.here) (items : List BatchItem) :
    writtenFor items w ⊆ writtenFor items w' := by
  rintro q ⟨i, hi, hitem, e, he⟩
  have hfollows := h.locate .look w.here i.output
  rw [he] at hfollows
  obtain ⟨e', he', -⟩ := hfollows
  exact ⟨i, hi, hitem, e', hhere ▸ he'⟩

section

variable (job : Found → Script Tracker BatchItem)

theorem run_runJobs_cons (f : Found) (inputs : List Found) (t : Tracker) (w : World) :
    (runJobs job (f :: inputs)).run t w =
      (((job f).run t w).1 :: ((runJobs job inputs).run ((job f).run t w).2.1
          ((job f).run t w).2.2).1,
        ((runJobs job inputs).run ((job f).run t w).2.1 ((job f).run t w).2.2).2) := by
  rw [runJobs, Script.run_bind, Script.run_bind]
  rfl

theorem run_runJobs_append (above below : List Found) (t : Tracker) (w : World) :
    (runJobs job (above ++ below)).run t w =
      (((runJobs job above).run t w).1 ++ ((runJobs job below).run ((runJobs job above).run t w).2.1
          ((runJobs job above).run t w).2.2).1,
        ((runJobs job below).run ((runJobs job above).run t w).2.1
          ((runJobs job above).run t w).2.2).2) := by
  induction above generalizing t w with
  | nil => rfl
  | cons f above ih => rw [List.cons_append, run_runJobs_cons, run_runJobs_cons, ih, List.cons_append]

theorem length_runJobs (inputs : List Found) (t : Tracker) (w : World) :
    ((runJobs job inputs).run t w).1.length = inputs.length := by
  induction inputs generalizing t w with
  | nil => rfl
  | cons f inputs ih => rw [run_runJobs_cons, List.length_cons, ih, List.length_cons]

end

section

variable {b : BatchOptions} {inputs : List Found} (o : PipelineOptions)
  (logger : Option Log.Logger) (canceled : Bool) (t : Tracker) (w : World)

variable {o logger canceled t w} in
/-- What every turn preserves, all jobs preserve. -/
theorem runJobs_induction (houtput : ∀ f ∈ inputs, outputPath b.outputDirectory f ≠ "")
    {P : Tracker × World → Prop}
    (hstep : ∀ f ∈ inputs, ∀ st item st', Turn o b canceled f st item st' → P st → P st')
    (h : P (t, w)) : P ((runJobs (job o b logger canceled) inputs).run t w).2 := by
  induction inputs generalizing t w with
  | nil => exact h
  | cons f inputs ih =>
    rw [List.forall_mem_cons] at houtput hstep
    obtain ⟨item, t', w', hrun, hturn⟩ := turn_job houtput.1 o logger canceled t w
    rw [run_runJobs_cons, hrun]
    exact ih houtput.2 hstep.2 (hstep.1 _ _ _ hturn h)

theorem here_runJobs (houtput : ∀ f ∈ inputs, outputPath b.outputDirectory f ≠ "") :
    ((runJobs (job o b logger canceled) inputs).run t w).2.2.here = w.here :=
  runJobs_induction houtput (P := fun st => st.2.here = w.here)
    (fun _ _ _ _ _ hturn h => hturn.here.trans h) rfl

theorem find?_runJobs (houtput : ∀ f ∈ inputs, outputPath b.outputDirectory f ≠ "") {k : String}
    (hk : k ∉ inputs.map (·.full)) :
    ((runJobs (job o b logger canceled) inputs).run t w).2.1.find? k = t.find? k :=
  runJobs_induction houtput (P := fun st => st.1.find? k = t.find? k)
    (fun f hf _ _ _ hturn h =>
      (hturn.find?_of_ne fun heq => hk (List.mem_map.mpr ⟨f, hf, heq.symm⟩)).trans h) rfl

theorem ordered_runJobs (houtput : ∀ f ∈ inputs, outputPath b.outputDirectory f ≠ "")
    (ht : t.Ordered) : ((runJobs (job o b logger canceled) inputs).run t w).2.1.Ordered :=
  runJobs_induction houtput (P := fun st => st.1.Ordered) (fun _ _ _ _ _ hturn h => hturn.ordered h) ht

/-- **Jobs write** the problems that they generate, and nothing else. -/
theorem runJobs_grows (houtput : ∀ f ∈ inputs, outputPath b.outputDirectory f ≠ "") :
    let r := (runJobs (job o b logger canceled) inputs).run t w
    Grows Set.univ (writtenFor r.1 r.2.2) w.files r.2.2.files := by
  induction inputs generalizing t w with
  | nil => exact .refl _ _ _
  | cons f inputs ih =>
    rw [List.forall_mem_cons] at houtput
    obtain ⟨item, t', w', hrun, hturn⟩ := turn_job houtput.1 o logger canceled t w
    have hrest := ih t' w' houtput.2
    rw [run_runJobs_cons, hrun]
    have hkept := writtenFor_subset hrest (here_runJobs o logger canceled t' w' houtput.2) [item]
    refine (hturn.grows.mono subset_rfl (hkept.trans ?_)).trans (hrest.mono subset_rfl ?_)
    · rintro q ⟨i, hi, hq⟩
      exact ⟨i, List.mem_singleton.mp hi ▸ List.mem_cons_self, hq⟩
    · rintro q ⟨i, hi, hq⟩
      exact ⟨i, List.mem_cons_of_mem _ hi, hq⟩

theorem map_input_runJobs (houtput : ∀ f ∈ inputs, outputPath b.outputDirectory f ≠ "") :
    ((runJobs (job o b logger canceled) inputs).run t w).1.map (·.input) = inputs.map (·.path) := by
  induction inputs generalizing t w with
  | nil => rfl
  | cons f inputs ih =>
    rw [List.forall_mem_cons] at houtput
    obtain ⟨item, t', w', hrun, hturn⟩ := turn_job houtput.1 o logger canceled t w
    rw [run_runJobs_cons, hrun, List.map_cons, List.map_cons, ih t' w' houtput.2, hturn.item_eq.1]

/-- **The jobs before an input, its turn, and the jobs after it.** -/
theorem runJobs_split {above below : List Found} {f : Found}
    (houtput : ∀ g ∈ above ++ f :: below, outputPath b.outputDirectory g ≠ "") :
    let front := (runJobs (job o b logger canceled) above).run t w
    let own := (runJobs (job o b logger canceled) (above ++ [f])).run t w
    let all := (runJobs (job o b logger canceled) (above ++ f :: below)).run t w
    ∃ item items, Turn o b canceled f front.2 item own.2 ∧ all.1 = front.1 ++ item :: items ∧
      Grows Set.univ (writtenFor items all.2.2) own.2.2.files all.2.2.files ∧
      all.2.2.here = own.2.2.here := by
  intro front own all
  rw [List.forall_mem_append, List.forall_mem_cons] at houtput
  obtain ⟨-, hf, hbelow⟩ := houtput
  obtain ⟨item, t', w', hrun, hturn⟩ := turn_job hf o logger canceled front.2.1 front.2.2
  have hown : own.2 = (t', w') := by
    change ((runJobs _ (above ++ [f])).run t w).2 = _
    rw [run_runJobs_append, run_runJobs_cons, hrun]
    rfl
  have hall : all = (front.1 ++ item :: ((runJobs (job o b logger canceled) below).run t' w').1,
      ((runJobs (job o b logger canceled) below).run t' w').2) := by
    change (runJobs _ (above ++ f :: below)).run t w = _
    rw [run_runJobs_append, run_runJobs_cons, hrun]
  rw [hown, hall]
  exact ⟨item, _, hturn, rfl, runJobs_grows _ _ _ _ _ hbelow, here_runJobs _ _ _ _ _ hbelow⟩

end

/-! ### From the scan to the end -/

/-- What an input is read from is not missing. -/
theorem not_missing_sources {w : World} (hfs : w.files.WellFormed) {base d place : List String}
    {f : Found}
    (hf : Sighting w.files w.here base d place f) {p : String} (hp : p ∈ sources f) :
    ¬ Files.Missing (w.files.locate .look w.here p) := by
  have hfound : ∀ {p}, (∃ c, w.files.find? w.here p = some (.file c)) →
      ¬ Files.Missing (w.files.locate .look w.here p) := by
    rintro p ⟨c, hc⟩
    obtain ⟨place, hplace⟩ := Files.locate_of_find? hc
    rw [hplace]
    simp
  rcases hp with rfl | ⟨rfl, hne⟩ | ⟨rfl, hne⟩
  · exact hf.not_missing hfs
  · exact hfound (hf.matching hne)
  · exact hfound (hf.cuts hne)

/-- What the jobs of some inputs come to, after the tracker has been loaded. -/
def course (o : PipelineOptions) (b : BatchOptions) (logger : Option Log.Logger) (canceled : Bool)
    (root : String) (w : World) (inputs : List Found) : List BatchItem × Tracker × World :=
  (runJobs (job o b logger canceled) inputs).run (Tracker.ofStore (w.files.read w.here) (store b root))
    ((loadTracker logger (store b root)).run {} w).2.2

theorem exists_course (o : PipelineOptions) (b : BatchOptions) (logger : Option Log.Logger)
    (canceled : Bool) (root : String) (w : World) :
    ∃ w₁, w.Alike w₁ ∧ ∀ inputs, course o b logger canceled root w inputs =
      (runJobs (job o b logger canceled) inputs).run
        (Tracker.ofStore (w.files.read w.here) (store b root)) w₁ := by
  have hread : Script.Tells (w.files.read w.here) {(store b root).path} _ _ :=
    tells_loadTracker (w.files.read w.here) logger (store b root)
  obtain ⟨w₁, hload, halike⟩ := hread.run ({} : Tracker) (w := w) fun _ _ => rfl
  exact ⟨w₁, halike, fun _ => by rw [course, hload]⟩

section

variable (o : PipelineOptions) {b : BatchOptions} (logger : Option Log.Logger) (canceled : Bool)
  {root : String} {w : World} {inputs : List Found}

/-- What the jobs write after the tracker has been loaded. -/
theorem course_grows (root : String) (w : World)
    (houtput : ∀ f ∈ inputs, outputPath b.outputDirectory f ≠ "") :
    let r := course o b logger canceled root w inputs
    r.2.2.here = w.here ∧ Grows Set.univ (writtenFor r.1 r.2.2) w.files r.2.2.files := by
  intro r
  obtain ⟨w₁, halike, hcourse⟩ := exists_course o b logger canceled root w
  have hr : r = _ := hcourse inputs
  rw [hr, ← halike.files]
  exact ⟨(here_runJobs _ _ _ _ _ houtput).trans halike.here, runJobs_grows _ _ _ _ _ houtput⟩

theorem map_input_course (root : String) (w : World)
    (houtput : ∀ f ∈ inputs, outputPath b.outputDirectory f ≠ "") :
    (course o b logger canceled root w inputs).1.map (·.input) = inputs.map (·.path) := by
  obtain ⟨w₁, -, hcourse⟩ := exists_course o b logger canceled root w
  rw [hcourse]
  exact map_input_runJobs _ _ _ _ _ houtput

/-- What is remembered of other inputs stays as it was stored. -/
theorem find?_course (root : String) (w : World)
    (houtput : ∀ f ∈ inputs, outputPath b.outputDirectory f ≠ "") {k : String}
    (hk : k ∉ inputs.map (·.full)) :
    (course o b logger canceled root w inputs).2.1.find? k =
      (Tracker.ofStore (w.files.read w.here) (store b root)).find? k := by
  obtain ⟨w₁, -, hcourse⟩ := exists_course o b logger canceled root w
  rw [hcourse]
  exact find?_runJobs _ _ _ _ _ houtput hk

/-- Later jobs go on from where the earlier ones end. -/
theorem course_append (root : String) (w : World) (above below : List Found) :
    (course o b logger canceled root w (above ++ below)).2 =
      ((runJobs (job o b logger canceled) below).run
        (course o b logger canceled root w above).2.1
        (course o b logger canceled root w above).2.2).2 := by
  obtain ⟨w₁, -, hcourse⟩ := exists_course o b logger canceled root w
  rw [hcourse, hcourse, run_runJobs_append]

/-- **An input takes its turn** between those before it and those after it. -/
theorem course_split (root : String) (w : World) {above below : List Found} {f : Found}
    (houtput : ∀ g ∈ above ++ f :: below, outputPath b.outputDirectory g ≠ "") :
    let front := course o b logger canceled root w above
    let own := course o b logger canceled root w (above ++ [f])
    let all := course o b logger canceled root w (above ++ f :: below)
    ∃ item items, Turn o b canceled f front.2 item own.2 ∧ all.1 = front.1 ++ item :: items ∧
      Grows Set.univ (writtenFor items all.2.2) own.2.2.files all.2.2.files ∧
      all.2.2.here = own.2.2.here := by
  obtain ⟨w₁, -, hcourse⟩ := exists_course o b logger canceled root w
  rw [hcourse, hcourse, hcourse]
  exact runJobs_split o logger canceled _ w₁ houtput

/-- **What a batch does after the scan**: it runs its jobs, and unless it is canceled, it drops the
inputs that are gone and stores its tracker. -/
theorem run_of_scan
    (hscan : (Scan.scan (scanOptions b) root).run ({} : Tracker) w = (.ok inputs, {}, w)) :
    (run o b logger canceled root).run {} w =
      let r := course o b logger canceled root w inputs
      if canceled && !inputs.isEmpty then (.error .canceled, r.2)
      else
        let t := r.2.1.prune (inputs.map (·.full))
        match (t.save (store b root)).run t r.2.2 with
        | (.error e, st) => (.error (.save e), st)
        | (.ok (), st) => (.ok ⟨sortItems r.1, r.2.1.size - t.size⟩, st) := by
  have hread : Script.Tells (w.files.read w.here) {(store b root).path} _ _ :=
    tells_loadTracker (w.files.read w.here) logger (store b root)
  obtain ⟨w₁, hload, -⟩ := hread.run ({} : Tracker) (w := w) fun _ _ => rfl
  have hmodify : ∀ t : Tracker, (Script.modify (fun _ => t)).run ({} : Tracker) w₁ = ((), t, w₁) :=
    fun _ => rfl
  unfold run course
  rw [Script.run_bind_of hscan]
  dsimp only
  rw [Script.run_bind_of hload, Script.run_bind_of (hmodify _), Script.run_bind, hload]
  dsimp only
  generalize (runJobs (job o b logger canceled) inputs).run _ w₁ = r
  obtain ⟨items, t, w₂⟩ := r
  split
  · rfl
  have hprune : (pruneTo inputs).run t w₂ =
      (t.size - (t.prune (inputs.map (·.full))).size, t.prune (inputs.map (·.full)), w₂) := rfl
  have hstate : ∀ t : Tracker, Script.state.run t w₂ = (t, t, w₂) := fun _ => rfl
  rw [Script.run_bind_of hprune, Script.run_bind_of (hstate _), Script.run_bind]
  dsimp only
  generalize ((t.prune (inputs.map (·.full))).save (store b root)).run
    (t.prune (inputs.map (·.full))) w₂ = saved
  obtain ⟨_ | _, st⟩ := saved <;> rfl

/-- **How a batch ends** after the scan: it is canceled, or its tracker cannot be stored, or it
is. -/
theorem run_cases
    (hscan : (Scan.scan (scanOptions b) root).run ({} : Tracker) w = (.ok inputs, {}, w)) :
    let r := course o b logger canceled root w inputs
    let t := r.2.1.prune (inputs.map (·.full))
    ((canceled = true ∧ (run o b logger canceled root).run {} w = (.error .canceled, r.2)) ∨
      ∃ e w', (run o b logger canceled root).run {} w = (.error (.save e), t, w') ∧
        w'.here = r.2.2.here ∧ Grows Set.univ ∅ r.2.2.files w'.files) ∨
    (canceled = true → inputs = []) ∧ ∃ place w', (run o b logger canceled root).run {} w =
        (.ok ⟨sortItems r.1, r.2.1.size - t.size⟩, t, w') ∧
      w'.here = r.2.2.here ∧ Grows Set.univ {place} r.2.2.files w'.files ∧
      w'.files.locate .look w'.here (store b root).path =
        .ok ⟨place, some (.file ⟨t.toBytes.toArray⟩)⟩ := by
  intro r t
  have hrun := run_of_scan o logger canceled hscan
  obtain ⟨result, w', hsave, hhere, hend⟩ := t.run_save (store b root) t r.2.2
  dsimp only at hrun
  split at hrun
  · rename_i hcanceled
    exact .inl (.inl ⟨(Bool.and_eq_true_iff.mp hcanceled).1, hrun⟩)
  rename_i hcanceled
  rw [hsave] at hrun
  rcases hend with ⟨rfl, place, hgrows, hplace⟩ | ⟨e, rfl, hgrows⟩
  · exact .inr ⟨fun h => by simpa [h] using hcanceled, place, w', hrun, hhere, hgrows, hplace⟩
  · exact .inl (.inr ⟨e, w', hrun, hhere, hgrows⟩)

/-- A batch takes nothing away. -/
theorem run_grows
    (hscan : (Scan.scan (scanOptions b) root).run ({} : Tracker) w = (.ok inputs, {}, w))
    (houtput : ∀ f ∈ inputs, outputPath b.outputDirectory f ≠ "") :
    let w' := ((run o b logger canceled root).run {} w).2.2
    w'.here = w.here ∧ Grows Set.univ Set.univ w.files w'.files := by
  obtain ⟨hcourseHere, hcourse⟩ := course_grows o logger canceled root w houtput
  have hcourse := hcourse.mono subset_rfl (Set.subset_univ _)
  rcases run_cases o logger canceled hscan with
    (⟨-, hrun⟩ | ⟨e, w', hrun, hhere, hgrows⟩) | ⟨-, place, w', hrun, hhere, hgrows, -⟩ <;> rw [hrun]
  · exact ⟨hcourseHere, hcourse⟩
  · exact ⟨hhere.trans hcourseHere, hcourse.trans (hgrows.mono subset_rfl (Set.subset_univ _))⟩
  · exact ⟨hhere.trans hcourseHere, hcourse.trans (hgrows.mono subset_rfl (Set.subset_univ _))⟩

end

end Batch

end WorstCase
