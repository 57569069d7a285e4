import WorstCase.Proofs.Batch.Course
import WorstCase.Proofs.Text.Octets

/-!
# Plain inputs

A plain input is not packed and has no companions (`Batch.Plain`). Its digest and its problem are
functions of its contents, and a job without a logger does nothing on the way to them: what the job
does is known from the contents alone. It stops where the digest is remembered and the output is
there (`Batch.Plain.run_job_of_known`), and if nothing is remembered, it writes the problem
(`Batch.Plain.run_job_of_new`). So a batch over plain inputs can be followed without looking at the
hash, or at how a problem is generated.
-/

namespace WorstCase

open Scan (Found)

section

variable {σ ε α β : Type} {t : σ} {w : World} {x : ExceptT ε (Script σ) α}
  {g : α → ExceptT ε (Script σ) β}

/-- A script that changes nothing is followed by another one. -/
theorem Script.run_bindT {r : Except ε α} {q : α → Except ε β} (h : x.run.run t w = (r, t, w))
    (hg : ∀ a, (g a).run.run t w = (q a, t, w)) : (x >>= g).run.run t w = (r >>= q, t, w) := by
  refine (Script.run_bind_of h).trans ?_
  cases r with
  | error e => rfl
  | ok a => exact hg a

theorem Script.run_thenT {a : α} {q : Except ε β} (h : x.run.run t w = (.ok a, t, w))
    (hg : (g a).run.run t w = (q, t, w)) : (x >>= g).run.run t w = (q, t, w) :=
  (Script.run_bind_of h).trans hg

end

/-! ### Generating without a logger -/

namespace Pipeline

variable {σ : Type} {o : PipelineOptions} {t : σ} {w : World}

theorem run_note (message : String) (fields : List (String × Log.Value)) :
    (note none message fields : Run σ Unit).run.run t w = (.ok (), t, w) := rfl

theorem run_orThrow {α : Type} (r : Except GenerateError α) :
    (orThrow r : Run σ α).run.run t w = (r, t, w) := rfl

theorem run_pure {α : Type} (a : α) : (pure a : Run σ α).run.run t w = (.ok a, t, w) := rfl

/-- Without files to read and write, generating changes nothing. -/
theorem run_generate (hmatching : o.matchingFile = "") (hcuts : o.cutsFile = "")
    (hexports : ∀ g, exports o g = []) (input : Combined) :
    (generate o none false input : Run σ Generated).run.run t w =
      (generatedOf (w.files.read w.here) o false input, t, w) := by
  have hcheckpoint : (checkpoint false : Run σ Unit).run.run t w = (unlessCanceled false, t, w) :=
    rfl
  have hmatched : ∀ g, (matchingStage o none g : Run σ Graph).run.run t w =
      (matchedFrom (w.files.read w.here) o g, t, w) := fun g => by
    rw [matchingStage, matchedFrom, if_pos hmatching, if_pos hmatching]
    rfl
  have hcut : ∀ g, (cutsStage o none g : Run σ _).run.run t w =
      (cutFrom (w.files.read w.here) o g, t, w) := fun g => by
    rw [cutsStage, cutFrom, cutsFrom, if_pos hcuts, if_pos hcuts]
    split
    · rfl
    refine Script.run_bindT (run_orThrow _) ?_
    rintro ⟨g, dominator⟩
    refine Script.run_thenT (run_pure _) (Script.run_bindT (run_orThrow _) ?_)
    rintro ⟨g, semantic⟩
    exact Script.run_thenT (run_note _ _) (run_pure _)
  rw [generate, generatedOf]
  refine Script.run_bindT (run_orThrow _) ?_
  rintro ⟨problem, graph⟩
  dsimp only
  refine Script.run_thenT (run_note _ _) (Script.run_bindT (hmatched _) fun graph =>
    Script.run_bindT hcheckpoint fun _ => Script.run_bindT (hcut _) ?_)
  rintro ⟨g, dominator, semantic⟩
  dsimp only
  rw [hexports]
  refine Script.run_thenT (run_pure ()) (Script.run_bindT hcheckpoint fun _ =>
    Script.run_bindT (run_orThrow _) ?_)
  rintro ⟨problem, stats⟩
  exact Script.run_thenT (run_note _ _) (run_pure _)

/-- A file that is not packed is read as it is. -/
theorem contentsOf_of_plain {files : String → Except FileError ByteArray} {path : String}
    {bytes : ByteArray} (hread : files path = .ok bytes) (hplain : Archive.packingOf bytes = .plain) :
    contentsOf files path = .ok bytes := by
  rw [contentsOf, hread]
  dsimp only
  rw [Archive.unpack_of_plain hplain]
  rfl

theorem run_generateFile (hmatching : o.matchingFile = "") (hcuts : o.cutsFile = "")
    (hexports : ∀ g, exports o g = []) {path : String} {bytes : ByteArray}
    (hread : w.files.read w.here path = .ok bytes) (hplain : Archive.packingOf bytes = .plain) :
    (generateFile o none false path : Run σ Generated).run.run t w =
      (generatedFrom (w.files.read w.here) o false path, t, w) := by
  have hcombined : (Input.readCombined path : Script σ _).run t w =
      (.ok (.ofText (Text.ofBytes bytes), bytes), t, w) := by
    simp only [Input.readCombined, Input.read, Script.readFile, Bind.bind, Script.bind, Script.run,
      hread, Archive.unpack_of_plain hplain]
    rfl
  have hinput : (orFail .input (Input.readCombined path) : Run σ _).run.run t w =
      (.ok (.ofText (Text.ofBytes bytes), bytes), t, w) := Script.run_bind_of hcombined
  have hgenerated : (orFail (.within path)
      (generate o none false (.ofText (Text.ofBytes bytes))).run : Run σ Generated).run.run t w =
      ((generatedOf (w.files.read w.here) o false (.ofText (Text.ofBytes bytes))).mapError
        (.within path), t, w) :=
    Script.run_bind_of (run_generate hmatching hcuts hexports _)
  have hok : ∀ f : ByteArray → Except GenerateError Generated, (Except.ok bytes >>= f) = f bytes :=
    fun _ => rfl
  rw [generateFile, generatedFrom, contentsOf_of_plain hread hplain, Except.mapError, hok]
  exact Script.run_thenT hinput (Script.run_bindT hgenerated fun g => run_pure _)

/-- What is generated from contents that are not packed, without other files. -/
def generatedFor (o : PipelineOptions) (contents : ByteArray) : Option Generated :=
  (generatedFrom (fun _ => .ok contents) { o with matchingFile := "", cutsFile := "" } false
    "").toOption

/-- What is generated from a text is what its header and its listing give. -/
theorem generatedFor_toBytes {s : String} {header listing : List Char} (hs : Text.IsOctets s)
    (hplain : Archive.packingOf (Text.toBytes s) = .plain)
    (hcut : Text.cutLast? Combined.separator.toList s.toList = some (header, listing)) :
    generatedFor o (Text.toBytes s) =
      (generatedOf (fun _ => .ok (Text.toBytes s)) { o with matchingFile := "", cutsFile := "" } false
        { header := String.ofList header, listing := String.ofList listing }).toOption.map
          fun g => { g with contents := Text.toBytes s } := by
  rw [generatedFor, generatedFrom, contentsOf_of_plain rfl hplain, toOption_bind, toOption_mapError,
    Except.toOption, Option.bind_some, toOption_bind, toOption_mapError, Text.ofBytes_toBytes hs,
    Combined.ofText, hcut]
  exact (Option.map_eq_bind ..).symm

/-- A text that is not packed, with a header and a listing from which a problem is generated. -/
structure Legible (s : String) (header listing : List Char) : Prop where
  octets : Text.IsOctets s
  packing : Archive.packingOf (Text.toBytes s) = .plain
  cut : Text.cutLast? Combined.separator.toList s.toList = some (header, listing)
  generated : (generatedOf (fun _ => .ok (Text.toBytes s)) {} false
    { header := String.ofList header, listing := String.ofList listing }).toOption.isSome = true

variable {s : String} {header listing : List Char}

theorem Legible.generatedFor_eq (h : Legible s header listing) :
    generatedFor {} (Text.toBytes s) =
      (generatedOf (fun _ => .ok (Text.toBytes s)) {} false
        { header := String.ofList header, listing := String.ofList listing }).toOption.map
          fun g => { g with contents := Text.toBytes s } :=
  generatedFor_toBytes h.octets h.packing h.cut

theorem Legible.isSome_generatedFor (h : Legible s header listing) :
    (generatedFor {} (Text.toBytes s)).isSome = true := by
  rw [h.generatedFor_eq, Option.isSome_map]
  exact h.generated

end Pipeline

namespace Batch

/-! ### Jobs of plain inputs -/

/-- An input that is not packed and has no companions, with its contents. -/
structure Plain (files : String → Except FileError ByteArray) (f : Found) (contents : ByteArray) :
    Prop where
  matching : f.matching = ""
  cuts : f.cuts = ""
  read : files f.full = .ok contents
  packing : Archive.packingOf contents = .plain

/-- What is left to do when a problem has been generated: it is written and remembered. -/
def settle (f : Found) (digest output : String) (p : Problem) : Script Tracker BatchItem := do
  match ← (Pipeline.writeProblem p output).run with
  | .error e => return { input := f.path, output, error := some (.generate e) }
  | .ok () =>
    let built := (← Script.time).seconds
    Script.modify fun t => t.record { input := f.full, digest, output, built }
    return { input := f.path, output }

/-- A problem that is written is remembered. -/
theorem run_settle {output : String} (houtput : output ≠ "") (f : Found) (digest : String)
    (p : Problem) (t : Tracker) (w : World) :
    ∃ w', (∃ e, (settle f digest output p).run t w =
        ({ input := f.path, output, error := some e }, t, w')) ∨
      ∃ built, (settle f digest output p).run t w =
        ({ input := f.path, output }, t.record { input := f.full, digest, output, built }, w') := by
  obtain ⟨r, w', hwrite, -, -⟩ := run_writeProblem houtput p t w
  rw [settle, Script.run_bind_of hwrite]
  rcases r with e | _
  · exact ⟨w', .inl ⟨_, rfl⟩⟩
  · exact ⟨w', .inr ⟨_, rfl⟩⟩

namespace Plain

/-- Whether an input is plain can be seen from the octets that are read. -/
theorem of_octets {files : String → Except FileError ByteArray} {f : Found} {contents : ByteArray}
    (hmatching : f.matching = "") (hcuts : f.cuts = "")
    (hread : (files f.full).toOption.map (·.data.toList) = some contents.data.toList)
    (hpacking : Archive.packingOf contents = .plain) : Plain files f contents := by
  refine ⟨hmatching, hcuts, ?_, hpacking⟩
  rcases hfile : files f.full with e | bytes <;> rw [hfile] at hread
  · exact absurd hread (by simp [Except.toOption])
  · exact congrArg Except.ok (ByteArray.ext (Array.toList_inj.mp (Option.some.inj hread)))

variable {files : String → Except FileError ByteArray} {o : PipelineOptions} {b : BatchOptions}
  {f : Found} {contents : ByteArray} {t : Tracker} {w : World}

/-- What is generated depends on the contents only. -/
theorem toOption_generatedFrom (h : Plain files f contents) :
    (Pipeline.generatedFrom files (jobOptions o f) false f.full).toOption =
      Pipeline.generatedFor o contents := by
  have ho : Pipeline.SameOptions (jobOptions o f) { o with matchingFile := "", cutsFile := "" } :=
    ⟨rfl, rfl, rfl, rfl, rfl, rfl⟩
  rw [Pipeline.generatedFor]
  exact Pipeline.generatedFrom_congr ho h.read rfl (.inl ⟨h.matching, rfl⟩) (.inl ⟨h.cuts, rfl⟩) false

theorem generatedFrom_eq_ok {g : Generated} (h : Plain files f contents)
    (hg : Pipeline.generatedFor o contents = some g) :
    Pipeline.generatedFrom files (jobOptions o f) false f.full = .ok g := by
  rw [← h.toOption_generatedFrom] at hg
  rcases hgenerated : Pipeline.generatedFrom files (jobOptions o f) false f.full with e | g' <;>
    rw [hgenerated] at hg
  · exact absurd hg (by simp [Except.toOption])
  · exact congrArg Except.ok (Option.some.inj hg)

theorem run_inputDigest (h : Plain (w.files.read w.here) f contents) :
    (inputDigest o f).run.run t w = (.ok (Digest.of contents (salts o "" "")), t, w) := by
  have hfile : (Digest.ofFile f.full (salts o "" "") : Script Tracker _).run t w =
      (.ok (Digest.of contents (salts o "" "")), t, w) := by
    simp only [Digest.ofFile, Script.readFile, Bind.bind, Script.bind, Script.run, h.read]
    rfl
  rw [inputDigest, h.matching, h.cuts, companionDigest, if_pos rfl]
  exact Script.run_thenT (a := "") rfl (Script.run_thenT (a := "") rfl hfile)

/-- Without a logger a job does what it takes to bring the problem up to date. -/
theorem run_job (f : Found) (t : Tracker) (w : World) :
    (job o b none false f).run t w = (attempt o b none false f).run t w := by
  rw [job, Script.run_bind]
  rcases (attempt o b none false f).run t w with ⟨⟨input, output, skipped, _ | e⟩, t', w'⟩ <;> rfl

/-- **A job writes the problem** of an input that nothing is remembered of. -/
theorem run_job_of_new (h : Plain (w.files.read w.here) f contents) {g : Generated}
    (hg : Pipeline.generatedFor o contents = some g) (hnew : t.find? f.full = none) :
    (job o b none false f).run t w =
      (settle f (Digest.of contents (salts o "" "")) (outputPath b.outputDirectory f)
        g.problem).run t w := by
  have hdue := run_isDue b.force f.full (Digest.of contents (salts o "" "")) t w
  rw [hnew, outdated, Bool.or_true] at hdue
  have hgenerated : (Pipeline.generateFile (jobOptions o f) none false f.full).run.run t w =
      (.ok g, t, w) :=
    (Pipeline.run_generateFile h.matching h.cuts (fun _ => rfl) h.read h.packing).trans
      (by rw [h.generatedFrom_eq_ok hg])
  rw [run_job, attempt, Script.run_bind_of h.run_inputDigest]
  dsimp only
  rw [Script.run_bind_of hdue, if_pos rfl, build, Script.run_bind, Script.run_bind_of hgenerated,
    settle]
  dsimp only
  rw [Script.run_bind, Script.run_bind]
  rcases (Pipeline.writeProblem g.problem (outputPath b.outputDirectory f)).run.run t w with
    ⟨_ | _, t', w'⟩ <;> rfl

/-- **A job stops** if the digest is remembered and the output is there. -/
theorem run_job_of_known (h : Plain (w.files.read w.here) f contents) {e : TrackerEntry}
    (hforce : b.force = false) (hknown : t.find? f.full = some e)
    (hdigest : e.digest = Digest.of contents (salts o "" ""))
    (hpresent : w.files.find? w.here e.output ≠ none) :
    (job o b none false f).run t w =
      ({ input := f.path, output := outputPath b.outputDirectory f, skipped := true }, t, w) := by
  have hdue := run_isDue b.force f.full (Digest.of contents (salts o "" "")) t w
  have hdue' : outdated w.files w.here (Digest.of contents (salts o "" "")) (some e) = false := by
    rw [outdated, if_neg (not_not.mpr hdigest)]
    split
    · rfl
    · exact Option.isNone_eq_false_iff.mpr (Option.isSome_iff_ne_none.mpr hpresent)
  rw [hknown, hforce, hdue', Bool.or_false] at hdue
  rw [run_job, attempt, Script.run_bind_of h.run_inputDigest]
  dsimp only
  rw [hforce, Script.run_bind_of hdue]
  rfl

end Plain

/-! ### Batches over plain inputs -/

/-- Without a logger, loading the tracker changes nothing. -/
theorem course_none (o : PipelineOptions) (b : BatchOptions) (canceled : Bool) (root : String)
    (w : World) (inputs : List Found) :
    course o b none canceled root w inputs = (runJobs (job o b none canceled) inputs).run
      (Tracker.ofStore (w.files.read w.here) (store b root)) w := by
  have hload : ((loadTracker none (store b root)).run {} w).2.2 = w := by
    have hread : (Script.readFile (store b root).path : Script Tracker _).run {} w =
        (w.files.read w.here (store b root).path, {}, w) := rfl
    rw [loadTracker, Script.run_bind, Tracker.load?, Script.run_bind_of hread]
    rcases w.files.read w.here (store b root).path with e | bytes
    · dsimp only
      split_ifs <;> rfl
    · dsimp only
      cases Tracker.ofBytes bytes.toList <;> rfl
  rw [course, hload]

/-- How a batch ends when its jobs are done: the tracker drops the inputs that are gone and is
stored. -/
def conclude (b : BatchOptions) (root : String) (inputs : List Found)
    (r : List BatchItem × Tracker × World) : Except BatchError BatchSummary × Tracker × World :=
  let t := r.2.1.prune (inputs.map (·.full))
  match (t.save (store b root)).run t r.2.2 with
  | (.error e, st) => (.error (.save e), st)
  | (.ok (), st) => (.ok ⟨sortItems r.1, r.2.1.size - t.size⟩, st)

theorem tracker_conclude (b : BatchOptions) (root : String) (inputs : List Found)
    (r : List BatchItem × Tracker × World) :
    (conclude b root inputs r).2.1 = r.2.1.prune (inputs.map (·.full)) := by
  unfold conclude
  dsimp only
  obtain ⟨_ | _, _, hsave, -⟩ := (r.2.1.prune (inputs.map (·.full))).run_save (store b root)
    (r.2.1.prune (inputs.map (·.full))) r.2.2 <;> rw [hsave]

/-- What a batch reports when its tracker is stored. -/
theorem conclude_eq_ok {b : BatchOptions} {root : String} {inputs : List Found}
    {r : List BatchItem × Tracker × World} (h : (conclude b root inputs r).1.toOption.isSome = true) :
    (conclude b root inputs r).1 =
      .ok ⟨sortItems r.1, r.2.1.size - (r.2.1.prune (inputs.map (·.full))).size⟩ := by
  unfold conclude at h ⊢
  dsimp only at h ⊢
  obtain ⟨_ | _, _, hsave, -⟩ := (r.2.1.prune (inputs.map (·.full))).run_save (store b root)
    (r.2.1.prune (inputs.map (·.full))) r.2.2 <;> rw [hsave] at h ⊢
  exact absurd h (by simp [Except.toOption])

theorem run_eq_conclude {o : PipelineOptions} {b : BatchOptions} {root : String} {w : World}
    {inputs : List Found}
    (hscan : (Scan.scan (scanOptions b) root).run ({} : Tracker) w = (.ok inputs, {}, w)) :
    (run o b none false root).run {} w =
      conclude b root inputs ((runJobs (job o b none false) inputs).run
        (Tracker.ofStore (w.files.read w.here) (store b root)) w) := by
  rw [run_of_scan o none false hscan, course_none]
  rfl

/-- **A batch skips** an input whose digest is remembered and whose output is there. -/
theorem Plain.run_run {o : PipelineOptions} {b : BatchOptions} {root : String} {f : Found}
    {contents : ByteArray} {w : World} {e : TrackerEntry}
    (h : Plain (w.files.read w.here) f contents)
    (hscan : (Scan.scan (scanOptions b) root).run ({} : Tracker) w = (.ok [f], {}, w))
    (hforce : b.force = false)
    (hknown : (Tracker.ofStore (w.files.read w.here) (store b root)).find? f.full = some e)
    (hdigest : e.digest = Digest.of contents (salts o "" ""))
    (hpresent : w.files.find? w.here e.output ≠ none) :
    (run o b none false root).run {} w =
      conclude b root [f]
        ([{ input := f.path, output := outputPath b.outputDirectory f, skipped := true }],
          Tracker.ofStore (w.files.read w.here) (store b root), w) := by
  rw [run_eq_conclude hscan, run_runJobs_cons, h.run_job_of_known hforce hknown hdigest hpresent]
  rfl

/-- A plain input with its contents and what is generated from them. -/
structure Recipe where
  input : Found
  contents : ByteArray
  generated : Generated

namespace Recipe

variable {o : PipelineOptions} {b : BatchOptions} {rs : List Recipe} {t : Tracker} {w : World}

/-- What a job is left to do. -/
def settle (o : PipelineOptions) (b : BatchOptions) (r : Recipe) : Script Tracker BatchItem :=
  Batch.settle r.input (Digest.of r.contents (salts o "" "")) (outputPath b.outputDirectory r.input)
    r.generated.problem

/-- What the jobs of a batch are left to do. -/
def settleAll (o : PipelineOptions) (b : BatchOptions) :
    List Recipe → Script Tracker (List BatchItem)
  | [] => return []
  | r :: rs => do
    let item ← r.settle o b
    return item :: (← settleAll o b rs)

theorem run_settleAll_singleton (r : Recipe) :
    (settleAll o b [r]).run t w =
      ([((r.settle o b).run t w).1], ((r.settle o b).run t w).2) := by
  rw [settleAll, Script.run_bind]
  rfl

/-- The input is plain and has these contents, and nothing is remembered of it. -/
def IsNew (r : Recipe) (st : Tracker × World) : Prop :=
  (r.input.matching = "" ∧ r.input.cuts = "" ∧ Archive.packingOf r.contents = .plain) ∧
    st.1.find? r.input.full = none ∧
    (st.2.files.read st.2.here r.input.full).toOption.map (·.data.toList) =
      some r.contents.data.toList

instance (r : Recipe) (st : Tracker × World) : Decidable (r.IsNew st) :=
  inferInstanceAs (Decidable (_ ∧ _))

/-- Each of the inputs is new when its job begins. -/
def AllNew (o : PipelineOptions) (b : BatchOptions) : List Recipe → Tracker × World → Prop
  | [], _ => True
  | r :: rs, st => r.IsNew st ∧ AllNew o b rs ((r.settle o b).run st.1 st.2).2

instance decidableAllNew (o : PipelineOptions) (b : BatchOptions) :
    ∀ (rs : List Recipe) (st : Tracker × World), Decidable (AllNew o b rs st)
  | [], _ => inferInstanceAs (Decidable True)
  | r :: rs, st =>
    have := decidableAllNew o b rs ((r.settle o b).run st.1 st.2).2
    inferInstanceAs (Decidable (_ ∧ _))

/-- **The jobs of new inputs** write their problems. -/
theorem run_runJobs (hgenerated : ∀ r ∈ rs, Pipeline.generatedFor o r.contents = some r.generated)
    (hnew : AllNew o b rs (t, w)) :
    (runJobs (job o b none false) (rs.map (·.input))).run t w = (settleAll o b rs).run t w := by
  induction rs generalizing t w with
  | nil => rfl
  | cons r rs ih =>
    obtain ⟨⟨hmatching, hcuts, hpacking⟩, hfind, hread⟩ := hnew.1
    have hplain : Plain (w.files.read w.here) r.input r.contents :=
      .of_octets hmatching hcuts hread hpacking
    rw [List.map_cons, run_runJobs_cons,
      hplain.run_job_of_new (hgenerated r List.mem_cons_self) hfind, settleAll, Script.run_bind,
      Script.run_bind]
    have hrest := ih (fun r hr => hgenerated r (List.mem_cons_of_mem _ hr)) hnew.2
    dsimp only at hrest
    rw [settle] at hrest ⊢
    rw [hrest]
    rfl

/-- **A batch over new inputs** writes their problems and stores its tracker. -/
theorem run_run {root : String}
    (hscan : (Scan.scan (scanOptions b) root).run ({} : Tracker) w =
      (.ok (rs.map (·.input)), {}, w))
    (hgenerated : ∀ r ∈ rs, Pipeline.generatedFor o r.contents = some r.generated)
    (hnew : AllNew o b rs (Tracker.ofStore (w.files.read w.here) (store b root), w)) :
    (run o b none false root).run {} w =
      conclude b root (rs.map (·.input)) ((settleAll o b rs).run
        (Tracker.ofStore (w.files.read w.here) (store b root)) w) := by
  rw [run_eq_conclude hscan, run_runJobs hgenerated hnew]

end Recipe

end Batch

end WorstCase
