import WorstCase.Batch.Run
import WorstCase.Proofs.Files.Delivery
import WorstCase.Proofs.Pipeline.Reading

/-!
# What a job does

A job reads its input and what accompanies it, and looks at what the tracker remembers of it; that
settles its **fate** (`Batch.fate`). From then on it delivers a problem or does not, and it changes
what the tracker remembers or does not: there are five ways that it can end (`Batch.Turn`), and each
run of a job is one of them (`Batch.turn_job`).
-/

namespace WorstCase

open Script (Tells)

variable {σ : Type} {files : String → Except FileError ByteArray} {paths : Set String}

theorem Log.run_sayAt (logger : Option Log.Logger) (level : Log.Level) (message : String)
    (fields : List (String × Log.Value)) (t : σ) (w : World) :
    ∃ w', (Log.sayAt logger level message fields).run t w = ((), t, w') ∧ w.Alike w' := by
  have htells : Tells (w.files.read w.here) ∅ (Log.sayAt logger level message fields : Script σ _)
      () := Log.tells_sayAt logger level message fields
  exact htells.run t fun _ _ => rfl

/-! ### Digests by the contents of files -/

/-- The digest of a file and salts, by the contents of files. -/
def Digest.fromFile (files : String → Except FileError ByteArray) (path : String)
    (salts : List String) : Except DigestError String :=
  match files path with
  | .ok bytes => .ok (Digest.of bytes salts)
  | .error e => .error (if e.operation = .openFile then .openFile path e else .read e)

theorem Digest.tells_ofFile {path : String} (h : path ∈ paths) (salts : List String) :
    Tells files paths (Digest.ofFile path salts : Script σ _) (Digest.fromFile files path salts) := by
  refine (Tells.readFile h).bind ?_
  rw [Digest.fromFile]
  cases files path with
  | ok bytes => exact .done
  | error e => exact .done

namespace Batch

/-- The digest of a file that may accompany an input, by the contents of files. -/
def companionFrom (files : String → Except FileError ByteArray) (path : String) :
    Except DigestError String :=
  if path = "" then .ok "" else Digest.fromFile files path []

/-- The digest of an input with what accompanies it, by the contents of files. -/
def digestFrom (files : String → Except FileError ByteArray) (o : PipelineOptions)
    (input : Scan.Found) : Except DigestError String := do
  let matching ← companionFrom files input.matching
  let cuts ← companionFrom files input.cuts
  Digest.fromFile files input.full (salts o matching cuts)

/-- The files that the problem of an input is generated from. -/
def sources (input : Scan.Found) : Set String :=
  {p | p = input.full ∨ p = input.matching ∧ p ≠ "" ∨ p = input.cuts ∧ p ≠ ""}

theorem tells_companionDigest {path : String} (h : path ≠ "" → path ∈ paths) :
    Tells files paths (companionDigest path) (companionFrom files path) := by
  rw [companionDigest, companionFrom]
  by_cases hpath : path = ""
  · rw [if_pos hpath, if_pos hpath]
    exact .done
  · rw [if_neg hpath, if_neg hpath]
    exact Digest.tells_ofFile (h hpath) []

theorem tells_inputDigest (o : PipelineOptions) (input : Scan.Found) :
    Tells files (sources input) (inputDigest o input).run (digestFrom files o input) :=
  (Tells.bindT (x := ExceptT.mk _) (tells_companionDigest fun h => .inr (.inl ⟨rfl, h⟩)))
    fun _ => (Tells.bindT (x := ExceptT.mk _) (tells_companionDigest fun h => .inr (.inr ⟨rfl, h⟩)))
      fun _ => Digest.tells_ofFile (.inl rfl) _

/-- A job tells what is generated from its input. -/
theorem tells_generate (o : PipelineOptions) (logger : Option Log.Logger) (canceled : Bool)
    (input : Scan.Found) :
    Tells files (sources input)
      (Pipeline.generateFile (σ := Tracker) (jobOptions o input) logger canceled input.full).run
      (Pipeline.generatedFrom files (jobOptions o input) canceled input.full) :=
  Pipeline.tells_generateFile logger (jobOptions o input) (fun _ => rfl) canceled input.full

/-! ### Fates -/

/-- What is to become of an input. -/
inductive Fate where
  | unread (cause : DigestError)
  | upToDate
  | ungenerated (cause : GenerateError)
  | generated (digest : String) (generated : Generated)

/-- Whether a problem is not the one that a digest stands for, or is gone. -/
def outdated (fs : Files) (here : List String) (digest : String) : Option TrackerEntry → Bool
  | none => true
  | some e =>
    if e.digest ≠ digest then true
    else if e.output = "" then false
    else (fs.find? here e.output).isNone

/-- **What is to become of an input**, by what is remembered of it and the files that there are. -/
def fate (o : PipelineOptions) (force canceled : Bool) (fs : Files) (here : List String)
    (remembered : Option TrackerEntry) (input : Scan.Found) : Fate :=
  match digestFrom (fs.read here) o input with
  | .error e => .unread e
  | .ok digest =>
    if force || outdated fs here digest remembered then
      match Pipeline.generatedFrom (fs.read here) (jobOptions o input) canceled input.full with
      | .error e => .ungenerated e
      | .ok generated => .generated digest generated
    else .upToDate

theorem fate_eq_generated {o : PipelineOptions} {force canceled : Bool} {fs : Files}
    {here : List String} {remembered : Option TrackerEntry} {input : Scan.Found} {digest : String}
    {g : Generated} (h : fate o force canceled fs here remembered input = .generated digest g) :
    digestFrom (fs.read here) o input = .ok digest ∧
      Pipeline.generatedFrom (fs.read here) (jobOptions o input) canceled input.full = .ok g := by
  rw [fate] at h
  rcases hdigest : digestFrom (fs.read here) o input with e | digest' <;> rw [hdigest] at h
  · exact absurd h (by simp)
  dsimp only at h
  split at h
  · rcases hgenerated : Pipeline.generatedFrom (fs.read here) (jobOptions o input) canceled input.full
      with e | g' <;> rw [hgenerated] at h
    · exact absurd h (by simp)
    · obtain ⟨rfl, rfl⟩ := Fate.generated.inj h
      exact ⟨rfl, rfl⟩
  · exact absurd h (by simp)

theorem run_isDue (force : Bool) (input digest : String) (t : Tracker) (w : World) :
    (isDue force input digest).run t w =
      (force || outdated w.files w.here digest (t.find? input), t, w) := by
  cases force with
  | true => rfl
  | false =>
    have hlook : (isDue false input digest).run t w = (t.isStale input digest).run t w := rfl
    rw [hlook, Tracker.isStale, Tracker.freshness, Bool.false_or]
    rcases t.find? input with _ | e
    · rfl
    · rw [outdated]
      by_cases hdigest : e.digest = digest
      · by_cases houtput : e.output = ""
        · simp only [hdigest, houtput, ne_eq, not_true_eq_false, if_false, if_true]
          rfl
        · simp only [hdigest, houtput, ne_eq, not_true_eq_false, if_false]
          change ((w.files.find? w.here e.output).map FileEntry.kind |>.isNone, t, w) = _
          rw [Option.isNone_map]
      · simp only [hdigest, ne_eq, not_false_eq_true, if_true]
        rfl

/-! ### Delivering problems -/

/-- Makes the directory that a file will be in. -/
def makeRoom (path : String) : Script σ (Except FileError Unit) :=
  if Path.directory path = "." then return .ok () else Script.makeDirs (Path.directory path)

/-- Problems are delivered. -/
theorem writeProblem_eq {path : String} (h : path ≠ "") (p : Problem) :
    (Pipeline.writeProblem p path : Pipeline.Run σ Unit).run = (do
      match ← makeRoom path with
      | .error e => return .error (.makeDirectory (Path.directory path) e)
      | .ok () =>
        match ← Script.writeFile path (Text.toBytes p.render) with
        | .error e => return .error (.createFile ⟨path, e⟩)
        | .ok () => return .ok ()) := by
  have hwrite : (do
      Pipeline.orFail (fun e => .createFile ⟨path, e⟩)
        (Script.writeFile path (Text.toBytes p.render))
      return () : Pipeline.Run σ Unit).run = (do
      match ← Script.writeFile path (Text.toBytes p.render) with
      | .error e => return .error (.createFile ⟨path, e⟩)
      | .ok () => return .ok ()) :=
    congrArg (Script.write path _) (funext fun r => by cases r <;> rfl)
  rw [Pipeline.writeProblem, if_neg h, makeRoom]
  unfold Pipeline.writeFile
  by_cases hdirectory : Path.directory path = "."
  · rw [if_pos hdirectory]
    simp only [hdirectory, ne_eq, not_true_eq_false, if_false]
    exact hwrite
  · rw [if_neg hdirectory]
    simp only [hdirectory, ne_eq, not_false_eq_true, if_true]
    refine congrArg (Script.makeDirectories _) (funext fun r => ?_)
    cases r with
    | error e => rfl
    | ok _ => exact hwrite

theorem run_makeRoom (path : String) (t : σ) (w : World) :
    (makeRoom path).run t w =
      ((w.files.prepare w.here path).2, t, { w with files := (w.files.prepare w.here path).1 }) := by
  rw [makeRoom, Files.prepare]
  split
  · rfl
  · rw [Script.makeDirs, Script.run, World.makeDirectories]
    generalize w.files.makeDirectories w.here ((Path.directory path).length + 1)
      (Path.directory path) = r
    rfl

theorem run_writeProblem {path : String} (h : path ≠ "") (p : Problem) (t : σ) (w : World) :
    ∃ r w', (Pipeline.writeProblem p path).run.run t w = (r, t, w') ∧ w'.here = w.here ∧
      ((w.files.deliver w.here path (Text.toBytes p.render) = (w'.files, .ok ()) ∧ r = .ok ()) ∨
        ∃ e cause, w.files.deliver w.here path (Text.toBytes p.render) = (w'.files, .error e) ∧
          r = .error cause) := by
  rw [writeProblem_eq h]
  unfold Files.deliver
  have hroom := run_makeRoom path t w
  rcases hprepare : w.files.prepare w.here path with ⟨fs, e | _⟩ <;> rw [hprepare] at hroom
  · refine ⟨.error (.makeDirectory (Path.directory path) e), { w with files := fs }, ?_, rfl,
      .inr ⟨e, _, rfl, rfl⟩⟩
    exact Script.run_bind_of hroom
  · rcases hwrite : fs.write w.here path (Text.toBytes p.render) with e | fs'
    · refine ⟨.error (.createFile ⟨path, e⟩), { w with files := fs }, ?_, rfl,
        .inr ⟨e, _, by simp only [hwrite], rfl⟩⟩
      refine (Script.run_bind_of hroom).trans ?_
      simp only [Script.writeFile, Bind.bind, Script.bind, Script.run, World.write, hwrite]
      rfl
    · refine ⟨.ok (), { w with files := fs' }, ?_, rfl, .inl ⟨by simp only [hwrite], rfl⟩⟩
      refine (Script.run_bind_of hroom).trans ?_
      simp only [Script.writeFile, Bind.bind, Script.bind, Script.run, World.write, hwrite]
      rfl

/-! ### Turns -/

/-- How a job can end: what it does to the tracker and to the world, and its item. -/
inductive Turn (o : PipelineOptions) (b : BatchOptions) (canceled : Bool) (input : Scan.Found) :
    Tracker × World → BatchItem → Tracker × World → Prop
  | unread {t : Tracker} {w w' : World} {e : DigestError}
      (h : fate o b.force canceled w.files w.here (t.find? input.full) input = .unread e)
      (hw : w.Alike w') :
      Turn o b canceled input (t, w)
        { input := input.path, output := outputPath b.outputDirectory input,
          error := some (.digest e) } (t, w')
  | upToDate {t : Tracker} {w w' : World}
      (h : fate o b.force canceled w.files w.here (t.find? input.full) input = .upToDate)
      (hw : w.Alike w') :
      Turn o b canceled input (t, w)
        { input := input.path, output := outputPath b.outputDirectory input, skipped := true }
        (t, w')
  | ungenerated {t : Tracker} {w w' : World} {e : GenerateError}
      (h : fate o b.force canceled w.files w.here (t.find? input.full) input = .ungenerated e)
      (hw : w.Alike w') :
      Turn o b canceled input (t, w)
        { input := input.path, output := outputPath b.outputDirectory input,
          error := some (.generate e) } (t.forget input.full, w')
  | undelivered {t : Tracker} {w w' : World} {digest : String} {g : Generated} {e : FileError}
      {cause : GenerateError}
      (h : fate o b.force canceled w.files w.here (t.find? input.full) input = .generated digest g)
      (hdeliver : w.files.deliver w.here (outputPath b.outputDirectory input)
        (Text.toBytes g.problem.render) = (w'.files, .error e)) (hhere : w'.here = w.here) :
      Turn o b canceled input (t, w)
        { input := input.path, output := outputPath b.outputDirectory input,
          error := some (.generate cause) } (t, w')
  | delivered {t : Tracker} {w w' : World} {digest : String} {g : Generated} {built : Int64}
      (h : fate o b.force canceled w.files w.here (t.find? input.full) input = .generated digest g)
      (hdeliver : w.files.deliver w.here (outputPath b.outputDirectory input)
        (Text.toBytes g.problem.render) = (w'.files, .ok ())) (hhere : w'.here = w.here) :
      Turn o b canceled input (t, w)
        { input := input.path, output := outputPath b.outputDirectory input }
        (t.record { input := input.full, digest, output := outputPath b.outputDirectory input, built },
          w')

section

variable {o : PipelineOptions} {b : BatchOptions} {canceled : Bool} {input : Scan.Found}

/-- What is logged in the end does not matter. -/
theorem Turn.trans_alike {st : Tracker × World} {item : BatchItem} {t : Tracker} {w w' : World}
    (h : Turn o b canceled input st item (t, w)) (hw : w.Alike w') :
    Turn o b canceled input st item (t, w') := by
  cases h with
  | unread h hw' => exact .unread h (hw'.trans hw)
  | upToDate h hw' => exact .upToDate h (hw'.trans hw)
  | ungenerated h hw' => exact .ungenerated h (hw'.trans hw)
  | undelivered h hdeliver hhere =>
    exact .undelivered h (by rw [hdeliver, hw.files]) (hw.here.trans hhere)
  | delivered h hdeliver hhere =>
    exact .delivered h (by rw [hdeliver, hw.files]) (hw.here.trans hhere)

/-- Generating and delivering a problem is a turn of a job that has something to do. -/
theorem turn_build (houtput : outputPath b.outputDirectory input ≠ "") (logger : Option Log.Logger)
    (canceled : Bool) {t : Tracker} {w w₁ : World} (halike : w.Alike w₁) {digest : String}
    (hdigest : digestFrom (w.files.read w.here) o input = .ok digest)
    (hdue : (b.force || outdated w.files w.here digest (t.find? input.full)) = true) :
    ∃ error t' w', (build o logger canceled input digest (outputPath b.outputDirectory input)).run
        t w₁ = (error, t', w') ∧
      Turn o b canceled input (t, w)
        { input := input.path, output := outputPath b.outputDirectory input, error } (t', w') := by
  have hstart : Tells (w.files.read w.here) (sources input) _ _ :=
    tells_generate o logger canceled input
  obtain ⟨w₂, hgenerate, halike'⟩ := hstart.run t (w := w₁) fun _ _ => by
    rw [halike.files, halike.here]
  have hfate : ∀ {r}, Pipeline.generatedFrom (w.files.read w.here) (jobOptions o input) canceled
      input.full = r → fate o b.force canceled w.files w.here (t.find? input.full) input =
        match r with
        | .error e => .ungenerated e
        | .ok g => .generated digest g := by
    rintro r rfl
    rw [fate, hdigest]
    simp only [hdue, if_true]
  unfold build
  rcases hr : Pipeline.generatedFrom (w.files.read w.here) (jobOptions o input) canceled input.full
    with e | g <;> rw [hr] at hgenerate
  · exact ⟨_, _, _, Script.run_bind_of hgenerate, .ungenerated (hfate hr) (halike.trans halike')⟩
  · obtain ⟨r, w₃, hwrite, hhere, hdeliver⟩ := run_writeProblem houtput g.problem t w₂
    rw [(halike.trans halike').files, (halike.trans halike').here] at hdeliver
    rw [(halike.trans halike').here] at hhere
    rcases hdeliver with ⟨hdeliver, rfl⟩ | ⟨e, cause, hdeliver, rfl⟩
    · let t' := t.record ⟨input.full, digest, outputPath b.outputDirectory input, w₃.moment.seconds⟩
      obtain ⟨w₄, hsay, hquiet⟩ := Log.run_sayAt logger .debug "generated"
        [("input", .text input.path), ("output", .text (outputPath b.outputDirectory input)),
          ("cuts", .int g.stats.cuts)] t' w₃
      refine ⟨none, t', w₄, (Script.run_bind_of hgenerate).trans
        ((Script.run_bind_of hwrite).trans ?_), ?_⟩
      · exact Script.run_bind_of hsay
      · exact .delivered (hfate hr) (by rw [hdeliver, hquiet.files]) (hquiet.here.trans hhere)
    · exact ⟨_, _, _, (Script.run_bind_of hgenerate).trans (Script.run_bind_of hwrite),
        .undelivered (hfate hr) hdeliver hhere⟩

theorem turn_attempt (houtput : outputPath b.outputDirectory input ≠ "") (o : PipelineOptions)
    (logger : Option Log.Logger) (canceled : Bool) (t : Tracker) (w : World) :
    ∃ item t' w', (attempt o b logger canceled input).run t w = (item, t', w') ∧
      Turn o b canceled input (t, w) item (t', w') := by
  have hstart : Tells (w.files.read w.here) (sources input) _ _ := tells_inputDigest o input
  obtain ⟨w₁, hdigest, halike⟩ := hstart.run t (w := w) fun _ _ => rfl
  unfold attempt
  rcases hr : digestFrom (w.files.read w.here) o input with e | digest <;> rw [hr] at hdigest
  · exact ⟨_, _, _, Script.run_bind_of hdigest, .unread (by rw [fate, hr]) halike⟩
  · have hdue := run_isDue b.force input.full digest t w₁
    rw [halike.files, halike.here] at hdue
    rcases hdue' : b.force || outdated w.files w.here digest (t.find? input.full) <;>
      rw [hdue'] at hdue
    · obtain ⟨w₂, hsay, hquiet⟩ :=
        Log.run_sayAt logger .debug "up to date" [("input", .text input.path)] t w₁
      refine ⟨_, _, _, (Script.run_bind_of hdigest).trans ((Script.run_bind_of hdue).trans
        (Script.run_bind_of hsay)), .upToDate ?_ (halike.trans hquiet)⟩
      rw [fate, hr]
      simp only [hdue', Bool.false_eq_true, if_false]
    · obtain ⟨error, t', w', hbuild, hturn⟩ :=
        turn_build houtput logger canceled halike hr hdue'
      exact ⟨_, _, _, (Script.run_bind_of hdigest).trans ((Script.run_bind_of hdue).trans
        (Script.run_bind_of hbuild)), hturn⟩

/-- **A job takes one of the turns.** -/
theorem turn_job (houtput : outputPath b.outputDirectory input ≠ "") (o : PipelineOptions)
    (logger : Option Log.Logger) (canceled : Bool) (t : Tracker) (w : World) :
    ∃ item t' w', (job o b logger canceled input).run t w = (item, t', w') ∧
      Turn o b canceled input (t, w) item (t', w') := by
  obtain ⟨item, t', w', hrun, hturn⟩ := turn_attempt (b := b) houtput o logger canceled t w
  unfold job
  rcases herror : item.error with _ | e
  · refine ⟨item, t', w', (Script.run_bind_of hrun).trans ?_, hturn⟩
    rw [herror]
    rfl
  · obtain ⟨w'', hsay, hquiet⟩ := Log.run_sayAt logger .error "generation failed"
      [("input", .text input.path), ("err", .shown e.message)] t' w'
    refine ⟨item, t', w'', (Script.run_bind_of hrun).trans ?_, hturn.trans_alike hquiet⟩
    rw [herror]
    exact Script.run_bind_of hsay

end

end Batch

end WorstCase
