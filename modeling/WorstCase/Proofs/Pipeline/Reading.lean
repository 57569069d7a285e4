import WorstCase.Pipeline.Generate
import WorstCase.Proofs.Files.Script

/-!
# What the pipeline reads

The pipeline reads its input, the matching file and the cuts file, and nothing else. What it
generates is a function of their contents (`Pipeline.generatedFrom`), which its script tells
whatever is logged (`Pipeline.tells_generateFile`).
-/

namespace WorstCase

open Script (Tells)

variable {σ : Type} {files : String → Except FileError ByteArray} {paths : Set String}

theorem Log.tells_say (logger : Option Log.Logger) (r : Log.Record) :
    Tells files paths (Log.say logger r : Script σ Unit) () := by
  cases logger with
  | none => exact .done
  | some l =>
    refine .now fun m => ?_
    change Tells files paths (if l.write m.text r = "" then _ else _) ()
    split
    · exact .done
    · exact .put .done

theorem Log.tells_sayAt (logger : Option Log.Logger) (level : Log.Level) (message : String)
    (fields : List (String × Log.Value)) :
    Tells files paths (Log.sayAt logger level message fields : Script σ Unit) () :=
  Log.tells_say logger _

namespace Pipeline

/-! ### The stages on the contents of files -/

/-- The contents of a file, unpacked. -/
def contentsOf (files : String → Except FileError ByteArray) (path : String) :
    Except InputError ByteArray :=
  match files path with
  | .error e => .error (.resource ⟨path, e⟩)
  | .ok bytes => (Archive.unpack bytes).mapError (.packed path)

/-- The graph with the costs of the matching file, if there is one. -/
def matchedFrom (files : String → Except FileError ByteArray) (o : PipelineOptions) (g : Graph) :
    Except GenerateError Graph :=
  if o.matchingFile = "" then return g
  else do withMatching g (← (contentsOf files o.matchingFile).mapError .matchingFile)

/-- The contents of the cuts file, if there is one. -/
def cutsFrom (files : String → Except FileError ByteArray) (o : PipelineOptions) :
    Except GenerateError (Option ByteArray) :=
  if o.cutsFile = "" then return none
  else do return some (← (contentsOf files o.cutsFile).mapError .cutsFile)

/-- The graph with all cuts, and the numbers of those for dominators and on request. -/
def cutFrom (files : String → Except FileError ByteArray) (o : PipelineOptions) (g : Graph) :
    Except GenerateError (Graph × Nat × Nat) :=
  if o.noSummaries then return (g, 0, 0)
  else do
    let (g, dominator) ← cutsOf g.addDominatorCuts
    let (g, semantic) ← withRequestedCuts o g (← cutsFrom files o)
    return (g, dominator, semantic)

/-- Nothing goes on after the run is canceled. -/
def unlessCanceled (canceled : Bool) : Except GenerateError Unit :=
  if canceled then .error .canceled else return ()

/-- What is generated from an input that has been taken apart. -/
def generatedOf (files : String → Except FileError ByteArray) (o : PipelineOptions)
    (canceled : Bool) (input : Combined) : Except GenerateError Generated := do
  let (problem, graph) ← start input
  let graph ← matchedFrom files o graph
  unlessCanceled canceled
  let (graph, dominatorCuts, semanticCuts) ← cutFrom files o graph
  unlessCanceled canceled
  let (problem, stats) ← finish o problem graph
  return { problem, graph, stats, dominatorCuts, semanticCuts }

/-- **What is generated from the input in a file.** -/
def generatedFrom (files : String → Except FileError ByteArray) (o : PipelineOptions)
    (canceled : Bool) (path : String) : Except GenerateError Generated := do
  let contents ← (contentsOf files path).mapError .input
  let generated ← (generatedOf files o canceled (.ofText (Text.ofBytes contents))).mapError
    (.within path)
  return { generated with contents }

/-! ### What the result depends on -/

theorem toOption_bind {ε α β : Type} (x : Except ε α) (f : α → Except ε β) :
    (x >>= f).toOption = x.toOption.bind fun a => (f a).toOption := by
  cases x <;> rfl

theorem toOption_mapError {ε ε' α : Type} (f : ε → ε') (x : Except ε α) :
    (x.mapError f).toOption = x.toOption := by
  cases x <;> rfl

/-- The options that a result depends on, apart from the files that are named. -/
structure SameOptions (o o' : PipelineOptions) : Prop where
  encoding : o.encoding = o'.encoding
  edgeImpliesNodes : o.edgeImpliesNodes = o'.edgeImpliesNodes
  noSummaries : o.noSummaries = o'.noSummaries
  recursiveCuts : o.recursiveCuts = o'.recursiveCuts
  timeout : o.timeout = o'.timeout
  produceModels : o.produceModels = o'.produceModels

theorem SameOptions.refl (o : PipelineOptions) : SameOptions o o := ⟨rfl, rfl, rfl, rfl, rfl, rfl⟩

/-- Two files with the same contents, or none at both places. -/
def SameFile (files files' : String → Except FileError ByteArray) (path path' : String) : Prop :=
  path = "" ∧ path' = "" ∨
    path ≠ "" ∧ path' ≠ "" ∧ ∃ bytes, files path = .ok bytes ∧ files' path' = .ok bytes

section

variable {files' : String → Except FileError ByteArray} {o o' : PipelineOptions}
  {path path' : String}

theorem toOption_contentsOf {bytes : ByteArray} (h : files path = .ok bytes) :
    (contentsOf files path).toOption = (Archive.unpack bytes).toOption := by
  rw [contentsOf, h]
  exact toOption_mapError _ _

theorem matchedFrom_congr (h : SameFile files files' o.matchingFile o'.matchingFile) (g : Graph) :
    (matchedFrom files o g).toOption = (matchedFrom files' o' g).toOption := by
  rcases h with ⟨hnone, hnone'⟩ | ⟨hsome, hsome', bytes, hbytes, hbytes'⟩
  · rw [matchedFrom, matchedFrom, if_pos hnone, if_pos hnone']
  · rw [matchedFrom, matchedFrom, if_neg hsome, if_neg hsome', toOption_bind, toOption_bind,
      toOption_mapError, toOption_mapError, toOption_contentsOf hbytes, toOption_contentsOf hbytes']

theorem cutsFrom_congr (h : SameFile files files' o.cutsFile o'.cutsFile) :
    (cutsFrom files o).toOption = (cutsFrom files' o').toOption := by
  rcases h with ⟨hnone, hnone'⟩ | ⟨hsome, hsome', bytes, hbytes, hbytes'⟩
  · rw [cutsFrom, cutsFrom, if_pos hnone, if_pos hnone']
  · rw [cutsFrom, cutsFrom, if_neg hsome, if_neg hsome', toOption_bind, toOption_bind,
      toOption_mapError, toOption_mapError, toOption_contentsOf hbytes, toOption_contentsOf hbytes']

theorem cutFrom_congr (ho : SameOptions o o') (h : SameFile files files' o.cutsFile o'.cutsFile)
    (g : Graph) : (cutFrom files o g).toOption = (cutFrom files' o' g).toOption := by
  have hcuts : ∀ g c, withRequestedCuts o g c = withRequestedCuts o' g c := fun g c => by
    unfold withRequestedCuts
    rw [ho.recursiveCuts]
  rw [cutFrom, cutFrom, ho.noSummaries]
  split
  · rfl
  · simp only [toOption_bind, cutsFrom_congr h, hcuts]

/-- **The result depends** on the contents of the files that are read, and on six options. -/
theorem generatedFrom_congr (ho : SameOptions o o') {bytes : ByteArray}
    (hinput : files path = .ok bytes) (hinput' : files' path' = .ok bytes)
    (hmatching : SameFile files files' o.matchingFile o'.matchingFile)
    (hcuts : SameFile files files' o.cutsFile o'.cutsFile) (canceled : Bool) :
    (generatedFrom files o canceled path).toOption =
      (generatedFrom files' o' canceled path').toOption := by
  have hfinish : ∀ p g, finish o p g = finish o' p g := fun p g => by
    unfold finish
    rw [ho.encoding, ho.edgeImpliesNodes, ho.timeout, ho.produceModels]
  simp only [generatedFrom, generatedOf, toOption_bind, toOption_mapError,
    toOption_contentsOf hinput, toOption_contentsOf hinput', matchedFrom_congr hmatching,
    cutFrom_congr ho hcuts, hfinish]

end

/-! ### The script of the pipeline -/

/-- The files that the pipeline reads. -/
def sources (o : PipelineOptions) (path : String) : Set String :=
  {p | p = path ∨ p = o.matchingFile ∧ p ≠ "" ∨ p = o.cutsFile ∧ p ≠ ""}

theorem tells_orFail {ε α : Type} {wrap : ε → GenerateError} {s : Script σ (Except ε α)}
    {r : Except ε α} (h : Tells files paths s r) :
    Tells files paths (orFail wrap s).run (r.mapError wrap) :=
  h.bind .done

theorem tells_orThrow {α : Type} (r : Except GenerateError α) :
    Tells files paths (orThrow r : Run σ α).run r :=
  .done

theorem tells_note (logger : Option Log.Logger) (message : String)
    (fields : List (String × Log.Value)) :
    Tells files paths (note logger message fields : Run σ Unit).run (.ok ()) :=
  (Log.tells_sayAt ..).bind .done

theorem tells_read {path : String} (h : path ∈ paths) :
    Tells files paths (Input.read path : Script σ _) (contentsOf files path) := by
  refine (Tells.readFile h).bind ?_
  rw [contentsOf]
  cases files path with
  | error e => exact .done
  | ok bytes => exact .done

section

variable (logger : Option Log.Logger) (o : PipelineOptions)

theorem tells_matchingStage (h : o.matchingFile ≠ "" → o.matchingFile ∈ paths) (g : Graph) :
    Tells files paths (matchingStage o logger g : Run σ Graph).run (matchedFrom files o g) := by
  rw [matchingStage, matchedFrom]
  by_cases hfile : o.matchingFile = ""
  · rw [if_pos hfile, if_pos hfile]
    exact .done
  · rw [if_neg hfile, if_neg hfile]
    refine (tells_orFail (tells_read (h hfile))).bindT fun contents => ?_
    exact (tells_orThrow _).keepT fun g => (tells_note logger _ _).thenT .done

theorem tells_cutsStage (h : o.cutsFile ≠ "" → o.cutsFile ∈ paths) (g : Graph) :
    Tells files paths (cutsStage o logger g : Run σ _).run (cutFrom files o g) := by
  rw [cutsStage, cutFrom]
  by_cases hsummaries : o.noSummaries = true
  · rw [if_pos hsummaries, if_pos hsummaries]
    exact .done
  · rw [if_neg hsummaries, if_neg hsummaries]
    refine (tells_orThrow _).bindT ?_
    rintro ⟨g, dominator⟩
    have hfile : Tells files paths (if o.cutsFile = "" then return none
        else do return some (← orFail .cutsFile (Input.read o.cutsFile)) : Run σ _).run
        (cutsFrom files o) := by
      rw [cutsFrom]
      by_cases hfile : o.cutsFile = ""
      · rw [if_pos hfile, if_pos hfile]
        exact .done
      · rw [if_neg hfile, if_neg hfile]
        exact (tells_orFail (tells_read (h hfile))).bindT fun contents => .done
    refine hfile.bindT fun contents => (tells_orThrow _).bindT ?_
    rintro ⟨g, semantic⟩
    exact (tells_note logger _ _).thenT .done

theorem tells_checkpoint (canceled : Bool) :
    Tells files paths (checkpoint canceled : Run σ Unit).run (unlessCanceled canceled) := by
  cases canceled <;> exact .done

theorem tells_generate (hmatching : o.matchingFile ≠ "" → o.matchingFile ∈ paths)
    (hcuts : o.cutsFile ≠ "" → o.cutsFile ∈ paths) (hexports : ∀ g, exports o g = [])
    (canceled : Bool) (input : Combined) :
    Tells files paths (generate o logger canceled input : Run σ Generated).run
      (generatedOf files o canceled input) := by
  rw [generate, generatedOf]
  refine (tells_orThrow _).bindT ?_
  rintro ⟨problem, graph⟩
  refine (tells_note logger _ _).thenT ((tells_matchingStage logger o hmatching _).bindT
    fun graph => (tells_checkpoint canceled).bindT fun _ =>
      (tells_cutsStage logger o hcuts _).bindT ?_)
  rintro ⟨graph, dominator, semantic⟩
  refine Tells.thenT (a := ()) ?_ ((tells_checkpoint canceled).bindT fun _ =>
    (tells_orThrow _).bindT ?_)
  · rw [hexports]
    exact .done
  · rintro ⟨problem, stats⟩
    exact (tells_note logger _ _).thenT .done

/-- **The pipeline tells what is generated**, whatever it logs. -/
theorem tells_generateFile (hexports : ∀ g, exports o g = []) (canceled : Bool) (path : String) :
    Tells files (sources o path) (generateFile o logger canceled path : Run σ Generated).run
      (generatedFrom files o canceled path) := by
  have hread : Tells files (sources o path)
      (Input.readCombined path : Script σ (Except InputError (Combined × ByteArray)))
      ((contentsOf files path).map fun contents => (.ofText (Text.ofBytes contents), contents)) := by
    refine (tells_read (.inl rfl)).bind ?_
    cases contentsOf files path with
    | error e => exact .done
    | ok contents => exact .done
  have hinput : Tells files (sources o path)
      (orFail .input (Input.readCombined path) : Run σ (Combined × ByteArray)).run _ :=
    tells_orFail hread
  have hall := hinput.bindT
    (g := fun x => do
      let generated ← orFail (.within path) (generate (σ := σ) o logger canceled x.1).run
      return { generated with contents := x.2 })
    (q := fun x => do
      let generated ← (generatedOf files o canceled x.1).mapError (.within path)
      return { generated with contents := x.2 })
    (by
      rintro ⟨input, contents⟩
      exact (tells_orFail (tells_generate logger o (fun h => .inr (.inl ⟨rfl, h⟩))
        (fun h => .inr (.inr ⟨rfl, h⟩)) hexports canceled input)).bindT fun generated => .done)
  rw [generatedFrom]
  cases hcontents : contentsOf files path with
  | error e =>
    rw [hcontents] at hall
    exact hall
  | ok contents =>
    rw [hcontents] at hall
    exact hall

end

end Pipeline

end WorstCase
