import WorstCase.Proofs.Batch.Turn
import WorstCase.Proofs.Files.Crew
import WorstCase.Proofs.Tracker.Remembered

/-!
# Jobs among others

When jobs work at the same time, each has its **errand**: what is to come of its input, which
directories are made for that and where the problem gets to, all told by the tree before any of them
has started. Others may deliver files meanwhile and change what is remembered of other inputs
(`Batch.Around`). As long as they are not in the way, a job does its errand and nothing else,
whatever they do between its steps (`Batch.Errand.Sound.ensures_job`).
-/

namespace WorstCase.Batch

open Script (Tells Ensures)
open Files (Grows Delivers Missing)

/-- What is to come of an input. -/
structure Errand where
  input : Scan.Found
  output : String
  /-- What is remembered of the input before. -/
  remembered : Option TrackerEntry
  fate : Fate
  /-- The directories that are made for a problem, and how that ends. -/
  made : Set (List String)
  makes : Except FileError Unit
  /-- Where a problem gets to. -/
  site : Except FileError (List String)

namespace Errand

/-- The directories that are made. -/
def directories (e : Errand) : Set (List String) :=
  {q | q ∈ e.made ∧ ∃ digest g, e.fate = .generated digest g}

/-- The files that are written, with their contents. -/
def contents (e : Errand) : Set (List String × ByteArray) :=
  {p | e.makes = .ok () ∧ e.site = .ok p.1 ∧
    ∃ digest g, e.fate = .generated digest g ∧ p.2 = Text.toBytes g.problem.render}

/-- Where files are written. -/
def sites (e : Errand) : Set (List String) := {q | ∃ c, (q, c) ∈ e.contents}

/-- Why the job fails. -/
def failure (e : Errand) : Option JobError :=
  match e.fate, e.makes, e.site with
  | .unread cause, _, _ => some (.digest cause)
  | .upToDate, _, _ => none
  | .ungenerated cause, _, _ => some (.generate cause)
  | .generated _ _, .error cause, _ =>
    some (.generate (.makeDirectory (Path.directory e.output) cause))
  | .generated _ _, .ok (), .error cause => some (.generate (.createFile ⟨e.output, cause⟩))
  | .generated _ _, .ok (), .ok _ => none

/-- What is reported. -/
def item (e : Errand) : BatchItem where
  input := e.input.path
  output := e.output
  skipped := match e.fate with
    | .upToDate => true
    | _ => false
  error := e.failure

/-- What is remembered of the input after. -/
def entry (e : Errand) : Option TrackerEntry :=
  match e.fate, e.makes, e.site with
  | .ungenerated _, _, _ => none
  | .generated digest _, .ok (), .ok _ =>
    some { input := e.input.full, digest, output := e.output, built := 0 }
  | _, _, _ => e.remembered.map fun x => { x with built := 0 }

end Errand

/-! ### Others -/

/-- What others may do while a job works: they make directories at some places and write files at
some, and they leave alone what is remembered of the input. -/
structure Around (made written : Set (List String)) (input : String)
    (st st' : Tracker × World) : Prop where
  here : st'.2.here = st.2.here
  files : Grows made written st.2.files st'.2.files
  remembered : st'.1.find? input = st.1.find? input

/-- What a job does: it makes directories at some places and writes files at some, and it changes
nothing but what is remembered of its input. -/
structure Within (made written : Set (List String)) (input : String)
    (st st' : Tracker × World) : Prop where
  here : st'.2.here = st.2.here
  files : Grows made written st.2.files st'.2.files
  remembered : ∀ k, k ≠ input → st'.1.find? k = st.1.find? k
  ordered : st.1.Ordered → st'.1.Ordered

/-- How far a job has got: which directories and files are there, in a tree that has grown at some
places, and what is remembered of its input. -/
structure Stage (fs : Files) (here : List String) (input : String)
    (made written directories : Set (List String)) (contents : Set (List String × ByteArray))
    (remembered : Option TrackerEntry → Prop) (st : Tracker × World) : Prop where
  here : st.2.here = here
  files : Grows made written fs st.2.files
  directories : ∀ q ∈ directories, st.2.files.entry? q = some .directory
  contents : ∀ p ∈ contents, st.2.files.entry? p.1 = some (.file p.2)
  remembered : remembered (st.1.find? input)

section

variable {made written made' written' : Set (List String)} {input : String} {fs : Files}
  {here : List String} {directories : Set (List String)} {contents : Set (List String × ByteArray)}
  {remembered : Option TrackerEntry → Prop} {st st' : Tracker × World} {t : Tracker} {w w' : World}

theorem Around.refl (made written : Set (List String)) (input : String) (st : Tracker × World) :
    Around made written input st st := ⟨rfl, .refl _ _ _, rfl⟩

theorem Around.trans {st'' : Tracker × World} (h : Around made written input st st')
    (h' : Around made written input st' st'') : Around made written input st st'' :=
  ⟨h'.here.trans h.here, h.files.trans h'.files, h'.remembered.trans h.remembered⟩

/-- Reading and logging are always within what a job does. -/
theorem Within.of_alike (hw : w.Alike w') : Within made written input (t, w) (t, w') :=
  ⟨hw.here, hw.files ▸ .refl _ _ _, fun _ _ => rfl, id⟩

/-- What a job has achieved stays, whatever others do. -/
theorem Stage.around (h : Stage fs here input made written directories contents remembered st)
    (hmade : made' ⊆ made) (hwritten : written' ⊆ written) (hcontents : ∀ p ∈ contents, p.1 ∉ written')
    (hst : Around made' written' input st st') :
    Stage fs here input made written directories contents remembered st' where
  here := hst.here.trans h.here
  files := h.files.trans (hst.files.mono hmade hwritten)
  directories q hq := by
    obtain ⟨_, he, rfl⟩ := hst.files.kept (h.directories q hq)
    exact he
  contents p hp := by
    obtain ⟨e', he, hkept⟩ := hst.files.kept (h.contents p hp)
    rw [he, hkept.eq (hcontents p hp)]
  remembered := hst.remembered ▸ h.remembered

theorem Stage.alike (h : Stage fs here input made written directories contents remembered (t, w))
    (hw : w.Alike w') :
    Stage fs here input made written directories contents remembered (t, w') := by
  obtain ⟨hhere, hfiles, hdirectories, hcontents, hremembered⟩ := h
  exact ⟨hw.here.trans hhere, by rwa [hw.files], by rwa [hw.files], by rwa [hw.files], hremembered⟩

end

namespace Errand

/-- The errand of a job, told by the tree before, when others make directories and write files at
these places only: they are not in the way. -/
structure Sound (e : Errand) (o : PipelineOptions) (b : BatchOptions) (fs : Files)
    (here : List String) (made written : Set (List String)) : Prop where
  output_eq : e.output = outputPath b.outputDirectory e.input
  output_ne : e.output ≠ ""
  fate_eq : e.fate = Batch.fate o b.force false fs here e.remembered e.input
  output_of_remembered : ∀ x, e.remembered = some x → x.output = e.output
  delivers : Delivers fs here e.output e.made e.makes e.site
  not_missing : ∀ p ∈ sources e.input, ¬ Missing (fs.locate .look here p)
  sources_apart : ∀ p ∈ sources e.input, ∀ place x, fs.locate .look here p = .ok ⟨place, x⟩ →
    place ∉ written
  made_apart : ∀ q ∈ e.made, q ∉ written
  site_apart : e.makes = .ok () → ∀ p, e.site = .ok p → p ∉ made ∧ p ∉ written

variable {e : Errand} {o : PipelineOptions} {b : BatchOptions} {fs : Files} {here : List String}
  {made written : Set (List String)} {st : Tracker × World} {α : Type}

/-! ### How far an errand has got -/

/-- Before a job has done anything. -/
abbrev Ready (e : Errand) (fs : Files) (here : List String) (made written : Set (List String)) :
    Tracker × World → Prop :=
  Stage fs here e.input.full made written ∅ ∅ (· = e.remembered)

/-- What a job does while others work. -/
abbrev Does (e : Errand) (made written : Set (List String)) :
    (α → Tracker × World → Prop) → Script Tracker α → Tracker × World → Prop :=
  Ensures (Around made written e.input.full) (Within e.directories e.sites e.input.full)

/-- After the directory of a problem has been made. -/
abbrev Roomy (e : Errand) (fs : Files) (here : List String) (made written : Set (List String)) :
    Tracker × World → Prop :=
  Stage fs here e.input.full (made ∪ e.made) written e.made ∅ (· = e.remembered)

/-- After a problem has been written. -/
abbrev Written (e : Errand) (fs : Files) (here : List String)
    (remembered : Option TrackerEntry → Prop) : Tracker × World → Prop :=
  Stage fs here e.input.full Set.univ Set.univ e.directories e.contents remembered

theorem directories_eq {digest : String} {g : Generated} (hfate : e.fate = .generated digest g) :
    e.directories = e.made :=
  Set.ext fun _ => and_iff_left ⟨digest, g, hfate⟩

/-- What is remembered at the end, up to when a problem was generated. -/
abbrev Recalls (e : Errand) (r : Option TrackerEntry) : Prop :=
  (r.map fun x => { x with built := 0 }) = e.entry

namespace Sound

/-! ### Reading and logging -/

theorem does_reading (h : e.Sound o b fs here made written) {s : Script Tracker α} {a : α}
    (hs : Tells (fs.read here) (sources e.input) s a) (hst : Ready e fs here made written st) :
    Does e made written (fun a' st' => a' = a ∧ Ready e fs here made written st') s st := by
  refine Ensures.of_tells (Around.refl _ _ _) (fun st st' hst hrely => ?_)
    (fun t w w' hw hst => hst.alike hw) (fun t w w' hw => .of_alike hw) (fun t w hst p hp => ?_) hs hst
  · exact hst.around subset_rfl subset_rfl (by simp) hrely
  · rw [hst.here]
    exact hst.files.read_eq (h.not_missing p hp) (h.sources_apart p hp)

/-- Logging changes nothing that matters. -/
theorem does_log {made' written' directories : Set (List String)}
    {contents : Set (List String × ByteArray)} {remembered : Option TrackerEntry → Prop}
    (hmade : made ⊆ made') (hwritten : written ⊆ written') (hcontents : ∀ p ∈ contents, p.1 ∉ written)
    (logger : Option Log.Logger) (level : Log.Level) (message : String)
    (fields : List (String × Log.Value))
    (hst : Stage fs here e.input.full made' written' directories contents remembered st) :
    Does e made written
      (fun _ => Stage fs here e.input.full made' written' directories contents remembered)
      (Log.sayAt logger level message fields) st := by
  have htells : Tells (fs.read here) ∅
      (Log.sayAt logger level message fields : Script Tracker Unit) () :=
    Log.tells_sayAt logger level message fields
  have hlog : Does e made written _ (Log.sayAt logger level message fields) st :=
    .of_tells (Around.refl made written e.input.full)
      (fun st st' hst hrely => hst.around hmade hwritten hcontents hrely)
      (fun t w w' hw hst => hst.alike hw) (fun t w w' hw => .of_alike hw)
      (fun t w hst p hp => absurd hp (Set.notMem_empty p)) htells hst
  exact hlog.imp fun _ _ h => h.2

theorem does_isDue (h : e.Sound o b fs here made written) (digest : String)
    (hst : Ready e fs here made written st) :
    Does e made written
      (fun due st' => due = (b.force || outdated fs here digest e.remembered) ∧
        Ready e fs here made written st') (isDue b.force e.input.full digest) st := by
  cases b.force with
  | true => exact .done ⟨rfl, hst⟩
  | false =>
    have hlook : Does e made written (fun t st' => t.find? e.input.full = e.remembered ∧
        Ready e fs here made written st') Script.state st :=
      .one (.refl _ _ _ _) fun st' hst' => by
        have hready := hst.around subset_rfl subset_rfl (by simp) hst'
        exact ⟨st'.1, st', rfl, .of_alike (.refl _), hready.remembered, hready⟩
    refine hlook.bind fun t st' hlooked => ?_
    obtain ⟨ht, hst'⟩ := hlooked
    rw [Tracker.isStale, Tracker.freshness, ht, Bool.false_or]
    rcases hremembered : e.remembered with _ | x
    · exact .done ⟨rfl, hst'⟩
    rw [outdated]
    by_cases hdigest : x.digest = digest
    swap
    · simp only [hdigest, ne_eq, not_false_eq_true, if_true]
      exact .done ⟨rfl, hst'⟩
    have houtput : x.output = e.output := h.output_of_remembered x hremembered
    simp only [hdigest, ne_eq, not_true_eq_false, if_false, houtput, h.output_ne]
    have hkind : Does e made written
        (fun k st' => k.isNone = (fs.find? here e.output).isNone ∧ Ready e fs here made written st')
        (Script.kindOf e.output) st' := .one (.refl _ _ _ _) fun st'' hst'' => by
      have hready := hst'.around subset_rfl subset_rfl (by simp) hst''
      refine ⟨_, st'', rfl, .of_alike (.refl _), ?_, hready⟩
      have hfind := h.delivers.find hready.files h.made_apart h.site_apart
      rw [Option.isNone_map, hready.here, Bool.eq_iff_iff, Option.isNone_iff_eq_none,
        Option.isNone_iff_eq_none, hfind]
    exact hkind.bind fun k st'' hk => .done hk

/-! ### Delivering -/

/-- Making the directories of an errand. -/
theorem roomy (h : e.Sound o b fs here made written) {digest : String} {g : Generated}
    (hfate : e.fate = .generated digest g) {t : Tracker} {w : World} {fs' : Files}
    (hst : Ready e fs here made written (t, w)) (hmade : Files.MadeAt e.made w.files fs') :
    Within e.directories e.sites e.input.full (t, w) (t, { w with files := fs' }) ∧
      Roomy e fs here made written (t, { w with files := fs' }) := by
  have hopen : ∀ q ∈ e.made, w.files.entry? q = none ∨ w.files.entry? q = some .directory := by
    intro q hq
    rcases hentry : w.files.entry? q with _ | x
    · exact .inl rfl
    · rcases hst.files.new (h.delivers.made_new q hq) hentry with ⟨rfl, -⟩ | ⟨-, hwritten⟩
      · exact .inr rfl
      · exact absurd hwritten (h.made_apart q hq)
  refine ⟨⟨rfl, directories_eq hfate ▸ hmade.grows hopen, fun _ _ => rfl, id⟩, hst.here,
    (hst.files.mono Set.subset_union_left subset_rfl).trans
      ((hmade.grows hopen).mono Set.subset_union_right subset_rfl),
    fun q hq => (hmade q).1 hq, by simp, hst.remembered⟩

theorem does_makeRoom (h : e.Sound o b fs here made written) {digest : String} {g : Generated}
    (hfate : e.fate = .generated digest g) (hst : Ready e fs here made written st) :
    Does e made written (fun r st' => r = e.makes ∧ Roomy e fs here made written st')
      (makeRoom e.output) st := by
  rw [makeRoom]
  by_cases hdirectory : Path.directory e.output = "."
  · rw [if_pos hdirectory]
    obtain ⟨fs', hprepare, hmade⟩ := h.delivers.prepare hst.files h.made_apart
    rw [Files.prepare, if_pos hdirectory] at hprepare
    obtain ⟨rfl, hmakes⟩ := Prod.mk.inj hprepare
    exact .done ⟨hmakes, (roomy h hfate hst hmade).2⟩
  · rw [if_neg hdirectory]
    refine .one (.refl _ _ _ _) fun st' hst' => ?_
    have hready := hst.around subset_rfl subset_rfl (by simp) hst'
    obtain ⟨fs', hprepare, hmade⟩ := h.delivers.prepare hready.files h.made_apart
    rw [Files.prepare, if_neg hdirectory, ← hready.here] at hprepare
    have hmake : st'.2.makeDirectories (Path.directory e.output) =
        (e.makes, { st'.2 with files := fs' }) := by
      rw [World.makeDirectories, hprepare]
    obtain ⟨hwithin, hroomy⟩ := roomy h hfate hready hmade
    refine ⟨e.makes, (st'.1, { st'.2 with files := fs' }), ?_, hwithin, rfl, hroomy⟩
    change some (Script.done (st'.2.makeDirectories _).1, st'.1, (st'.2.makeDirectories _).2) = _
    rw [hmake]

theorem site_notMem (h : e.Sound o b fs here made written) (hmakes : e.makes = .ok ())
    {p : List String} (hp : e.site = .ok p) : p ∉ made ∪ e.made := by
  rw [Set.mem_union, not_or]
  exact ⟨(h.site_apart hmakes p hp).1, (h.delivers.site_new p hp).1⟩

/-- Writing the problem of an errand. -/
theorem written_of_putAt (h : e.Sound o b fs here made written) {digest : String} {g : Generated}
    (hfate : e.fate = .generated digest g) (hmakes : e.makes = .ok ()) {p : List String}
    (hp : e.site = .ok p) {t : Tracker} {w : World} {fs' : Files}
    (hst : Roomy e fs here made written (t, w))
    (hput : Files.PutAt p (Text.toBytes g.problem.render) w.files fs') :
    Within e.directories e.sites e.input.full (t, w) (t, { w with files := fs' }) ∧
      Written e fs here (· = e.remembered) (t, { w with files := fs' }) := by
  have hcontents : (p, Text.toBytes g.problem.render) ∈ e.contents :=
    ⟨hmakes, hp, digest, g, hfate, rfl⟩
  have hfile : ∀ x, w.files.entry? p = some x → ∃ c, x = .file c := by
    intro x hx
    rcases (h.delivers.site_new p hp).2 with hnone | ⟨c, hfile⟩
    · rcases hst.files.new hnone hx with hd | hf
      · exact absurd hd.2 (h.site_notMem hmakes hp)
      · exact hf.1
    · obtain ⟨e', he', c', rfl, -⟩ := hst.files.kept hfile
      exact ⟨c', Option.some.inj (hx.symm.trans he')⟩
  have hgrows : Grows e.directories e.sites w.files fs' :=
    (hput.grows hfile).mono subset_rfl fun q (hq : q = p) => hq ▸ ⟨_, hcontents⟩
  refine ⟨⟨rfl, hgrows, fun _ _ => rfl, id⟩, hst.here, ?_, fun q hq => ?_, ?_, hst.remembered⟩
  · exact (hst.files.mono (Set.subset_univ _) (Set.subset_univ _)).trans
      (hgrows.mono (Set.subset_univ _) (Set.subset_univ _))
  · obtain ⟨x, hx, rfl⟩ := hgrows.kept (hst.directories q hq.1)
    exact hx
  · rintro ⟨q, c⟩ ⟨-, hq, digest', g', hfate', rfl⟩
    obtain rfl := Except.ok.inj (hp.symm.trans hq)
    obtain ⟨-, rfl⟩ := Fate.generated.inj (hfate.symm.trans hfate')
    rw [hput, if_pos rfl]

theorem does_write (h : e.Sound o b fs here made written) {digest : String} {g : Generated}
    (hfate : e.fate = .generated digest g) (hmakes : e.makes = .ok ())
    (hst : Roomy e fs here made written st) :
    Does e made written
      (fun r st' => (∃ cause, e.site = .error cause ∧ r = .error cause ∧
          Roomy e fs here made written st') ∨
        ∃ p, e.site = .ok p ∧ r = .ok () ∧ Written e fs here (· = e.remembered) st')
      (Script.writeFile e.output (Text.toBytes g.problem.render)) st := by
  refine .one (.refl _ _ _ _) fun st' hst' => ?_
  have hroomy := hst.around Set.subset_union_left subset_rfl (by simp) hst'
  rcases h.delivers.write (Text.toBytes g.problem.render) hroomy.files hmakes hroomy.directories
    fun _ => h.site_notMem hmakes with ⟨cause, hcause, hwrite⟩ | ⟨p, fs', hp, hwrite, hput⟩ <;>
    rw [← hroomy.here] at hwrite
  · have hstep : st'.2.write e.output (Text.toBytes g.problem.render) = (.error cause, st'.2) := by
      rw [World.write, hwrite]
    refine ⟨.error cause, st', ?_, .of_alike (.refl _), .inl ⟨cause, hcause, rfl, hroomy⟩⟩
    change some (Script.done (st'.2.write _ _).1, st'.1, (st'.2.write _ _).2) = _
    rw [hstep]
  · have hstep : st'.2.write e.output (Text.toBytes g.problem.render) =
        (.ok (), { st'.2 with files := fs' }) := by
      rw [World.write, hwrite]
    obtain ⟨hwithin, hwritten⟩ := h.written_of_putAt hfate hmakes hp hroomy hput
    refine ⟨.ok (), (st'.1, { st'.2 with files := fs' }), ?_, hwithin, .inr ⟨p, hp, rfl, hwritten⟩⟩
    change some (Script.done (st'.2.write _ _).1, st'.1, (st'.2.write _ _).2) = _
    rw [hstep]

/-! ### The whole job -/

/-- An errand without a problem is done before anything is delivered. -/
theorem written_of_ready (hfate : ∀ digest g, e.fate ≠ .generated digest g)
    {remembered : Option TrackerEntry → Prop} (hst : Ready e fs here made written st)
    (hremembered : remembered (st.1.find? e.input.full)) : Written e fs here remembered st where
  here := hst.here
  files := hst.files.mono (Set.subset_univ _) (Set.subset_univ _)
  directories := fun _ ⟨_, digest, g, heq⟩ => absurd heq (hfate digest g)
  contents := fun _ ⟨_, _, digest, g, heq, _⟩ => absurd heq (hfate digest g)
  remembered := hremembered

theorem does_writeProblem (h : e.Sound o b fs here made written) {digest : String} {g : Generated}
    (hfate : e.fate = .generated digest g) (hst : Ready e fs here made written st) :
    Does e made written
      (fun r st' => (∃ cause, r = .error cause ∧ e.failure = some (.generate cause) ∧
          Written e fs here (Recalls e) st') ∨
        r = .ok () ∧ e.failure = none ∧
          e.entry = some ⟨e.input.full, digest, e.output, 0⟩ ∧
          Written e fs here (fun _ => True) st')
      (Pipeline.writeProblem g.problem e.output).run st := by
  rw [writeProblem_eq h.output_ne]
  -- what is there when nothing has been written
  have hfailed : ∀ {st'}, (∀ p, e.makes = .ok () → e.site ≠ .ok p) →
      e.entry = (e.remembered.map fun x => { x with built := 0 }) →
      Roomy e fs here made written st' → Written e fs here (Recalls e) st' :=
    fun hsite hentry hst' => ⟨hst'.here, hst'.files.mono (Set.subset_univ _) (Set.subset_univ _),
      fun q hq => hst'.directories q hq.1, fun p hp => absurd hp.2.1 (hsite _ hp.1), by
        rw [Recalls, hst'.remembered, hentry]⟩
  refine (does_makeRoom h hfate hst).bind fun r st' hr => ?_
  obtain ⟨rfl, hst'⟩ := hr
  rcases hmakes : e.makes with cause | _
  · exact .done (.inl ⟨_, rfl, by simp [failure, hfate, hmakes],
      hfailed (by simp [hmakes]) (by simp [entry, hfate, hmakes]) hst'⟩)
  refine (does_write h hfate hmakes hst').bind fun r st'' hr => ?_
  rcases hr with ⟨cause, hsite, rfl, hst''⟩ | ⟨p, hsite, rfl, hst''⟩
  · exact .done (.inl ⟨_, rfl, by simp [failure, hfate, hmakes, hsite],
      hfailed (by simp [hsite]) (by simp [entry, hfate, hmakes, hsite]) hst''⟩)
  · refine .done (.inr ⟨rfl, by simp [failure, hfate, hmakes, hsite],
      by simp [entry, hfate, hmakes, hsite], ?_⟩)
    exact ⟨hst''.here, hst''.files, hst''.directories, hst''.contents, trivial⟩

/-- A change of what is remembered of the input. -/
theorem does_modify {remembered remembered' : Option TrackerEntry → Prop} {f : Tracker → Tracker}
    (hothers : ∀ t k, k ≠ e.input.full → (f t).find? k = t.find? k)
    (hordered : ∀ t : Tracker, t.Ordered → (f t).Ordered)
    (hinput : ∀ t, remembered (t.find? e.input.full) → remembered' ((f t).find? e.input.full))
    (hcontents : ∀ p ∈ e.contents, p.1 ∉ written) (hst : Written e fs here remembered st) :
    Does e made written (fun _ => Written e fs here remembered') (Script.modify f) st := by
  refine .one (.refl _ _ _ _) fun st' hst' => ?_
  have hwritten := hst.around (Set.subset_univ _) (Set.subset_univ _) hcontents hst'
  refine ⟨(), (f st'.1, st'.2), rfl, ⟨rfl, .refl _ _ _, hothers _, hordered _⟩, ?_⟩
  exact ⟨hwritten.here, hwritten.files, hwritten.directories, hwritten.contents,
    hinput _ hwritten.remembered⟩

theorem contents_apart (h : e.Sound o b fs here made written) :
    ∀ p ∈ e.contents, p.1 ∉ written := fun p hp => (h.site_apart hp.1 p.1 hp.2.1).2

/-- An input of which no problem can be generated is forgotten. -/
theorem does_forget (h : e.Sound o b fs here made written) {cause : GenerateError}
    (hfate : e.fate = .ungenerated cause) (hst : Ready e fs here made written st) :
    Does e made written (fun _ => Written e fs here (Recalls e))
      (Script.modify fun t => t.forget e.input.full) st := by
  have hwritten : Written e fs here (fun _ => True) st :=
    written_of_ready (by simp [hfate]) hst trivial
  refine does_modify (fun t k hk => ?_) (fun t ht => ht.forget _) (fun t _ => ?_)
    (contents_apart h) hwritten
  · rw [Tracker.find?_forget, if_neg hk]
  · rw [Recalls, Tracker.find?_forget, if_pos rfl]
    simp [entry, hfate]

theorem does_time (h : e.Sound o b fs here made written) {remembered : Option TrackerEntry → Prop}
    (hst : Written e fs here remembered st) :
    Does e made written (fun _ => Written e fs here remembered) Script.time st :=
  .one (.refl _ _ _ _) fun st' hst' => ⟨_, st', rfl, .of_alike (.refl _),
    hst.around (Set.subset_univ _) (Set.subset_univ _) (contents_apart h) hst'⟩

/-- A problem that has been written is recorded. -/
theorem does_record (h : e.Sound o b fs here made written) {digest : String}
    (hentry : e.entry = some ⟨e.input.full, digest, e.output, 0⟩) (moment : Int64)
    (hst : Written e fs here (fun _ => True) st) :
    Does e made written (fun _ => Written e fs here (Recalls e))
      (Script.modify fun t => t.record ⟨e.input.full, digest, e.output, moment⟩) st := by
  refine does_modify (fun t k hk => ?_) (fun t ht => ht.record _) (fun t _ => ?_)
    (contents_apart h) hst
  · rw [Tracker.find?_record, if_neg hk]
  · rw [Recalls, Tracker.find?_record, if_pos rfl, hentry]
    rfl

theorem does_build (h : e.Sound o b fs here made written) (logger : Option Log.Logger)
    {digest : String} (hdigest : digestFrom (fs.read here) o e.input = .ok digest)
    (hdue : (b.force || outdated fs here digest e.remembered) = true)
    (hst : Ready e fs here made written st) :
    Does e made written (fun error st' => error = e.failure ∧ Written e fs here (Recalls e) st')
      (build o logger false e.input digest e.output) st := by
  have hfate := h.fate_eq
  rw [Batch.fate, hdigest] at hfate
  simp only [hdue, if_true] at hfate
  unfold build
  refine (does_reading h (tells_generate o logger false e.input) hst).bind fun r st' hr => ?_
  obtain ⟨rfl, hst'⟩ := hr
  rcases hr : Pipeline.generatedFrom (fs.read here) (jobOptions o e.input) false e.input.full
    with cause | g <;> rw [hr] at hfate
  · exact (h.does_forget hfate hst').bind fun _ st'' hst'' =>
      .done ⟨by simp [failure, hfate], hst''⟩
  · refine (does_writeProblem h hfate hst').bind fun r st'' hr => ?_
    rcases hr with ⟨cause, rfl, hfailure, hst''⟩ | ⟨rfl, hfailure, hentry, hst''⟩
    · exact .done ⟨hfailure.symm, hst''⟩
    refine (h.does_time hst'').bind fun moment st₁ hst₁ => ?_
    refine (h.does_record hentry moment.seconds hst₁).bind fun _ st₂ hst₂ => ?_
    exact (does_log (Set.subset_univ _) (Set.subset_univ _) (contents_apart h) logger .debug _ _
      hst₂).bind fun _ st₃ hst₃ => .done ⟨hfailure.symm, hst₃⟩

theorem does_attempt (h : e.Sound o b fs here made written) (logger : Option Log.Logger)
    (hst : Ready e fs here made written st) :
    Does e made written (fun item st' => item = e.item ∧ Written e fs here (Recalls e) st')
      (attempt o b logger false e.input) st := by
  unfold attempt
  simp only [← h.output_eq]
  refine (does_reading h (tells_inputDigest o e.input) hst).bind fun r st' hr => ?_
  obtain ⟨rfl, hst'⟩ := hr
  have hfate := h.fate_eq
  rcases hdigest : digestFrom (fs.read here) o e.input with cause | digest <;>
    rw [Batch.fate, hdigest] at hfate
  · refine .done ⟨by simp [item, failure, hfate], written_of_ready (by simp [hfate]) hst' ?_⟩
    rw [Recalls, hst'.remembered]
    simp [entry, hfate]
  refine (does_isDue h digest hst').bind fun due st'' hr => ?_
  obtain ⟨rfl, hst''⟩ := hr
  rcases hdue : b.force || outdated fs here digest e.remembered
  · simp only [hdue, Bool.false_eq_true, if_false] at hfate
    have hwritten : Written e fs here (Recalls e) st'' := by
      refine written_of_ready (by simp [hfate]) hst'' ?_
      rw [Recalls, hst''.remembered]
      simp [entry, hfate]
    exact (does_log (Set.subset_univ _) (Set.subset_univ _) (contents_apart h) logger .debug _ _
      hwritten).bind fun _ st₁ hst₁ => .done ⟨by simp [item, failure, hfate], hst₁⟩
  · refine (does_build h logger hdigest hdue hst'').bind fun error st₁ hr => .done ⟨?_, hr.2⟩
    rw [hr.1, item]
    simp only [hdue, if_true] at hfate
    rcases hg : Pipeline.generatedFrom (fs.read here) (jobOptions o e.input) false e.input.full <;>
      rw [hg] at hfate <;> rw [hfate]

/-- **A job does its errand**, whatever others do meanwhile that are not in its way. -/
theorem ensures_job (h : e.Sound o b fs here made written) (logger : Option Log.Logger)
    (hst : Ready e fs here made written st) :
    Does e made written (fun item st' => item = e.item ∧ Written e fs here (Recalls e) st')
      (job o b logger false e.input) st := by
  unfold job
  refine (does_attempt h logger hst).bind fun item st' hr => ?_
  rcases item.error with _ | error
  · exact .done hr
  · exact (does_log (Set.subset_univ _) (Set.subset_univ _) (contents_apart h) logger .error _ _
      hr.2).bind fun _ st'' hst'' => .done ⟨hr.1, hst''⟩

end Sound

end Errand

end WorstCase.Batch
