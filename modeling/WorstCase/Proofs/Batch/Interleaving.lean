import WorstCase.Proofs.Ascending
import WorstCase.Proofs.Batch.Course
import WorstCase.Proofs.Batch.Errand
import WorstCase.Proofs.Batch.Plain
import WorstCase.Proofs.Files.Unlinked

/-!
# Jobs that work at the same time

The jobs of a batch form a crew: each of them does its steps in their order, and between them the
others do theirs. If the outputs get to different files, are not in each other's way or in that of
what is read, and no link on the way to one dangles (`Batch.Apart`), then each job has an errand
that does not depend on the others (`Batch.exists_errands`). What all errands come to together is
the same in every order (`Batch.Outcome.unique`), so that every run of the crew ends like the run of
the jobs one after the other (`Batch.runJobs_interleaved`).
-/

namespace WorstCase.Batch

open Script (Ensures)
open Files (Grows Delivers)
open Scan (Found Sighting)

/-! ### The crew of a batch -/

/-- The jobs of some inputs, before any of them has started. -/
def crew (o : PipelineOptions) (b : BatchOptions) (logger : Option Log.Logger) (inputs : List Found)
    (t : Tracker) (w : World) : Crew Found Tracker BatchItem where
  working := inputs.map fun f => (f, job o b logger false f)
  answers := []
  state := (t, w)

/-- One after the other, in any order, is one of the ways in which jobs may be run. -/
theorem steps_runJobs (job : Found → Script Tracker BatchItem) {inputs order : List Found}
    (h : order.Perm inputs) (answers : List (Found × BatchItem)) (t : Tracker) (w : World) :
    Crew.Steps ⟨inputs.map fun f => (f, job f), answers, (t, w)⟩
      ⟨[], answers ++ order.zip ((runJobs job order).run t w).1, ((runJobs job order).run t w).2⟩ := by
  induction order generalizing inputs answers t w with
  | nil =>
    rw [List.nil_perm.mp h, List.map_nil, List.zip_nil_left, List.append_nil]
    exact .refl
  | cons f order ih =>
    obtain ⟨above, below, rfl⟩ := List.append_of_mem (h.subset List.mem_cons_self)
    have hrest : order.Perm (above ++ below) := (h.trans List.perm_middle).cons_inv
    rw [List.map_append, List.map_cons]
    refine (Crew.steps_of_run _ f (job f) _ answers (t, w)).trans ?_
    rw [← List.map_append]
    refine (ih hrest _ _ _).trans ?_
    rw [run_runJobs_cons, List.zip_cons_cons, List.append_assoc, List.singleton_append]

/-! ### Errands -/

/-- Outputs that are apart: they get to different files, of which none is a directory that is made
for another one or a file that is read, and no link on the way to one of them dangles. -/
structure Apart (w : World) (directory : String) (inputs : List Found) : Prop where
  straight : ∀ f ∈ inputs, w.files.Straight w.here (outputPath directory f)
  distinct : ∀ f ∈ inputs, ∀ g ∈ inputs, f ≠ g → ∀ place,
    w.files.Reaches w.here (outputPath directory f) place →
      ¬ w.files.Reaches w.here (outputPath directory g) place ∧
        ¬ w.files.Makes w.here (outputPath directory g) place
  unread : ∀ f ∈ inputs, ∀ g ∈ inputs, ∀ place,
    w.files.Reaches w.here (outputPath directory f) place → ∀ p ∈ sources g, ∀ x,
      w.files.locate .look w.here p ≠ .ok ⟨place, x⟩

/-- Outputs whose paths are different, none of them on the way to another one, and none of them a
path that is read. -/
def Separate (here : List String) (directory : String) (inputs : List Found) : Prop :=
  ∀ f ∈ inputs, ∀ g ∈ inputs,
    (f ≠ g → ¬ Files.placeOf here (outputPath directory f) <+:
      Files.placeOf here (outputPath directory g)) ∧
    ∀ p ∈ [g.full, g.matching, g.cuts], p ≠ "" →
      Files.placeOf here (outputPath directory f) ≠ Files.placeOf here p

instance (here : List String) (directory : String) (inputs : List Found) :
    Decidable (Separate here directory inputs) :=
  inferInstanceAs (Decidable (∀ f ∈ inputs, ∀ g ∈ inputs, _ ∧ _))

/-- **In a tree without links** outputs are apart if their paths are. -/
theorem apart_of_unlinked {w : World} {directory : String} {inputs : List Found}
    (hfs : w.files.WellFormed) (hlinks : w.files.Unlinked)
    (hsighting : ∀ f ∈ inputs, ∃ base d place, Sighting w.files w.here base d place f)
    (h : Separate w.here directory inputs) : Apart w directory inputs where
  straight _ _ := hlinks.straight _ _
  distinct f hf g hg hne place hplace := by
    obtain rfl := hlinks.place_eq_of_reaches hplace
    have hapart := (h f hf g hg).1 hne
    refine ⟨fun hreaches => hapart ?_, fun hmakes => hapart ?_⟩
    · exact ⟨[], (List.append_nil _).trans (hlinks.place_eq_of_reaches hreaches)⟩
    · obtain ⟨base, d, names, hseen⟩ := hsighting g hg
      obtain ⟨absolute, cs, htidy, hout⟩ := tidy_outputPath hseen directory
      rw [hout] at hmakes ⊢
      exact hlinks.prefix_of_makes hfs htidy hmakes
  unread f hf g hg place hplace p hp x hlocate := by
    obtain rfl := hlinks.place_eq_of_reaches hplace
    refine (h f hf g hg).2 p ?_ ?_ (hlinks.place_eq_of_locate hlocate)
    · rcases hp with rfl | ⟨rfl, -⟩ | ⟨rfl, -⟩ <;> simp
    · rintro rfl
      simp [Files.locate] at hlocate

/-- The directories that other inputs need. -/
def othersDirectories (errand : Found → Errand) (inputs : List Found) (f : Found) :
    Set (List String) :=
  {q | ∃ g ∈ inputs, g ≠ f ∧ q ∈ (errand g).directories}

/-- The files that are written for other inputs. -/
def othersSites (errand : Found → Errand) (inputs : List Found) (f : Found) : Set (List String) :=
  {q | ∃ g ∈ inputs, g ≠ f ∧ q ∈ (errand g).sites}

/-- The errands of some inputs, which are not in each other's way. -/
structure Errands (o : PipelineOptions) (b : BatchOptions) (inputs : List Found) (t : Tracker)
    (w : World) (errand : Found → Errand) : Prop where
  input_eq : ∀ f, (errand f).input = f
  remembered_eq : ∀ f, (errand f).remembered = t.find? f.full
  sound : ∀ f ∈ inputs, (errand f).Sound o b w.files w.here (othersDirectories errand inputs f)
    (othersSites errand inputs f)

section

variable {o : PipelineOptions} {b : BatchOptions} {root : String} {t : Tracker} {w : World}
  {inputs : List Found}

/-- Every output is delivered somewhere, if no link on the way to it dangles. -/
theorem exists_delivers (hfs : w.files.WellFormed) {base d : List String}
    (hsightings : ∀ f ∈ inputs, ∃ place, Sighting w.files w.here base d place f)
    (hapart : Apart w b.outputDirectory inputs) :
    ∃ (made : Found → Set (List String)) (makes : Found → Except FileError Unit)
      (site : Found → Except FileError (List String)), ∀ f ∈ inputs,
        Delivers w.files w.here (outputPath b.outputDirectory f) (made f) (makes f) (site f) := by
  have hdeliver : ∀ f, ∃ made makes site, f ∈ inputs →
      Delivers w.files w.here (outputPath b.outputDirectory f) made makes site := by
    intro f
    by_cases hf : f ∈ inputs
    · obtain ⟨place, hplace⟩ := hsightings f hf
      obtain ⟨absolute, cs, htidy, hout⟩ := tidy_outputPath hplace b.outputDirectory
      have hstraight := hapart.straight f hf
      rw [hout] at hstraight ⊢
      obtain ⟨made, makes, site, h⟩ := Files.exists_delivers hfs htidy hstraight
      exact ⟨made, makes, site, fun _ => h⟩
    · exact ⟨∅, .ok (), .ok [], fun h => absurd h hf⟩
  choose made makes site hdelivers using hdeliver
  exact ⟨made, makes, site, hdelivers⟩

/-- **Jobs have errands** if their outputs are apart. -/
theorem exists_errands (hfs : w.files.WellFormed)
    (hscan : ((Scan.scan (scanOptions b) root).run t w).1 = .ok inputs)
    (hremembered : ∀ f ∈ inputs, ∀ x, t.find? f.full = some x →
      x.output = outputPath b.outputDirectory f)
    (hapart : Apart w b.outputDirectory inputs) (o : PipelineOptions) :
    ∃ errand, Errands o b inputs t w errand := by
  obtain ⟨-, ⟨base, d, hsightings⟩, -⟩ := Scan.sightings hfs hscan
  obtain ⟨made, makes, site, hdelivers⟩ := exists_delivers hfs hsightings hapart
  refine ⟨fun f => ⟨f, outputPath b.outputDirectory f, t.find? f.full,
    fate o b.force false w.files w.here (t.find? f.full) f, made f, makes f, site f⟩,
    fun f => rfl, fun f => rfl, fun f hf => ?_⟩
  -- what is asked of the outputs, said of the errands
  have hreaches : ∀ {g}, g ∈ inputs → makes g = .ok () → ∀ {p}, site g = .ok p →
      w.files.Reaches w.here (outputPath b.outputDirectory g) p := fun hg hmakes p hp =>
    (hdelivers _ hg).reaches hmakes hp
  have hmakes : ∀ {g}, g ∈ inputs → ∀ {q}, q ∈ made g →
      w.files.Makes w.here (outputPath b.outputDirectory g) q := fun hg _ hq =>
    (hdelivers _ hg).makes_of_mem hq
  obtain ⟨place, hplace⟩ := hsightings f hf
  exact
    { output_eq := rfl
      output_ne := outputPath_ne_empty hplace _
      fate_eq := rfl
      output_of_remembered := hremembered f hf
      delivers := hdelivers f hf
      not_missing := fun p hp => not_missing_sources hfs hplace hp
      sources_apart := fun p hp q x hq => by
        rintro ⟨g, hg, -, c, hmakes', hsite, -⟩
        exact hapart.unread g hg f hf q (hreaches hg hmakes' hsite) p hp x hq
      made_apart := fun q hq => by
        rintro ⟨g, hg, hne, c, hmakes', hsite, -⟩
        exact (hapart.distinct g hg f hf hne q (hreaches hg hmakes' hsite)).2 (hmakes hf hq)
      site_apart := fun hok p hp => by
        have hreach := hreaches hf hok hp
        refine ⟨?_, ?_⟩
        · rintro ⟨g, hg, hne, hq, -⟩
          exact (hapart.distinct f hf g hg (Ne.symm hne) p hreach).2 (hmakes hg hq)
        · rintro ⟨g, hg, hne, c, hmakes', hsite, -⟩
          exact (hapart.distinct f hf g hg (Ne.symm hne) p hreach).1 (hreaches hg hmakes' hsite) }

/-! ### Outcomes -/

/-- What all errands come to together. -/
structure Outcome (errand : Found → Errand) (inputs : List Found) (t : Tracker) (w : World)
    (answers : List (Found × BatchItem)) (st : Tracker × World) : Prop where
  labels : (answers.map (·.1)).Perm inputs
  items : ∀ p ∈ answers, p.2 = (errand p.1).item
  files : Grows {q | ∃ f ∈ inputs, q ∈ (errand f).directories}
    {q | ∃ f ∈ inputs, q ∈ (errand f).sites} w.files st.2.files
  directories : ∀ f ∈ inputs, ∀ q ∈ (errand f).directories,
    st.2.files.entry? q = some .directory
  contents : ∀ f ∈ inputs, ∀ p ∈ (errand f).contents, st.2.files.entry? p.1 = some (.file p.2)
  remembered : ∀ f ∈ inputs, (errand f).Recalls (st.1.find? f.full)
  others : ∀ k, k ∉ inputs.map (·.full) → st.1.find? k = t.find? k
  ordered : st.1.Ordered

variable {errand : Found → Errand}

/-- What holds all the while that a crew works. -/
structure Underway (errand : Found → Errand) (inputs : List Found) (t : Tracker) (w : World)
    (st : Tracker × World) : Prop where
  here : st.2.here = w.here
  files : Grows {q | ∃ f ∈ inputs, q ∈ (errand f).directories}
    {q | ∃ f ∈ inputs, q ∈ (errand f).sites} w.files st.2.files
  others : ∀ k, k ∉ inputs.map (·.full) → st.1.find? k = t.find? k
  ordered : st.1.Ordered

/-- What the job of an input relies on: the others do nothing but their errands. -/
def Relies (errand : Found → Errand) (inputs : List Found) (f : Found) :
    Tracker × World → Tracker × World → Prop :=
  Around (othersDirectories errand inputs f) (othersSites errand inputs f) f.full

/-- What the job of an input guarantees: it does nothing but its errand. -/
def Guarantees (errand : Found → Errand) (f : Found) : Tracker × World → Tracker × World → Prop :=
  Within (errand f).directories (errand f).sites f.full

/-- The job of an input has ended with this item, and its errand is done. -/
def Settled (errand : Found → Errand) (inputs : List Found) (w : World) (f : Found)
    (item : BatchItem) (st : Tracker × World) : Prop :=
  f ∈ inputs →
    item = (errand f).item ∧ (errand f).Written w.files w.here (errand f).Recalls st

/-- What one job does is what the others rely on, and leaves what they have done. -/
theorem Errands.terms (herrands : Errands o b inputs t w errand)
    (hnodup : (inputs.map (·.full)).Nodup) :
    Crew.Terms inputs (Relies errand inputs) (Guarantees errand) (Settled errand inputs w)
      (Underway errand inputs t w) where
  nodup := .of_map _ hnodup
  rely_trans _ _ _ _ h h' := Around.trans h h'
  rely_wait _ _ _ _ := ⟨rfl, .refl _ _ _, rfl⟩
  rely_others f hf g hg hne st st' h := by
    have hfull : g.full ≠ f.full := fun heq =>
      hne (List.inj_on_of_nodup_map hnodup hf hg heq.symm)
    exact ⟨h.here, h.files.mono (fun q hq => ⟨f, hf, hne, hq⟩) fun q hq => ⟨f, hf, hne, hq⟩,
      h.remembered _ hfull⟩
  post_own f item st st' hpost hst hf := by
    have hst' : Around (othersDirectories errand inputs f) (othersSites errand inputs f)
        (errand f).input.full st st' := by
      rw [herrands.input_eq]
      exact hst
    exact ⟨(hpost hf).1, (hpost hf).2.around (Set.subset_univ _) (Set.subset_univ _)
      (herrands.sound f hf).contents_apart hst'⟩
  holds_work f hf st st' hst h :=
    { here := h.here.trans hst.here
      files := hst.files.trans (h.files.mono (fun q hq => ⟨f, hf, hq⟩) fun q hq => ⟨f, hf, hq⟩)
      others := fun k hk =>
        (h.remembered k fun heq => hk (heq ▸ List.mem_map_of_mem hf)).trans (hst.others k hk)
      ordered := h.ordered hst.ordered }
  holds_wait _ _ _ h := ⟨h.here, h.files, h.others, h.ordered⟩

/-- In the beginning all errands are still to be done. -/
theorem Errands.pact (herrands : Errands o b inputs t w errand) (ht : t.Ordered)
    (logger : Option Log.Logger) :
    Crew.Pact inputs (Relies errand inputs) (Guarantees errand) (Settled errand inputs w)
      (Underway errand inputs t w) (crew o b logger inputs t w) := by
  refine ⟨by simp [crew, Crew.labels, Function.comp_def], fun p hp => ?_, by simp [crew],
    ⟨rfl, .refl _ _ _, fun _ _ => rfl, ht⟩⟩
  obtain ⟨f, hf, rfl⟩ := List.mem_map.mp hp
  have hready : (errand f).Ready w.files w.here (othersDirectories errand inputs f)
      (othersSites errand inputs f) (t, w) :=
    ⟨rfl, .refl _ _ _, by simp, by simp, by rw [herrands.input_eq, herrands.remembered_eq]⟩
  have hjob := (herrands.sound f hf).ensures_job logger hready
  unfold Errand.Does at hjob
  rw [herrands.input_eq] at hjob
  exact hjob.imp fun _ _ h _ => h

/-- **What a crew comes to** are its errands. -/
theorem outcome_of_steps (herrands : Errands o b inputs t w errand)
    (hnodup : (inputs.map (·.full)).Nodup) (ht : t.Ordered) (logger : Option Log.Logger)
    {c : Crew Found Tracker BatchItem} (hsteps : Crew.Steps (crew o b logger inputs t w) c)
    (hdone : c.working = []) : Outcome errand inputs t w c.answers c.state := by
  have hend := (herrands.pact ht logger).steps (herrands.terms hnodup) hsteps
  have hlabels := hend.labels
  rw [Crew.labels, hdone, List.map_nil, List.nil_append] at hlabels
  -- each input has an answer
  have hpost : ∀ f ∈ inputs, (errand f).Written w.files w.here (errand f).Recalls c.state := by
    intro f hf
    obtain ⟨p, hp, rfl⟩ := List.mem_map.mp (hlabels.symm.subset hf)
    exact (hend.answers p hp hf).2
  exact
    { labels := hlabels
      items := fun p hp => (hend.answers p hp (hlabels.subset (List.mem_map_of_mem hp))).1
      files := hend.holds.files
      directories := fun f hf => (hpost f hf).directories
      contents := fun f hf => (hpost f hf).contents
      remembered := fun f hf => by
        have h := (hpost f hf).remembered
        rwa [herrands.input_eq] at h
      others := hend.holds.others
      ordered := hend.holds.ordered }

/-- **Errands come to the same** in every order. -/
theorem Outcome.unique (hpaths : (inputs.map (·.path)).Nodup) (herrands : Errands o b inputs t w errand)
    {answers answers' : List (Found × BatchItem)} {st st' : Tracker × World}
    (h : Outcome errand inputs t w answers st) (h' : Outcome errand inputs t w answers' st') :
    (∀ q, st.2.files.entry? q = st'.2.files.entry? q) ∧ st.1.undated = st'.1.undated ∧
      sortItems (answers.map (·.2)) = sortItems (answers'.map (·.2)) := by
  refine ⟨fun q => ?_, ?_, ?_⟩
  · by_cases hdirectory : ∃ f ∈ inputs, q ∈ (errand f).directories
    · obtain ⟨f, hf, hq⟩ := hdirectory
      rw [h.directories f hf q hq, h'.directories f hf q hq]
    by_cases hsite : ∃ f ∈ inputs, q ∈ (errand f).sites
    · obtain ⟨f, hf, c, hq⟩ := hsite
      rw [h.contents f hf _ hq, h'.contents f hf _ hq]
    · rw [h.files.entry?_eq hdirectory hsite, h'.files.entry?_eq hdirectory hsite]
  · refine h.ordered.undated.ext h'.ordered.undated fun k => ?_
    rw [Tracker.find?_undated, Tracker.find?_undated]
    by_cases hk : k ∈ inputs.map (·.full)
    · obtain ⟨f, hf, rfl⟩ := List.mem_map.mp hk
      exact (h.remembered f hf).trans (h'.remembered f hf).symm
    · rw [h.others k hk, h'.others k hk]
  · have hitems : ∀ {answers : List (Found × BatchItem)} {st},
        Outcome errand inputs t w answers st →
        (answers.map (·.2)).Perm (inputs.map fun f => (errand f).item) := by
      intro answers st h
      have hmap := h.labels.map fun f => (errand f).item
      rw [List.map_map] at hmap
      rw [List.map_congr_left h.items]
      exact hmap
    have hkeys : (((inputs.map fun f => (errand f).item)).map (·.input)).Nodup := by
      rw [List.map_map]
      refine (List.map_congr_left fun f _ => ?_) ▸ hpaths
      exact congrArg Found.path (herrands.input_eq f).symm
    exact sortBy_eq_of_perm_of_nodup (by simp) ((hitems h).trans (hitems h').symm)
      (((hitems h).map _).nodup_iff.mpr hkeys)

/-! ### The result -/

/-- The number of inputs that are dropped does not depend on when problems were generated. -/
theorem run_pruneTo (inputs : List Found) (t : Tracker) (w : World) :
    ((pruneTo inputs).run t w).1 =
      t.undated.size - (t.undated.prune (inputs.map (·.full))).size := by
  have hprune : t.undated.prune (inputs.map (·.full)) =
      (t.prune (inputs.map (·.full))).undated := by
    simp only [Tracker.prune, Tracker.undated, List.filter_map]
    rfl
  have hsize : ∀ t : Tracker, t.undated.size = t.size := fun t => List.length_map _
  rw [hprune, hsize, hsize]
  rfl

/-- **Jobs may be run in any order, and at the same time.** Suppose the outputs of the inputs that a
scan has found are apart, and what the tracker remembers of an input is its output. However the jobs
of a batch that is not canceled are interleaved, they leave the same files, the same tracker up to
the times at which problems were generated, the same items in order, and as many inputs to drop as
the jobs that are run one after the other. -/
theorem runJobs_interleaved (hfs : w.files.WellFormed)
    (hscan : ((Scan.scan (scanOptions b) root).run t w).1 = .ok inputs) (ht : t.Ordered)
    (hremembered : ∀ f ∈ inputs, ∀ x, t.find? f.full = some x →
      x.output = outputPath b.outputDirectory f)
    (hapart : Apart w b.outputDirectory inputs) (o : PipelineOptions) (logger : Option Log.Logger)
    {c : Crew Found Tracker BatchItem} (hsteps : Crew.Steps (crew o b logger inputs t w) c)
    (hdone : c.working = []) :
    let r := (runJobs (job o b logger false) inputs).run t w
    (∀ q, c.state.2.files.entry? q = r.2.2.files.entry? q) ∧
      c.state.1.undated = r.2.1.undated ∧
      sortItems (c.answers.map (·.2)) = sortItems r.1 ∧
      ((pruneTo inputs).run c.state.1 c.state.2).1 = ((pruneTo inputs).run r.2.1 r.2.2).1 := by
  intro r
  obtain ⟨errand, herrands⟩ := exists_errands hfs hscan hremembered hapart o
  obtain ⟨-, ⟨base, d, hsightings⟩, hpaths⟩ := Scan.sightings hfs hscan
  have hfull := Scan.nodup_full hsightings hpaths
  have hcrew := outcome_of_steps herrands hfull ht logger hsteps hdone
  have hsequence := outcome_of_steps herrands hfull ht logger
    (steps_runJobs (job o b logger false) (.refl inputs) [] t w) rfl
  obtain ⟨hfiles, htracker, hitems⟩ := Outcome.unique hpaths herrands hcrew hsequence
  refine ⟨hfiles, htracker, ?_, ?_⟩
  · rw [hitems, List.nil_append, List.map_snd_zip]
    exact (length_runJobs _ _ _ _).le
  · rw [run_pruneTo, run_pruneTo, htracker]

end

/-! ### Two inputs in another order -/

/-- A start that branches to the end. -/
def chainText : String :=
  "(assert true)
-------
BasicBlock bd_0: 1
A:
  Dominator = NULL
  br label %B
BasicBlock bd_1: 2
B:
  Dominator = bd_0
  ret void
"

theorem legible_chainText :
    Pipeline.Legible chainText (chainText.toList.take 14) (chainText.toList.drop 21) where
  octets := by
    rw [Text.IsOctets, chainText, String.toList_ofList]
    decide +kernel
  packing := by
    rw [Text.toBytes, chainText, String.toList_ofList]
    decide +kernel
  cut := by
    rw [chainText, String.toList_ofList]
    decide +kernel
  generated := by
    rw [chainText, String.toList_ofList, Pipeline.generatedOf, Pipeline.start]
    dsimp only
    rw [Graph.ofListing, String.toList_ofList]
    decide +kernel

/-- What is generated from `chainText`. -/
def chainGenerated : Generated :=
  (Pipeline.generatedFor {} (Text.toBytes chainText)).get legible_chainText.isSome_generatedFor

/-- An input with the contents of `chainText`. -/
def chainRecipe (f : Found) : Recipe := ⟨f, Text.toBytes chainText, chainGenerated⟩

theorem generatedFor_chainRecipe (fs : List Found) :
    ∀ r ∈ fs.map chainRecipe, Pipeline.generatedFor {} r.contents = some r.generated := by
  intro r hr
  obtain ⟨f, -, rfl⟩ := List.mem_map.mp hr
  exact (Option.some_get _).symm

/-- Two inputs, and a directory for outputs with something in it. -/
def twoInputs (outputs : List (List String × FileEntry)) : World where
  files :=
    { entries :=
        [(["a"], .directory), (["a", "x.wcet"], .file (Text.toBytes chainText)),
          (["c"], .directory), (["c", "d"], .directory),
          (["c", "d", "y.wcet"], .file (Text.toBytes chainText)), (["out"], .directory)] ++
          outputs }

/-- The inputs of `twoInputs`. -/
def firstInput : Found where
  path := "a/x.wcet"
  full := "/a/x.wcet"
  storage := .plain
  size := (Text.toBytes chainText).size

@[inherit_doc firstInput]
def secondInput : Found where
  path := "c/d/y.wcet"
  full := "/c/d/y.wcet"
  storage := .plain
  size := (Text.toBytes chainText).size

/-- The directory for the outputs of `twoInputs`. -/
def toOut : BatchOptions where
  outputDirectory := "out"

/-- The directory for outputs where a link dangles. -/
def dangling : World := twoInputs [(["out", "a"], .link "c")]

/-- With and without the link the same inputs are found, and their outputs have separate paths. -/
theorem twoInputs_spec :
    (twoInputs []).files.WellFormed ∧ (twoInputs []).files.Unlinked ∧ dangling.files.WellFormed ∧
      ((Scan.scan (scanOptions toOut) "/").run ({} : Tracker) (twoInputs [])).1 =
        .ok [firstInput, secondInput] ∧
      ((Scan.scan (scanOptions toOut) "/").run ({} : Tracker) dangling).1 =
        .ok [firstInput, secondInput] ∧
      Separate [] "out" [firstInput, secondInput] := by
  rw [dangling, twoInputs, twoInputs, firstInput, secondInput, Text.toBytes, chainText,
    String.toList_ofList]
  exact ⟨.of_entries (by decide +kernel) (by decide +kernel), .of_entries (by decide +kernel),
    .of_entries (by decide +kernel) (by decide +kernel), by decide +kernel, by decide +kernel,
    by decide +kernel⟩

/-- Without links the second job may be run before the first one. -/
theorem runJobs_interleaved_twoInputs :
    let inputs := [firstInput, secondInput]
    ∃ c r, Crew.Steps (crew {} toOut none inputs {} (twoInputs [])) c ∧ c.working = [] ∧
      c.answers.map (·.1) = inputs.reverse ∧
      r = (runJobs (job {} toOut none false) inputs).run {} (twoInputs []) ∧
      (∀ q, c.state.2.files.entry? q = r.2.2.files.entry? q) ∧
      c.state.1.undated = r.2.1.undated ∧
      sortItems (c.answers.map (·.2)) = sortItems r.1 ∧
      ((pruneTo inputs).run c.state.1 c.state.2).1 = ((pruneTo inputs).run r.2.1 r.2.2).1 := by
  intro inputs
  obtain ⟨hfs, hlinks, -, hscan, -, hseparate⟩ := twoInputs_spec
  obtain ⟨-, ⟨base, d, hsighting⟩, -⟩ := Scan.sightings hfs hscan
  have hapart : Apart (twoInputs []) "out" inputs :=
    apart_of_unlinked hfs hlinks (fun f hf => ⟨base, d, hsighting f hf⟩) hseparate
  have hsteps := steps_runJobs (job {} toOut none false) (List.reverse_perm inputs) [] {}
    (twoInputs [])
  refine ⟨_, _, hsteps, rfl, ?_, rfl, runJobs_interleaved hfs hscan .nil
    (by simp [Tracker.find?]) hapart {} none hsteps rfl⟩
  rw [List.nil_append, List.map_fst_zip (length_runJobs _ _ _ _).ge]

/-- **Where a link dangles, the order matters**, although the paths of the outputs are apart: what
the link leads to may be made for the other input. -/
theorem exists_order_matters :
    let inputs := [firstInput, secondInput]
    dangling.files.WellFormed ∧
      ((Scan.scan (scanOptions toOut) "/").run ({} : Tracker) dangling).1 = .ok inputs ∧
      Separate dangling.here "out" inputs ∧
      ∃ c c', Crew.Steps (crew {} toOut none inputs {} dangling) c ∧ c.working = [] ∧
        Crew.Steps (crew {} toOut none inputs {} dangling) c' ∧ c'.working = [] ∧
        sortItems (c.answers.map (·.2)) ≠ sortItems (c'.answers.map (·.2)) := by
  intro inputs
  obtain ⟨-, -, hfs, -, hscan, hseparate⟩ := twoInputs_spec
  have hruns : (sortItems ((runJobs (job {} toOut none false) inputs).run {} dangling).1).map
        (fun i => i.error.isSome) = [true, false] ∧
      (sortItems ((runJobs (job {} toOut none false) inputs.reverse).run {} dangling).1).map
        (fun i => i.error.isSome) = [false, false] := by
    have hnew : Recipe.AllNew {} toOut (inputs.map chainRecipe) ({}, dangling) ∧
        Recipe.AllNew {} toOut (inputs.reverse.map chainRecipe) ({}, dangling) := by
      unfold chainRecipe
      rw [dangling, twoInputs, Text.toBytes, chainText, String.toList_ofList]
      exact ⟨by decide +kernel, by decide +kernel⟩
    have hjobs := Recipe.run_runJobs (generatedFor_chainRecipe _) hnew.1
    have hjobs' := Recipe.run_runJobs (generatedFor_chainRecipe _) hnew.2
    rw [List.map_map, show (Recipe.input ∘ chainRecipe) = id from rfl, List.map_id] at hjobs hjobs'
    rw [hjobs, hjobs']
    exact ⟨by decide +kernel, by decide +kernel⟩
  have hanswers : ∀ order : List Found, ∀ t w,
      ([] ++ order.zip ((runJobs (job {} toOut none false) order).run t w).1).map Prod.snd =
        ((runJobs (job {} toOut none false) order).run t w).1 := by
    intro order t w
    rw [List.nil_append, List.map_snd_zip (length_runJobs _ _ _ _).le]
  refine ⟨hfs, hscan, hseparate, _, _,
    steps_runJobs (job {} toOut none false) (.refl inputs) [] {} dangling, rfl,
    steps_runJobs (job {} toOut none false) (List.reverse_perm inputs) [] {} dangling, rfl,
    fun heq => ?_⟩
  rw [hanswers, hanswers] at heq
  have hflags := congrArg (List.map fun i : BatchItem => i.error.isSome) heq
  rw [hruns.1, hruns.2] at hflags
  exact absurd hflags (by decide)

end WorstCase.Batch
