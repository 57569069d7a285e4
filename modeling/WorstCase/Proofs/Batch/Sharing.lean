import WorstCase.Proofs.Batch.Interleaving
import WorstCase.Proofs.Batch.Material
import WorstCase.Proofs.Batch.Passage

/-!
# Whose problem an output holds

The output of an input is named after its stem, so that two inputs in one directory whose names
differ in their extensions only share it (`Batch.outputPath_eq`), and the problem of the one takes
the place of the problem of the other. Where the file of an output is not shared, it holds the
problem of its own input when the batch ends (`Batch.outputs_of_scan`).
-/

namespace WorstCase.Batch

open Files (Grows)
open Scan (Found Sighting)

variable {o : PipelineOptions} {b : BatchOptions} {logger : Option Log.Logger} {root : String}
  {w w' : World} {inputs : List Found} {f : Found} {item : BatchItem}

/-- Nothing else that a batch writes gets where the output of an item is: no other problem, and not
the stored tracker. -/
def Unshared (items : List BatchItem) (store : Tracker.Store) (w : World) (i : BatchItem) : Prop :=
  ∀ place e, w.files.locate .look w.here i.output = .ok ⟨place, some e⟩ →
    place ∉ writtenFor (others items i.input) w ∧
      ∀ e', w.files.locate .look w.here store.path ≠ .ok ⟨place, some e'⟩

/-- No problem of another input gets where an input is read from. -/
def Unread (items : List BatchItem) (w w' : World) (f : Found) : Prop :=
  ∀ p ∈ sources f, ∀ place e, w.files.locate .look w.here p = .ok ⟨place, e⟩ →
    place ∉ writtenFor (others items f.path) w'

/-- The material of an input that nothing is written to is the same throughout. -/
theorem material_of_unread (hfs : w.files.WellFormed) {base d place : List String}
    (hf : Sighting w.files w.here base d place f) {written : Set (List String)}
    (hgrows : Grows Set.univ written w.files w'.files) (hhere : w'.here = w.here)
    (hunread : ∀ p ∈ sources f, ∀ place e, w.files.locate .look w.here p = .ok ⟨place, e⟩ →
      place ∉ written) {m : Material} (hm : m.Of (w'.files.read w'.here) f) :
    m.Of (w.files.read w.here) f := by
  have hread : ∀ p ∈ sources f, w'.files.read w'.here p = w.files.read w.here p := fun p hp => by
    rw [hhere]
    exact hgrows.read_eq (not_missing_sources hfs hf hp) (hunread p hp)
  have haccompanies : ∀ {p c}, (p ≠ "" → p ∈ sources f) →
      Accompanies (w'.files.read w'.here) p c → Accompanies (w.files.read w.here) p c := by
    intro p c hp hc
    cases c with
    | none => exact (show p = "" from hc)
    | some bytes => exact ⟨hc.1, (hread p (hp hc.1)).symm.trans hc.2⟩
  exact
    { contents := (hread _ (.inl rfl)).symm.trans hm.contents
      matching := haccompanies (fun hp => .inr (.inl ⟨rfl, hp⟩)) hm.matching
      cuts := haccompanies (fun hp => .inr (.inr ⟨rfl, hp⟩)) hm.cuts }

/-- What is generated in a turn stays in its output, unless something else is written there. -/
theorem output_of_course (hfs : w.files.WellFormed)
    (hscan : ((Scan.scan (scanOptions b) root).run ({} : Tracker) w).1 = .ok inputs)
    (hitem : item ∈ (course o b logger false root w inputs).1) (hgenerated : isGenerated item = true) :
    let r := course o b logger false root w inputs
    ∃ f ∈ inputs, item.input = f.path ∧ item.output = outputPath b.outputDirectory f ∧
      ∃ place c, r.2.2.files.locate .look r.2.2.here item.output = .ok ⟨place, some (.file c)⟩ ∧
        (place ∉ writtenFor (others r.1 item.input) r.2.2 → Unread r.1 w r.2.2 f →
          ∃ g, Pipeline.generatedFrom (w.files.read w.here) (jobOptions o f) false f.full = .ok g ∧
            c = Text.toBytes g.problem.render) := by
  intro r
  obtain ⟨-, ⟨base, d, hsighting⟩, -⟩ := Scan.sightings hfs hscan
  -- the input of the item, and its turn
  have hinputs : r.1.map (·.input) = inputs.map (·.path) :=
    map_input_course o logger false root w (outputPath_ne_of_scan hfs hscan _)
  obtain ⟨f, hf, hfitem⟩ := List.mem_map.mp (hinputs ▸ List.mem_map_of_mem hitem)
  obtain ⟨above, below, item', -, hpassage⟩ := exists_passage o logger false hfs hscan hf
  obtain rfl := hpassage.unique item hitem hfitem.symm
  -- what is generated is written, and stays unless it is shared
  obtain ⟨digest, g, hfate, hdeliver⟩ := hpassage.turn.delivered_of_isGenerated hgenerated
  obtain ⟨hdigest, hg⟩ := fate_eq_generated hfate
  obtain ⟨place, hplace, -⟩ := Files.deliver_ok hdeliver
  rw [← hpassage.turn.item_eq.2, ← hpassage.turn.here] at hplace
  obtain ⟨c, hc, hkept⟩ := locate_of_delivered hplace hpassage.grows_back hpassage.here_back
  refine ⟨f, hf, hfitem.symm, hpassage.turn.item_eq.2, place, c, hc, fun hshared hunread =>
    ⟨g, ?_, hkept fun hmem => hshared (hfitem ▸ hmem)⟩⟩
  -- the jobs before it have written nothing that the input is read from
  obtain ⟨m, hm, -⟩ := Material.exists_of_digestFrom hdigest
  obtain ⟨d', hd'⟩ := hsighting f hf
  have hm' : m.Of (w.files.read w.here) f :=
    material_of_unread hfs hd' hpassage.grows_front hpassage.here_front hunread hm
  exact (hm'.generatedFrom_eq_ok_iff hm (.refl o) false g).mpr hg

/-- The problems of a batch are where those of its jobs are. -/
theorem mem_sortItems {items : List BatchItem} : item ∈ sortItems items ↔ item ∈ items :=
  (sortBy_perm _ items).mem_iff

/-- What has been written for the others stays, and the order of the items does not matter. -/
theorem writtenFor_others_subset {items : List BatchItem} {made written : Set (List String)}
    (hgrows : Grows made written w.files w'.files) (hhere : w'.here = w.here) (input : String) :
    writtenFor (others items input) w ⊆ writtenFor (others (sortItems items) input) w' :=
  (writtenFor_subset hgrows hhere _).trans (writtenFor_mono (fun _ hj =>
    List.mem_filter.mpr ⟨mem_sortItems.mpr (List.mem_filter.mp hj).1, (List.mem_filter.mp hj).2⟩) _)

/-- **Whose problem an output holds.** Two inputs that a scan finds share an output just if they are
in the same directory and have the same stem. When a batch has stored its tracker, every problem
that it has generated is in the file of its output and is the problem of its own input, if the file
is not shared and no problem of another input got where the input is read from. -/
theorem outputs_of_scan (hfs : w.files.WellFormed)
    (hscan : ((Scan.scan (scanOptions b) root).run ({} : Tracker) w).1 = .ok inputs) :
    (∀ f ∈ inputs, ∀ g ∈ inputs,
      outputPath b.outputDirectory f = outputPath b.outputDirectory g ↔
        Path.directory f.path = Path.directory g.path ∧
          Scan.stem (Path.base f.path) = Scan.stem (Path.base g.path)) ∧
    ∀ summary t w', (run o b logger false root).run {} w = (.ok summary, t, w') →
      ∀ item ∈ summary.items, isGenerated item = true →
        Unshared summary.items (store b root) w' item →
        ∃ f ∈ inputs, item.input = f.path ∧ item.output = outputPath b.outputDirectory f ∧
          (Unread summary.items w w' f →
            ∃ g, Pipeline.generatedFrom (w.files.read w.here) (jobOptions o f) false f.full = .ok g ∧
              w'.files.read w'.here item.output = .ok (Text.toBytes g.problem.render)) := by
  obtain ⟨hpure, ⟨base, d, hsighting⟩, -⟩ := Scan.sightings hfs hscan
  refine ⟨fun f hf g hg => ?_, fun summary t w' hrun item hitem hgenerated hshared => ?_⟩
  · obtain ⟨place, hplace⟩ := hsighting f hf
    obtain ⟨place', hplace'⟩ := hsighting g hg
    exact outputPath_eq hplace hplace' _
  rcases run_cases o logger false hpure with
    (⟨hcanceled, -⟩ | ⟨e, _, hfailed, -⟩) | ⟨-, storePlace, _, hok, hhere, hgrows, hstore⟩
  · exact absurd hcanceled (by simp)
  · exact absurd (hfailed.symm.trans hrun) (by simp)
  obtain ⟨hsummary, hworld⟩ := Prod.mk.inj (hok.symm.trans hrun)
  obtain rfl := Except.ok.inj hsummary
  obtain ⟨-, rfl⟩ := Prod.mk.inj hworld
  obtain ⟨f, hf, hinput, houtput, place, c, hplace, hcontents⟩ :=
    output_of_course hfs hscan (mem_sortItems.mp hitem) hgenerated
  -- the tracker is stored elsewhere
  obtain ⟨c', hplace', hkept⟩ := locate_of_delivered hplace hgrows hhere
  obtain ⟨hwritten, hapart⟩ := hshared place _ hplace'
  have hc : c' = c := hkept fun heq => by
    obtain rfl : place = storePlace := heq
    exact hapart _ hstore
  refine ⟨f, hf, hinput, houtput, fun hunread => ?_⟩
  obtain ⟨g, hg, rfl⟩ := hcontents (fun hmem => hwritten (writtenFor_others_subset hgrows hhere _ hmem))
    fun p hp q e hq hmem => hunread p hp q e hq (writtenFor_others_subset hgrows hhere _ hmem)
  exact ⟨g, hg, by rw [Files.read, hplace', hc]⟩

/-! ### Trees without links -/

/-- Without links an output is not shared if the paths of the other outputs lead elsewhere. -/
theorem unshared_of_unlinked (hlinks : w.files.Unlinked) {items : List BatchItem}
    {store : Tracker.Store}
    (hitems : ∀ j ∈ others items item.input,
      Files.placeOf w.here j.output ≠ Files.placeOf w.here item.output)
    (hstore : Files.placeOf w.here store.path ≠ Files.placeOf w.here item.output) :
    Unshared items store w item := by
  intro place e hplace
  obtain rfl := hlinks.place_eq_of_locate hplace
  refine ⟨?_, fun e' he' => hstore (hlinks.place_eq_of_locate he').symm⟩
  rintro ⟨j, hj, -, e', he'⟩
  exact hitems j hj (hlinks.place_eq_of_locate he').symm

/-- Without links an input is not written to if the paths of the other outputs lead elsewhere. -/
theorem unread_of_unlinked (hlinks : w.files.Unlinked) (hlinks' : w'.files.Unlinked)
    {items : List BatchItem} (h : ∀ j ∈ others items f.path, ∀ p ∈ [f.full, f.matching, f.cuts],
      Files.placeOf w'.here j.output ≠ Files.placeOf w.here p) : Unread items w w' f := by
  intro p hp place e hplace
  obtain rfl := hlinks.place_eq_of_locate hplace
  rintro ⟨j, hj, -, e', he'⟩
  refine h j hj p ?_ (hlinks'.place_eq_of_locate he').symm
  rcases hp with rfl | ⟨rfl, -⟩ | ⟨rfl, -⟩ <;> simp

/-- The problem of the first of two inputs is in its output. -/
theorem outputs_of_scan_twoInputs :
    let w := twoInputs []
    w.files.WellFormed ∧
      ((Scan.scan (scanOptions toOut) "/").run ({} : Tracker) w).1 = .ok [firstInput, secondInput] ∧
      outputPath "out" firstInput ≠ outputPath "out" secondInput ∧
      ∃ summary t w' g, (run {} toOut none false "/").run {} w = (.ok summary, t, w') ∧
        Pipeline.generatedFrom (w.files.read w.here) (jobOptions {} firstInput) false "/a/x.wcet" =
          .ok g ∧
        w'.files.read w'.here "out/a/x.smt2" = .ok (Text.toBytes g.problem.render) := by
  intro w
  obtain ⟨hfs, hlinks, -, hscan, -, -⟩ := twoInputs_spec
  have hgrows := run_grows {} none false (Scan.sightings hfs hscan).1
    (outputPath_ne_of_scan hfs hscan _)
  have hitems : ((run {} toOut none false "/").run {} w).1.toOption.map
      (fun s => s.items.map fun i => (i.input, i.output, isGenerated i)) =
        some [("a/x.wcet", "out/a/x.smt2", true), ("c/d/y.wcet", "out/c/d/y.smt2", true)] := by
    have hnew : Recipe.AllNew {} toOut ([firstInput, secondInput].map chainRecipe)
        (Tracker.ofStore (w.files.read w.here) (store toOut "/"), w) := by
      unfold chainRecipe
      rw [show w = twoInputs [] from rfl, twoInputs, Text.toBytes, chainText, String.toList_ofList]
      decide +kernel
    rw [Recipe.run_run (Scan.sightings hfs hscan).1 (generatedFor_chainRecipe _) hnew]
    decide +kernel
  rcases hrun : (run {} toOut none false "/").run {} w with ⟨e | summary, t, w'⟩ <;>
    rw [hrun] at hitems hgrows
  · exact absurd hitems (by simp [Except.toOption])
  have hlinks' := hlinks.grows hgrows.2
  have hmap : summary.items.map _ = _ := Option.some.inj hitems
  obtain ⟨item, hitem, hmapped⟩ := List.mem_map.mp (hmap ▸ List.mem_cons_self)
  obtain ⟨hinput, houtput, hgenerated⟩ : item.input = _ ∧ item.output = _ ∧ isGenerated item = _ := by
    simpa using hmapped
  have hother : ∀ j ∈ others summary.items "a/x.wcet", j.output = "out/c/d/y.smt2" := by
    intro j hj
    obtain ⟨hj, hne⟩ := List.mem_filter.mp hj
    have hj' := List.mem_map_of_mem (f := fun i => (i.input, i.output, isGenerated i)) hj
    rw [hmap] at hj'
    simp only [List.mem_cons, Prod.mk.injEq, List.not_mem_nil, or_false] at hj'
    rcases hj' with ⟨heq, -⟩ | ⟨-, heq, -⟩
    · exact absurd heq (of_decide_eq_true hne)
    · exact heq
  obtain ⟨hsame, houtputs⟩ := @outputs_of_scan {} toOut none "/" w _ hfs hscan
  obtain ⟨f, hf, hpath, -, hholds⟩ := houtputs summary t w' hrun item hitem hgenerated
    (unshared_of_unlinked hlinks' (fun j hj => by
      rw [hother j (hinput ▸ hj), houtput, hgrows.1]
      decide +kernel) (by
      rw [houtput, hgrows.1]
      decide +kernel))
  obtain rfl : f = firstInput := by
    rcases List.mem_pair.mp hf with rfl | rfl
    · rfl
    · exact absurd (hinput.symm.trans hpath) (by decide)
  obtain ⟨g, hg, hread⟩ := hholds (unread_of_unlinked hlinks hlinks' fun j hj p hp => by
    rw [hother j hj, hgrows.1]
    revert p
    decide +kernel)
  exact ⟨hfs, hscan, mt (hsame _ hf _ (List.mem_cons_of_mem _ List.mem_cons_self)).mp
    (by decide +kernel), summary, t, w', g, rfl, hg, houtput ▸ hread⟩

/-! ### Two inputs with the same stem -/

/-- The listing of `chainText` with another cost of the end. -/
def costlierText : String :=
  "(assert true)
-------
BasicBlock bd_0: 1
A:
  Dominator = NULL
  br label %B
BasicBlock bd_1: 5
B:
  Dominator = bd_0
  ret void
"

/-- Two inputs in one directory that have the same stem. -/
def sameStem : World where
  files :=
    { entries :=
        [(["x.wcet"], .file (Text.toBytes chainText)),
          (["x.wcet.gz"], .file (Text.toBytes costlierText))] }

/-- The inputs of `sameStem`. -/
def lightInput : Found where
  path := "x.wcet"
  full := "/x.wcet"
  storage := .plain
  size := (Text.toBytes chainText).size

@[inherit_doc lightInput]
def costlierInput : Found where
  path := "x.wcet.gz"
  full := "/x.wcet.gz"
  storage := .gzip
  size := (Text.toBytes costlierText).size

theorem legible_costlierText :
    Pipeline.Legible costlierText (costlierText.toList.take 14) (costlierText.toList.drop 21) where
  octets := by
    rw [Text.IsOctets, costlierText, String.toList_ofList]
    decide +kernel
  packing := by
    rw [Text.toBytes, costlierText, String.toList_ofList]
    decide +kernel
  cut := by
    rw [costlierText, String.toList_ofList]
    decide +kernel
  generated := by
    rw [costlierText, String.toList_ofList, Pipeline.generatedOf, Pipeline.start]
    dsimp only
    rw [Graph.ofListing, String.toList_ofList]
    decide +kernel

/-- What is generated from `costlierText`. -/
def costlierGenerated : Generated :=
  (Pipeline.generatedFor {} (Text.toBytes costlierText)).get
    legible_costlierText.isSome_generatedFor

/-- The input with the contents of `costlierText`. -/
def costlierRecipe : Recipe := ⟨costlierInput, Text.toBytes costlierText, costlierGenerated⟩

/-- The text of the problem of an input of `sameStem`. -/
def problemText (f : Found) : Option String :=
  (Pipeline.generatedFrom (sameStem.files.read []) (jobOptions {} f) false f.full).toOption.map
    (·.problem.render)

/-- **An output may be shared**: the problems of both inputs are reported as generated, and they are
different, but there is only one output for them. -/
theorem exists_shared_output :
    sameStem.files.WellFormed ∧
      ((Scan.scan (scanOptions {}) "/").run ({} : Tracker) sameStem).1 =
        .ok [lightInput, costlierInput] ∧
      lightInput ≠ costlierInput ∧ outputPath "" lightInput = outputPath "" costlierInput ∧
      problemText lightInput ≠ problemText costlierInput ∧
      ((run {} {} none false "/").run {} sameStem).1.toOption.map
        (fun s => (s.failed, s.generated)) = some (0, 2) := by
  have hfs : sameStem.files.WellFormed := .of_entries (by decide +kernel) (by decide +kernel)
  have hscan : ((Scan.scan (scanOptions {}) "/").run ({} : Tracker) sameStem).1 =
      .ok [lightInput, costlierInput] := by
    rw [sameStem, lightInput, costlierInput, Text.toBytes, Text.toBytes, chainText, costlierText,
      String.toList_ofList, String.toList_ofList]
    decide +kernel
  have hlight : Plain (sameStem.files.read []) lightInput (Text.toBytes chainText) := by
    refine .of_octets rfl rfl ?_ legible_chainText.packing
    rw [sameStem, Text.toBytes, Text.toBytes, chainText, costlierText, String.toList_ofList,
      String.toList_ofList]
    decide +kernel
  have hcostlier : Plain (sameStem.files.read []) costlierInput (Text.toBytes costlierText) := by
    refine .of_octets rfl rfl ?_ legible_costlierText.packing
    rw [sameStem, Text.toBytes, Text.toBytes, chainText, costlierText, String.toList_ofList,
      String.toList_ofList]
    decide +kernel
  have hproblems : problemText lightInput ≠ problemText costlierInput := by
    rw [problemText, problemText, hlight.toOption_generatedFrom, hcostlier.toOption_generatedFrom,
      legible_chainText.generatedFor_eq, legible_costlierText.generatedFor_eq, Option.map_map,
      Option.map_map, chainText, costlierText, String.toList_ofList, String.toList_ofList]
    unfold Pipeline.generatedOf Pipeline.start
    dsimp only
    rw [Graph.ofListing, Graph.ofListing, String.toList_ofList, String.toList_ofList]
    decide +kernel
  have hrecipes : ∀ r ∈ [chainRecipe lightInput, costlierRecipe],
      Pipeline.generatedFor {} r.contents = some r.generated := by
    rintro r hr
    rcases List.mem_pair.mp hr with rfl | rfl <;> exact (Option.some_get _).symm
  have hnew : Recipe.AllNew {} {} [chainRecipe lightInput, costlierRecipe]
      (Tracker.ofStore (sameStem.files.read sameStem.here) (store {} "/"), sameStem) := by
    unfold chainRecipe costlierRecipe
    rw [sameStem, Text.toBytes, Text.toBytes, chainText, costlierText, String.toList_ofList,
      String.toList_ofList]
    decide +kernel
  refine ⟨hfs, hscan, by decide, by decide +kernel, hproblems, ?_⟩
  rw [Recipe.run_run (Scan.sightings hfs hscan).1 hrecipes hnew]
  decide +kernel

end WorstCase.Batch
