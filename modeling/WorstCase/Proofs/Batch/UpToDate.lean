import WorstCase.Proofs.Batch.History

/-!
# Problems that are up to date

A batch skips an input if it remembers the digest of what the input is made from and the output that
was recorded is still there. So what counts is whether the output holds what the digest stands for
(`Batch.Vouches`). Every event that is fair to the input keeps that up (`Batch.Vouched.happen`), and
so does every history (`Batch.vouched_after`). Hence, unless two texts that were hashed have the
same hash, an input that is skipped has an output that is up to date, if its output is the one that
was recorded (`Batch.upToDate_of_history`).

A batch that writes to another directory than the one before does not look there: it skips inputs
whose problems it has not written anywhere (`Batch.exists_skipped_missing`).
-/

namespace WorstCase.Batch

open Files (Grows)
open Scan (Found Sighting)

/-! ### What digests stand for -/

/-- The problem of a material, as it is written. -/
def Material.Yields (m : Material) (o : PipelineOptions) (bytes : ByteArray) : Prop :=
  ∀ files f, m.Of files f → ∃ g,
    Pipeline.generatedFrom files (jobOptions o f) false f.full = .ok g ∧
      bytes = Text.toBytes g.problem.render

theorem Material.Of.yields {files : String → Except FileError ByteArray} {f : Found} {m : Material}
    {o : PipelineOptions} {g : Generated} (h : m.Of files f)
    (hg : Pipeline.generatedFrom files (jobOptions o f) false f.full = .ok g) :
    m.Yields o (Text.toBytes g.problem.render) :=
  fun _ _ h' => ⟨g, (h.generatedFrom_eq_ok_iff h' (.refl o) false g).mp hg, rfl⟩

/-- What the output of an entry holds, if there is anything, is the problem that its digest stands
for. The digest is made of texts in `H`. -/
def Vouches (H : Set ByteArray) (w : World) (e : TrackerEntry) : Prop :=
  ∀ entry, w.files.find? w.here e.output = some entry →
    ∃ (m : Material) (o : PipelineOptions) (bytes : ByteArray), m.hashed o ⊆ H ∧
      e.digest = m.digest o ∧ m.Yields o bytes ∧ entry = .file bytes

/-- What the next batch remembers of an input holds. -/
def Vouched (H : Set ByteArray) (s : Tracker.Store) (k : String) (w : World) : Prop :=
  ∀ e, (remembered s w).find? k = some e → Vouches H w e

variable {H : Set ByteArray} {s : Tracker.Store} {o : PipelineOptions} {b : BatchOptions}
  {logger : Option Log.Logger} {canceled : Bool} {root k : String} {w w' : World}
  {inputs above : List Found} {f : Found} {item : BatchItem} {e : TrackerEntry}
  {summary : BatchSummary} {t : Tracker}

/-- What is spared still holds. -/
theorem Vouches.spares (h : Vouches H w e) (hhere : w'.here = w.here)
    (hspares : w.files.Spares w'.files w.here e.output) : Vouches H w' e := by
  intro entry hentry
  rw [hhere] at hentry
  rcases hspares with hsame | hgone
  · exact h entry (hsame ▸ hentry)
  · exact absurd (hgone.symm.trans hentry) (by simp)

/-- What is not a batch that succeeds, and spares the stored tracker and the output, keeps up what
was remembered. -/
theorem Vouched.of_spares (h : Vouched H s k w) (hhere : w'.here = w.here)
    (hstore : w.files.Spares w'.files w.here s.path) (houtput : SparesOutput s k w w') :
    Vouched H s k w' := by
  intro e he
  have hbefore : (remembered s w).find? k = some e := by
    refine Tracker.find?_ofStore_of_spares hstore ?_
    rw [← hhere]
    exact he
  exact (h e hbefore).spares hhere (houtput e he)

/-! ### What is hashed -/

/-- What a batch hashes for an input when it has its turn. -/
def hashedIn (k : String) (o : PipelineOptions) (b : BatchOptions) (logger : Option Log.Logger)
    (canceled : Bool) (root : String) (w : World) : Set ByteArray :=
  {x | ∃ inputs above below f, ((Scan.scan (scanOptions b) root).run ({} : Tracker) w).1 = .ok inputs ∧
    inputs = above ++ f :: below ∧ f.full = k ∧ ∃ m : Material,
      let w' := (course o b logger canceled root w above).2.2
      m.Of (w'.files.read w'.here) f ∧ x ∈ m.hashed o}

/-- What is hashed for an input in an event. -/
def Event.hashed (root k : String) (w : World) : Event → Set ByteArray
  | .run o b logger canceled => hashedIn k o b logger canceled root w
  | _ => ∅

/-- What is hashed for an input in a history. -/
def hashedAll (root k : String) : World → List Event → Set ByteArray
  | _, [] => ∅
  | w, event :: events => event.hashed root k w ∪ hashedAll root k (event.happen root w) events

theorem hashedAll_concat {events : List Event} {event : Event} :
    hashedAll root k w (events ++ [event]) =
      hashedAll root k w events ∪ event.hashed root k (after root w events) := by
  induction events generalizing w with
  | nil => exact Set.union_comm _ _
  | cons first events ih =>
    rw [List.cons_append, hashedAll, ih, hashedAll, Set.union_assoc]
    rfl

/-! ### One event after the other -/

/-- What a turn leaves in the tracker is what was there before, unless a problem is delivered. -/
theorem Turn.find?_cases {st st' : Tracker × World} (h : Turn o b canceled f st item st')
    (he : st'.1.find? f.full = some e) :
    (isGenerated item = false ∧ st.1.find? f.full = some e) ∨
      isGenerated item = true ∧ e.output = item.output ∧ ∃ g,
        fate o b.force canceled st.2.files st.2.here (st.1.find? f.full) f = .generated e.digest g ∧
          st.2.files.deliver st.2.here item.output (Text.toBytes g.problem.render) =
            (st'.2.files, .ok ()) := by
  cases h with
  | unread => exact .inl ⟨rfl, he⟩
  | upToDate => exact .inl ⟨rfl, he⟩
  | ungenerated =>
    rw [Tracker.find?_forget, if_pos rfl] at he
    exact absurd he (by simp)
  | undelivered => exact .inl ⟨rfl, he⟩
  | delivered hfate hdeliver _ =>
    rw [Tracker.find?_record, if_pos rfl] at he
    obtain rfl := Option.some.inj he
    exact .inr ⟨rfl, rfl, _, hfate, hdeliver⟩

/-- In the passage of an input no other item is its item. -/
theorem Passage.eq_of_isItemOf (hfs : w.files.WellFormed)
    (hscan : ((Scan.scan (scanOptions b) root).run ({} : Tracker) w).1 = .ok inputs) (hf : f ∈ inputs)
    (h : Passage o b logger canceled root w inputs above f item) {i : BatchItem}
    (hi : i ∈ (course o b logger canceled root w inputs).1) (hitem : IsItemOf b root w f.full i) :
    i = item := by
  obtain ⟨inputs', hscan', g, hg, hfull, hinput⟩ := hitem
  obtain rfl := Except.ok.inj (hscan'.symm.trans hscan)
  obtain ⟨-, ⟨base, d, hsighting⟩, hpaths⟩ := Scan.sightings hfs hscan
  obtain rfl := List.inj_on_of_nodup_map (Scan.nodup_full hsighting hpaths) hg hf hfull
  exact h.unique i hi hinput

/-- A problem that is delivered for an input is there in the end, if the output is not shared. -/
theorem Passage.find?_delivered (h : Passage o b logger canceled root w inputs above f item)
    {contents : ByteArray} {fs : Files} (hdeliver : fs.deliver
      (course o b logger canceled root w above).2.2.here item.output contents =
        ((course o b logger canceled root w (above ++ [f])).2.2.files, .ok ()))
    (hhere : w'.here = (course o b logger canceled root w inputs).2.2.here)
    {storePlace : List String} {stored : FileEntry}
    (hstore : w'.files.locate .look w'.here s.path = .ok ⟨storePlace, some stored⟩)
    (hsave : Grows Set.univ {storePlace} (course o b logger canceled root w inputs).2.2.files
      w'.files)
    (hunshared : Unshared (sortItems (course o b logger canceled root w inputs).1) s w' item) :
    w'.files.find? w'.here item.output = some (.file contents) := by
  obtain ⟨place, hplace, -⟩ := Files.deliver_ok hdeliver
  rw [← h.turn.here] at hplace
  have hback : Grows Set.univ
      (writtenFor (others (course o b logger canceled root w inputs).1 f.path)
        (course o b logger canceled root w inputs).2.2 ∪ {storePlace})
      (course o b logger canceled root w (above ++ [f])).2.2.files w'.files :=
    (h.grows_back.mono subset_rfl Set.subset_union_left).trans
      (hsave.mono subset_rfl Set.subset_union_right)
  obtain ⟨c, hc, hspared⟩ := locate_of_delivered hplace hback (hhere.trans h.here_back)
  obtain ⟨hothers, hapart⟩ := hunshared place _ hc
  rw [h.turn.item_eq.1] at hothers
  have hcontents := hspared fun hwritten => hwritten.elim
    (fun hother => hothers (writtenFor_others_subset hsave hhere _ hother))
    fun heq => hapart _ (Set.mem_singleton_iff.mp heq ▸ hstore)
  rw [Files.find?, hc, hcontents]

/-- **A batch that succeeds keeps up what is remembered** of an input that it is fair to. -/
theorem Vouched.run (hfs : w.files.WellFormed) (h : Vouched H (store b root) k w)
    (hrun : (Batch.run o b logger canceled root).run {} w = (.ok summary, t, w'))
    (hfair : FairRun (store b root) root k b w summary t w')
    (hH : hashedIn k o b logger canceled root w ⊆ H) : Vouched H (store b root) k w' := by
  intro e he
  have hkept := he
  rw [remembered_run hfs hrun hfair.storable] at he
  obtain ⟨inputs, hscan⟩ := exists_scan_of_run hrun
  obtain ⟨hcanceled, rfl, hitems, hend_here, hcourse_here, storePlace, hstore, hsave⟩ :=
    exists_stored hfs hscan hrun
  have hmem : ∀ {i}, i ∈ summary.items ↔ i ∈ (course o b logger canceled root w inputs).1 := by
    intro i
    rw [hitems]
    exact mem_sortItems
  -- the input is one of those that were found, or it is forgotten
  have hfound : k ∈ inputs.map (·.full) := by
    by_contra hk
    rw [Tracker.find?_prune, if_neg hk] at he
    exact absurd he (by simp)
  obtain ⟨f, hf, rfl⟩ := List.mem_map.mp hfound
  obtain rfl : canceled = false := by
    by_contra htrue
    exact absurd (hcanceled (by simpa using htrue)) (List.ne_nil_of_mem hf)
  obtain ⟨above, below, item, hsplit, hpassage⟩ := exists_passage o logger false hfs hscan hf
  have hitem : IsItemOf b root w f.full item := ⟨inputs, hscan, f, hf, rfl, hpassage.turn.item_eq.1⟩
  rw [hpassage.find_end hf] at he
  rcases hpassage.turn.find?_cases he with ⟨hidle, hbefore⟩ | ⟨hgenerated, houtput, g, hfate, hdeliver⟩
  · -- nothing was generated for it, so that its output was left alone
    rw [hpassage.find_front] at hbefore
    refine (h e hbefore).spares (hend_here.trans hcourse_here) (hfair.spares ?_ e hkept)
    intro i hi hisItem
    rw [hpassage.eq_of_isItemOf hfs hscan hf (hmem.mp hi) hisItem]
    exact hidle
  · -- its problem was generated, and nothing else was written where it is
    have hunshared := hfair.unshared item (hmem.mpr hpassage.mem) hitem hgenerated
    rw [hitems] at hunshared
    have hthere := hpassage.find?_delivered hdeliver hend_here hstore hsave hunshared
    obtain ⟨hdigest, hg⟩ := fate_eq_generated hfate
    obtain ⟨m, hm, hdigest⟩ := Material.exists_of_digestFrom hdigest
    intro entry hentry
    rw [houtput, hthere] at hentry
    exact ⟨m, o, _, fun x hx => hH ⟨inputs, above, below, f, hscan, hsplit, rfl, m, hm, hx⟩, hdigest,
      hm.yields hg, (Option.some.inj hentry).symm⟩

/-- **Every event keeps up what is remembered** of an input that it is fair to. -/
theorem Vouched.happen (hw : w.Sound) (h : Vouched H s k w) {event : Event}
    (hfair : event.Fair s root k w) (hH : event.hashed root k w ⊆ H) :
    Vouched H s k (event.happen root w) := by
  cases event with
  | edit files moment => exact h.of_spares rfl hfair.2.1 hfair.2.2
  | run o b logger canceled =>
    obtain ⟨rfl, hfair⟩ := hfair
    rcases hrun : (Batch.run o b logger canceled root).run {} w with ⟨e | summary, t, w'⟩ <;>
      rw [hrun] at hfair
    · rw [happen_run hrun]
      exact h.of_spares (happen_run hrun ▸ here_happen root w _) hfair.1 hfair.2
    · rw [happen_run hrun]
      exact h.run hw.files hrun hfair hH
  | interrupted o b logger late =>
    exact h.of_spares (here_happen root w (.interrupted o b logger late)) hfair.1 hfair.2

/-- **A history keeps up what is remembered** of an input that it is fair to. -/
theorem vouched_after {events : List Event} (hw : w.Sound) (h : Vouched H s k w)
    (hfair : FairAll s root k w events) (hH : hashedAll root k w events ⊆ H) :
    (after root w events).Sound ∧ Vouched H s k (after root w events) := by
  induction events generalizing w with
  | nil => exact ⟨hw, h⟩
  | cons event events ih =>
    rw [hashedAll, Set.union_subset_iff] at hH
    exact ih (hfair.1.sound hw) (h.happen hw hfair.1 hH.1) hfair.2 hH.2

/-! ### Skipped inputs -/

/-- What is up to date has the digest that is remembered, and the output that was recorded is there.
-/
theorem fate_eq_upToDate {force : Bool} {fs : Files} {here : List String}
    {known : Option TrackerEntry} (h : fate o force canceled fs here known f = .upToDate) :
    ∃ e, known = some e ∧ digestFrom (fs.read here) o f = .ok e.digest ∧
      (e.output ≠ "" → fs.find? here e.output ≠ none) := by
  rw [fate] at h
  rcases hdigest : digestFrom (fs.read here) o f with cause | digest <;> rw [hdigest] at h
  · exact absurd h (by simp)
  dsimp only at h
  split at h
  · split at h <;> exact absurd h (by simp)
  rename_i hdue
  rw [Bool.or_eq_true, not_or] at hdue
  rcases known with _ | e
  · exact absurd rfl hdue.2
  obtain ⟨-, hdue⟩ := hdue
  rw [outdated] at hdue
  split at hdue
  · exact absurd rfl hdue
  rename_i hsame
  refine ⟨e, rfl, by rw [not_not.mp hsame], fun houtput hgone => hdue ?_⟩
  rw [if_neg houtput, hgone]
  rfl

theorem Turn.fate_of_skipped {st st' : Tracker × World} (h : Turn o b canceled f st item st')
    (hskipped : item.skipped = true) :
    fate o b.force canceled st.2.files st.2.here (st.1.find? f.full) f = .upToDate ∧ st'.1 = st.1 := by
  cases h with
  | unread => exact absurd hskipped (by simp)
  | ungenerated => exact absurd hskipped (by simp)
  | undelivered => exact absurd hskipped (by simp)
  | delivered => exact absurd hskipped (by simp)
  | upToDate hfate _ => exact ⟨hfate, rfl⟩

/-- **What is skipped is up to date.** After any history that is fair to an input and started with
nothing remembered of it, unless two texts that were hashed for it have the same hash: when a batch
skips the input, and the output of the input is the one that was recorded, then that output is there
and holds the problem that is generated from the input as the batch found it. (No problem of another
input got where the input is read from, so that this is what the input is, still.) -/
theorem upToDate_of_history {events : List Event} (hw : w.Sound)
    (hstart : (remembered (store b root) w).find? k = none)
    (hfair : FairAll (store b root) root k w (events ++ [.run o b logger canceled]))
    (hhash : Set.InjOn Blake3.hash (hashedAll root k w (events ++ [.run o b logger canceled]))) :
    ∀ summary t w', (run o b logger canceled root).run {} (after root w events) =
        (.ok summary, t, w') →
      ∀ item ∈ summary.items, item.skipped = true →
      ∀ inputs, ((Scan.scan (scanOptions b) root).run ({} : Tracker) (after root w events)).1 =
        .ok inputs → ∀ f ∈ inputs, f.full = k → item.input = f.path →
      Unread summary.items (after root w events) w' f →
      (∀ e, t.find? k = some e → e.output = item.output) →
        ∃ g, Pipeline.generatedFrom ((after root w events).files.read (after root w events).here)
            (jobOptions o f) false f.full = .ok g ∧
          w'.files.read w'.here item.output = .ok (Text.toBytes g.problem.render) := by
  intro summary t w' hrun item hmem hskipped inputs hscan f hf hfull hinput hunread hrecorded
  obtain ⟨hbefore, hlast⟩ := fairAll_concat.mp hfair
  have hnothing : Vouched (hashedAll root k w (events ++ [.run o b logger canceled]))
      (store b root) k w := fun e he => absurd (hstart.symm.trans he) (by simp)
  rw [hashedAll_concat] at hhash hnothing
  obtain ⟨hsound, hvouched⟩ := vouched_after hw hnothing hbefore Set.subset_union_left
  generalize after root w events = w₁ at *
  obtain ⟨-, hlast⟩ := (fair_run_iff hrun).mp hlast
  obtain ⟨hcanceled, rfl, hitems, hend_here, hcourse_here, storePlace, hstore, hsave⟩ :=
    exists_stored hsound.files hscan hrun
  have hmem' : ∀ {i}, i ∈ summary.items ↔ i ∈ (course o b logger canceled root w₁ inputs).1 := by
    intro i
    rw [hitems]
    exact mem_sortItems
  obtain ⟨-, ⟨base, d, hsighting⟩, -⟩ := Scan.sightings hsound.files hscan
  obtain ⟨above, below, item', hsplit, hpassage⟩ :=
    exists_passage o logger canceled hsound.files hscan hf
  obtain rfl := hpassage.unique item (hmem'.mp hmem) hinput
  -- the digest is remembered, and it is the one of the material that the input has
  obtain ⟨hfate, hkept⟩ := hpassage.turn.fate_of_skipped hskipped
  obtain ⟨e, hknown, hdigest, hpresent⟩ := fate_eq_upToDate hfate
  obtain ⟨m, hm, hdigest⟩ := Material.exists_of_digestFrom hdigest
  have hhashed : m.hashed o ⊆ hashedIn k o b logger canceled root w₁ := fun x hx =>
    ⟨inputs, above, below, f, hscan, hsplit, hfull, m, hm, hx⟩
  have hremembered : (remembered (store b root) w₁).find? k = some e := by
    rw [← hknown, ← hfull]
    exact hpassage.find_front.symm
  have hend : ((course o b logger canceled root w₁ inputs).2.1.prune
      (inputs.map (·.full))).find? k = some e := by
    rw [← hfull, hpassage.find_end hf, hkept, hknown]
  have houtput := hrecorded e hend
  -- the output that was recorded is there, and it is left alone
  have hthere : w'.files.find? w₁.here e.output ≠ none := by
    have hne : e.output ≠ "" := by
      rw [houtput, hpassage.turn.item_eq.2]
      exact outputPath_ne_of_scan hsound.files hscan b.outputDirectory f hf
    have hfront := hpresent hne
    rw [hpassage.here_front] at hfront
    exact hsave.find?_ne_none (hpassage.grows_back.find?_ne_none
      (hpassage.turn.grows.find?_ne_none hfront))
  have hspares : w₁.files.Spares w'.files w₁.here e.output := by
    refine hlast.spares ?_ e (by rw [remembered_run hsound.files hrun hlast.storable, hend])
    intro i hi hisItem
    rw [hpassage.eq_of_isItemOf hsound.files hscan hf (hmem'.mp hi) (hfull ▸ hisItem)]
    simp [isGenerated, hskipped]
  have hsame := hspares.resolve_right hthere
  obtain ⟨entry, hentry⟩ := Option.ne_none_iff_exists'.mp (hsame ▸ hthere)
  obtain ⟨m', o', bytes, hhashed', hdigest', hyields, rfl⟩ := hvouched e hremembered entry hentry
  -- what it was made from is what the input is made from now
  obtain ⟨rfl, ho⟩ := Material.digest_inj hhash (hhashed.trans Set.subset_union_right) hhashed'
    (hdigest.symm.trans hdigest')
  obtain ⟨d', hd'⟩ := hsighting f hf
  have hm' : m.Of (w₁.files.read w₁.here) f := by
    refine material_of_unread hsound.files hd' hpassage.grows_front hpassage.here_front
      (fun p hp place e' hplace hwritten => hunread p hp place e' hplace ?_) hm
    rw [hitems]
    exact writtenFor_others_subset hsave hend_here _ hwritten
  obtain ⟨g, hg, rfl⟩ := hyields _ _ hm'
  refine ⟨g, (hm'.generatedFrom_eq_ok_iff hm' ho false g).mpr hg, ?_⟩
  obtain ⟨place, hplace⟩ := Files.locate_of_find? (hsame.trans hentry)
  rw [← houtput, hend_here.trans hcourse_here]
  exact Files.read_eq_ok_iff.mpr ⟨place, hplace⟩

/-! ### Two batches over one input -/

/-- A root with one input. -/
def oneInput : World where
  files :=
    { entries := [(["in"], .directory), (["in", "x.wcet"], .file (Text.toBytes chainText))] }

/-- The input of `oneInput`. -/
def onlyInput : Found where
  path := "x.wcet"
  full := "/in/x.wcet"
  storage := .plain
  size := (Text.toBytes chainText).size

/-- A batch over `in`. -/
def runTo (directory : String) : Event := .run {} { outputDirectory := directory } none false

/-- The items that a batch over `in` reports: input, output, and whether the problem was generated
or skipped. -/
def reported (directory : String) (w : World) : Option (List (String × String × Bool × Bool)) :=
  ((run {} { outputDirectory := directory } none false "in").run {} w).1.toOption.map
    fun s => s.items.map fun i => (i.input, i.output, isGenerated i, i.skipped)

/-- A batch over `in` that reports one item. -/
theorem exists_run_of_reported {directory input output : String} {generated skipped : Bool}
    (h : reported directory w = some [(input, output, generated, skipped)]) :
    ∃ summary t w' item, (run {} { outputDirectory := directory } none false "in").run {} w =
        (.ok summary, t, w') ∧ summary.items = [item] ∧ item.input = input ∧
      item.output = output ∧ isGenerated item = generated ∧ item.skipped = skipped := by
  rw [reported] at h
  rcases hrun : (run {} { outputDirectory := directory } none false "in").run {} w with
    ⟨e | summary, t, w'⟩ <;> rw [hrun] at h
  · exact absurd h (by simp [Except.toOption])
  · obtain ⟨item, hitem, heq⟩ := List.map_eq_singleton_iff.mp (Option.some.inj h)
    simp only [Prod.mk.injEq] at heq
    exact ⟨summary, t, w', item, rfl, hitem, heq⟩

theorem after_runTo {directory : String} {r : Except BatchError BatchSummary × Tracker × World}
    (h : (run {} { outputDirectory := directory } none false "in").run {} w = r) :
    after "in" w [runTo directory] = r.2.2 := congrArg (·.2.2) h

/-- What a batch over `in` reports when its tracker is stored. -/
theorem reported_of_conclude {directory : String} {r : List BatchItem × Tracker × World}
    (hrun : (run {} { outputDirectory := directory } none false "in").run {} w =
      conclude { outputDirectory := directory } "in" [onlyInput] r) (hitem : r.1 = [item])
    (hok : (conclude { outputDirectory := directory } "in" [onlyInput] r).1.toOption.isSome = true) :
    reported directory w = some [(item.input, item.output, isGenerated item, item.skipped)] := by
  rw [reported, hrun, conclude_eq_ok hok, hitem]
  rfl

/-- A digest can be stored. -/
theorem carries_digest (contents : ByteArray) (salts : List String) :
    Msg.Carries (Digest.of contents salts) := by
  let d := Digest.ofContents (Digest.salted contents salts)
  have hlength : (Digest.of contents salts).length = 64 := d.length_eq
  exact ⟨d.isOctets, by rw [hlength]; decide⟩

/-- Nothing but a problem of `onlyInput` in `out1` is remembered. -/
structure RemembersOnly (t : Tracker) : Prop where
  length_le : t.entries.length ≤ 1
  entries : ∀ e ∈ t.entries, e.input = onlyInput.full ∧ e.output = "out1/x.smt2" ∧
    e.digest = Digest.of (Text.toBytes chainText) (salts {} "" "")

theorem RemembersOnly.prune (h : RemembersOnly t) (inputs : List String) :
    RemembersOnly (t.prune inputs) where
  length_le := (List.length_filter_le _ _).trans h.length_le
  entries e he := h.entries e (List.mem_of_mem_filter he)

theorem RemembersOnly.storable (h : RemembersOnly t) : t.Storable where
  carried e he := by
    obtain ⟨hinput, houtput, hdigest⟩ := h.entries e he
    exact ⟨hinput ▸ by decide, hdigest ▸ carries_digest _ _, houtput ▸ by decide⟩
  size := h.length_le.trans_lt (by decide)

/-- What is left to do for `oneInput`. -/
def firstCourse : List BatchItem × Tracker × World :=
  (Recipe.settleAll {} { outputDirectory := "out1" } [chainRecipe onlyInput]).run {} oneInput

/-- The world after a batch over `oneInput`. -/
def afterFirst : World := (conclude { outputDirectory := "out1" } "in" [onlyInput] firstCourse).2.2

/-- The item of the input when it is skipped. -/
def skippedItem (directory : String) : BatchItem where
  input := "x.wcet"
  output := outputPath directory onlyInput
  skipped := true

/-- What a second batch does. -/
def secondCourse (directory : String) : List BatchItem × Tracker × World :=
  ([skippedItem directory], remembered (store { outputDirectory := directory } "in") afterFirst,
    afterFirst)

/-- A batch over `oneInput` finds the input, of which nothing is remembered. -/
theorem oneInput_spec :
    oneInput.Sound ∧ oneInput.files.Unlinked ∧
      ((Scan.scan (scanOptions {}) "in").run ({} : Tracker) oneInput).1 = .ok [onlyInput] ∧
      (oneInput.files.find? oneInput.here (store { outputDirectory := "out1" } "in").path).isNone =
        true ∧
      Recipe.AllNew {} { outputDirectory := "out1" } [chainRecipe onlyInput] ({}, oneInput) ∧
      outputPath "out1" onlyInput = "out1/x.smt2" ∧ outputPath "out2" onlyInput = "out2/x.smt2" := by
  unfold chainRecipe
  rw [oneInput, onlyInput, Text.toBytes, chainText, String.toList_ofList]
  exact ⟨⟨.of_entries (by decide +kernel) (by decide +kernel), rfl⟩, .of_entries (by decide +kernel),
    by decide +kernel, by decide +kernel, by decide +kernel, by decide +kernel, by decide +kernel⟩

/-- The first batch writes the problem and leaves the input; a second one finds the input again, and
ends well wherever it writes to, but it writes nothing. -/
theorem courses_spec :
    (firstCourse.1.map (fun i => (i.error.isSome, i.skipped)) = [(false, false)] ∧
      firstCourse.1.map (fun i => (i.input, i.output)) = [("x.wcet", "out1/x.smt2")] ∧
      (conclude { outputDirectory := "out1" } "in" [onlyInput] firstCourse).1.toOption.isSome =
        true) ∧
    (((Scan.scan (scanOptions {}) "in").run ({} : Tracker) afterFirst).1 = .ok [onlyInput] ∧
      (afterFirst.files.read afterFirst.here onlyInput.full).toOption.map (·.data.toList) =
        some (Text.toBytes chainText).data.toList ∧
      (afterFirst.files.find? afterFirst.here "out1/x.smt2").isSome = true) ∧
    (conclude { outputDirectory := "out1" } "in" [onlyInput]
        (secondCourse "out1")).1.toOption.isSome = true ∧
      (conclude { outputDirectory := "out2" } "in" [onlyInput]
        (secondCourse "out2")).1.toOption.isSome = true ∧
      ((conclude { outputDirectory := "out2" } "in" [onlyInput]
        (secondCourse "out2")).2.2.files.find? [] "out2/x.smt2").isNone = true := by
  unfold secondCourse afterFirst firstCourse
  rw [oneInput, onlyInput, Text.toBytes, chainText, String.toList_ofList]
  exact ⟨⟨by decide +kernel, by decide +kernel, by decide +kernel⟩,
    ⟨by decide +kernel, by decide +kernel, by decide +kernel⟩, by decide +kernel, by decide +kernel,
    by decide +kernel⟩

/-- Nothing is remembered in `oneInput`. -/
theorem remembered_oneInput : remembered (store { outputDirectory := "out1" } "in") oneInput = {} := by
  obtain ⟨-, -, -, hnothing, -⟩ := oneInput_spec
  rw [Option.isNone_iff_eq_none] at hnothing
  rw [remembered, Tracker.ofStore_read, hnothing]

theorem run_oneInput :
    (run {} { outputDirectory := "out1" } none false "in").run {} oneInput =
      conclude { outputDirectory := "out1" } "in" [onlyInput] firstCourse := by
  obtain ⟨hsound, -, hscan, -, hnew, -⟩ := oneInput_spec
  rw [← remembered_oneInput] at hnew
  have hscan' : (Scan.scan (scanOptions { outputDirectory := "out1" }) "in").run ({} : Tracker)
      oneInput = (.ok ([chainRecipe onlyInput].map (·.input)), {}, oneInput) :=
    (Scan.sightings hsound.files hscan).1
  exact (Recipe.run_run hscan' (generatedFor_chainRecipe [onlyInput]) hnew).trans
    (congrArg (fun t => conclude { outputDirectory := "out1" } "in" [onlyInput] ((Recipe.settleAll {}
      { outputDirectory := "out1" } [chainRecipe onlyInput]).run t oneInput)) remembered_oneInput)

theorem after_oneInput : after "in" oneInput [runTo "out1"] = afterFirst := after_runTo run_oneInput

theorem reported_oneInput :
    reported "out1" oneInput = some [("x.wcet", "out1/x.smt2", true, false)] := by
  obtain ⟨herror, hnames, hok⟩ := courses_spec.1
  obtain ⟨item, hitem, hnames⟩ := List.map_eq_singleton_iff.mp hnames
  rw [hitem, List.map_singleton, List.cons.injEq, Prod.mk.injEq] at herror
  obtain ⟨hinput, houtput⟩ := Prod.mk.inj hnames
  rw [reported_of_conclude run_oneInput hitem hok, hinput, houtput, isGenerated, herror.1.2,
    Option.isSome_eq_false_iff.mp herror.1.1]
  rfl

/-- The first batch remembers what it has generated. -/
theorem remembersOnly_first :
    RemembersOnly ((run {} { outputDirectory := "out1" } none false "in").run {} oneInput).2.1 ∧
      ∃ e, ((run {} { outputDirectory := "out1" } none false "in").run {} oneInput).2.1.find?
        onlyInput.full = some e := by
  obtain ⟨-, -, -, -, -, hpath, -⟩ := oneInput_spec
  have houtput : outputPath "out1" onlyInput ≠ "" := by
    rw [hpath]
    decide
  obtain ⟨w', ⟨e, hsettle⟩ | ⟨built, hsettle⟩⟩ := run_settle houtput onlyInput
    (Digest.of (Text.toBytes chainText) (salts {} "" "")) chainGenerated.problem {} oneInput
  all_goals
    have hcourse : firstCourse = _ :=
      (Recipe.run_settleAll_singleton (chainRecipe onlyInput)).trans
        (congrArg (fun r => ([r.1], r.2)) hsettle)
  · have herror := courses_spec.1.1
    rw [hcourse] at herror
    exact absurd herror (by simp)
  · rw [run_oneInput, tracker_conclude, hcourse]
    refine ⟨RemembersOnly.prune ⟨le_rfl, fun e he => ?_⟩ _, ?_⟩
    · obtain rfl := List.mem_singleton.mp he
      exact ⟨rfl, hpath, rfl⟩
    · rw [Tracker.find?_prune, if_pos (List.mem_map_of_mem (List.mem_singleton_self _)),
        Tracker.find?_record, if_pos rfl]
      exact ⟨_, rfl⟩

theorem sound_afterFirst : afterFirst.Sound := by
  have hsound := Script.run_sound (run {} { outputDirectory := "out1" } none false "in") {}
    oneInput_spec.1
  rw [run_oneInput] at hsound
  exact hsound

/-- What a second batch finds is what the first one remembers, wherever it writes to. -/
theorem remembered_afterFirst (directory : String) :
    remembered (store { outputDirectory := directory } "in") afterFirst =
      ((run {} { outputDirectory := "out1" } none false "in").run {} oneInput).2.1 := by
  obtain ⟨summary, t, w', -, hrun, -⟩ := exists_run_of_reported reported_oneInput
  have hremembers := remembersOnly_first.1
  have hworld : w' = afterFirst := congrArg (·.2.2) (hrun.symm.trans run_oneInput)
  have hstore : store { outputDirectory := directory } "in" =
    store { outputDirectory := "out1" } "in" := rfl
  rw [hrun] at hremembers ⊢
  rw [hstore, ← hworld]
  exact remembered_run oneInput_spec.1.files hrun hremembers.storable

/-- A second batch skips the input, wherever it writes to. -/
theorem run_afterFirst (directory : String) :
    (run {} { outputDirectory := directory } none false "in").run {} afterFirst =
      conclude { outputDirectory := directory } "in" [onlyInput] (secondCourse directory) := by
  obtain ⟨hscan, hread, hthere⟩ := courses_spec.2.1
  obtain ⟨hremembers, e, he⟩ := remembersOnly_first
  obtain ⟨-, houtput, hdigest⟩ := hremembers.entries e (Tracker.mem_of_find? he)
  rw [← remembered_afterFirst directory] at he
  refine Plain.run_run (.of_octets rfl rfl hread legible_chainText.packing)
    (Scan.sightings sound_afterFirst.files hscan).1 rfl he hdigest ?_
  rw [houtput]
  exact Option.isSome_iff_ne_none.mp hthere

theorem reported_afterFirst {directory output : String}
    (hpath : outputPath directory onlyInput = output)
    (hok : (conclude { outputDirectory := directory } "in" [onlyInput]
      (secondCourse directory)).1.toOption.isSome = true) :
    reported directory afterFirst = some [("x.wcet", output, false, true)] := by
  rw [reported_of_conclude (run_afterFirst directory) rfl hok, skippedItem, hpath]
  rfl

/-- The second batch remembers no more than the first one. -/
theorem remembersOnly_second :
    RemembersOnly ((run {} { outputDirectory := "out1" } none false "in").run {} afterFirst).2.1 := by
  have hfound : (secondCourse "out1").2.1 =
    remembered (store { outputDirectory := "out1" } "in") afterFirst := rfl
  rw [run_afterFirst, tracker_conclude, hfound, remembered_afterFirst]
  exact remembersOnly_first.1.prune _

/-- **An input may be skipped although its output is missing**: the second batch looks for the
output that the first one recorded, and not for its own. -/
theorem exists_skipped_missing :
    oneInput.files.WellFormed ∧
      let w := after "in" oneInput [runTo "out1"]
      reported "out2" w = some [("x.wcet", "out2/x.smt2", false, true)] ∧
        ((after "in" w [runTo "out2"]).files.find? [] "out2/x.smt2").isNone = true := by
  obtain ⟨hsound, -, -, -, -, -, hpath⟩ := oneInput_spec
  obtain ⟨-, hok, hmissing⟩ := courses_spec.2.2
  refine ⟨hsound.files, ?_⟩
  rw [after_oneInput]
  rw [← after_runTo (run_afterFirst "out2")] at hmissing
  exact ⟨reported_afterFirst hpath hok, hmissing⟩

/-- All that is hashed for an input without companions that a batch finds alone. -/
theorem hashedIn_subset_of_alone (hmatching : f.matching = "") (hcuts : f.cuts = "")
    {bytes : ByteArray} (hread : w.files.read w.here f.full = .ok bytes)
    (hscan : ((Scan.scan (scanOptions b) root).run ({} : Tracker) w).1 = .ok [f]) :
    hashedIn k o b logger canceled root w ⊆ {((⟨bytes, none, none⟩ : Material).fed o).bytes} := by
  rintro x ⟨inputs, above, below, g, hscan', hsplit, -, m, hm, hx⟩
  obtain rfl := Except.ok.inj (hscan'.symm.trans hscan)
  obtain ⟨rfl, hrest⟩ : above = [] ∧ g :: below = [f] := by
    cases above with
    | nil => exact ⟨rfl, hsplit.symm⟩
    | cons a above => exact absurd (congrArg List.length hsplit) (by simp)
  obtain ⟨rfl, -⟩ := List.cons.inj hrest
  -- before the first turn no file has changed
  obtain ⟨w₁, halike, hcourse⟩ := exists_course o b logger canceled root w
  have hworld : (course o b logger canceled root w []).2.2 = w₁ := by
    rw [hcourse]
    rfl
  rw [hworld, halike.files, halike.here] at hm
  have hnone : ∀ {files path c}, path = "" → Accompanies files path c → c = none := by
    intro files path c hpath hc
    cases c with
    | none => rfl
    | some c => exact absurd hpath hc.1
  obtain ⟨contents, matching, cuts⟩ := m
  obtain rfl : contents = bytes := Except.ok.inj (hm.contents.symm.trans hread)
  obtain rfl : matching = none := hnone hmatching hm.matching
  obtain rfl : cuts = none := hnone hcuts hm.cuts
  rcases hx with rfl | hx | hx
  · rfl
  · exact absurd hx (by simp)
  · exact absurd hx (by simp)

/-- Without links a batch that finds one input is fair to it, if its tracker can be stored, and the
store and the output are in different places. -/
theorem fairRun_of_alone (hfs : w.files.WellFormed) (hlinks : w.files.Unlinked)
    (hrun : (run o b logger canceled root).run {} w = (.ok summary, t, w')) (ht : t.Storable)
    (halone : summary.items = [item]) (hitem : IsItemOf b root w k item)
    (hstore : Files.placeOf w.here (store b root).path ≠ Files.placeOf w.here item.output)
    (houtput : ∀ e, t.find? k = some e → e.output = item.output)
    (hthere : isGenerated item = false → w.files.find? w.here item.output ≠ none) :
    FairRun (store b root) root k b w summary t w' where
  storable := ht
  unshared i hi _ _ := by
    obtain ⟨hhere, _, _, _, hgrows⟩ := grows_of_run hfs hrun
    rw [halone, List.mem_singleton] at hi
    subst hi
    have hothers : others summary.items i.input = [] := by simp [others, halone]
    exact unshared_of_unlinked (hlinks.grows hgrows) (by simp [hothers]) (hhere ▸ hstore)
  spares hidle e he := by
    have hgenerated := hidle item (by simp [halone]) hitem
    rw [remembered_run hfs hrun ht] at he
    obtain ⟨entry, hentry⟩ := Option.ne_none_iff_exists'.mp (hthere hgenerated)
    obtain ⟨place, hplace⟩ := Files.locate_of_find? hentry
    have hkept := locate_of_run_of_unlinked hfs hlinks hrun hplace
      (by simp [halone, hgenerated]) hstore
    rw [(grows_of_run hfs hrun).1] at hkept
    rw [houtput e he]
    exact .inl (by rw [Files.find?, hkept, hentry])

/-- Two batches over one input that does not change: the second one skips it, and its output is up
to date. -/
theorem upToDate_of_history_oneInput :
    let s := store { outputDirectory := "out1" } "in"
    let w := after "in" oneInput [runTo "out1"]
    oneInput.Sound ∧ (remembered s oneInput).find? "/in/x.wcet" = none ∧
      FairAll s "in" "/in/x.wcet" oneInput ([runTo "out1"] ++ [runTo "out1"]) ∧
      Set.InjOn Blake3.hash
        (hashedAll "in" "/in/x.wcet" oneInput ([runTo "out1"] ++ [runTo "out1"])) ∧
      ∃ summary t w' g, (run {} { outputDirectory := "out1" } none false "in").run {} w =
          (.ok summary, t, w') ∧
        summary.items.map (fun i => (i.output, i.skipped)) = [("out1/x.smt2", true)] ∧
        Pipeline.generatedFrom (w.files.read w.here) (jobOptions {} onlyInput) false "/in/x.wcet" =
          .ok g ∧
        w'.files.read w'.here "out1/x.smt2" = .ok (Text.toBytes g.problem.render) := by
  obtain ⟨hsound, hlinks, hscan, -, -, hpath, -⟩ := oneInput_spec
  obtain ⟨-, ⟨hscan', -, hthere⟩, hok, -⟩ := courses_spec
  have hstart :
      (remembered (store { outputDirectory := "out1" } "in") oneInput).find? "/in/x.wcet" = none := by
    rw [remembered_oneInput]
    rfl
  -- the first batch
  obtain ⟨summary₁, t₁, w₁, item₁, hrun₁, halone₁, hinput₁, houtput₁, hgenerated₁, -⟩ :=
    exists_run_of_reported reported_oneInput
  have hhappen : (runTo "out1").happen "in" oneInput = w₁ := happen_run hrun₁
  have hw : after "in" oneInput [runTo "out1"] = w₁ := (after_singleton _ _ _).trans hhappen
  have hsecond : reported "out1" afterFirst = some [("x.wcet", "out1/x.smt2", false, true)] :=
    reported_afterFirst hpath hok
  have hremembers₁ := remembersOnly_first.1
  have hremembers₂ := remembersOnly_second
  rw [← after_oneInput, hw] at hscan' hthere hsecond hremembers₂
  rw [hrun₁] at hremembers₁
  obtain ⟨hhere₁, _, _, _, hgrows₁⟩ := grows_of_run hsound.files hrun₁
  have hhere₁ : w₁.here = [] := hhere₁
  have hfair₁ : FairRun (store { outputDirectory := "out1" } "in") "in" "/in/x.wcet"
      { outputDirectory := "out1" } oneInput summary₁ t₁ w₁ :=
    fairRun_of_alone hsound.files hlinks hrun₁ hremembers₁.storable halone₁
      ⟨_, hscan, onlyInput, List.mem_singleton_self _, rfl, hinput₁⟩
      (houtput₁ ▸ by decide +kernel)
      (fun e he => (hremembers₁.entries e (Tracker.mem_of_find? he)).2.1.trans houtput₁.symm)
      (fun hidle => absurd (hgenerated₁.symm.trans hidle) (by simp))
  have hfirst_fair :
      (runTo "out1").Fair (store { outputDirectory := "out1" } "in") "in" "/in/x.wcet" oneInput :=
    (fair_run_iff hrun₁).mpr ⟨rfl, hfair₁⟩
  have hsound₁ : w₁.Sound := hhappen ▸ hfirst_fair.sound hsound
  -- the second batch
  obtain ⟨summary₂, t₂, w₂, item₂, hrun₂, halone₂, hinput₂, houtput₂, -, hskipped₂⟩ :=
    exists_run_of_reported hsecond
  rw [hrun₂] at hremembers₂
  have hfair₂ : FairRun (store { outputDirectory := "out1" } "in") "in" "/in/x.wcet"
      { outputDirectory := "out1" } w₁ summary₂ t₂ w₂ :=
    fairRun_of_alone hsound₁.files (hlinks.grows hgrows₁) hrun₂ hremembers₂.storable halone₂
      ⟨_, hscan', onlyInput, List.mem_singleton_self _, rfl, hinput₂⟩
      (by rw [houtput₂, hhere₁]; decide +kernel)
      (fun e he => (hremembers₂.entries e (Tracker.mem_of_find? he)).2.1.trans houtput₂.symm)
      (fun _ => by
        rw [houtput₂]
        exact Option.isSome_iff_ne_none.mp hthere)
  have hfair : FairAll (store { outputDirectory := "out1" } "in") "in" "/in/x.wcet" oneInput
      ([runTo "out1"] ++ [runTo "out1"]) := by
    refine fairAll_concat.mpr ⟨⟨hfirst_fair, trivial⟩, ?_⟩
    rw [hw]
    exact (fair_run_iff hrun₂).mpr ⟨rfl, hfair₂⟩
  -- both hash the same text
  have hexists : (oneInput.files.read [] "/in/x.wcet").toOption.isSome = true := by decide +kernel
  rcases hread : oneInput.files.read [] "/in/x.wcet" with cause | bytes <;> rw [hread] at hexists
  · exact absurd hexists (by simp [Except.toOption])
  obtain ⟨place, hplace⟩ := Files.read_eq_ok_iff.mp hread
  have hread₁ : w₁.files.read w₁.here "/in/x.wcet" = .ok bytes := by
    refine Files.read_eq_ok_iff.mpr ⟨place, locate_of_run_of_unlinked hsound.files hlinks hrun₁
      hplace ?_ (by decide +kernel)⟩
    simp only [halone₁, List.mem_singleton, forall_eq, houtput₁]
    exact fun _ => by decide +kernel
  have hhashed : hashedAll "in" "/in/x.wcet" oneInput ([runTo "out1"] ++ [runTo "out1"]) ⊆
      {((⟨bytes, none, none⟩ : Material).fed {}).bytes} := by
    rw [hashedAll_concat, hw, hashedAll, hashedAll, Set.union_empty]
    exact Set.union_subset (hashedIn_subset_of_alone (f := onlyInput) rfl rfl hread hscan)
      (hashedIn_subset_of_alone (f := onlyInput) rfl rfl hread₁ hscan')
  have hhash := (Set.subsingleton_singleton.anti hhashed).injOn Blake3.hash
  have hothers : others summary₂.items onlyInput.path = [] := by
    simp [others, halone₂, hinput₂, onlyInput]
  have hmain := @upToDate_of_history {} { outputDirectory := "out1" } none false "in" "/in/x.wcet"
    oneInput [runTo "out1"] hsound hstart hfair hhash
  rw [hw] at hmain
  obtain ⟨g, hg, hcontents⟩ := hmain summary₂ t₂ w₂ hrun₂ item₂ (by simp [halone₂]) hskipped₂
    [onlyInput] hscan' onlyInput (List.mem_singleton_self _) rfl hinput₂
    (fun p _ place e _ => by
      rintro ⟨j, hj, -⟩
      rw [hothers] at hj
      exact absurd hj List.not_mem_nil)
    (fun e he => (hremembers₂.entries e (Tracker.mem_of_find? he)).2.1.trans houtput₂.symm)
  intro s w
  have hw' : w = w₁ := hw
  rw [hw']
  exact ⟨hsound, hstart, hfair, hhash, summary₂, t₂, w₂, g, hrun₂,
    by simp [halone₂, houtput₂, hskipped₂], hg, houtput₂ ▸ hcontents⟩

end WorstCase.Batch
