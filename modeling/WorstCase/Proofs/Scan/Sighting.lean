import WorstCase.Proofs.Files.Delivery
import WorstCase.Proofs.Files.Script
import WorstCase.Scan.Walk
import Mathlib.Data.List.Forall2
import Mathlib.Data.List.Nodup

/-!
# What a scan finds

A scan changes nothing. Every input that it finds is a file below its root, which is at some
directory, and it has a place there (`Scan.Sighting`); no two inputs have the same place
(`Scan.sightings`). The files that accompany an input are there, too.
-/

namespace WorstCase

open WorstCase.Path (IsName)

namespace Files

variable {fs : Files} {here : List String} {path : String}

/-- Above what is there, there are directories. -/
theorem WellFormed.entry?_of_append (h : fs.WellFormed) {place xs : List String} {e : FileEntry}
    (hxs : xs ≠ []) (hentry : fs.entry? (place ++ xs) = some e) :
    fs.entry? place = some .directory := by
  induction xs using List.reverseRecOn generalizing e with
  | nil => exact absurd rfl hxs
  | append_singleton xs x ih =>
    rw [← List.append_assoc] at hentry
    have hparent := h.parents _ _ _ hentry
    by_cases hnil : xs = []
    · rwa [hnil, List.append_nil] at hparent
    · exact ih hnil hparent

/-- A file is found by its names, unless one of them is too long. -/
theorem WellFormed.walk_file (h : fs.WellFormed) {n : Nat} {d place : List String} {c : ByteArray}
    (hnames : ∀ x ∈ place, IsName x) (hne : place ≠ [])
    (hentry : fs.entry? (d ++ place) = some (.file c)) :
    ¬ Missing (fs.walk .look n d place) := by
  induction place generalizing d with
  | nil => exact absurd rfl hne
  | cons x place ih =>
    rw [List.forall_mem_cons] at hnames
    rw [walk_name hnames.1, if_neg (by simp)]
    split
    · simp
    by_cases hplace : place = []
    · subst hplace
      rw [hentry, meet]
      simp
    · rw [List.append_cons] at hentry
      rw [h.entry?_of_append hplace hentry, meet]
      exact ih hnames.2 hplace hentry

theorem WellFormed.entry?_of_mem (h : fs.WellFormed) {place : List String} {e : FileEntry}
    (hmem : (place, e) ∈ fs.entries) : fs.entry? place = some e := by
  have hplace := (h.names place (List.mem_map_of_mem hmem)).1
  rw [ entry?, if_neg (by simpa using hplace)]
  have hlookup : ∀ entries : List (List String × FileEntry), (entries.map (·.1)).Nodup →
      (place, e) ∈ entries → entries.lookup place = some e := by
    intro entries hnodup hmem
    induction entries with
    | nil => exact absurd hmem List.not_mem_nil
    | cons x entries ih =>
      rw [List.map_cons, List.nodup_cons] at hnodup
      rcases List.mem_cons.mp hmem with rfl | hmem
      · rw [List.lookup_cons, beq_self_eq_true]
      · have hne : (place == x.1) = false := beq_false_of_ne fun heq =>
          hnodup.1 (heq ▸ List.mem_map_of_mem hmem)
        rw [List.lookup_cons, hne]
        exact ih hnodup.2 hmem
  exact hlookup _ h.nodup hmem

/-- What a listing is, without its order. -/
theorem listing_perm {d : List String}
    (h : fs.locate .inspect here path = .ok ⟨d, some .directory⟩) :
    (fs.listing here path).Perm
      ((fs.entries.filter fun (p, _) => d.isPrefixOf p && p ≠ d).map fun (p, e) =>
        (p.drop d.length, e.kind)) := by
  rw [listing, h]
  exact sortBy_perm _ _

theorem listing_cases (fs : Files) (here : List String) (path : String) :
    fs.listing here path = [] ∨ ∃ d, fs.locate .inspect here path = .ok ⟨d, some .directory⟩ := by
  rw [listing]
  rcases fs.locate .inspect here path with e | ⟨d, _ | _ | _ | _⟩
  · exact .inl rfl
  · exact .inl rfl
  · exact .inl rfl
  · exact .inr ⟨d, rfl⟩
  · exact .inl rfl

theorem exists_of_mem_listing {d place : List String} {kind : FileKind}
    (hroot : fs.locate .inspect here path = .ok ⟨d, some .directory⟩)
    (h : (place, kind) ∈ fs.listing here path) :
    ∃ e, place ≠ [] ∧ (d ++ place, e) ∈ fs.entries ∧ kind = e.kind := by
  obtain ⟨⟨p, e⟩, hmem, heq⟩ := List.mem_map.mp ((listing_perm hroot).subset h)
  obtain ⟨hmem, hp⟩ := List.mem_filter.mp hmem
  obtain ⟨rfl, rfl⟩ := Prod.mk.inj heq
  simp only [Bool.and_eq_true, List.isPrefixOf_iff_prefix, ne_eq, decide_not, Bool.not_eq_true',
    decide_eq_false_iff_not] at hp
  obtain ⟨⟨rest, rfl⟩, hne⟩ := hp
  rw [List.drop_left]
  exact ⟨e, fun hnil => hne (by rw [hnil, List.append_nil]), hmem, rfl⟩

theorem WellFormed.nodup_listing (h : fs.WellFormed) (here : List String) (path : String) :
    ((fs.listing here path).map (·.1)).Nodup := by
  rcases listing_cases fs here path with hnil | ⟨d, hroot⟩
  · rw [hnil]
    exact List.nodup_nil
  rw [((listing_perm hroot).map _).nodup_iff, List.map_map]
  refine List.Nodup.map_on ?_ ((List.Nodup.of_map _ h.nodup).filter _)
  rintro ⟨p, e⟩ hp ⟨p', e'⟩ hp' heq
  simp only [List.mem_filter, Bool.and_eq_true, List.isPrefixOf_iff_prefix] at hp hp'
  obtain ⟨hmem, ⟨rest, rfl⟩, -⟩ := hp
  obtain ⟨hmem', ⟨rest', rfl⟩, -⟩ := hp'
  simp only [Function.comp_apply, List.drop_left] at heq
  subst heq
  exact congrArg _ (Option.some.inj ((h.entry?_of_mem hmem).symm.trans (h.entry?_of_mem hmem')))

end Files

namespace Scan

variable {σ : Type} {o : Options} {root : String} {t : σ} {w : World}

/-! ### Visits -/

/-- An input that was found, by the names that lead to it from the root on. -/
structure FoundAt (w : World) (root : String) (place : List String) (f : Found) : Prop where
  path : f.path = Text.joinWith "/" place
  full : f.full = Path.join (root :: place)
  matching : f.matching ≠ "" → ∃ c, w.files.find? w.here f.matching = some (.file c)
  cuts : f.cuts ≠ "" → ∃ c, w.files.find? w.here f.cuts = some (.file c)

theorem run_companion (full extension : String) (t : σ) (w : World) :
    ∃ p, (companion full extension : Script σ String).run t w = (p, t, w) ∧
      (p ≠ "" → ∃ c, w.files.find? w.here p = some (.file c)) := by
  rcases hsplit : Path.splitLast full with ⟨directory, name⟩
  have hrun : (companion full extension : Script σ String).run t w =
      (if ((Script.isFile (directory ++ stem name ++ extension) : Script σ Bool).run t w).1 then
        directory ++ stem name ++ extension else "", t, w) := by
    unfold companion
    rw [hsplit]
    rfl
  refine ⟨_, hrun, ?_⟩
  rcases hfind : w.files.find? w.here (directory ++ stem name ++ extension) with _ | c | _ | _ <;>
    rw [Script.isFile, Script.run, hfind]
  · exact fun hne => absurd rfl hne
  · exact fun _ => ⟨c, hfind⟩
  · exact fun hne => absurd rfl hne
  · exact fun hne => absurd rfl hne

theorem run_loadIgnore (o : Options) (directory base : String) (t : σ) (w : World) :
    ∃ r, (loadIgnore o directory base).run t w = (r, t, w) := by
  unfold loadIgnore
  split
  · exact ⟨_, rfl⟩
  · rcases hread : w.files.read w.here (Path.join [directory, o.ignoreFile]) with e | bytes
    · exact ⟨if e.cause = .missing then .ok [] else .error (.ignoreFile e), by
        simp only [Script.readFile, Bind.bind, Script.bind, Script.run, hread]
        rfl⟩
    · exact ⟨_, by
        simp only [Script.readFile, Bind.bind, Script.bind, Script.run, hread]
        rfl⟩

/-- What a visit adds. -/
theorem run_visit (o : Options) (root : String) (walk : Walk) (place : List String)
    (kind : FileKind) (t : σ) (w : World) :
    ∃ walk', (visit o root walk place kind).run t w = (walk', t, w) ∧
      (walk'.found = walk.found ∨
        ∃ size f, kind = .file size ∧ FoundAt w root place f ∧ walk'.found = f :: walk.found) := by
  unfold visit
  dsimp only
  split
  · exact ⟨_, rfl, .inl rfl⟩
  split
  · split <;> exact ⟨_, rfl, .inl rfl⟩
  cases kind with
  | directory =>
    dsimp only
    split
    · exact ⟨_, rfl, .inl rfl⟩
    · obtain ⟨r, hload⟩ := run_loadIgnore o (Path.join (root :: place)) (Text.joinWith "/" place) t w
      rw [Script.run_bind_of hload]
      cases r with
      | error e => exact ⟨_, rfl, .inl rfl⟩
      | ok more => exact ⟨_, rfl, .inl rfl⟩
  | file size =>
    dsimp only
    split
    · obtain ⟨matching, hmatching, hm⟩ :=
        run_companion (Path.join (root :: place)) ".matching" t w
      obtain ⟨cuts, hcuts, hc⟩ := run_companion (Path.join (root :: place)) ".cuts" t w
      rw [Script.run_bind_of hmatching, Script.run_bind_of hcuts]
      exact ⟨_, rfl, .inr ⟨size, _, rfl, ⟨rfl, rfl, hm, hc⟩, rfl⟩⟩
    · exact ⟨_, rfl, .inl rfl⟩
  | other => exact ⟨_, rfl, .inl rfl⟩

/-- What visits add: inputs, each with the names that lead to it. -/
theorem run_visitAll (o : Options) (root : String) (walk : Walk)
    (entries : List (List String × FileKind)) (t : σ) (w : World) :
    ∃ walk', ∃ new : List (List String × Found),
      (visitAll o root walk entries).run t w = (walk', t, w) ∧
      walk'.found.reverse = walk.found.reverse ++ new.map Prod.snd ∧
      (new.map Prod.fst).Sublist (entries.map (·.1)) ∧
      ∀ p ∈ new, (∃ size, (p.1, .file size) ∈ entries) ∧ FoundAt w root p.1 p.2 := by
  induction entries generalizing walk with
  | nil => exact ⟨walk, [], rfl, by simp, .slnil, by simp⟩
  | cons x entries ih =>
    obtain ⟨place, kind⟩ := x
    obtain ⟨walk₁, hvisit, hadded⟩ := run_visit o root walk place kind t w
    obtain ⟨walk', new, hrest, hfound, hplaces, hnew⟩ := ih walk₁
    have hrun : (visitAll o root walk ((place, kind) :: entries)).run t w = (walk', t, w) :=
      (Script.run_bind_of hvisit).trans hrest
    have hnew' : ∀ p ∈ new, (∃ size, (p.1, .file size) ∈ (place, kind) :: entries) ∧
        FoundAt w root p.1 p.2 := fun p hp =>
      ⟨(hnew p hp).1.imp fun _ => List.mem_cons_of_mem _, (hnew p hp).2⟩
    rcases hadded with hsame | ⟨size, f, rfl, hf, hadded⟩
    · exact ⟨walk', new, hrun, by rw [hfound, hsame], hplaces.cons _, hnew'⟩
    · refine ⟨walk', (place, f) :: new, hrun, ?_, hplaces.cons_cons _,
        List.forall_mem_cons.mpr ⟨⟨⟨size, List.mem_cons_self⟩, hf⟩, hnew'⟩⟩
      rw [hfound, hadded]
      simp

/-! ### Sightings -/

/-- The root of a scan is a clean absolute path. -/
theorem exists_absolute (here : List String) (p : String) :
    ∃ base, Path.Tidy true base ∧
      Path.absolute (Path.ofComponents true here) p = Path.ofComponents true base := by
  have hclean : ∀ q, Path.isAbsolute q = true → ∃ base, Path.Tidy true base ∧
      Path.clean q = Path.ofComponents true base := by
    intro q hq
    have htidy := Path.tidy_cleanComponents q
    rw [hq] at htidy
    exact ⟨_, htidy, by rw [Path.clean, hq]⟩
  have hhere : Path.isAbsolute (Path.ofComponents true here) = true := by
    simp [Path.isAbsolute, Path.ofComponents]
  have hne : Path.ofComponents true here ≠ "" := by
    intro heq
    rw [heq] at hhere
    exact absurd hhere (by decide)
  rw [Path.absolute]
  split
  · rename_i hp
    exact hclean p hp
  · by_cases hp : p = ""
    · subst hp
      have hjoin : Path.join [Path.ofComponents true here, ""] =
          Path.clean (Path.ofComponents true here) := by
        rw [Path.join]
        simp [hne, Path.joinWith_singleton]
      rw [hjoin]
      exact hclean _ hhere
    · rw [Path.join_eq_clean hne (by simpa using hp)]
      exact hclean _ ((Path.isAbsolute_joinWith hne [p]).trans hhere)

/-- A scan changes nothing, and what it finds are files that are listed below its root. -/
theorem run_scan (o : Options) (root : String) (t : σ) (w : World) :
    ∃ r, (scan o root).run t w = (r, t, w) ∧ ∀ inputs, r = .ok inputs →
      ∃ base, ∃ new : List (List String × Found), Path.Tidy true base ∧ inputs.Perm (new.map Prod.snd) ∧
        (new.map Prod.fst).Sublist
          ((w.files.listing w.here (Path.ofComponents true base)).map (·.1)) ∧
        ∀ p ∈ new, (∃ size, (p.1, .file size) ∈
            w.files.listing w.here (Path.ofComponents true base)) ∧
          FoundAt w (Path.ofComponents true base) p.1 p.2 := by
  unfold scan
  split
  · exact ⟨_, rfl, by simp⟩
  obtain ⟨base, htidy, hbase⟩ := exists_absolute w.here root
  obtain ⟨r, hload⟩ := run_loadIgnore o (Path.ofComponents true base) "" t w
  rw [← hbase] at hload
  cases r with
  | error e => exact ⟨.error e, Script.run_bind_of hload, by simp⟩
  | ok ignored =>
    obtain ⟨walk', new, hvisits, hfound, hplaces, hnew⟩ := run_visitAll o
      (Path.absolute (Path.ofComponents true w.here) root) { ignored }
      (w.files.listing w.here (Path.absolute (Path.ofComponents true w.here) root)) t w
    refine ⟨_, (Script.run_bind_of hload).trans (Script.run_bind_of hvisits), ?_⟩
    intro inputs hinputs
    obtain rfl := Except.ok.inj hinputs
    refine ⟨base, new, htidy, ?_, hbase ▸ hplaces, hbase ▸ hnew⟩
    rw [hfound]
    exact sortBy_perm _ _

/-- An input in a file tree: a file below the root, which is at the directory `d`. -/
structure Sighting (fs : Files) (here base d place : List String) (f : Found) : Prop where
  tidy : Path.Tidy true base
  root : fs.locate .inspect here (Path.ofComponents true base) = .ok ⟨d, some .directory⟩
  ne_nil : place ≠ []
  names : ∀ c ∈ place, IsName c ∧ '/' ∉ c.toList
  entry : ∃ c, fs.entry? (d ++ place) = some (.file c)
  path : f.path = Path.ofComponents false place
  full : f.full = Path.ofComponents true (base ++ place)
  matching : f.matching ≠ "" → ∃ c, fs.find? here f.matching = some (.file c)
  cuts : f.cuts ≠ "" → ∃ c, fs.find? here f.cuts = some (.file c)

/-- What is found where a file is listed is an input in the tree. -/
theorem FoundAt.sighting (hfs : w.files.WellFormed) {base d place : List String} {size : Nat}
    {f : Found} (hbase : Path.Tidy true base)
    (hroot : w.files.locate .inspect w.here (Path.ofComponents true base) =
      .ok ⟨d, some .directory⟩)
    (hlisted : (place, .file size) ∈ w.files.listing w.here (Path.ofComponents true base))
    (hf : FoundAt w (Path.ofComponents true base) place f) :
    Sighting w.files w.here base d place f := by
  obtain ⟨e, hne, hmem, hkind⟩ := Files.exists_of_mem_listing hroot hlisted
  obtain ⟨c, rfl⟩ : ∃ c, e = .file c := by
    cases e with
    | file c => exact ⟨c, rfl⟩
    | directory => exact absurd hkind (by simp [FileEntry.kind])
    | link target => exact absurd hkind (by simp [FileEntry.kind])
  have hnames : ∀ c ∈ place, IsName c ∧ '/' ∉ c.toList := fun c hc =>
    (hfs.names _ (List.mem_map_of_mem hmem)).2 c (List.mem_append_right _ hc)
  refine ⟨hbase, hroot, hne, hnames, ⟨c, hfs.entry?_of_mem hmem⟩, ?_, ?_, hf.matching, hf.cuts⟩
  · rw [hf.path, Path.ofComponents]
    simp [hne]
  · rw [hf.full, Path.join_ofComponents hbase hnames]

namespace Sighting

variable {fs fs' : Files} {made written : Set (List String)} {here base d place : List String}
  {f : Found}

theorem tidy_full (h : Sighting fs here base d place f) : Path.Tidy true (base ++ place) :=
  h.tidy.append h.names

/-- The root is a directory that a way leads to. -/
theorem exists_way (h : Sighting fs here base d place f) :
    ∃ n, Files.Way fs Files.maxLinks (Files.origin true here) base n d := by
  have hroot := h.root
  by_cases hbase : base = []
  · subst hbase
    have hpath : Files.IsPath (Path.ofComponents true []) := ⟨by decide, by decide, by decide⟩
    rw [Files.locate_of_isPath hpath,
      show Path.components (Path.ofComponents true []) = ["", ""] by decide,
      Files.walk_stay (.inl rfl), Files.walk_stay (.inl rfl), Files.walk_nil, Except.ok.injEq,
      Files.Location.mk.injEq, show Path.isAbsolute (Path.ofComponents true []) = true by decide,
      if_pos rfl] at hroot
    refine ⟨Files.maxLinks, ?_⟩
    rw [← hroot.1]
    exact .nil
  · rw [Files.locate_ofComponents h.tidy hbase (Files.isPath_of_locate hroot)] at hroot
    exact Files.Way.of_walk hroot

/-- The file of an input is not missing. -/
theorem not_missing (hfs : fs.WellFormed) (h : Sighting fs here base d place f) :
    ¬ Files.Missing (fs.locate .look here f.full) := by
  have hne : base ++ place ≠ [] := by simp [h.ne_nil]
  by_cases hpath : Files.IsPath f.full
  · obtain ⟨n, hway⟩ := h.exists_way
    obtain ⟨c, hentry⟩ := h.entry
    have hall : place.all (· = "") = false := by
      obtain ⟨x, place, rfl⟩ := List.exists_cons_of_ne_nil h.ne_nil
      simp [(h.names x List.mem_cons_self).1.1]
    rw [h.full] at hpath ⊢
    rw [Files.locate_ofComponents h.tidy_full hne hpath, hway.walk_append hall]
    exact hfs.walk_file (fun x hx => (h.names x hx).1) h.ne_nil hentry
  · have htext : f.full ≠ "" := by
      rw [h.full]
      exact mt String.toList_eq_nil_iff.mpr (Path.toList_ofComponents_ne_nil h.tidy_full)
    rw [Files.locate, if_neg htext]
    split
    · simp
    split
    · simp
    · rename_i hzero hlength
      exact absurd ⟨htext, by simpa using hzero, Nat.not_le.mp hlength⟩ hpath

end Sighting

/-- **What a scan finds** are files below its root, each at a place of its own. -/
theorem sightings (hfs : w.files.WellFormed) {inputs : List Found}
    (h : ((scan o root).run t w).1 = .ok inputs) :
    (scan o root).run t w = (.ok inputs, t, w) ∧
      (∃ base d, ∀ f ∈ inputs, ∃ place, Sighting w.files w.here base d place f) ∧
      (inputs.map (·.path)).Nodup := by
  obtain ⟨r, hrun, hfound⟩ := run_scan o root t w
  rw [hrun] at h ⊢
  obtain ⟨base, new, htidy, hperm, hplaces, hnew⟩ := hfound inputs h
  refine ⟨by rw [← h], ?_⟩
  rcases Files.listing_cases w.files w.here (Path.ofComponents true base) with hnil | ⟨d, hroot⟩
  · obtain rfl : new = [] := by
      rw [hnil, List.map_nil, List.sublist_nil, List.map_eq_nil_iff] at hplaces
      exact hplaces
    obtain rfl := hperm.eq_nil
    exact ⟨⟨[], [], by simp⟩, List.nodup_nil⟩
  have hsighting : ∀ p ∈ new, Sighting w.files w.here base d p.1 p.2 := fun p hp =>
    (hnew p hp).1.elim fun _ hlisted => (hnew p hp).2.sighting hfs htidy hroot hlisted
  refine ⟨⟨base, d, fun f hf => ?_⟩, ?_⟩
  · obtain ⟨p, hp, rfl⟩ := List.mem_map.mp (hperm.subset hf)
    exact ⟨p.1, hsighting p hp⟩
  · rw [(hperm.map _).nodup_iff, List.map_map]
    refine List.Nodup.map_on (fun p hp p' hp' heq => ?_)
      (List.Nodup.of_map _ ((hfs.nodup_listing _ _).sublist hplaces))
    -- the place is what the path consists of, and it tells the input
    have hplace : p.1 = p'.1 := by
      have h₁ := hsighting p hp
      have h₂ := hsighting p' hp'
      exact Path.ofComponents_injective (.of_names h₁.names) (.of_names h₂.names)
        (h₁.path.symm.trans (Eq.trans heq h₂.path))
    exact (List.inj_on_of_nodup_map ((hfs.nodup_listing _ _).sublist hplaces)) hp hp' hplace

/-- Inputs are known by their absolute paths, too. -/
theorem nodup_full {fs : Files} {here base d : List String} {inputs : List Found}
    (hsightings : ∀ f ∈ inputs, ∃ place, Sighting fs here base d place f)
    (hpaths : (inputs.map (·.path)).Nodup) : (inputs.map (·.full)).Nodup := by
  refine List.Nodup.map_on (fun f hf g hg heq => ?_) (.of_map _ hpaths)
  obtain ⟨place, hplace⟩ := hsightings f hf
  obtain ⟨place', hplace'⟩ := hsightings g hg
  rw [hplace.full, hplace'.full] at heq
  obtain rfl := List.append_cancel_left
    (Path.ofComponents_injective hplace.tidy_full hplace'.tidy_full heq)
  exact List.inj_on_of_nodup_map hpaths hf hg (hplace.path.trans hplace'.path.symm)

end Scan

end WorstCase
