import WorstCase.Proofs.Files.Missing
import Mathlib.Data.List.Induction

/-!
# Making directories in a tree that grows

Several programs may make directories in one tree. Where the way to a directory is **solid**, that
is, where nothing on it is missing, nothing is made, and whether that fails does not depend on what
the others do (`Files.makeDirectories_solid`). Otherwise the way leads to some directory and goes on
from there with names only, of which already the first one is missing: a **corridor**. What the
others do there is to make directories, too. So whether the directories of a corridor can be made
depends on their names only, and afterwards those are there whose paths fit
(`Files.Digs`, `Files.makeDirectories_corridor`).
-/

namespace WorstCase.Files

open WorstCase.Path (IsName)

variable {fs fs' : Files} {made written : Set (List String)} {absolute : Bool} {n : Nat}
  {here d place pre names cs xs : List String} {x : String} {e : FileEntry}

/-! ### Paths by their components -/

/-- Where the components of a path are followed from. -/
def origin (absolute : Bool) (here : List String) : List String := if absolute then [] else here

theorem locate_ofComponents (htidy : Path.Tidy absolute cs) (hne : cs ≠ [])
    (hpath : IsPath (Path.ofComponents absolute cs)) (fs : Files) (purpose : Purpose)
    (here : List String) :
    fs.locate purpose here (Path.ofComponents absolute cs) =
      fs.walk purpose maxLinks (origin absolute here) cs := by
  rw [locate_of_isPath hpath, Path.isAbsolute_ofComponents htidy.ne_empty,
    Path.components_ofComponents htidy.ne_empty hne, origin]
  cases absolute
  · rfl
  · exact walk_stay (.inl rfl)

theorem isPath_of_append (hne : cs ≠ [])
    (h : IsPath (Path.ofComponents absolute (cs ++ xs))) (htidy : Path.Tidy absolute (cs ++ xs)) :
    IsPath (Path.ofComponents absolute cs) := by
  induction xs using List.reverseRecOn with
  | nil => rwa [List.append_nil] at h
  | append_singleton xs x ih =>
    rw [← List.append_assoc] at h htidy
    refine ih ?_ htidy.of_append
    have htext := Path.toList_ofComponents_concat (List.append_ne_nil_of_left_ne_nil hne xs)
      absolute x
    refine ⟨mt String.toList_eq_nil_iff.mpr (Path.toList_ofComponents_ne_nil htidy.of_append),
      fun hzero => h.2.1 ?_, Nat.lt_of_le_of_lt ?_ h.2.2⟩
    · rw [htext]
      exact List.mem_append_left _ hzero
    · rw [← String.length_toList, ← String.length_toList, htext, List.length_append]
      exact Nat.le_add_right _ _

/-! ### Solid ways -/

/-- Nothing is missing on the way through these components or any first ones of them. -/
def Solid (fs : Files) (start cs : List String) : Prop :=
  ∀ purpose xs, xs <+: cs → ¬ Missing (fs.walk purpose maxLinks start xs)

theorem Solid.of_append (h : Solid fs here (cs ++ xs)) : Solid fs here cs :=
  fun purpose ys hys => h purpose ys (hys.trans (List.prefix_append _ _))

/-- A solid path leads to the same entry when the tree grows, or fails for the same reason. -/
theorem Grows.locate_solid (h : Grows made written fs fs') (htidy : Path.Tidy absolute cs)
    (hne : cs ≠ []) (hsolid : Solid fs (origin absolute here) cs) (purpose : Purpose) :
    (∃ place e e', fs.locate purpose here (Path.ofComponents absolute cs) = .ok ⟨place, some e⟩ ∧
      fs'.locate purpose here (Path.ofComponents absolute cs) = .ok ⟨place, some e'⟩ ∧
      e.KeptAs (place ∉ written) e') ∨
    ∃ cause, fs.locate purpose here (Path.ofComponents absolute cs) = .error cause ∧
      fs'.locate purpose here (Path.ofComponents absolute cs) = .error cause := by
  by_cases hpath : IsPath (Path.ofComponents absolute cs)
  · have hfollows := h.walk purpose maxLinks (origin absolute here) cs
    rw [locate_ofComponents htidy hne hpath, locate_ofComponents htidy hne hpath]
    exact (hfollows.of_not_missing (hsolid purpose cs List.prefix_rfl)).imp_right
      fun ⟨cause, _, hboth⟩ => ⟨cause, hboth⟩
  · obtain ⟨cause, hcause⟩ := exists_locate_eq_error hpath
    exact .inr ⟨cause, hcause .., hcause ..⟩

theorem Grows.locate_solid_ok {purpose : Purpose} (h : Grows made written fs fs')
    (htidy : Path.Tidy absolute cs) (hne : cs ≠ []) (hsolid : Solid fs (origin absolute here) cs)
    (hfirst : fs.locate purpose here (Path.ofComponents absolute cs) = .ok ⟨place, some e⟩) :
    ∃ e', fs'.locate purpose here (Path.ofComponents absolute cs) = .ok ⟨place, some e'⟩ ∧
      e.KeptAs (place ∉ written) e' := by
  rcases h.locate_solid htidy hne hsolid purpose with ⟨place', e₀, e', hT, hF, hkept⟩ |
    ⟨cause, hT, -⟩
  · rw [hfirst] at hT
    obtain ⟨rfl, heq⟩ := Location.mk.inj (Except.ok.inj hT)
    obtain rfl := Option.some.inj heq
    exact ⟨e', hF, hkept⟩
  · exact absurd (hfirst.symm.trans hT) (by simp)

theorem Grows.locate_solid_error {purpose : Purpose} {cause : FileCause}
    (h : Grows made written fs fs') (htidy : Path.Tidy absolute cs) (hne : cs ≠ [])
    (hsolid : Solid fs (origin absolute here) cs)
    (hfirst : fs.locate purpose here (Path.ofComponents absolute cs) = .error cause) :
    fs'.locate purpose here (Path.ofComponents absolute cs) = .error cause := by
  rcases h.locate_solid htidy hne hsolid purpose with ⟨place', e₀, e', hT, -, -⟩ | ⟨cause', hT, hF⟩
  · exact absurd (hfirst.symm.trans hT) (by simp)
  · rwa [Except.error.inj (hfirst.symm.trans hT)]

/-- At the end of a solid way no directory is made. -/
theorem makeLast_solid (h : Grows made written fs fs') (htidy : Path.Tidy absolute cs)
    (hne : cs ≠ []) (hsolid : Solid fs (origin absolute here) cs) :
    fs'.makeLast here (Path.ofComponents absolute cs) =
      (fs', (fs.makeLast here (Path.ofComponents absolute cs)).2) := by
  rw [makeLast, makeLast, makeDirectory, makeDirectory]
  rcases h.locate_solid htidy hne hsolid .makeDirectory with ⟨place, e, e', hT, hF, hkept⟩ |
    ⟨cause, hT, hF⟩
  · rw [hT, hF]
    cases e with
    | file c =>
      obtain ⟨c', rfl, -⟩ := hkept
      rfl
    | directory =>
      obtain rfl := hkept
      rfl
    | link t =>
      obtain rfl := hkept
      rfl
  · rw [hT, hF]

/-- **On a solid way no directory is made**, and it fails or not whatever else has grown. -/
theorem makeDirectories_solid (h : Grows made written fs fs') (htidy : Path.Tidy absolute cs)
    (hne : cs ≠ []) (hsolid : Solid fs (origin absolute here) cs) (fuel : Nat) :
    fs'.makeDirectories here fuel (Path.ofComponents absolute cs) =
      (fs', (fs.makeDirectories here fuel (Path.ofComponents absolute cs)).2) := by
  induction fuel generalizing fs' made written cs with
  | zero => rfl
  | succ fuel ih =>
    have hparents : ∀ {made' written' fs''}, Grows made' written' fs fs'' →
        fs''.makeParents here fuel (Path.ofComponents absolute cs) =
          (fs'', (fs.makeParents here fuel (Path.ofComponents absolute cs)).2) := by
      intro made' written' fs'' h'
      obtain ⟨cs', c, rfl⟩ := (List.eq_nil_or_concat' cs).resolve_left hne
      rw [makeParents, makeParents, Path.parentText?_ofComponents htidy]
      by_cases hcs' : cs' = []
      · simp [hcs']
      · rw [if_neg hcs']
        exact ih h' htidy.of_append hcs' hsolid.of_append
    rw [makeDirectories_succ, makeDirectories_succ, find?, find?]
    rcases h.locate_solid htidy hne hsolid .look with ⟨place, e, e', hT, hF, hkept⟩ |
      ⟨cause, hT, hF⟩
    · rw [hT, hF]
      cases e with
      | file c =>
        obtain ⟨c', rfl, -⟩ := hkept
        rfl
      | directory =>
        obtain rfl := hkept
        rfl
      | link t =>
        obtain rfl := hkept
        rfl
    · rw [hT, hF, hparents h, hparents (.refl ∅ ∅ fs)]
      rcases (fs.makeParents here fuel (Path.ofComponents absolute cs)).2 with e | _
      · rfl
      · exact makeLast_solid h htidy hne hsolid

/-- The way to a directory is solid. -/
theorem Way.solid {n' : Nat} (h : Way fs maxLinks here cs n' d) (hcs : ∀ c ∈ cs, c ≠ "") :
    Solid fs here cs := by
  intro purpose xs hxs
  obtain ⟨ys, rfl⟩ := hxs
  obtain ⟨m, d', hway, -⟩ := h.exists_of_append
  rcases List.eq_nil_or_concat' xs with rfl | ⟨xs, x, rfl⟩
  · simp
  have hx : x ≠ "" := hcs x (by simp)
  obtain ⟨m', d'', hfront, hlast⟩ := hway.exists_of_append
  rw [hfront.walk_append (by simp [hx])]
  cases hlast with
  | stay hc _ =>
    rw [walk_stay hc]
    simp
  | up _ =>
    rw [walk_up]
    simp
  | down hc hlength hentry _ =>
    rw [walk_name hc, hentry, meet]
    simp [Nat.not_lt.mpr hlength]
  | link hc hlength hentry hrest =>
    refine Ending.not_missing_link hc hlength hentry ?_ purpose
    rw [(Way.link hc hlength hentry hrest).walk_look]
    simp

/-! ### Corridors -/

/-- The path to the end of a corridor fits: it is no longer than paths may be, and neither are the
names in the corridor. -/
def Fits (absolute : Bool) (pre names : List String) : Prop :=
  IsPath (Path.ofComponents absolute (pre ++ names)) ∧ ∀ x ∈ names, x.length ≤ maxName

/-- The directories of a corridor whose paths fit. -/
def corridor (absolute : Bool) (pre d names : List String) : Set (List String) :=
  {q | ∃ xs, xs <+: names ∧ xs ≠ [] ∧ Fits absolute pre xs ∧ q = d ++ xs}

theorem Fits.of_append (h : Fits absolute pre (names ++ xs))
    (htidy : Path.Tidy absolute (pre ++ (names ++ xs))) (hne : names ≠ []) :
    Fits absolute pre names := by
  rw [← List.append_assoc] at htidy
  refine ⟨isPath_of_append (by simp [hne]) ?_ htidy, fun x hx => h.2 x (List.mem_append_left _ hx)⟩
  rw [List.append_assoc]
  exact h.1

theorem mem_corridor_concat {q : List String} :
    q ∈ corridor absolute pre d (names ++ [x]) ↔
      q ∈ corridor absolute pre d names ∨
        Fits absolute pre (names ++ [x]) ∧ q = d ++ (names ++ [x]) := by
  constructor
  · rintro ⟨xs, hxs, hne, hfits, rfl⟩
    rcases List.prefix_concat_iff.mp hxs with rfl | hxs
    · exact .inr ⟨hfits, rfl⟩
    · exact .inl ⟨xs, hxs, hne, hfits, rfl⟩
  · rintro (⟨xs, hxs, hne, hfits, rfl⟩ | ⟨hfits, rfl⟩)
    · exact ⟨xs, hxs.trans (List.prefix_append _ _), hne, hfits, rfl⟩
    · exact ⟨_, List.prefix_rfl, by simp, hfits, rfl⟩

@[simp]
theorem corridor_nil : corridor absolute pre d [] = ∅ := by
  refine Set.eq_empty_iff_forall_notMem.mpr ?_
  rintro q ⟨xs, hxs, hne, -⟩
  exact hne (List.prefix_nil.mp hxs)

/-- Nothing but directories is in a corridor. -/
def Open (fs : Files) (absolute : Bool) (pre d names : List String) : Prop :=
  ∀ q ∈ corridor absolute pre d names,
    fs.entry? q = none ∨ fs.entry? q = some .directory

/-- A walk through names finds what is directly there, unless it meets something else than
directories. -/
theorem walk_names (hnames : ∀ x ∈ names, IsName x)
    (hopen : ∀ xs, xs <+: names → xs ≠ [] → (∀ x ∈ xs, x.length ≤ maxName) →
      fs.entry? (d ++ xs) = none ∨ fs.entry? (d ++ xs) = some .directory)
    (h : fs.walk .look n d names = .ok ⟨place, some e⟩) :
    e = .directory ∧ (∀ x ∈ names, x.length ≤ maxName) ∧
      ∀ xs, xs <+: names → xs ≠ [] → fs.entry? (d ++ xs) = some .directory := by
  induction names generalizing d with
  | nil =>
    rw [walk_nil, Except.ok.injEq, Location.mk.injEq, Option.some.injEq] at h
    refine ⟨h.2.symm, by simp, fun xs hxs hne => ?_⟩
    exact absurd (List.prefix_nil.mp hxs) hne
  | cons c names ih =>
    rw [List.forall_mem_cons] at hnames
    rw [walk_name hnames.1, if_neg (by simp)] at h
    split at h
    · exact absurd h (by simp)
    rename_i hlength
    have hlength := Nat.not_lt.mp hlength
    have hfirst := hopen [c] (by simp) (by simp) (by simpa using hlength)
    rcases hfirst with hfirst | hfirst <;> rw [hfirst, meet] at h
    · split at h <;> simp at h
    obtain ⟨he, hshort, hdirectories⟩ := ih hnames.2 (d := d ++ [c])
      (fun xs hxs hne hshort => by
        rw [List.append_assoc]
        exact hopen _ (List.cons_prefix_cons.mpr ⟨rfl, hxs⟩) (by simp)
          (List.forall_mem_cons.mpr ⟨hlength, hshort⟩)) h
    refine ⟨he, List.forall_mem_cons.mpr ⟨hlength, hshort⟩, fun xs hxs hne => ?_⟩
    obtain ⟨x, xs, rfl⟩ := List.exists_cons_of_ne_nil hne
    obtain ⟨rfl, hxs'⟩ := List.cons_prefix_cons.mp hxs
    by_cases hnil : xs = []
    · rw [hnil]
      exact hfirst
    · have hrest := hdirectories xs hxs' hnil
      rwa [List.append_assoc] at hrest

/-- Through directories there is a way. -/
theorem way_of_directories (hnames : ∀ x ∈ names, IsName x)
    (hshort : ∀ x ∈ names, x.length ≤ maxName)
    (h : ∀ xs, xs <+: names → xs ≠ [] → fs.entry? (d ++ xs) = some .directory) :
    Way fs n d names n (d ++ names) := by
  induction names generalizing d with
  | nil =>
    rw [List.append_nil]
    exact .nil
  | cons c names ih =>
    rw [List.forall_mem_cons] at hnames hshort
    rw [List.append_cons]
    refine .down hnames.1 hshort.1 (h [c] (by simp) (by simp))
      (ih hnames.2 hshort.2 fun xs hxs hne => ?_)
    rw [List.append_assoc]
    exact h _ (List.cons_prefix_cons.mpr ⟨rfl, hxs⟩) (by simp)

/-! ### Making the directories of a corridor -/

section Corridor

variable {n' : Nat} (hnames : ∀ x ∈ names, IsName x)

include hnames

/-- In an open corridor a path is found only if it fits and all its directories are there. -/
theorem found_in_corridor (hway : Way fs maxLinks (origin absolute here) pre n' d)
    (htidy : Path.Tidy absolute (pre ++ names)) (hne : names ≠ [])
    (hopen : fs.Open absolute pre d names)
    (h : fs.find? here (Path.ofComponents absolute (pre ++ names)) = some e) :
    e = .directory ∧ Fits absolute pre names ∧
      ∀ q ∈ corridor absolute pre d names, fs.entry? q = some .directory := by
  obtain ⟨place, hlocate⟩ := locate_of_find? h
  have hpath := isPath_of_locate hlocate
  have hall : names.all (· = "") = false := by
    obtain ⟨x, names, rfl⟩ := List.exists_cons_of_ne_nil hne
    simp [(hnames x List.mem_cons_self).1]
  rw [locate_ofComponents htidy (by simp [hne]) hpath, hway.walk_append hall] at hlocate
  obtain ⟨he, hshort, hdirectories⟩ := walk_names hnames (fun xs hxs hxs' hshort => by
    obtain ⟨ys, rfl⟩ := hxs
    refine hopen _ ⟨xs, List.prefix_append _ _, hxs', ⟨?_, hshort⟩, rfl⟩
    rw [← List.append_assoc] at hpath htidy
    exact isPath_of_append (by simp [hxs']) hpath htidy) hlocate
  exact ⟨he, ⟨hpath, hshort⟩, fun q ⟨xs, hxs, hxs', _, hq⟩ => hq ▸ hdirectories xs hxs hxs'⟩

/-- What is found behind the directories of a corridor. -/
theorem locate_concat (hway : Way fs maxLinks (origin absolute here) pre n' d)
    (htidy : Path.Tidy absolute (pre ++ (names ++ [x]))) (hx : IsName x)
    (hpath : IsPath (Path.ofComponents absolute (pre ++ (names ++ [x]))))
    (hshort : ∀ x ∈ names, x.length ≤ maxName)
    (hdirectories : ∀ q ∈ corridor absolute pre d names, fs.entry? q = some .directory)
    (purpose : Purpose) :
    fs.locate purpose here (Path.ofComponents absolute (pre ++ (names ++ [x]))) =
      if maxName < x.length then .error .nameTooLong
      else fs.meet purpose n' (d ++ names) x [] (fs.entry? (d ++ (names ++ [x]))) := by
  have hend : Way fs maxLinks (origin absolute here) (pre ++ names) n' (d ++ names) := by
    refine hway.append (way_of_directories hnames hshort fun xs hxs hne => ?_)
    obtain ⟨ys, rfl⟩ := hxs
    refine hdirectories _ ⟨xs, List.prefix_append _ _, hne, ⟨?_, fun x hx =>
      hshort x (List.mem_append_left _ hx)⟩, rfl⟩
    rw [List.append_assoc, ← List.append_assoc] at hpath htidy
    exact isPath_of_append (by simp [hne]) hpath htidy
  have hall : [x].all (· = "") = false := by simp [hx.1]
  rw [locate_ofComponents htidy (by simp) hpath, ← List.append_assoc, hend.walk_append hall,
    walk_name hx, if_neg (by simp), List.append_assoc]

variable (here) in
/-- The last directory of a corridor is made if it fits. -/
theorem makeLast_corridor (htidy : Path.Tidy absolute (pre ++ (names ++ [x])))
    (hx : IsName x) (hshort : ∀ x ∈ names, x.length ≤ maxName) :
    ∃ r : Except FileError Unit, (r = .ok () ↔ Fits absolute pre (names ++ [x])) ∧
      ∀ fs : Files, Way fs maxLinks (origin absolute here) pre n' d →
        (∀ q ∈ corridor absolute pre d names, fs.entry? q = some .directory) →
        fs.Open absolute pre d (names ++ [x]) →
        ∃ fs', fs.makeLast here (Path.ofComponents absolute (pre ++ (names ++ [x]))) = (fs', r) ∧
          MadeAt {q | Fits absolute pre (names ++ [x]) ∧ q = d ++ (names ++ [x])} fs fs' := by
  have hnothing : ∀ fs : Files, ¬ Fits absolute pre (names ++ [x]) →
      MadeAt {q | Fits absolute pre (names ++ [x]) ∧ q = d ++ (names ++ [x])} fs fs :=
    fun fs hfits q => ⟨fun hq => absurd hq.1 hfits, fun _ => rfl⟩
  by_cases hpath : IsPath (Path.ofComponents absolute (pre ++ (names ++ [x])))
  · by_cases hlength : maxName < x.length
    · have hfits : ¬ Fits absolute pre (names ++ [x]) := fun hfits =>
        absurd (hfits.2 x (by simp)) (Nat.not_le.mpr hlength)
      refine ⟨.error ⟨.makeDirectory, Path.ofComponents absolute (pre ++ (names ++ [x])),
        .nameTooLong⟩, by simp [hfits],
        fun fs hway hdirectories _ => ⟨fs, ?_, hnothing fs hfits⟩⟩
      rw [makeLast, makeDirectory, locate_concat hnames hway htidy hx hpath hshort hdirectories,
        if_pos hlength]
    · have hfits : Fits absolute pre (names ++ [x]) := ⟨hpath, List.forall_mem_append.mpr
        ⟨hshort, List.forall_mem_singleton.mpr (Nat.not_lt.mp hlength)⟩⟩
      refine ⟨.ok (), by simp [hfits], fun fs hway hdirectories hopen => ?_⟩
      have hentry := hopen _ (mem_corridor_concat.mpr (.inr ⟨hfits, rfl⟩))
      rw [makeLast, makeDirectory, locate_concat hnames hway htidy hx hpath hshort hdirectories,
        if_neg hlength]
      rcases hentry with hentry | hentry
      · have hmade := madeAt_put (show d ++ (names ++ [x]) ≠ [] by simp) fs
        refine ⟨fs.put (d ++ (names ++ [x])) .directory, ?_, fun q =>
          ⟨fun hq => (hmade q).1 hq.2, fun hq => (hmade q).2 fun heq => hq ⟨hfits, heq⟩⟩⟩
        rw [hentry, meet, if_pos (by simp), List.append_assoc]
      · refine ⟨fs, ?_, fun q => ⟨fun hq => hq.2 ▸ hentry, fun _ => rfl⟩⟩
        rw [hentry, meet, walk_nil]
  · have hfits : ¬ Fits absolute pre (names ++ [x]) := fun hfits => hpath hfits.1
    obtain ⟨cause, hcause⟩ := exists_locate_eq_error hpath
    refine ⟨.error ⟨.makeDirectory, Path.ofComponents absolute (pre ++ (names ++ [x])), cause⟩,
      by simp [hfits],
      fun fs _ _ _ => ⟨fs, ?_, hnothing fs hfits⟩⟩
    rw [makeLast, makeDirectory, hcause]

end Corridor

/-- What makes directories in a corridor makes those whose paths fit, and comes to `r`, in every
tree that has grown from `fs`. -/
def Digs (fs : Files) (absolute : Bool) (pre d names : List String)
    (make : Files → Files × Except FileError Unit) (r : Except FileError Unit) : Prop :=
  ∀ made written fs', Grows made written fs fs' → fs'.Open absolute pre d names →
    ∃ fs'', make fs' = (fs'', r) ∧ MadeAt (corridor absolute pre d names) fs' fs''

section Digging

variable {n' fuel : Nat} {r : Except FileError Unit} {err : FileError}

/-- The entrance of a corridor is there. -/
theorem digs_entrance (htidy : Path.Tidy absolute (pre ++ [x]))
    (hway : Way fs maxLinks (origin absolute here) pre n' d) (hfuel : 0 < fuel) :
    ∃ r, (Fits absolute pre [x] → r = .ok ()) ∧
      fs.Digs absolute pre d []
        (·.makeParents here fuel (Path.ofComponents absolute (pre ++ [x]))) r := by
  have hnothing : ∀ fs' : Files, MadeAt (corridor absolute pre d []) fs' fs' :=
    fun fs' q => ⟨by simp, fun _ => rfl⟩
  have hparent := Path.parentText?_ofComponents htidy
  by_cases hpre : pre = []
  · refine ⟨.ok (), fun _ => rfl, fun made written fs' _ _ => ⟨fs', ?_, hnothing fs'⟩⟩
    simp only [makeParents, hparent, if_pos hpre]
  · have hsolid := hway.solid fun c hc => (htidy.ne_empty c (List.mem_append_left _ hc)).1
    refine ⟨(fs.makeDirectories here fuel (Path.ofComponents absolute pre)).2, fun hfits => ?_,
      fun made written fs' hgrows _ => ⟨fs', ?_, hnothing fs'⟩⟩
    · obtain ⟨fuel, rfl⟩ := Nat.exists_eq_succ_of_ne_zero (Nat.ne_of_gt hfuel)
      have hpath := isPath_of_append hpre hfits.1 htidy
      rw [makeDirectories_succ, find?, locate_ofComponents htidy.of_append hpre hpath,
        hway.walk_look]
    · simp only [makeParents, hparent, if_neg hpre]
      exact makeDirectories_solid hgrows htidy.of_append hpre hsolid fuel

/-- Where the corridor goes on, its parents are the directories of a shorter corridor. -/
theorem Digs.parents (hnil : names ≠ []) (htidy : Path.Tidy absolute (pre ++ (names ++ [x])))
    (h : fs.Digs absolute pre d names
      (·.makeDirectories here fuel (Path.ofComponents absolute (pre ++ names))) r) :
    fs.Digs absolute pre d names
      (·.makeParents here fuel (Path.ofComponents absolute (pre ++ (names ++ [x])))) r := by
  rw [← List.append_assoc] at htidy
  have hparent := Path.parentText?_ofComponents htidy
  rw [List.append_assoc, if_neg (by simp [hnil])] at hparent
  intro made written fs' hgrows hopen
  simp only [makeParents, hparent]
  exact h made written fs' hgrows hopen

variable (hnames : ∀ x ∈ names, IsName x) (hx : IsName x)
  (htidy : Path.Tidy absolute (pre ++ (names ++ [x])))
  (hway : Way fs maxLinks (origin absolute here) pre n' d)

include hnames hx htidy hway

/-- If the parents cannot be made, neither can the last directory. -/
theorem Digs.of_error (hfits : ¬ Fits absolute pre (names ++ [x]))
    (h : fs.Digs absolute pre d names
      (·.makeParents here fuel (Path.ofComponents absolute (pre ++ (names ++ [x])))) (.error err)) :
    fs.Digs absolute pre d (names ++ [x])
      (·.makeDirectories here (fuel + 1) (Path.ofComponents absolute (pre ++ (names ++ [x]))))
      (.error err) := by
  intro made written fs' hgrows hopen
  obtain ⟨fs'', hfs'', hmade⟩ :=
    h made written fs' hgrows fun q hq => hopen q (mem_corridor_concat.mpr (.inl hq))
  have hfind : fs'.find? here (Path.ofComponents absolute (pre ++ (names ++ [x]))) = none := by
    by_contra hsome
    obtain ⟨e, he⟩ := Option.ne_none_iff_exists'.mp hsome
    exact hfits (found_in_corridor
      (List.forall_mem_append.mpr ⟨hnames, List.forall_mem_singleton.mpr hx⟩) (hgrows.way hway)
      htidy (by simp) hopen he).2.1
  refine ⟨fs'', ?_, fun q => ?_⟩
  · beta_reduce at hfs'' ⊢
    rw [makeDirectories_succ, hfind, hfs'']
  · rw [mem_corridor_concat, or_iff_left fun h => hfits h.1]
    exact hmade q

/-- After the parents the last directory is made if it fits. -/
theorem Digs.exists_of_ok (hshort : ∀ x ∈ names, x.length ≤ maxName)
    (h : fs.Digs absolute pre d names
      (·.makeParents here fuel (Path.ofComponents absolute (pre ++ (names ++ [x])))) (.ok ())) :
    ∃ r, (r = .ok () ↔ Fits absolute pre (names ++ [x])) ∧
      fs.Digs absolute pre d (names ++ [x])
        (·.makeDirectories here (fuel + 1) (Path.ofComponents absolute (pre ++ (names ++ [x]))))
        r := by
  obtain ⟨r, hr, hmake⟩ := makeLast_corridor here hnames htidy hx hshort
  refine ⟨r, hr, fun made written fs' hgrows hopen => ?_⟩
  simp only [makeDirectories_succ]
  rcases hfind : fs'.find? here (Path.ofComponents absolute (pre ++ (names ++ [x]))) with _ | e
  · obtain ⟨fs₁, hfs₁, hmade⟩ :=
      h made written fs' hgrows fun q hq => hopen q (mem_corridor_concat.mpr (.inl hq))
    beta_reduce at hfs₁
    have hgrows₁ : Grows Set.univ ∅ fs' fs₁ := by
      have := makeParents_grows fs' here fuel (Path.ofComponents absolute (pre ++ (names ++ [x])))
      rwa [hfs₁] at this
    obtain ⟨fs₂, hfs₂, hmade'⟩ := hmake fs₁ (hgrows₁.way (hgrows.way hway))
      (fun q hq => (hmade q).1 hq) fun q hq => by
        by_cases hq' : q ∈ corridor absolute pre d names
        · exact .inr ((hmade q).1 hq')
        · rw [(hmade q).2 hq']
          exact hopen q hq
    refine ⟨fs₂, by rw [hfs₁]; exact hfs₂, fun q => ?_⟩
    rw [mem_corridor_concat]
    exact hmade.trans hmade' q
  · obtain ⟨rfl, hfits, hdirectories⟩ := found_in_corridor
      (List.forall_mem_append.mpr ⟨hnames, List.forall_mem_singleton.mpr hx⟩) (hgrows.way hway)
      htidy (by simp) hopen hfind
    exact ⟨fs', by rw [hr.mpr hfits], fun q => ⟨hdirectories q, fun _ => rfl⟩⟩

end Digging

/-- **In an open corridor the directories are made whose paths fit**, and that fails if one does
not fit, whatever else has grown in the tree. -/
theorem makeDirectories_corridor {n' : Nat} (hnames : ∀ x ∈ names, IsName x) (hne : names ≠ [])
    (htidy : Path.Tidy absolute (pre ++ names))
    (hway : Way fs maxLinks (origin absolute here) pre n' d) (fuel : Nat)
    (hfuel : names.length < fuel) :
    ∃ r, (r = .ok () ↔ Fits absolute pre names) ∧
      fs.Digs absolute pre d names
        (·.makeDirectories here fuel (Path.ofComponents absolute (pre ++ names))) r := by
  induction names using List.reverseRecOn generalizing fuel with
  | nil => exact absurd rfl hne
  | append_singleton names x ih =>
    obtain ⟨fuel, rfl⟩ := Nat.exists_eq_succ_of_ne_zero (Nat.ne_of_gt (Nat.zero_lt_of_lt hfuel))
    rw [List.length_append, List.length_singleton, Nat.add_lt_add_iff_right] at hfuel
    rw [List.forall_mem_append, List.forall_mem_singleton] at hnames
    obtain ⟨hnames, hx⟩ := hnames
    obtain ⟨r, hok, hshort, hparents⟩ :
        ∃ r, (Fits absolute pre (names ++ [x]) → r = .ok ()) ∧
          (r = .ok () → ∀ x ∈ names, x.length ≤ maxName) ∧
          fs.Digs absolute pre d names
            (·.makeParents here fuel (Path.ofComponents absolute (pre ++ (names ++ [x])))) r := by
      rcases eq_or_ne names [] with rfl | hnil
      · obtain ⟨r, hr, hdigs⟩ := digs_entrance htidy hway hfuel
        exact ⟨r, hr, by simp, hdigs⟩
      · have htidy' := htidy
        rw [← List.append_assoc] at htidy'
        obtain ⟨r, hr, hdigs⟩ := ih hnames hnil htidy'.of_append fuel hfuel
        exact ⟨r, fun hfits => hr.mpr (hfits.of_append htidy hnil), fun h => (hr.mp h).2,
          hdigs.parents hnil htidy⟩
    cases r with
    | error err =>
      have hfits : ¬ Fits absolute pre (names ++ [x]) := fun hfits => absurd (hok hfits) (by simp)
      exact ⟨.error err, by simp [hfits], hparents.of_error hnames hx htidy hway hfits⟩
    | ok _ => exact hparents.exists_of_ok hnames hx htidy hway (hshort rfl)

end WorstCase.Files
