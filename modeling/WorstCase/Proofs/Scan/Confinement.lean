import WorstCase.Proofs.Ascending
import WorstCase.Proofs.Scan.Scope
import WorstCase.Proofs.Scan.Sighting
import Mathlib.Data.String.Basic

/-!
# Ignore files keep to their directories

The patterns of all ignore files are kept in one list, and they hold for the rest of the walk, also
for what comes behind the directory that they are from. If ignore files stay in their directories
(`Scan.StaysIn`), this changes nothing outside: what a scan finds outside of a directory does not
depend on what is in it, its ignore file included (`Scan.scan_scoped`).

The argument leaves the directory out of the walk (`Scan.Course.Alike.foldl`). Meeting something in
the directory changes nothing that matters outside, for two reasons.

* **Patterns** from the directory do not match paths outside of it.
* A walk forgets which directory it passed over when it **passes over** another one. As what is in a
  directory stands together in the listing (`Files.prefix_of_pathLe`), the directory that is
  forgotten holds nothing that is still to come.
-/

namespace WorstCase

/-! ### The order of a listing -/

namespace Files

variable {a b c : List String} {x y : String}

theorem pathLe_cons_iff : pathLe (x :: a) (y :: b) = true ↔ x < y ∨ x = y ∧ pathLe a b = true := by
  rw [pathLe]
  split_ifs with h <;> simp [h]

theorem pathLe_total (a b : List String) : pathLe a b = true ∨ pathLe b a = true := by
  induction a generalizing b with
  | nil => exact .inl rfl
  | cons x a ih =>
    cases b with
    | nil => exact .inr rfl
    | cons y b =>
      rw [pathLe_cons_iff, pathLe_cons_iff]
      rcases lt_trichotomy x y with hlt | rfl | hlt
      · exact .inl (.inl hlt)
      · exact (ih b).imp (fun h => .inr ⟨rfl, h⟩) fun h => .inr ⟨rfl, h⟩
      · exact .inr (.inl hlt)

theorem pathLe_trans (hab : pathLe a b = true) (hbc : pathLe b c = true) : pathLe a c = true := by
  induction a generalizing b c with
  | nil => rfl
  | cons x a ih =>
    rcases b with _ | ⟨y, b⟩
    · exact nomatch hab
    rcases c with _ | ⟨z, c⟩
    · exact nomatch hbc
    rw [pathLe_cons_iff] at hab hbc ⊢
    rcases hab with hxy | ⟨rfl, hab⟩
    · rcases hbc with hyz | ⟨rfl, -⟩
      · exact .inl (hxy.trans hyz)
      · exact .inl hxy
    · refine hbc.imp_right fun h => ⟨h.1, ih hab h.2⟩

/-- **What is in a directory stands together**: between the directory and something in it there is
nothing else. -/
theorem prefix_of_pathLe (hab : pathLe a b = true) (hbc : pathLe b c = true) (h : a <+: c) :
    a <+: b := by
  induction a generalizing b c with
  | nil => exact List.nil_prefix
  | cons x a ih =>
    obtain ⟨rest, rfl⟩ := h
    rcases b with _ | ⟨y, b⟩
    · exact nomatch hab
    rw [List.cons_append, pathLe_cons_iff] at hbc
    rw [pathLe_cons_iff] at hab
    rcases hab with hxy | ⟨rfl, hab⟩
    · rcases hbc with hyx | ⟨rfl, -⟩
      · exact absurd hyx hxy.asymm
      · exact absurd hxy (lt_irrefl y)
    · rcases hbc with hxx | ⟨-, hbc⟩
      · exact absurd hxx (lt_irrefl x)
      · exact List.cons_prefix_cons.mpr ⟨rfl, ih hab hbc (List.prefix_append a rest)⟩

/-- A listing is in order. -/
theorem pairwise_listing (fs : Files) (here : List String) (path : String) :
    (fs.listing here path).Pairwise fun e e' => pathLe e.1 e'.1 = true := by
  rw [listing]
  split
  · exact pairwise_sortBy_of (fun (e e' : List String × FileKind) => pathLe_total e.1 e'.1)
      (fun _ _ _ => pathLe_trans) _
  · exact .nil

end Files

namespace Scan

open WorstCase.Path (IsName)

variable {o : Options} {base place : List String} {kind : FileKind}

/-! ### Patterns outside of a directory -/

/-- Names that lead from the root of a scan to something below it. -/
def IsPlace (place : List String) : Prop :=
  place ≠ [] ∧ ∀ c ∈ place, IsName c ∧ '/' ∉ c.toList

/-- The path of a place, as patterns are matched against it: the one of a directory ends with a
slash. -/
def LeadsTo (path : String) (place : List String) : Prop :=
  path = Text.joinWith "/" place ∨ path = Text.joinWith "/" place ++ "/"

/-- Patterns that match nothing outside of a directory. -/
def InertOutside (base : List String) (patterns : List IgnorePattern) : Prop :=
  ∀ p ∈ patterns, ∀ place, IsPlace place → ¬ base <+: place → ∀ path, LeadsTo path place →
    p.isMatch path = false

/-- The patterns of an ignore file that stays in its directory match nothing outside of it, nor
outside of a directory that it is in. -/
theorem StaysIn.inertOutside {directory : List String} {contents : String}
    {patterns : List IgnorePattern} (h : StaysIn directory contents)
    (hnames : ∀ c ∈ directory, IsName c ∧ '/' ∉ c.toList) (hbase : base <+: directory)
    (hpatterns : ignorePatterns contents (Text.joinWith "/" directory) = .ok patterns) :
    InertOutside base patterns := by
  intro p hp place hplace houtside path hpath
  obtain ⟨line, hline, hparse⟩ := exists_line_of_ignorePatterns hpatterns hp
  rw [← Bool.not_eq_true]
  intro hmatch
  exact houtside (hbase.trans (IgnorePattern.prefix_of_isMatch hnames h.isPlain
    (h.up_notMem line hline) hparse hplace.2 hplace.1 hpath hmatch).1)

theorem ignores_append (patterns more : List IgnorePattern) (path : String) :
    ignores (patterns ++ more) path =
      more.foldl (fun ignored p => if p.isMatch path then !p.negated else ignored)
        (ignores patterns path) :=
  List.foldl_append

/-- More patterns change nothing outside of a directory if they match nothing there. -/
theorem InertOutside.ignores_append {more : List IgnorePattern} (h : InertOutside base more)
    (hplace : IsPlace place) (houtside : ¬ base <+: place) {path : String}
    (hpath : LeadsTo path place) (patterns : List IgnorePattern) :
    ignores (patterns ++ more) path = ignores patterns path := by
  rw [Scan.ignores_append]
  generalize ignores patterns path = ignored
  induction more with
  | nil => rfl
  | cons p more ih =>
    rw [InertOutside, List.forall_mem_cons] at h
    rw [List.foldl_cons, h.1 place hplace houtside path hpath, if_neg Bool.false_ne_true]
    exact ih h.2

/-! ### The course of a walk -/

/-- What a walk goes by, and what it has found: the patterns so far, the directory that was last
passed over, and the places of the inputs, last first. -/
structure Course where
  ignored : List IgnorePattern
  passed : Option (List String) := none
  found : List (List String) := []

/-- What a walk does about something that it meets. -/
inductive Turn where
  /-- It goes on. -/
  | goOn
  /-- It passes a directory over. -/
  | passOver
  /-- It enters a directory. -/
  | enter
  /-- It takes an input. -/
  | take

namespace Course

variable {patterns patterns' : List String → List IgnorePattern} {c c' : Course}

/-- What a walk does about what it meets at a place. -/
def turn (o : Options) (c : Course) (place : List String) (kind : FileKind) : Turn :=
  let name := place.getLast?.getD ""
  let path := Text.joinWith "/" place
  if c.passed.any (·.isPrefixOf place) then .goOn
  else if o.skipHidden && name.toList.head? = some '.' then
    if kind = .directory then .passOver else .goOn
  else
    match kind with
    | .directory =>
      if o.isExcluded name || ignores c.ignored (path ++ "/") then .passOver else .enter
    | .file _ => if o.includes path && !ignores c.ignored path then .take else .goOn
    | .other => .goOn

/-- The course after what is met at a place, where directories add these patterns. -/
def next (o : Options) (patterns : List String → List IgnorePattern) (c : Course)
    (e : List String × FileKind) : Course :=
  match c.turn o e.1 e.2 with
  | .goOn => c
  | .passOver => { c with passed := some e.1 }
  | .enter => { c with ignored := c.ignored ++ patterns e.1 }
  | .take => { c with found := e.1 :: c.found }

theorem eq_directory_of_turn (h : c.turn o place kind = .enter) : kind = .directory := by
  cases kind with
  | directory => rfl
  | file size =>
    unfold turn at h
    dsimp only at h
    split_ifs at h
  | other =>
    unfold turn at h
    dsimp only at h
    split_ifs at h

/-- Nothing is done below a directory that was passed over. -/
theorem not_passed_of_turn (h : c.turn o place kind ≠ .goOn) :
    c.passed.any (·.isPrefixOf place) = false := by
  rw [← Bool.not_eq_true]
  intro hpassed
  refine h ?_
  unfold turn
  exact if_pos hpassed

theorem passed_next {e : List String × FileKind} {p : List String}
    (h : p ∈ (c.next o patterns e).passed) : p ∈ c.passed ∨ p = e.1 := by
  unfold next at h
  split at h
  · exact .inl h
  · exact .inr (Option.some_inj.mp h).symm
  · exact .inl h
  · exact .inl h

theorem mem_found_foldl {entries : List (List String × FileKind)}
    (h : place ∈ (entries.foldl (next o patterns) c).found) :
    place ∈ c.found ∨ ∃ e ∈ entries, e.1 = place := by
  induction entries generalizing c with
  | nil => exact .inl h
  | cons e entries ih =>
    rcases ih h with hnext | ⟨e', he', rfl⟩
    · unfold next at hnext
      split at hnext
      · exact .inl hnext
      · exact .inl hnext
      · exact .inl hnext
      · rcases List.mem_cons.mp hnext with rfl | hfound
        · exact .inr ⟨e, List.mem_cons_self, rfl⟩
        · exact .inl hfound
    · exact .inr ⟨e', List.mem_cons_of_mem _ he', rfl⟩

/-! ### Courses that are alike outside of a directory -/

/-- Courses that go the same way outside of a directory, as far as patterns and inputs go, and over
what is still to come. -/
structure Alike (base : List String) (rest : List (List String × FileKind)) (c c' : Course) :
    Prop where
  ignores : ∀ place, IsPlace place → ¬ base <+: place → ∀ path, LeadsTo path place →
    ignores c.ignored path = ignores c'.ignored path
  passed : ∀ e ∈ rest, ¬ base <+: e.1 →
    c.passed.any (·.isPrefixOf e.1) = c'.passed.any (·.isPrefixOf e.1)
  found : ∀ place, ¬ base <+: place → (place ∈ c.found ↔ place ∈ c'.found)

namespace Alike

variable {e : List String × FileKind} {rest : List (List String × FileKind)}

/-- Courses that are alike take the same turn outside of the directory. -/
theorem turn_eq (h : Alike base rest c c') (hmem : e ∈ rest) (hplace : IsPlace e.1)
    (houtside : ¬ base <+: e.1) : c.turn o e.1 e.2 = c'.turn o e.1 e.2 := by
  have hfile := h.ignores e.1 hplace houtside _ (.inl rfl)
  have hdirectory := h.ignores e.1 hplace houtside _ (.inr rfl)
  unfold turn
  dsimp only
  rw [h.passed e hmem houtside, hfile, hdirectory]

theorem weaken {rest' : List (List String × FileKind)} (h : Alike base rest c c')
    (hrest : rest' ⊆ rest) : Alike base rest' c c' :=
  ⟨h.ignores, fun e he => h.passed e (hrest he), h.found⟩

/-- **Outside of the directory** they stay alike. -/
theorem next_outside (h : Alike base (e :: rest) c c') (hplace : IsPlace e.1)
    (houtside : ¬ base <+: e.1) (hpatterns : e.2 = .directory → patterns e.1 = patterns' e.1) :
    Alike base rest (c.next o patterns e) (c'.next o patterns' e) := by
  have hrest := h.weaken (List.subset_cons_self e rest)
  rw [next, next, ← h.turn_eq List.mem_cons_self hplace houtside]
  rcases hturn : c.turn o e.1 e.2
  · exact hrest
  · exact ⟨hrest.ignores, fun _ _ _ => rfl, hrest.found⟩
  · refine ⟨fun place hp hout path hpath => ?_, hrest.passed, hrest.found⟩
    dsimp only
    rw [ignores_append, ignores_append, h.ignores place hp hout path hpath,
      hpatterns (eq_directory_of_turn hturn)]
  · refine ⟨hrest.ignores, hrest.passed, fun place hout => ?_⟩
    dsimp only
    rw [List.mem_cons, List.mem_cons, h.found place hout]

/-- **In the directory** a course may go on alone. -/
theorem next_inside (h : Alike base (e :: rest) c c') (hinside : base <+: e.1)
    (hpassed : ∀ p ∈ c.passed, Files.pathLe p e.1 = true)
    (hsorted : ∀ e' ∈ rest, Files.pathLe e.1 e'.1 = true)
    (hinert : e.2 = .directory → InertOutside base (patterns e.1)) :
    Alike base rest (c.next o patterns e) c' := by
  have hrest := h.weaken (List.subset_cons_self e rest)
  rw [next]
  rcases hturn : c.turn o e.1 e.2
  · exact hrest
  · refine ⟨hrest.ignores, fun e' he' hout => ?_, hrest.found⟩
    have hnew : e.1.isPrefixOf e'.1 = false := by
      rw [← Bool.not_eq_true, List.isPrefixOf_iff_prefix]
      exact fun hprefix => hout (hinside.trans hprefix)
    have hnone : c.passed.any (·.isPrefixOf e'.1) = false := by
      -- a directory that holds both what is met and what is to come would have been passed over
      have hfree : c.passed.any (·.isPrefixOf e.1) = false :=
        not_passed_of_turn (by rw [hturn]; exact nofun)
      rw [← Bool.not_eq_true, Option.any_eq_true] at hfree ⊢
      rintro ⟨p, hp, hprefix⟩
      refine hfree ⟨p, hp, List.isPrefixOf_iff_prefix.mpr ?_⟩
      exact Files.prefix_of_pathLe (hpassed p hp) (hsorted e' he')
        (List.isPrefixOf_iff_prefix.mp hprefix)
    rw [← hrest.passed e' he' hout, hnone]
    exact hnew
  · refine ⟨fun place hp hout path hpath => ?_, hrest.passed, hrest.found⟩
    rw [← h.ignores place hp hout path hpath]
    exact (hinert (eq_directory_of_turn hturn)).ignores_append hp hout hpath c.ignored
  · refine ⟨hrest.ignores, hrest.passed, fun place hout => ?_⟩
    rw [← h.found place hout, List.mem_cons]
    exact or_iff_right fun heq => hout (heq ▸ hinside)

/-- **Leaving a directory out of a walk** changes nothing outside of it. -/
theorem foldl {entries : List (List String × FileKind)} (h : Alike base entries c c')
    (hplaces : ∀ e ∈ entries, IsPlace e.1)
    (hsorted : entries.Pairwise fun e e' => Files.pathLe e.1 e'.1 = true)
    (hpassed : ∀ p ∈ c.passed, ∀ e ∈ entries, Files.pathLe p e.1 = true)
    (hpatterns : ∀ e ∈ entries, ¬ base <+: e.1 → e.2 = .directory → patterns e.1 = patterns' e.1)
    (hinert : ∀ e ∈ entries, base <+: e.1 → e.2 = .directory → InertOutside base (patterns e.1)) :
    Alike base [] (entries.foldl (next o patterns) c)
      ((entries.filter fun e => ¬ base <+: e.1).foldl (next o patterns') c') := by
  induction entries generalizing c c' with
  | nil => exact h
  | cons e entries ih =>
    rw [List.pairwise_cons] at hsorted
    rw [List.forall_mem_cons] at hplaces hpatterns hinert
    have hpassed' : ∀ p ∈ (c.next o patterns e).passed, ∀ e' ∈ entries,
        Files.pathLe p e'.1 = true := by
      intro p hp e' he'
      rcases passed_next hp with hp | rfl
      · exact hpassed p hp e' (List.mem_cons_of_mem _ he')
      · exact hsorted.1 e' he'
    have hstep : ∀ {c''}, Alike base entries (c.next o patterns e) c'' →
        Alike base [] ((e :: entries).foldl (next o patterns) c)
          ((entries.filter fun e => ¬ base <+: e.1).foldl (next o patterns') c'') := fun h' =>
      ih h' hplaces.2 hsorted.2 hpassed' hpatterns.2 hinert.2
    by_cases hinside : base <+: e.1
    · rw [List.filter_cons_of_neg (by simpa using hinside)]
      exact hstep (h.next_inside hinside (fun p hp => hpassed p hp e List.mem_cons_self) hsorted.1
        (hinert.1 hinside))
    · rw [List.filter_cons_of_pos (by simpa using hinside)]
      exact hstep (h.next_outside hplaces.1 hinside (hpatterns.1 hinside))

end Alike

end Course

/-! ### Walks on their courses -/

section

variable {σ : Type} {w w' : World} {root : String} {t : σ}

/-- What is read of the ignore file in a directory. -/
def ignoreFileAt (o : Options) (w : World) (directory base : String) :
    Except ScanError (List IgnorePattern) :=
  if o.ignoreFile = "" then .ok []
  else
    match w.files.read w.here (Path.join [directory, o.ignoreFile]) with
    | .error e => if e.cause = .missing then .ok [] else .error (.ignoreFile e)
    | .ok bytes => (ignorePatterns (Text.ofBytes bytes) base).mapError .ignore

theorem run_loadIgnore_eq (o : Options) (directory base : String) (t : σ) (w : World) :
    (loadIgnore o directory base).run t w = (ignoreFileAt o w directory base, t, w) := by
  unfold loadIgnore ignoreFileAt
  split
  · rfl
  · rcases hread : w.files.read w.here (Path.join [directory, o.ignoreFile]) with e | bytes <;>
      simp only [Script.readFile, Bind.bind, Script.bind, Script.run, hread] <;> rfl

/-- The patterns that a directory adds. An ignore file that cannot be used adds none. -/
def patternsAt (o : Options) (root : String) (w : World) (place : List String) :
    List IgnorePattern :=
  (ignoreFileAt o w (Path.join (root :: place)) (Text.joinWith "/" place)).toOption.getD []

/-- A walk on its course. -/
structure Course.Shows (c : Course) (walk : Walk) : Prop where
  ignored : walk.ignored = c.ignored
  passed : walk.passed = c.passed
  found : walk.found.map (·.path) = c.found.map (Text.joinWith "/")

variable {c : Course} {walk : Walk}

/-- **A visit keeps a walk on its course.** -/
theorem Course.Shows.visit (h : c.Shows walk) (o : Options) (root : String) (place : List String)
    (kind : FileKind) (t : σ) (w : World) :
    ∃ walk', (Scan.visit o root walk place kind).run t w = (walk', t, w) ∧
      (c.next o (patternsAt o root w) (place, kind)).Shows walk' := by
  unfold Scan.visit Course.next Course.turn
  dsimp only
  rw [h.ignored, h.passed]
  split
  · exact ⟨_, rfl, h⟩
  split
  · split
    · exact ⟨_, rfl, rfl, rfl, h.found⟩
    · exact ⟨_, rfl, h⟩
  cases kind with
  | directory =>
    dsimp only
    split
    · exact ⟨_, rfl, rfl, rfl, h.found⟩
    · rw [Script.run_bind_of (run_loadIgnore_eq ..)]
      rcases hload : ignoreFileAt o w (Path.join (root :: place)) (Text.joinWith "/" place) with
        e | more
      · have hnone : patternsAt o root w place = [] := by
          rw [patternsAt, hload]
          rfl
        exact ⟨_, rfl, by simp [hnone, h.ignored], h.passed, h.found⟩
      · have hmore : patternsAt o root w place = more := by
          rw [patternsAt, hload]
          rfl
        exact ⟨_, rfl, by rw [hmore], rfl, h.found⟩
  | file size =>
    dsimp only
    split
    · obtain ⟨matching, hmatching, -⟩ :=
        run_companion (Path.join (root :: place)) ".matching" t w
      obtain ⟨cuts, hcuts, -⟩ := run_companion (Path.join (root :: place)) ".cuts" t w
      rw [Script.run_bind_of hmatching, Script.run_bind_of hcuts]
      exact ⟨_, rfl, rfl, rfl, congrArg (Text.joinWith "/" place :: ·) h.found⟩
    · exact ⟨_, rfl, h⟩
  | other => exact ⟨_, rfl, h⟩

/-- **Visits keep a walk on its course.** -/
theorem Course.Shows.visitAll (h : c.Shows walk) (o : Options) (root : String)
    (entries : List (List String × FileKind)) (t : σ) (w : World) :
    ∃ walk', (Scan.visitAll o root walk entries).run t w = (walk', t, w) ∧
      (entries.foldl (Course.next o (patternsAt o root w)) c).Shows walk' := by
  induction entries generalizing c walk with
  | nil => exact ⟨walk, rfl, h⟩
  | cons e entries ih =>
    obtain ⟨walk₁, hvisit, hshows⟩ := h.visit o root e.1 e.2 t w
    obtain ⟨walk', hrest, hshows'⟩ := ih hshows
    exact ⟨walk', (Script.run_bind_of hvisit).trans hrest, hshows'⟩

/-! ### Scans -/

/-- The absolute path of the root of a scan. -/
def rootOf (w : World) (root : String) : String :=
  Path.absolute (Path.ofComponents true w.here) root

/-- What is listed below the root. -/
def listed (w : World) (root : String) : List (List String × FileKind) :=
  w.files.listing w.here (rootOf w root)

/-- The patterns that a scan begins with, unless it fails. -/
def beginning (o : Options) (w : World) (root : String) : Except ScanError (List IgnorePattern) :=
  match o.patterns.find? fun p => !Glob.isValid p with
  | some p => .error (.pattern p)
  | none => ignoreFileAt o w (rootOf w root) ""

/-- The places where a scan finds inputs, once it has begun. -/
def places (o : Options) (w : World) (root : String) (ignored : List IgnorePattern) :
    List (List String) :=
  ((listed w root).foldl (Course.next o (patternsAt o (rootOf w root) w)) { ignored }).found

/-- **What a scan returns**: an error at its beginning, or the inputs on its course. -/
theorem run_scan_course (o : Options) (root : String) (t : σ) (w : World) :
    (∃ e, beginning o w root = .error e ∧ (scan o root).run t w = (.error e, t, w)) ∨
      ∃ ignored inputs, beginning o w root = .ok ignored ∧
        (scan o root).run t w = (.ok inputs, t, w) ∧
        (inputs.map (·.path)).Perm ((places o w root ignored).map (Text.joinWith "/")) := by
  have hload : (loadIgnore o (rootOf w root) "" : Script σ _).run t w =
      (ignoreFileAt o w (rootOf w root) "", t, w) := run_loadIgnore_eq ..
  unfold scan beginning
  rcases o.patterns.find? fun p => !Glob.isValid p with _ | p
  · dsimp only
    rcases hbegin : ignoreFileAt o w (rootOf w root) "" with e | ignored <;> rw [hbegin] at hload
    · exact .inl ⟨e, rfl, Script.run_bind_of hload⟩
    · have hshows : ({ ignored } : Course).Shows { ignored } := ⟨rfl, rfl, rfl⟩
      obtain ⟨walk', hvisits, hcourse⟩ := hshows.visitAll o (rootOf w root) (listed w root) t w
      refine .inr
        ⟨ignored, _, rfl, (Script.run_bind_of hload).trans (Script.run_bind_of hvisits), ?_⟩
      rw [places, ← hcourse.found]
      exact ((sortBy_perm _ _).trans (List.reverse_perm _)).map _
  · exact .inl ⟨_, rfl, rfl⟩

/-! ### What a directory changes -/

/-- The path of the ignore file of a directory. -/
def ignorePath (o : Options) (w : World) (root : String) (place : List String) : String :=
  Path.join [Path.join (rootOf w root :: place), o.ignoreFile]

/-- Two worlds in which a scan sees the same outside of a directory: the same is listed there, and
the ignore files there say the same. -/
structure AgreeOutside (o : Options) (root : String) (base : List String) (w w' : World) :
    Prop where
  here : w'.here = w.here
  listing : (listed w' root).filter (fun e => ¬ base <+: e.1) =
    (listed w root).filter fun e => ¬ base <+: e.1
  ignoreFile : ∀ place, (place = [] ∨ (place, .directory) ∈ listed w root) →
    ¬ base <+: place →
    w'.files.read w'.here (ignorePath o w' root place) =
      w.files.read w.here (ignorePath o w root place)

/-- The ignore files in a directory stay in their directories. -/
def Confined (o : Options) (w : World) (root : String) (base : List String) : Prop :=
  ∀ place, base <+: place → (place, .directory) ∈ listed w root → ∀ bytes,
    w.files.read w.here (ignorePath o w root place) = .ok bytes →
      StaysIn place (Text.ofBytes bytes)

/-- What is listed has a place. -/
theorem isPlace_of_mem_listed (hfs : w.files.WellFormed) {e : List String × FileKind}
    (he : e ∈ listed w root) : IsPlace e.1 := by
  rcases Files.listing_cases w.files w.here (rootOf w root) with hnil | ⟨d, hroot⟩
  · rw [listed, hnil] at he
    exact absurd he List.not_mem_nil
  · obtain ⟨entry, hne, hmem, -⟩ := Files.exists_of_mem_listing hroot he
    exact ⟨hne, fun c hc =>
      (hfs.names _ (List.mem_map_of_mem hmem)).2 c (List.mem_append_right _ hc)⟩

/-- Inputs are known by their paths. -/
theorem mem_map_places_iff (hfs : w.files.WellFormed) {ignored : List IgnorePattern}
    (hplace : IsPlace place) :
    Text.joinWith "/" place ∈ (places o w root ignored).map (Text.joinWith "/") ↔
      place ∈ places o w root ignored := by
  have hcomponents : ∀ {cs : List String}, IsPlace cs →
      Path.components (Text.joinWith "/" cs) = cs := fun hcs =>
    Path.components_joinWith_of_notMem (fun c hc => (hcs.2 c hc).2) hcs.1
  refine ⟨fun h => ?_, List.mem_map_of_mem⟩
  obtain ⟨place', hmem, hjoin⟩ := List.mem_map.mp h
  have hplace' : IsPlace place' := by
    rcases Course.mem_found_foldl hmem with hnil | ⟨e, he, rfl⟩
    · exact absurd hnil List.not_mem_nil
    · exact isPlace_of_mem_listed hfs he
  rwa [← hcomponents hplace, ← hjoin, hcomponents hplace']

theorem join_rootOf (w : World) (root : String) : Path.join [rootOf w root] = rootOf w root := by
  obtain ⟨cs, htidy, hroot⟩ := exists_absolute w.here root
  rw [rootOf, hroot, Path.join_ofComponents htidy (by simp), List.append_nil]

theorem Confined.inertOutside (hfs : w.files.WellFormed) (h : Confined o w root base)
    {e : List String × FileKind} (he : e ∈ listed w root) (hinside : base <+: e.1)
    (hkind : e.2 = .directory) : InertOutside base (patternsAt o (rootOf w root) w e.1) := by
  have hnone : InertOutside base [] := fun p hp => absurd hp List.not_mem_nil
  rw [patternsAt, ignoreFileAt]
  split
  · exact hnone
  rcases hread : w.files.read w.here (ignorePath o w root e.1) with error | bytes <;>
    rw [ignorePath] at hread <;> rw [hread]
  · dsimp only
    split <;> exact hnone
  · dsimp only
    rcases hpatterns : ignorePatterns (Text.ofBytes bytes) (Text.joinWith "/" e.1) with error | more
    · exact hnone
    · refine StaysIn.inertOutside (h e.1 hinside ?_ bytes hread)
        (isPlace_of_mem_listed hfs he).2 hinside hpatterns
      rw [← hkind]
      exact he

/-- Directories outside add the same patterns. -/
theorem AgreeOutside.patternsAt_eq (h : AgreeOutside o root base w w')
    (hplace : (place, .directory) ∈ listed w root) (houtside : ¬ base <+: place) :
    patternsAt o (rootOf w' root) w' place = patternsAt o (rootOf w root) w place := by
  have hread := h.ignoreFile place (.inr hplace) houtside
  rw [ignorePath, ignorePath] at hread
  rw [patternsAt, patternsAt, ignoreFileAt, ignoreFileAt, hread]

/-- Scans that see the same outside of a directory begin alike. -/
theorem AgreeOutside.beginning_eq (h : AgreeOutside o root base w w') (hbase : base ≠ []) :
    beginning o w' root = beginning o w root := by
  have hread := h.ignoreFile [] (.inl rfl) (mt List.prefix_nil.mp hbase)
  rw [ignorePath, ignorePath, join_rootOf, join_rootOf] at hread
  rw [beginning, beginning, ignoreFileAt, ignoreFileAt, hread]

/-- **The course of a scan outside of a directory** does not depend on what is in it. -/
theorem AgreeOutside.mem_places_iff (h : AgreeOutside o root base w w') (hfs : w.files.WellFormed)
    (hfs' : w'.files.WellFormed) (hconfined : Confined o w root base)
    (hconfined' : Confined o w' root base) (ignored : List IgnorePattern) :
    ∀ place, ¬ base <+: place →
      (place ∈ places o w root ignored ↔ place ∈ places o w' root ignored) := by
  intro place houtside
  have hsame : ∀ entries, Course.Alike base entries { ignored } { ignored } := fun _ =>
    ⟨fun _ _ _ _ _ => rfl, fun _ _ _ => rfl, fun _ _ => Iff.rfl⟩
  -- both are compared with the walk of one of them that leaves the directory out
  have hw : Course.Alike base []
      ((listed w root).foldl (Course.next o (patternsAt o (rootOf w root) w)) { ignored })
      (((listed w root).filter fun e => ¬ base <+: e.1).foldl
        (Course.next o (patternsAt o (rootOf w root) w)) { ignored }) :=
    (hsame _).foldl (fun e he => isPlace_of_mem_listed hfs he) (Files.pairwise_listing ..)
      (fun _ hp => nomatch hp) (fun _ _ _ _ => rfl) fun e => hconfined.inertOutside hfs
  have hw' : Course.Alike base []
      ((listed w' root).foldl (Course.next o (patternsAt o (rootOf w' root) w')) { ignored })
      (((listed w' root).filter fun e => ¬ base <+: e.1).foldl
        (Course.next o (patternsAt o (rootOf w root) w)) { ignored }) := by
    refine (hsame _).foldl (fun e he => isPlace_of_mem_listed hfs' he) (Files.pairwise_listing ..)
      (fun _ hp => nomatch hp) (fun e he hout hkind => ?_) fun e => hconfined'.inertOutside hfs'
    have hlisted : e ∈ (listed w root).filter fun e => ¬ base <+: e.1 :=
      h.listing ▸ List.mem_filter.mpr ⟨he, by simpa using hout⟩
    refine h.patternsAt_eq ?_ hout
    rw [← hkind]
    exact (List.mem_filter.mp hlisted).1
  rw [h.listing] at hw'
  exact (hw.found place houtside).trans (hw'.found place houtside).symm

/-- **What is in a directory changes nothing outside of it**: scans that see the same outside find
the same inputs there. -/
theorem scan_scoped (hfs : w.files.WellFormed) (hfs' : w'.files.WellFormed) (hbase : base ≠ [])
    (hagree : AgreeOutside o root base w w') (hconfined : Confined o w root base)
    (hconfined' : Confined o w' root base) (t : σ) :
    (∀ e, ((scan o root).run t w).1 = .error e ↔ ((scan o root).run t w').1 = .error e) ∧
      ∀ inputs inputs', ((scan o root).run t w).1 = .ok inputs →
        ((scan o root).run t w').1 = .ok inputs' → ∀ place, IsPlace place → ¬ base <+: place →
          (Text.joinWith "/" place ∈ inputs.map (·.path) ↔
            Text.joinWith "/" place ∈ inputs'.map (·.path)) := by
  rcases run_scan_course o root t w with
      ⟨e, hbegin, hrun⟩ | ⟨ignored, inputs, hbegin, hrun, hperm⟩ <;>
    rcases run_scan_course o root t w' with
      ⟨e', hbegin', hrun'⟩ | ⟨ignored', inputs', hbegin', hrun', hperm'⟩ <;>
    rw [hagree.beginning_eq hbase, hbegin] at hbegin' <;> rw [hrun, hrun']
  · exact ⟨fun _ => by rw [Except.error.inj hbegin'], nofun⟩
  · exact nomatch hbegin'
  · exact nomatch hbegin'
  · obtain rfl := Except.ok.inj hbegin'
    refine ⟨fun _ => ⟨nofun, nofun⟩, ?_⟩
    intro found found' hfound hfound' place hplace houtside
    rw [← Except.ok.inj hfound, ← Except.ok.inj hfound', hperm.mem_iff, hperm'.mem_iff,
      mem_map_places_iff hfs hplace, mem_map_places_iff hfs' hplace,
      hagree.mem_places_iff hfs hfs' hconfined hconfined' ignored place houtside]

/-- **Ignore files are scoped to their directories** as long as the path of the directory is plain
text and no pattern goes up. A pattern matches nothing but what is in the directory, and the
directory itself only if nothing or only `**` is left of it. So nothing in a directory, its ignore
file included, changes which inputs a scan finds outside, though all patterns are kept in one list
for the rest of the walk. -/
theorem ignoreFiles_scoped :
    (∀ line base p, (∀ c ∈ base, IsName c ∧ '/' ∉ c.toList) →
      Glob.IsPlain (Text.joinWith "/" base) →
      ".." ∉ Path.steps (IgnorePattern.relative line) →
      IgnorePattern.parse line (Text.joinWith "/" base) = .ok p →
      ∀ place, IsPlace place → ∀ path, LeadsTo path place → p.isMatch path = true →
        base <+: place ∧ (place = base →
          Path.steps (IgnorePattern.relative line) = [] ∨
            Path.steps (IgnorePattern.relative line) = ["**"])) ∧
    ∀ o root base w w' (t : σ), base ≠ [] → w.files.WellFormed → w'.files.WellFormed →
      AgreeOutside o root base w w' → Confined o w root base → Confined o w' root base →
      (∀ e, ((scan o root).run t w).1 = .error e ↔ ((scan o root).run t w').1 = .error e) ∧
        ∀ inputs inputs', ((scan o root).run t w).1 = .ok inputs →
          ((scan o root).run t w').1 = .ok inputs' → ∀ place, IsPlace place → ¬ base <+: place →
            (Text.joinWith "/" place ∈ inputs.map (·.path) ↔
              Text.joinWith "/" place ∈ inputs'.map (·.path)) := by
  constructor
  · intro line base p hbase hplain hline hparse place hplace path hpath hmatch
    exact IgnorePattern.prefix_of_isMatch hbase hplain hline hparse hplace.2 hplace.1 hpath hmatch
  · intro o root base w w' t hbase hfs hfs' hagree hconfined hconfined'
    exact scan_scoped hfs hfs' hbase hagree hconfined hconfined' t

end

/-- An input in a directory with more entries and an input outside. -/
def twoSides (entries : List (List String × FileEntry)) : World where
  files :=
    { entries :=
        [(["a"], .directory), (["a", "x.wcet"], .file (Text.toBytes "A")),
          (["b.wcet"], .file (Text.toBytes "B"))] ++ entries }

/-- The directory ignores all inputs. -/
def guarded : World := twoSides [(["a", ".wcetignore"], .file (Text.toBytes "*.wcet\n"))]

/-- The input in the directory. -/
def inner : Found where
  path := "a/x.wcet"
  full := "/a/x.wcet"
  storage := .plain
  size := 1

/-- The input outside. -/
def outer : Found where
  path := "b.wcet"
  full := "/b.wcet"
  storage := .plain
  size := 1

theorem ignoreFiles_scoped_guarded :
    (∃ p, IgnorePattern.parse "*.wcet" "a" = .ok p ∧ p.isMatch "a/x.wcet" = true ∧
      ["a"] <+: ["a", "x.wcet"]) ∧
    ((scan {} "/").run () guarded).1 = .ok [outer] ∧
      ((scan {} "/").run () (twoSides [])).1 = .ok [inner, outer] ∧
      ∀ place, IsPlace place → ¬ ["a"] <+: place →
        (Text.joinWith "/" place ∈ [outer].map (·.path) ↔
          Text.joinWith "/" place ∈ [inner, outer].map (·.path)) := by
  obtain ⟨hpattern, hscan⟩ := @ignoreFiles_scoped Unit
  have hlisted : ∀ w ∈ [guarded, twoSides []], ∀ place, (place, .directory) ∈ listed w "/" →
      place = ["a"] := by
    have hdirectories : ∀ w ∈ [guarded, twoSides []], ∀ e ∈ listed w "/", e.2 = .directory →
        e.1 = ["a"] := by
      decide +kernel
    exact fun w hw place hplace => hdirectories w hw _ hplace rfl
  have hagree : AgreeOutside {} "/" ["a"] guarded (twoSides []) := by
    refine ⟨rfl, by decide +kernel, fun place hplace houtside => ?_⟩
    rcases hplace with rfl | hplace
    · decide +kernel
    · rw [hlisted guarded (by simp) place hplace] at houtside
      exact absurd List.prefix_rfl houtside
  have hread : guarded.files.read guarded.here (ignorePath {} guarded "/" ["a"]) =
      .ok (Text.toBytes "*.wcet\n") := by
    decide +kernel
  have hconfined : Confined {} guarded "/" ["a"] := by
    intro place _ hplace bytes hbytes
    rw [hlisted guarded (by simp) place hplace] at hbytes ⊢
    rw [← Except.ok.inj (hread.symm.trans hbytes)]
    exact ⟨by decide +kernel, by decide +kernel⟩
  have hconfined' : Confined {} (twoSides []) "/" ["a"] := by
    intro place _ hplace bytes hbytes
    rw [hlisted (twoSides []) (by simp) place hplace] at hbytes
    have hmissing : ((twoSides []).files.read (twoSides []).here
        (ignorePath {} (twoSides []) "/" ["a"])).toOption = none := by
      decide +kernel
    rw [hbytes] at hmissing
    exact nomatch hmissing
  have hnames : ∀ c ∈ ["a"], IsName c ∧ '/' ∉ c.toList := by decide
  have hplace : IsPlace ["a", "x.wcet"] := ⟨by simp, by decide⟩
  have hparse : IgnorePattern.parse "*.wcet" "a" = .ok ⟨"a/**/*.wcet", false, false⟩ := by
    decide +kernel
  have hmatch : IgnorePattern.isMatch ⟨"a/**/*.wcet", false, false⟩ "a/x.wcet" = true := by
    decide +kernel
  have hguarded : ((scan {} "/").run () guarded).1 = .ok [outer] := by decide +kernel
  have hopen : ((scan {} "/").run () (twoSides [])).1 = .ok [inner, outer] := by decide +kernel
  refine ⟨⟨_, hparse, hmatch, ?_⟩, hguarded, hopen, ?_⟩
  · exact (hpattern "*.wcet" ["a"] _ hnames (by decide) (by decide +kernel) hparse
      ["a", "x.wcet"] hplace "a/x.wcet" (.inl (by decide)) hmatch).1
  · exact (hscan {} "/" ["a"] guarded (twoSides []) () (by simp)
      (.of_entries (by decide +kernel) (by decide +kernel))
      (.of_entries (by decide +kernel) (by decide +kernel)) hagree hconfined hconfined').2
      _ _ hguarded hopen

/-- **Patterns leak** where they go up, where the path of the directory holds alternatives, and
where it holds an octet that is no character. A pattern of which only `**` is left matches the
directory itself. With the first of them in its ignore file, a directory takes an input outside out
of a scan. -/
theorem exists_leaking_patterns :
    (∃ p, IgnorePattern.parse "../b.wcet" "a" = .ok p ∧ p.isMatch "b.wcet" = true) ∧
    (∃ p, IgnorePattern.parse "*.wcet" "\x7ba,b\x7d" = .ok p ∧ p.isMatch "b/x.wcet" = true) ∧
    (∃ p, IgnorePattern.parse "*.wcet" "\xfe" = .ok p ∧ p.isMatch "\xff/x.wcet" = true) ∧
    (∃ p, IgnorePattern.parse "/" "a" = .ok p ∧ p.isMatch "a/" = true) ∧
    ((scan {} "/").run () (twoSides [])).1 = .ok [inner, outer] ∧
    ((scan {} "/").run () (twoSides [(["a", ".wcetignore"],
      .file (Text.toBytes "../b.wcet\n"))])).1 = .ok [inner] :=
  ⟨⟨⟨"b.wcet", false, false⟩, by decide +kernel, by decide +kernel⟩,
    ⟨⟨"\x7ba,b\x7d/**/*.wcet", false, false⟩, by decide +kernel, by decide +kernel⟩,
    ⟨⟨"\xfe/**/*.wcet", false, false⟩, by decide +kernel, by decide +kernel⟩,
    ⟨⟨"a/**", false, true⟩, by decide +kernel, by decide +kernel⟩, by decide +kernel,
    by decide +kernel⟩

end Scan

end WorstCase
