import WorstCase.Proofs.Files.Path
import WorstCase.Proofs.Outcome
import WorstCase.Proofs.Text.Octets
import WorstCase.Proofs.Text.Trimmed
import WorstCase.Scan.Ignore

/-!
# The scope of ignore patterns

A pattern of an ignore file is matched against paths from the root of the scan on. To keep it in the
directory of the file, the path of the directory is put in front of it, as text, and the whole is
cleaned. So it gets out of the directory in two ways:

* the pattern **goes up** (`..`), and cleaning removes the directory that stands before it;
* the path of the directory is **no plain text** (`Glob.IsPlain`), and part of it is read as a
  pattern, or as a replacement for an octet that is no character.

Where neither is the case, a pattern matches nothing but what lies in its directory
(`IgnorePattern.prefix_of_isMatch`). The directory itself is matched only by a pattern of which
nothing is left after cleaning, or only `**`.
-/

namespace WorstCase

/-! ### Texts that begin with given characters -/

namespace Text

/-- A text whose characters begin with some that are no replacements begins with their spelling. -/
theorem exists_of_readable_eq_append {s cs rest : List Char} (hcs : replacement ∉ cs)
    (h : readable s = cs ++ rest) : ∃ t, s = spell cs ++ t ∧ readable t = rest := by
  induction cs generalizing s with
  | nil => exact ⟨s, rfl, h⟩
  | cons c cs ih =>
    rw [List.mem_cons, not_or] at hcs
    obtain ⟨y, ys, hsymbols, hshown, hrest⟩ := List.map_eq_cons_iff.mp h
    obtain ⟨t, rfl, rfl, -⟩ := exists_of_symbols_eq_cons hsymbols
    obtain ⟨t', rfl, ht'⟩ := ih hcs.2 hrest
    cases y with
    | char d =>
      obtain rfl : d = c := hshown
      exact ⟨t', by rw [spell_cons, List.append_assoc]; rfl, ht'⟩
    | stray o => exact absurd hshown hcs.1

theorem readable_eq_nil_iff {s : List Char} : readable s = [] ↔ s = [] := by
  refine ⟨fun h => ?_, fun h => by rw [h]; rfl⟩
  rw [← ofSymbols_symbols s, List.map_eq_nil_iff.mp h]
  rfl

theorem readable_cons_of_lt {o : Char} (ho : o.toNat < 128) (s : List Char) :
    readable (o :: s) = o :: readable s := by
  have hsymbols : symbols (o :: s) = .char o :: symbols s := symbols_append_cons ho [] s
  rw [readable, hsymbols]
  rfl

theorem isSpelled_of_readable {s : String} (h : replacement ∉ readable s.toList) : IsSpelled s := by
  obtain ⟨t, hs, ht⟩ := exists_of_readable_eq_append h (List.append_nil _).symm
  exact ⟨_, by rw [hs, readable_eq_nil_iff.mp ht, List.append_nil]⟩

end Text

/-! ### Globs that begin with plain text -/

namespace Glob

/-- A character that stands for itself outside of classes and alternatives. -/
def IsLiteral (c : Char) : Prop := c ∉ ['*', '?', '[', '\x7b', '\\']

/-- A text that is a pattern for itself and for no other text. -/
def IsPlain (s : String) : Prop :=
  ∀ c ∈ Text.readable s.toList, IsLiteral c ∧ c ≠ Text.replacement

instance (c : Char) : Decidable (IsLiteral c) := inferInstanceAs (Decidable (c ∉ _))

instance (s : String) : Decidable (IsPlain s) :=
  inferInstanceAs (Decidable (∀ c ∈ Text.readable s.toList, IsLiteral c ∧ c ≠ Text.replacement))

variable {literal more name : List Char} {fuel : Nat}

theorem failed_ne_true (rest : List Char) : failed rest ≠ some true := by
  unfold failed
  split <;> simp

theorem firstDecided_singleton {α : Type} {decided : α → Option Bool} {a : α} :
    firstDecided decided [a] = some true ↔ decided a = some true := by
  unfold firstDecided
  split <;> simp_all [firstDecided]

/-- What stands for nothing, unless it begins with alternatives. -/
theorem contains_of_standsForNothing (hmore : more.head? ≠ some '\x7b')
    (h : standsForNothing fuel more = some true) : emptyPatterns.contains (String.ofList more) := by
  cases fuel with
  | zero => exact nomatch h
  | succ fuel =>
    unfold standsForNothing at h
    split at h
    · assumption
    split at h
    · exact absurd rfl hmore
    · exact absurd h (failed_ne_true _)

namespace Attempt

/-- A literal stands for itself. -/
theorem step_literal {a : Attempt} {x c : Char} {rest : List Char} (hx : IsLiteral x)
    (ha : a.pattern = x :: rest) :
    a.step c name =
      if x = c then .fits [a.advance [x] (x = '/') rest name]
      else .differs (if a.afterBackslash then '\\' :: a.pattern else a.pattern) := by
  have hne : ∀ y ∈ ['*', '?', '[', '\x7b', '\\'], ∀ rest', x :: rest ≠ y :: rest' := by
    rintro y hy rest' heq
    exact hx ((List.cons.inj heq).1 ▸ hy)
  obtain ⟨start, afterBackslash, star, components, pattern, name'⟩ := a
  obtain rfl : pattern = x :: rest := ha
  unfold step
  dsimp only
  split <;> rename_i heq
  case h_1 => exact absurd heq (List.cons_ne_nil x rest)
  case h_10 =>
    obtain ⟨rfl, rfl⟩ := List.cons.inj heq
    rfl
  all_goals exact absurd heq (hne _ (by decide) _)

/-- There is nothing to go back to before the first star. -/
theorem succeeds_of_differs {a : Attempt} {c : Char} {rest : List Char} (hname : a.name = c :: name)
    (hstar : a.star = none) (hcomponents : a.components = none)
    (hstart : ¬ (a.start && a.pattern == ['*', '*']) = true) (hstep : a.step c name = .differs rest) :
    succeeds fuel a ≠ some true := by
  cases fuel with
  | zero => simp [succeeds]
  | succ fuel =>
    have hretry : a.retry? = none := by
      unfold retry?
      simp [hstar, hcomponents]
    rw [succeeds, hname]
    dsimp only
    rw [if_neg hstart, hstep]
    dsimp only
    rw [hretry]
    exact failed_ne_true rest

/-- Literals do not stand for nothing. -/
theorem not_succeeds_nil {start afterBackslash : Bool} {x : Char}
    (hliteral : IsLiteral x ∧ ∀ c ∈ literal, IsLiteral c)
    (hlast : (x :: literal).getLast? ≠ some '/') :
    succeeds fuel { start, afterBackslash, star := none, components := none
                    pattern := x :: literal ++ more, name := [] } ≠ some true := by
  intro h
  cases fuel with
  | zero => simp [succeeds] at h
  | succ fuel =>
    have hbrace : (x :: literal ++ more).head? ≠ some '\x7b' := fun hhead =>
      absurd hliteral.1 (Option.some_inj.mp hhead ▸ by decide)
    have hcontains := contains_of_standsForNothing hbrace h
    have hmem : x :: literal ++ more ∈ emptyPatterns.map String.toList :=
      List.mem_map.mpr ⟨_, List.contains_iff_mem.mp hcontains, String.toList_ofList⟩
    have hforms : ∀ l ∈ emptyPatterns.map String.toList,
        l = [] ∨ l.head? = some '*' ∨ l.take 2 = ['/', '*'] := by
      decide
    rcases hforms _ hmem with hnil | hstar | hslash
    · exact absurd hnil (List.cons_ne_nil x _)
    · exact absurd hliteral.1 (Option.some_inj.mp hstar ▸ by decide)
    · rcases literal with _ | ⟨y, literal⟩
      · exact hlast (congrArg some (List.cons.inj hslash).1)
      · have hy : y = '*' := (List.cons.inj (List.cons.inj hslash).2).1
        exact absurd (hliteral.2 y List.mem_cons_self) (hy ▸ by decide)

/-- **A pattern that begins with literals** matches only what begins with them. It goes on with a
slash, if at all, and so does the name. -/
theorem exists_of_succeeds {start afterBackslash : Bool} (hliteral : ∀ c ∈ literal, IsLiteral c)
    (hlast : literal.getLast? ≠ some '/') (hmore : ∀ c ∈ more.head?, c = '/')
    (h : succeeds fuel
      { start, afterBackslash, star := none, components := none, pattern := literal ++ more, name } =
        some true) :
    ∃ rest, name = literal ++ rest ∧ (∀ c ∈ rest.head?, c = '/') ∧
      (rest = [] → emptyPatterns.contains (String.ofList more)) := by
  induction literal generalizing fuel start afterBackslash name with
  | nil =>
    cases name with
    | nil =>
      refine ⟨[], rfl, by simp, fun _ => ?_⟩
      have hbrace : more.head? ≠ some '\x7b' := fun hhead => absurd (hmore _ hhead) (by decide)
      cases fuel with
      | zero => simp [succeeds] at h
      | succ fuel => exact contains_of_standsForNothing hbrace h
    | cons c name =>
      refine ⟨c :: name, rfl, fun d hd => ?_, fun hnil => absurd hnil (List.cons_ne_nil c name)⟩
      obtain rfl := Option.some_inj.mp hd
      by_contra hc
      rcases more with _ | ⟨x, more⟩
      · exact succeeds_of_differs rfl rfl rfl (by simp) rfl h
      · obtain rfl : x = '/' := hmore x rfl
        have hliteral : IsLiteral '/' := by decide
        exact succeeds_of_differs rfl rfl rfl (by simp)
          ((step_literal hliteral rfl).trans (if_neg (Ne.symm hc))) h
  | cons x literal ih =>
    rw [List.forall_mem_cons] at hliteral
    have hstart : ¬ (start && x :: literal ++ more == ['*', '*']) = true := by
      have hx : x ≠ '*' := fun heq => absurd hliteral.1 (heq ▸ by decide)
      simp [hx]
    cases name with
    | nil => exact absurd h (not_succeeds_nil hliteral hlast)
    | cons c name =>
      by_cases hc : x = c
      · subst hc
        have hrest : literal.getLast? ≠ some '/' := fun heq => hlast <| by
          rw [List.getLast?_cons, heq]
          rfl
        cases fuel with
        | zero => simp [succeeds] at h
        | succ fuel =>
          rw [succeeds] at h
          dsimp only at h
          rw [if_neg hstart, step_literal hliteral.1 rfl, if_pos rfl] at h
          obtain ⟨rest, rfl, hhead, hnothing⟩ := ih hliteral.2 hrest (firstDecided_singleton.mp h)
          exact ⟨rest, rfl, hhead, hnothing⟩
      · exact absurd h (succeeds_of_differs rfl rfl rfl hstart
          ((step_literal hliteral.1 rfl).trans (if_neg hc)))

end Attempt

/-- **What matches a pattern that begins with plain text** begins with that text. -/
theorem exists_of_isMatch {front : String} {more name : String} (hfront : IsPlain front)
    (hlast : front.toList.getLast? ≠ some '/') (hmore : ∀ c ∈ more.toList.head?, c = '/')
    (h : isMatch (front ++ more) name = true) :
    ∃ rest, name.toList = front.toList ++ rest ∧ (∀ c ∈ rest.head?, c = '/') ∧
      (rest = [] → emptyPatterns.contains (String.ofList (Text.readable more.toList))) := by
  have hreplacement : Text.replacement ∉ Text.readable front.toList := fun hmem =>
    (hfront _ hmem).2 rfl
  obtain ⟨cs, hcs⟩ := Text.isSpelled_of_readable hreplacement
  have hfrontReadable : Text.readable front.toList = cs := by rw [hcs, Text.readable_spell]
  have hpattern : Text.readable (front ++ more).toList = cs ++ Text.readable more.toList := by
    rw [String.toList_append, hcs, Text.readable, Text.symbols_spell_append, List.map_append,
      List.map_map, Text.readable]
    exact congrArg (· ++ _) (List.map_id cs)
  have hlastChar : cs.getLast? ≠ some '/' := fun heq => hlast <| by
    obtain ⟨cs, rfl⟩ := List.getLast?_eq_some_iff.mp heq
    rw [hcs, Text.spell_append]
    exact List.getLast?_concat
  have hmoreChar : ∀ c ∈ (Text.readable more.toList).head?, c = '/' := by
    rcases hlist : more.toList with _ | ⟨d, more⟩
    · simp [Text.readable, Text.symbols, Text.symbolsFrom]
    · obtain rfl := hmore d (hlist ▸ rfl)
      rw [Text.readable_cons_of_lt (by decide)]
      simp
  have hliteral : ∀ c ∈ cs, IsLiteral c := fun c hc => (hfront c (hfrontReadable ▸ hc)).1
  rw [hfrontReadable] at hreplacement
  rw [isMatch, hpattern] at h
  obtain ⟨rest, hname, hhead, hnothing⟩ :=
    Attempt.exists_of_succeeds hliteral hlastChar hmoreChar (beq_iff_eq.mp h)
  obtain ⟨t, ht, rfl⟩ := Text.exists_of_readable_eq_append hreplacement hname
  refine ⟨t, by rw [ht, hcs], fun c hc => ?_, fun hnil => hnothing (by rw [hnil]; rfl)⟩
  rcases hlist : Text.readable t with _ | ⟨d, rest⟩
  · rw [Text.readable_eq_nil_iff.mp hlist] at hc
    exact absurd hc (Option.not_mem_none c)
  · obtain rfl : d = '/' := hhead d (hlist ▸ rfl)
    have hslash : Text.readable t = ['/'] ++ rest := hlist
    obtain ⟨t', rfl, -⟩ := Text.exists_of_readable_eq_append (by decide) hslash
    exact (Option.some_inj.mp hc).symm

end Glob

/-! ### Paths below a path -/

namespace Path

variable {base cs ds stack top : List String} {c p : String}

/-- What has gone up stays there. -/
theorem up_mem_push (h : ".." ∈ stack) : ".." ∈ push false stack c := by
  rcases component_cases c with hstay | rfl | hname
  · rwa [push_stay hstay]
  · rcases stack with _ | ⟨x, stack⟩
    · exact List.mem_singleton_self _
    · by_cases hx : x = ".."
      · subst hx
        exact List.mem_cons_self
      · have hpush : push false (x :: stack) ".." = stack := by
          simp [push, hx]
        rw [hpush]
        exact (List.mem_cons.mp h).resolve_left (Ne.symm hx)
  · rw [push_name hname]
    exact List.mem_cons_of_mem _ h

theorem up_mem_foldl_push (h : ".." ∈ stack) : ".." ∈ cs.foldl (push false) stack := by
  induction cs generalizing stack with
  | nil => exact h
  | cons c cs ih => exact ih (up_mem_push h)

/-- **What does not go up** leaves alone what is below. -/
theorem foldl_push_append (h : ".." ∉ cs.foldl (push false) top) :
    cs.foldl (push false) (top ++ stack) = cs.foldl (push false) top ++ stack := by
  induction cs generalizing top with
  | nil => rfl
  | cons c cs ih =>
    have hpush : push false (top ++ stack) c = push false top c ++ stack := by
      have hfirst : ".." ∉ push false top c := mt up_mem_foldl_push h
      rcases component_cases c with hstay | rfl | hname
      · rw [push_stay hstay, push_stay hstay]
      · rcases top with _ | ⟨x, top⟩
        · exact absurd (List.mem_singleton_self "..") hfirst
        · by_cases hx : x = ".."
          · subst hx
            exact absurd List.mem_cons_self hfirst
          · simp [push, hx]
      · rw [push_name hname, push_name hname, List.cons_append]
    rw [List.foldl_cons, hpush, ih h, List.foldl_cons]

/-- The components of a path that is seen from the directory it begins in. -/
def steps (p : String) : List String := cleanComponents ("./" ++ p)

theorem components_dot (p : String) : components ("./" ++ p) = "." :: components p := by
  have htext : ("./" ++ p).toList = ".".toList ++ '/' :: p.toList := by
    rw [String.toList_append]
    rfl
  rw [components_append htext, components_of_notMem (by decide)]
  rfl

theorem isAbsolute_dot (p : String) : isAbsolute ("./" ++ p) = false := by
  rw [isAbsolute, String.toList_append]
  rfl

theorem steps_eq (p : String) : steps p = ((components p).foldl (push false) []).reverse := by
  rw [steps, cleanComponents, isAbsolute_dot, components_dot, List.foldl_cons,
    push_stay (.inr rfl)]

theorem tidy_steps (p : String) : Tidy false (steps p) :=
  isAbsolute_dot p ▸ tidy_cleanComponents ("./" ++ p)

/-- **Joining what does not go up** puts its components behind those of the directory. -/
theorem join_steps (hbase : ∀ c ∈ base, IsName c ∧ '/' ∉ c.toList) (hne : base ≠ [])
    (hp : ".." ∉ steps p) :
    join [ofComponents false base, p] = ofComponents false (base ++ steps p) := by
  have htidy : Tidy false base := .of_names hbase
  have htext : ofComponents false base ≠ "" :=
    mt String.toList_eq_nil_iff.mpr (toList_ofComponents_ne_nil htidy)
  by_cases hempty : p = ""
  · subst hempty
    have hsteps : steps "" = [] := by decide
    have hjoin : join [ofComponents false base, ""] = clean (ofComponents false base) := by
      rw [join]
      simp [htext, joinWith_singleton]
    rw [hjoin, clean_ofComponents htidy, hsteps, List.append_nil]
  · rw [steps_eq, List.mem_reverse] at hp
    have hfold : (components p).foldl (push false) (base.reverse ++ []) =
        (components p).foldl (push false) [] ++ base.reverse := by
      rw [List.append_nil]
      exact foldl_push_append hp
    rw [join_eq_clean htext (by simpa using hempty), clean, isAbsolute_joinWith htext,
      isAbsolute_ofComponents htidy.ne_empty, cleanComponents, isAbsolute_joinWith htext,
      isAbsolute_ofComponents htidy.ne_empty, components_joinWith (by simp), List.flatMap_cons,
      List.flatMap_cons, List.flatMap_nil, List.append_nil,
      components_ofComponents htidy.ne_empty hne, if_neg Bool.false_ne_true, List.nil_append,
      List.foldl_append, foldl_push_names fun c hc => (hbase c hc).1, hfold, List.reverse_append,
      List.reverse_reverse, steps_eq]

theorem toList_joinWith_append (hcs : cs ≠ []) (hds : ds ≠ []) :
    (Text.joinWith "/" (cs ++ ds)).toList =
      (Text.joinWith "/" cs).toList ++ '/' :: (Text.joinWith "/" ds).toList := by
  induction cs with
  | nil => exact absurd rfl hcs
  | cons c cs ih =>
    by_cases hcs' : cs = []
    · subst hcs'
      rw [joinWith_singleton]
      exact toList_joinWith_cons c hds
    · rw [List.cons_append, toList_joinWith_cons c (by simp [hcs']), ih hcs',
        toList_joinWith_cons c hcs', List.append_assoc, List.cons_append]

theorem components_joinWith_of_notMem (hcs : ∀ c ∈ cs, '/' ∉ c.toList) (hne : cs ≠ []) :
    components (Text.joinWith "/" cs) = cs := by
  rw [components_joinWith hne]
  refine (List.flatMap_congr fun c hc => components_of_notMem (hcs c hc)).trans ?_
  exact List.flatMap_singleton' cs

/-- A path of names does not end in a slash. -/
theorem getLast?_joinWith (hcs : ∀ c ∈ cs, c ≠ "" ∧ '/' ∉ c.toList) :
    (Text.joinWith "/" cs).toList.getLast? ≠ some '/' := by
  rcases List.eq_nil_or_concat' cs with rfl | ⟨cs, c, rfl⟩
  · decide
  obtain ⟨hc, hslash⟩ := hcs c (List.mem_append_right _ List.mem_cons_self)
  have hlast : ∃ a, (Text.joinWith "/" (cs ++ [c])).toList = a ++ c.toList := by
    by_cases hnil : cs = []
    · subst hnil
      exact ⟨[], by rw [List.nil_append, joinWith_singleton, List.nil_append]⟩
    · exact ⟨_, by rw [toList_joinWith_concat hnil, List.append_cons]⟩
  obtain ⟨a, ha⟩ := hlast
  rw [ha, List.getLast?_append_of_ne_nil _ (mt String.toList_eq_nil_iff.mp hc)]
  exact fun h => hslash (List.mem_of_getLast? h)

end Path

/-! ### Patterns -/

namespace Scan

open WorstCase.Path (IsName)

namespace IgnorePattern

variable {line : String} {base place : List String} {p : IgnorePattern}

/-- The glob of a line, as seen from the directory of the ignore file. -/
def relative (line : String) : String :=
  let text := Text.dropSuffix ['/'] (Text.dropPrefix ['!'] line.toList)
  (if text.contains '/' then "" else "**/") ++ String.ofList (Text.dropPrefix ['/'] text)

theorem glob_of_parse {directory : String} (h : parse line directory = .ok p) :
    p.glob = if directory = "" then relative line else Path.join [directory, relative line] := by
  have hvalid : ∀ {glob : String} {negated directoriesOnly : Bool},
      (if Glob.isValid glob then .ok { glob, negated, directoriesOnly }
        else .error (.pattern line) : Except IgnoreError IgnorePattern) = .ok p → p.glob = glob := by
    intro glob negated directoriesOnly hp
    split at hp
    · rw [← Except.ok.inj hp]
    · exact nomatch hp
  exact hvalid h

/-- What stands behind the path of the directory in a glob. -/
def ending (line : String) : String :=
  if Path.steps (relative line) = [] then ""
  else "/" ++ Text.joinWith "/" (Path.steps (relative line))

/-- **The glob of a pattern that does not go up** begins with the path of the directory. -/
theorem glob_eq (hbase : ∀ c ∈ base, IsName c ∧ '/' ∉ c.toList) (hne : base ≠ [])
    (hline : ".." ∉ Path.steps (relative line))
    (h : parse line (Text.joinWith "/" base) = .ok p) :
    p.glob = Text.joinWith "/" base ++ ending line := by
  have hnames : ∀ {cs : List String}, cs ≠ [] → Path.ofComponents false cs = Text.joinWith "/" cs :=
    fun hcs => by simp [Path.ofComponents, hcs]
  have htext : Text.joinWith "/" base ≠ "" := by
    rw [← hnames hne]
    exact mt String.toList_eq_nil_iff.mpr (Path.toList_ofComponents_ne_nil (.of_names hbase))
  rw [glob_of_parse h, if_neg htext, ← hnames hne, Path.join_steps hbase hne hline, ending,
    hnames (by simp [hne])]
  split_ifs with hsteps
  · rw [hsteps, List.append_nil, String.append_empty, hnames hne]
  · rw [← String.toList_inj, Path.toList_joinWith_append hne hsteps, hnames hne]
    simp

/-- A pattern that matches its directory has nothing but `**` to say. -/
theorem steps_of_ending
    (h : Glob.emptyPatterns.contains (String.ofList (Text.readable (ending line).toList))) :
    Path.steps (relative line) = [] ∨ Path.steps (relative line) = ["**"] := by
  by_cases hsteps : Path.steps (relative line) = []
  · exact .inl hsteps
  have htidy := Path.tidy_steps (relative line)
  set rest := (Text.joinWith "/" (Path.steps (relative line))).toList with hrest
  have hending : (ending line).toList = '/' :: rest := by
    rw [ending, if_neg hsteps, String.toList_append]
    rfl
  -- the components of what is behind the slash tell the steps
  have hcomponents : Path.components (String.ofList rest) = Path.steps (relative line) := by
    have htext : String.ofList rest = Path.ofComponents false (Path.steps (relative line)) := by
      simp [hrest, Path.ofComponents, hsteps]
    rw [htext, Path.components_ofComponents htidy.ne_empty hsteps, if_neg Bool.false_ne_true,
      List.nil_append]
  have hread : Text.readable (ending line).toList = '/' :: Text.readable rest := by
    rw [hending]
    exact Text.readable_cons_of_lt (by decide) rest
  rw [hread] at h
  have hmem : '/' :: Text.readable rest ∈ Glob.emptyPatterns.map String.toList :=
    List.mem_map.mpr ⟨_, List.contains_iff_mem.mp h, String.toList_ofList⟩
  have hforms : ∀ l ∈ Glob.emptyPatterns.map String.toList,
      l.head? = some '/' → l = '/' :: ['*', '*'] ∨ l = '/' :: ['*', '*', '/'] := by
    decide
  have hspelled : ∀ {cs : List Char}, (∀ c ∈ cs, c.toNat < 128) →
      '/' :: Text.readable rest = '/' :: cs → rest = cs := by
    intro cs hcs heq
    have hreplacement : Text.replacement ∉ cs := fun hc => absurd (hcs _ hc) (by decide)
    obtain ⟨t, ht, hnil⟩ := Text.exists_of_readable_eq_append hreplacement
      ((List.cons.inj heq).2.trans (List.append_nil cs).symm)
    rw [ht, Text.readable_eq_nil_iff.mp hnil, List.append_nil, Text.spell_of_lt hcs]
  rcases hforms _ hmem rfl with hstars | hslash
  · rw [hspelled (by decide) hstars] at hcomponents
    exact .inr (hcomponents.symm.trans (by decide))
  · rw [hspelled (by decide) hslash] at hcomponents
    have hempty : "" ∈ Path.steps (relative line) := hcomponents ▸ by decide
    exact absurd rfl (htidy.ne_empty _ hempty).1

/-- What stands behind the path of the directory begins with a slash. -/
theorem head?_ending : ∀ c ∈ (ending line).toList.head?, c = '/' := by
  rw [ending]
  split_ifs
  · exact fun c hc => absurd hc (Option.not_mem_none c)
  · rw [String.toList_append]
    exact fun c hc => (Option.some_inj.mp hc).symm

theorem getLast?_joinWith_names {cs : List String} (h : ∀ c ∈ cs, IsName c ∧ '/' ∉ c.toList) :
    (Text.joinWith "/" cs).toList.getLast? ≠ some '/' :=
  Path.getLast?_joinWith fun c hc => ⟨(h c hc).1.1, (h c hc).2⟩

/-- A pattern matches a directory by its path, whether or not a slash follows it. -/
theorem glob_isMatch_of_isMatch (hplace : ∀ c ∈ place, IsName c ∧ '/' ∉ c.toList) {path : String}
    (hpath : path = Text.joinWith "/" place ∨ path = Text.joinWith "/" place ++ "/")
    (h : p.isMatch path = true) : Glob.isMatch p.glob (Text.joinWith "/" place) = true := by
  have hsame : Text.dropSuffix ['/'] path.toList = (Text.joinWith "/" place).toList := by
    rcases hpath with rfl | rfl
    · refine Text.dropSuffix_of_not_suffix fun hsuffix => getLast?_joinWith_names hplace ?_
      obtain ⟨s, hs⟩ := hsuffix
      rw [← hs, List.getLast?_concat]
    · rw [String.toList_append]
      exact Text.dropSuffix_append ['/'] _
  rw [isMatch, hsame, String.ofList_toList, Bool.and_eq_true] at h
  exact h.2

/-- **A pattern matches nothing outside of its directory** if the path of the directory is plain
text and the pattern does not go up. It matches the directory itself only where nothing is left of
it, or only `**`. -/
theorem prefix_of_isMatch (hbase : ∀ c ∈ base, IsName c ∧ '/' ∉ c.toList)
    (hplain : Glob.IsPlain (Text.joinWith "/" base))
    (hline : ".." ∉ Path.steps (relative line))
    (hparse : parse line (Text.joinWith "/" base) = .ok p)
    (hplace : ∀ c ∈ place, IsName c ∧ '/' ∉ c.toList) (hne : place ≠ []) {path : String}
    (hpath : path = Text.joinWith "/" place ∨ path = Text.joinWith "/" place ++ "/")
    (hmatch : p.isMatch path = true) :
    base <+: place ∧ (place = base →
      Path.steps (relative line) = [] ∨ Path.steps (relative line) = ["**"]) := by
  by_cases hroot : base = []
  · subst hroot
    exact ⟨List.nil_prefix, fun h => absurd h hne⟩
  have hglob := glob_isMatch_of_isMatch hplace hpath hmatch
  rw [glob_eq hbase hroot hline hparse] at hglob
  obtain ⟨rest, hname, hhead, hnothing⟩ :=
    Glob.exists_of_isMatch hplain (getLast?_joinWith_names hbase) head?_ending hglob
  have hcomponents : ∀ {cs : List String}, (∀ c ∈ cs, IsName c ∧ '/' ∉ c.toList) → cs ≠ [] →
      Path.components (Text.joinWith "/" cs) = cs := fun hcs hnil =>
    Path.components_joinWith_of_notMem (fun c hc => (hcs c hc).2) hnil
  rcases rest with _ | ⟨c, rest⟩
  · rw [List.append_nil, String.toList_inj] at hname
    have hsame : place = base := by
      rw [← hcomponents hplace hne, hname, hcomponents hbase hroot]
    exact ⟨hsame ▸ List.prefix_rfl, fun _ => steps_of_ending (hnothing rfl)⟩
  · obtain rfl := hhead c rfl
    have hparts : Path.components (Text.joinWith "/" place) =
        Path.components (Text.joinWith "/" base) ++ Path.components (String.ofList rest) :=
      Path.components_append (by rw [hname, String.toList_ofList])
    rw [hcomponents hplace hne, hcomponents hbase hroot] at hparts
    refine ⟨⟨_, hparts.symm⟩, fun hsame => ?_⟩
    rw [hsame] at hname
    exact absurd (congrArg List.length hname) (by simp)

end IgnorePattern

/-! ### Ignore files -/

/-- Whether a trimmed line is a pattern. -/
def isPatternLine (line : List Char) : Bool := !(line.isEmpty || line.head? = some '#')

/-- The lines of an ignore file that are patterns, trimmed. -/
def patternLines (contents : String) : List String :=
  (((Text.Lines.read contents.toList).lines.map Text.trim).filter isPatternLine).map String.ofList

theorem exists_line_of_ignoreLines {directory : String} {lines : List (List Char)}
    {patterns : List IgnorePattern} (h : ignoreLines directory lines = .ok patterns)
    {p : IgnorePattern} (hp : p ∈ patterns) :
    ∃ line ∈ (lines.map Text.trim).filter isPatternLine,
      IgnorePattern.parse (String.ofList line) directory = .ok p := by
  induction lines generalizing patterns with
  | nil =>
    obtain rfl := Except.ok.inj h
    exact absurd hp List.not_mem_nil
  | cons line lines ih =>
    rw [ignoreLines] at h
    split at h
    · obtain ⟨line', hline', hparse⟩ := ih h hp
      obtain ⟨hmem, hpattern⟩ := List.mem_filter.mp hline'
      exact ⟨line', List.mem_filter.mpr ⟨List.mem_cons_of_mem _ hmem, hpattern⟩, hparse⟩
    · rename_i hpattern
      obtain ⟨q, hfirst, h⟩ := bind_eq_ok_iff.mp h
      obtain ⟨others, hrest, h⟩ := bind_eq_ok_iff.mp h
      obtain rfl := pure_eq_ok_iff.mp h
      rcases List.mem_cons.mp hp with rfl | hp
      · refine ⟨_, List.mem_filter.mpr ⟨List.mem_cons_self, ?_⟩, hfirst⟩
        simpa [isPatternLine] using hpattern
      · obtain ⟨line', hline', hparse⟩ := ih hrest hp
        obtain ⟨hmem, hpattern⟩ := List.mem_filter.mp hline'
        exact ⟨line', List.mem_filter.mpr ⟨List.mem_cons_of_mem _ hmem, hpattern⟩, hparse⟩

/-- **Patterns come from lines.** -/
theorem exists_line_of_ignorePatterns {contents directory : String} {patterns : List IgnorePattern}
    (h : ignorePatterns contents directory = .ok patterns) {p : IgnorePattern} (hp : p ∈ patterns) :
    ∃ line ∈ patternLines contents, IgnorePattern.parse line directory = .ok p := by
  obtain ⟨others, hlines, h⟩ := bind_eq_ok_iff.mp h
  have hsame : others = patterns := by
    split at h
    · exact nomatch h
    · exact pure_eq_ok_iff.mp h
  obtain ⟨line, hline, hparse⟩ := exists_line_of_ignoreLines hlines (hsame ▸ hp)
  exact ⟨_, List.mem_map_of_mem hline, hparse⟩

/-- An ignore file that stays in its directory: the path of the directory is plain text, and no
pattern goes up. -/
structure StaysIn (base : List String) (contents : String) : Prop where
  isPlain : Glob.IsPlain (Text.joinWith "/" base)
  up_notMem : ∀ line ∈ patternLines contents, ".." ∉ Path.steps (IgnorePattern.relative line)

end Scan

end WorstCase
