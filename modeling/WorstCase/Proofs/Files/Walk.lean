import WorstCase.Files.Tree
import WorstCase.Proofs.Files.Path

/-!
# Ways through a tree

A walk follows the components of a path one by one, and from a link on it follows the components of
the target first. What it does with a component is one equation (`Files.walk_name`), and an
induction over all walks has one case for each thing that can be met (`Files.walk_induction`). A
walk that does not fail **arrives** somewhere, step by step (`Files.Arrives`).

The part of a walk that leads to a directory is a **way** (`Files.Way`): it tells how many links may
still be followed, and whatever comes behind it is walked from that directory on
(`Files.Way.walk_append`). So a walk that ends in a directory can be cut there
(`Files.Way.of_walk`).
-/

namespace WorstCase

namespace Files

open WorstCase.Path (IsName component_cases)

variable {fs : Files} {purpose : Purpose} {n n' : Nat} {here d place : List String} {c : String}
  {rest xs ys todo : List String}

/-! ### One component after another -/

/-- What follows a link: the walk with one link less, unless there are none left. -/
def followLink (fs : Files) (purpose : Purpose) (n : Nat) (here todo : List String) :
    Except FileCause Location :=
  match n with
  | 0 => .error .tooManyLinks
  | n + 1 => fs.walk purpose n here todo

/-- How a walk goes on from a place with what is there. -/
def meet (fs : Files) (purpose : Purpose) (n : Nat) (here : List String) (c : String)
    (rest : List String) : Option FileEntry → Except FileCause Location
  | none => if rest.all (· = "") then .ok ⟨here ++ [c], none⟩ else .error .missing
  | some .directory => fs.walk purpose n (here ++ [c]) rest
  | some (.file contents) =>
    if rest.isEmpty ∨ (rest.all (· = "") ∧ purpose = .makeDirectory) then
      .ok ⟨here ++ [c], some (.file contents)⟩
    else .error .notDirectory
  | some (.link target) =>
    if purpose.stopsAtLink rest then .ok ⟨here ++ [c], some (.link target)⟩
    else
      fs.followLink purpose n (if Path.isAbsolute target then [] else here)
        (Path.components target ++ rest)

/-- What is read or written is behind the link. -/
@[simp]
theorem stopsAtLink_look (rest : List String) : Purpose.look.stopsAtLink rest = false := by
  simp [Purpose.stopsAtLink]

@[simp]
theorem stopsAtLink_create (rest : List String) : Purpose.create.stopsAtLink rest = false := by
  simp [Purpose.stopsAtLink]

theorem walk_eq_walkWith (fs : Files) (purpose : Purpose) (n : Nat) :
    fs.walk purpose n = fs.walkWith purpose (fs.followLink purpose n) := by
  cases n <;> rfl

@[simp]
theorem walk_nil (fs : Files) (purpose : Purpose) (n : Nat) (here : List String) :
    fs.walk purpose n here [] = .ok ⟨here, some .directory⟩ := by
  rw [walk_eq_walkWith, walkWith]

theorem walk_stay (hc : c = "" ∨ c = ".") :
    fs.walk purpose n here (c :: rest) = fs.walk purpose n here rest := by
  rw [walk_eq_walkWith, walkWith, if_pos hc]

theorem walk_up : fs.walk purpose n here (".." :: rest) = fs.walk purpose n here.dropLast rest := by
  rw [walk_eq_walkWith, walkWith, if_neg (by decide), if_pos rfl]

theorem walk_name (hc : IsName c) :
    fs.walk purpose n here (c :: rest) =
      if purpose = .create ∧ rest.all (· = "") ∧ !rest.isEmpty then .error .isDirectory
      else if maxName < c.length then .error .nameTooLong
      else fs.meet purpose n here c rest (fs.entry? (here ++ [c])) := by
  obtain ⟨hempty, hdot, hup⟩ := hc
  rw [walk_eq_walkWith, walkWith, if_neg (by simp [hempty, hdot]), if_neg hup]
  dsimp only
  split
  · rfl
  split
  · rfl
  rw [← walk_eq_walkWith]
  rcases fs.entry? (here ++ [c]) with _ | _ | _ | _ <;> rfl

/-- **Induction over all walks**: over the number of links, and over the components before the next
link. -/
theorem walk_induction {P : Nat → List String → List String → Prop}
    (nil : ∀ n here, P n here [])
    (stay : ∀ n here c rest, c = "" ∨ c = "." → P n here rest → P n here (c :: rest))
    (up : ∀ n here rest, P n here.dropLast rest → P n here (".." :: rest))
    (name : ∀ n here c rest, IsName c → P n (here ++ [c]) rest →
      (∀ m, n = m + 1 → ∀ here' todo, P m here' todo) → P n here (c :: rest))
    (n : Nat) (here todo : List String) : P n here todo := by
  induction n generalizing here todo with
  | zero =>
    induction todo generalizing here with
    | nil => exact nil 0 here
    | cons c rest ih =>
      rcases component_cases c with hc | rfl | hc
      · exact stay 0 here c rest hc (ih here)
      · exact up 0 here rest (ih here.dropLast)
      · exact name 0 here c rest hc (ih _) fun m hm => absurd hm (Nat.succ_ne_zero m).symm
  | succ n ihn =>
    induction todo generalizing here with
    | nil => exact nil (n + 1) here
    | cons c rest ih =>
      rcases component_cases c with hc | rfl | hc
      · exact stay _ here c rest hc (ih here)
      · exact up _ here rest (ih here.dropLast)
      · exact name _ here c rest hc (ih _) fun m hm => by
          obtain rfl := Nat.succ.inj hm
          exact ihn

/-! ### Walks that arrive -/

/-- A component that a walk may go by: a name that is not too long, and without a slash behind it if
it is the name of a file to write. -/
structure Passable (purpose : Purpose) (c : String) (rest : List String) : Prop where
  isName : IsName c
  length_le : c.length ≤ maxName
  no_slash : ¬ (purpose = .create ∧ rest.all (· = "") ∧ !rest.isEmpty)

theorem Passable.look (h : Passable purpose c rest) : Passable .look c rest :=
  ⟨h.isName, h.length_le, by simp⟩

theorem Passable.walk_eq (h : Passable purpose c rest) :
    fs.walk purpose n here (c :: rest) =
      fs.meet purpose n here c rest (fs.entry? (here ++ [c])) := by
  rw [walk_name h.isName, if_neg h.no_slash, if_neg (Nat.not_lt.mpr h.length_le)]

/-- With `n` links left, the components lead from the directory `here` to a location. -/
inductive Arrives (fs : Files) (purpose : Purpose) :
    Nat → List String → List String → Location → Prop
  | nil {n : Nat} {here : List String} : Arrives fs purpose n here [] ⟨here, some .directory⟩
  | stay {n : Nat} {here rest : List String} {c : String} {l : Location} (hc : c = "" ∨ c = ".")
      (h : Arrives fs purpose n here rest l) : Arrives fs purpose n here (c :: rest) l
  | up {n : Nat} {here rest : List String} {l : Location}
      (h : Arrives fs purpose n here.dropLast rest l) : Arrives fs purpose n here (".." :: rest) l
  | nothing {n : Nat} {here rest : List String} {c : String} (hpass : Passable purpose c rest)
      (hentry : fs.entry? (here ++ [c]) = none) (hrest : rest.all (· = "") = true) :
      Arrives fs purpose n here (c :: rest) ⟨here ++ [c], none⟩
  | file {n : Nat} {here rest : List String} {c : String} {contents : ByteArray}
      (hpass : Passable purpose c rest)
      (hentry : fs.entry? (here ++ [c]) = some (.file contents))
      (hrest : rest.isEmpty = true ∨ rest.all (· = "") = true ∧ purpose = .makeDirectory) :
      Arrives fs purpose n here (c :: rest) ⟨here ++ [c], some (.file contents)⟩
  | down {n : Nat} {here rest : List String} {c : String} {l : Location}
      (hpass : Passable purpose c rest) (hentry : fs.entry? (here ++ [c]) = some .directory)
      (h : Arrives fs purpose n (here ++ [c]) rest l) : Arrives fs purpose n here (c :: rest) l
  | stop {n : Nat} {here rest : List String} {c target : String} (hpass : Passable purpose c rest)
      (hentry : fs.entry? (here ++ [c]) = some (.link target))
      (hstop : purpose.stopsAtLink rest = true) :
      Arrives fs purpose n here (c :: rest) ⟨here ++ [c], some (.link target)⟩
  | link {n : Nat} {here rest : List String} {c target : String} {l : Location}
      (hpass : Passable purpose c rest) (hentry : fs.entry? (here ++ [c]) = some (.link target))
      (hstop : purpose.stopsAtLink rest = false)
      (h : Arrives fs purpose n (if Path.isAbsolute target then [] else here)
        (Path.components target ++ rest) l) : Arrives fs purpose (n + 1) here (c :: rest) l

/-- **Walks that do not fail arrive.** -/
theorem arrives_of_walk {l : Location} (h : fs.walk purpose n here todo = .ok l) :
    Arrives fs purpose n here todo l := by
  induction n, here, todo using walk_induction with
  | nil n here =>
    rw [walk_nil] at h
    exact Except.ok.inj h ▸ .nil
  | stay n here c rest hc ih =>
    rw [walk_stay hc] at h
    exact .stay hc (ih h)
  | up n here rest ih =>
    rw [walk_up] at h
    exact .up (ih h)
  | name n here c rest hc ih ihlink =>
    rw [walk_name hc] at h
    split at h
    · exact absurd h (by simp)
    rename_i hslash
    split at h
    · exact absurd h (by simp)
    rename_i hlength
    have hpass : Passable purpose c rest := ⟨hc, Nat.not_lt.mp hlength, hslash⟩
    rcases hentry : fs.entry? (here ++ [c]) with _ | contents | _ | target <;>
      rw [hentry, meet] at h
    · split at h
      · rename_i hrest
        exact Except.ok.inj h ▸ .nothing hpass hentry hrest
      · exact absurd h (by simp)
    · split at h
      · rename_i hrest
        exact Except.ok.inj h ▸ .file hpass hentry hrest
      · exact absurd h (by simp)
    · exact .down hpass hentry (ih h)
    · split at h
      · rename_i hstop
        exact Except.ok.inj h ▸ .stop hpass hentry hstop
      rename_i hstop
      match n with
      | 0 => exact absurd h (by simp [followLink])
      | n + 1 => exact .link hpass hentry (by simpa using hstop) (ihlink n rfl _ _ h)

theorem Arrives.walk_eq {l : Location} (h : Arrives fs purpose n here todo l) :
    fs.walk purpose n here todo = .ok l := by
  induction h with
  | nil => exact walk_nil ..
  | stay hc _ ih => rw [walk_stay hc, ih]
  | up _ ih => rw [walk_up, ih]
  | nothing hpass hentry hrest => rw [hpass.walk_eq, hentry, meet, if_pos hrest]
  | file hpass hentry hrest => rw [hpass.walk_eq, hentry, meet, if_pos hrest]
  | down hpass hentry _ ih => rw [hpass.walk_eq, hentry, meet, ih]
  | stop hpass hentry hstop => rw [hpass.walk_eq, hentry, meet, if_pos hstop]
  | link hpass hentry hstop _ ih =>
    rw [hpass.walk_eq, hentry, meet, if_neg (by simp [hstop]), followLink, ih]

/-! ### Ways -/

/-- With `n` links left, the components `xs` lead from the directory `here` to the directory `d`,
where `n'` links are left. -/
inductive Way (fs : Files) : Nat → List String → List String → Nat → List String → Prop
  | nil {n : Nat} {here : List String} : Way fs n here [] n here
  | stay {n n' : Nat} {here xs d : List String} {c : String} (hc : c = "" ∨ c = ".")
      (h : Way fs n here xs n' d) : Way fs n here (c :: xs) n' d
  | up {n n' : Nat} {here xs d : List String} (h : Way fs n here.dropLast xs n' d) :
      Way fs n here (".." :: xs) n' d
  | down {n n' : Nat} {here xs d : List String} {c : String} (hc : IsName c)
      (hlength : c.length ≤ maxName) (hentry : fs.entry? (here ++ [c]) = some .directory)
      (h : Way fs n (here ++ [c]) xs n' d) : Way fs n here (c :: xs) n' d
  | link {n n' : Nat} {here xs d : List String} {c target : String} (hc : IsName c)
      (hlength : c.length ≤ maxName) (hentry : fs.entry? (here ++ [c]) = some (.link target))
      (h : Way fs n (if Path.isAbsolute target then [] else here) (Path.components target ++ xs)
        n' d) : Way fs (n + 1) here (c :: xs) n' d

namespace Way

theorem all_append_eq_false (h : ys.all (· = "") = false) (xs : List String) :
    (xs ++ ys).all (· = "") = false := by
  rw [List.all_append, h, Bool.and_false]

/-- Nothing stops in front of what is not empty. -/
theorem stopsAtLink_append (h : ys.all (· = "") = false) (purpose : Purpose) (xs : List String) :
    purpose.stopsAtLink (xs ++ ys) = false := by
  have hempty : (xs ++ ys).isEmpty = false := by
    rw [List.isEmpty_eq_false_iff]
    intro hnil
    rw [List.append_eq_nil_iff.mp hnil |>.2] at h
    exact absurd h (by decide)
  rw [Purpose.stopsAtLink, hempty, all_append_eq_false h]
  simp

/-- **What comes behind a way** is walked from its end on. -/
theorem walk_append (h : Way fs n here xs n' d) (hys : ys.all (· = "") = false)
    (purpose : Purpose) : fs.walk purpose n here (xs ++ ys) = fs.walk purpose n' d ys := by
  induction h with
  | nil => rfl
  | stay hc _ ih => rw [List.cons_append, walk_stay hc, ih]
  | up _ ih => rw [List.cons_append, walk_up, ih]
  | down hc hlength hentry _ ih =>
    rw [List.cons_append, walk_name hc, all_append_eq_false hys, if_neg (by simp),
      if_neg (Nat.not_lt.mpr hlength), hentry, meet, ih]
  | link hc hlength hentry _ ih =>
    rw [List.cons_append, walk_name hc, all_append_eq_false hys, if_neg (by simp),
      if_neg (Nat.not_lt.mpr hlength), hentry, meet, stopsAtLink_append hys, if_neg (by simp),
      followLink, ← List.append_assoc, ih]

theorem append {n'' : Nat} {d' : List String} (h : Way fs n here xs n' d)
    (h' : Way fs n' d ys n'' d') : Way fs n here (xs ++ ys) n'' d' := by
  induction h with
  | nil => exact h'
  | stay hc _ ih => exact .stay hc (ih h')
  | up _ ih => exact .up (ih h')
  | down hc hlength hentry _ ih => exact .down hc hlength hentry (ih h')
  | link hc hlength hentry _ ih =>
    exact .link hc hlength hentry (List.append_assoc .. ▸ ih h')

/-- A way can be cut behind any of its components. -/
theorem exists_of_append (h : Way fs n here (xs ++ ys) n' d) :
    ∃ m e, Way fs n here xs m e ∧ Way fs m e ys n' d := by
  generalize hzs : xs ++ ys = zs at h
  induction h generalizing xs with
  | nil =>
    obtain ⟨rfl, rfl⟩ := List.append_eq_nil_iff.mp hzs
    exact ⟨_, _, .nil, .nil⟩
  | stay hc h ih =>
    rcases List.append_eq_cons_iff.mp hzs with ⟨rfl, rfl⟩ | ⟨xs, rfl, rfl⟩
    · exact ⟨_, _, .nil, .stay hc h⟩
    · obtain ⟨m, e, h₁, h₂⟩ := ih rfl
      exact ⟨m, e, .stay hc h₁, h₂⟩
  | up h ih =>
    rcases List.append_eq_cons_iff.mp hzs with ⟨rfl, rfl⟩ | ⟨xs, rfl, rfl⟩
    · exact ⟨_, _, .nil, .up h⟩
    · obtain ⟨m, e, h₁, h₂⟩ := ih rfl
      exact ⟨m, e, .up h₁, h₂⟩
  | down hc hlength hentry h ih =>
    rcases List.append_eq_cons_iff.mp hzs with ⟨rfl, rfl⟩ | ⟨xs, rfl, rfl⟩
    · exact ⟨_, _, .nil, .down hc hlength hentry h⟩
    · obtain ⟨m, e, h₁, h₂⟩ := ih rfl
      exact ⟨m, e, .down hc hlength hentry h₁, h₂⟩
  | link hc hlength hentry h ih =>
    rcases List.append_eq_cons_iff.mp hzs with ⟨rfl, rfl⟩ | ⟨xs, rfl, rfl⟩
    · exact ⟨_, _, .nil, .link hc hlength hentry h⟩
    · obtain ⟨m, e, h₁, h₂⟩ := ih (List.append_assoc ..)
      exact ⟨m, e, .link hc hlength hentry h₁, h₂⟩

/-- At the end of a way is a directory. -/
theorem walk_look (h : Way fs n here xs n' d) :
    fs.walk .look n here xs = .ok ⟨d, some .directory⟩ := by
  induction h with
  | nil => exact walk_nil ..
  | stay hc _ ih => rw [walk_stay hc, ih]
  | up _ ih => rw [walk_up, ih]
  | down hc hlength hentry _ ih =>
    rw [walk_name hc, if_neg (by simp), if_neg (Nat.not_lt.mpr hlength), hentry, meet, ih]
  | link hc hlength hentry _ ih =>
    rw [walk_name hc, if_neg (by simp), if_neg (Nat.not_lt.mpr hlength), hentry, meet,
      stopsAtLink_look, if_neg (by simp), followLink, ih]

theorem of_arrives {l : Location} (h : Arrives fs purpose n here xs l)
    (hl : l.entry = some .directory) : ∃ n', Way fs n here xs n' l.place := by
  induction h with
  | @nil n here => exact ⟨n, .nil⟩
  | stay hc _ ih => exact (ih hl).imp fun _ hway => .stay hc hway
  | up _ ih => exact (ih hl).imp fun _ hway => .up hway
  | down hpass hentry _ ih =>
    exact (ih hl).imp fun _ hway => .down hpass.isName hpass.length_le hentry hway
  | link hpass hentry _ _ ih =>
    exact (ih hl).imp fun _ hway => .link hpass.isName hpass.length_le hentry hway
  | nothing => simp at hl
  | file => simp at hl
  | stop => simp at hl

/-- **A walk to a directory is a way.** -/
theorem of_walk (h : fs.walk purpose n here xs = .ok ⟨d, some .directory⟩) :
    ∃ n', Way fs n here xs n' d :=
  of_arrives (arrives_of_walk h) rfl

end Way

end Files

end WorstCase
