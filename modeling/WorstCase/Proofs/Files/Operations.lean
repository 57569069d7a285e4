import WorstCase.Proofs.Files.Growth

/-!
# What the operations do

Reading a path finds the file that it leads to (`Files.read_eq_ok_iff`). Writing to a path puts the
contents where it leads, and the path leads there from then on (`Files.write_eq_ok`), so that they
are read back (`Files.read_of_write`). Making directories adds nothing but directories
(`Files.makeDirectories_grows`).
-/

namespace WorstCase.Files

open WorstCase.Path (IsName)

variable {fs fs' : Files} {made written : Set (List String)} {here place todo : List String}
  {path : String} {entry : Option FileEntry} {contents : ByteArray} {purpose : Purpose} {n : Nat}

/-! ### Where walks end -/

/-- What is found where a walk arrives is what is at that place, unless that is a directory. -/
theorem Arrives.entry?_eq {l : Location} (h : Arrives fs purpose n here todo l)
    (hentry : l.entry ≠ some .directory) : l.place ≠ [] ∧ fs.entry? l.place = l.entry := by
  induction h with
  | nil => exact absurd rfl hentry
  | stay _ _ ih => exact ih hentry
  | up _ ih => exact ih hentry
  | nothing _ hfound _ => exact ⟨by simp, hfound⟩
  | file _ hfound _ => exact ⟨by simp, hfound⟩
  | down _ _ _ ih => exact ih hentry
  | stop _ hfound _ => exact ⟨by simp, hfound⟩
  | link _ _ _ _ ih => exact ih hentry

theorem entry?_of_walk (h : fs.walk purpose n here todo = .ok ⟨place, entry⟩)
    (hentry : entry ≠ some .directory) : place ≠ [] ∧ fs.entry? place = entry :=
  (arrives_of_walk h).entry?_eq hentry

/-- A walk to the file that is to be read or written follows all links. -/
theorem Arrives.ne_link {l : Location} (hpurpose : purpose = .look ∨ purpose = .create)
    (h : Arrives fs purpose n here todo l) (target : String) : l.entry ≠ some (.link target) := by
  induction h with
  | nil => simp
  | stay _ _ ih => exact ih
  | up _ ih => exact ih
  | nothing => simp
  | file => simp
  | down _ _ _ ih => exact ih
  | stop _ _ hstop => rcases hpurpose with rfl | rfl <;> simp at hstop
  | link _ _ _ _ ih => exact ih

theorem ne_link_of_walk (hpurpose : purpose = .look ∨ purpose = .create)
    (h : fs.walk purpose n here todo = .ok ⟨place, entry⟩) (target : String) :
    entry ≠ some (.link target) :=
  (arrives_of_walk h).ne_link hpurpose target

/-- A walk for writing goes the same way in a tree where the file has been put and all that is not a
file is still there. -/
theorem Arrives.of_put {l : Location} (h : Arrives fs .create n here todo l)
    (hentry : l.entry ≠ some .directory)
    (hfile : fs'.entry? l.place = some (.file contents))
    (hkept : ∀ q e, fs.entry? q = some e → (∀ c, e ≠ .file c) → fs'.entry? q = some e) :
    Arrives fs' .look n here todo ⟨l.place, some (.file contents)⟩ := by
  induction h with
  | nil => exact absurd rfl hentry
  | stay hc _ ih => exact .stay hc (ih hentry hfile)
  | up _ ih => exact .up (ih hentry hfile)
  | @nothing n here rest c hpass _ hrest =>
    refine .file hpass.look hfile (.inl ?_)
    by_contra hne
    exact hpass.no_slash ⟨rfl, hrest, by simpa using hne⟩
  | file hpass _ hrest =>
    exact .file hpass.look hfile (.inl (hrest.elim id fun hmake => absurd hmake.2 (by simp)))
  | down hpass hfound _ ih =>
    exact .down hpass.look (hkept _ _ hfound (by simp)) (ih hentry hfile)
  | stop _ _ hstop => simp at hstop
  | link hpass hfound _ _ ih =>
    exact .link hpass.look (hkept _ _ hfound (by simp)) (by simp) (ih hentry hfile)

/-- Once a file is put where a walk ends, the walk leads to it. -/
theorem walk_put (hentry : entry ≠ some .directory)
    (h : fs.walk .create n here todo = .ok ⟨place, entry⟩) (contents : ByteArray) :
    (fs.put place (.file contents)).walk .look n here todo =
      .ok ⟨place, some (.file contents)⟩ := by
  obtain ⟨hplace, hat⟩ := entry?_of_walk h hentry
  have hlink := ne_link_of_walk (.inr rfl) h
  refine ((arrives_of_walk h).of_put hentry ?_ fun q e hq hfile => ?_).walk_eq
  · rw [entry?_put hplace, if_pos rfl]
  · -- directories and links on the way are not where the file is put
    rw [entry?_put hplace, if_neg, hq]
    rintro rfl
    rw [hq] at hat
    cases e with
    | file c => exact hfile c rfl
    | directory => exact hentry hat.symm
    | link target => exact hlink target hat.symm

/-! ### Paths -/

/-- A text that can be a path: it says something, it holds no zero octet, and it is not too long. -/
def IsPath (path : String) : Prop :=
  path ≠ "" ∧ '\x00' ∉ path.toList ∧ path.length < maxPath

theorem locate_of_isPath (h : IsPath path) (fs : Files) (purpose : Purpose) (here : List String) :
    fs.locate purpose here path =
      fs.walk purpose maxLinks (if Path.isAbsolute path then [] else here)
        (Path.components path) := by
  rw [locate, if_neg h.1, if_neg (by simpa using h.2.1), if_neg (Nat.not_le.mpr h.2.2)]

/-- What is wrong with a text that cannot be a path does not depend on the tree. -/
theorem exists_locate_eq_error (h : ¬ IsPath path) :
    ∃ cause, ∀ (fs : Files) (purpose : Purpose) (here : List String),
      fs.locate purpose here path = .error cause := by
  by_cases hempty : path = ""
  · exact ⟨.missing, fun fs purpose here => by rw [locate, if_pos hempty]⟩
  by_cases hzero : '\x00' ∈ path.toList
  · exact ⟨.invalid, fun fs purpose here => by
      rw [locate, if_neg hempty, if_pos (by simpa using hzero)]⟩
  by_cases hlength : maxPath ≤ path.length
  · exact ⟨.nameTooLong, fun fs purpose here => by
      rw [locate, if_neg hempty, if_neg (by simpa using hzero), if_pos hlength]⟩
  · exact absurd ⟨hempty, hzero, Nat.not_le.mp hlength⟩ h

theorem isPath_of_locate {l : Location} (h : fs.locate purpose here path = .ok l) :
    IsPath path := by
  by_contra hnot
  obtain ⟨cause, hcause⟩ := exists_locate_eq_error hnot
  exact absurd (h.symm.trans (hcause fs purpose here)) (by simp)

theorem entry?_of_locate (h : fs.locate purpose here path = .ok ⟨place, entry⟩)
    (hentry : entry ≠ some .directory) : place ≠ [] ∧ fs.entry? place = entry := by
  rw [locate_of_isPath (isPath_of_locate h)] at h
  exact entry?_of_walk h hentry

theorem ne_link_of_locate (hpurpose : purpose = .look ∨ purpose = .create)
    (h : fs.locate purpose here path = .ok ⟨place, entry⟩) (target : String) :
    entry ≠ some (.link target) := by
  rw [locate_of_isPath (isPath_of_locate h)] at h
  exact ne_link_of_walk hpurpose h target

theorem locate_of_find? {e : FileEntry} (h : fs.find? here path = some e) :
    ∃ place, fs.locate .look here path = .ok ⟨place, some e⟩ := by
  rw [find?] at h
  rcases hlocate : fs.locate .look here path with _ | ⟨place, entry⟩ <;> rw [hlocate] at h
  · exact absurd h (by simp)
  · obtain rfl : entry = some e := h
    exact ⟨place, rfl⟩

/-! ### Reading -/

theorem read_eq_ok_iff :
    fs.read here path = .ok contents ↔
      ∃ place, fs.locate .look here path = .ok ⟨place, some (.file contents)⟩ := by
  rw [read]
  rcases fs.locate .look here path with cause | ⟨place, _ | _ | _ | _⟩ <;> simp

/-! ### Writing -/

/-- **What is written** is where the path leads from then on, and nothing else changes. -/
theorem write_eq_ok (h : fs.write here path contents = .ok fs') :
    ∃ place entry, fs.locate .create here path = .ok ⟨place, entry⟩ ∧
      entry ≠ some .directory ∧
      fs'.locate .look here path = .ok ⟨place, some (.file contents)⟩ ∧
      Grows ∅ {place} fs fs' := by
  rw [write] at h
  rcases hlocate : fs.locate .create here path with cause | ⟨place, entry⟩
  · simp [hlocate] at h
  rw [hlocate] at h
  by_cases hentry : entry = some .directory
  · simp [hentry] at h
  have hpath := isPath_of_locate hlocate
  have hwalk := hlocate
  rw [locate_of_isPath hpath] at hwalk
  obtain ⟨hplace, hat⟩ := entry?_of_walk hwalk hentry
  have hlink := ne_link_of_walk (.inr rfl) hwalk
  have hput : fs' = fs.put place (.file contents) := by
    rcases entry with _ | _ | _ | _
    · exact (Except.ok.inj h).symm
    · exact (Except.ok.inj h).symm
    · exact absurd rfl hentry
    · exact absurd rfl (hlink _)
  subst hput
  refine ⟨place, entry, rfl, hentry,
    (locate_of_isPath hpath ..).trans (walk_put hentry hwalk contents),
    (putAt_put hplace fs contents).grows fun e he => ?_⟩
  rw [he] at hat
  cases e with
  | file c => exact ⟨c, rfl⟩
  | directory => exact absurd hat.symm hentry
  | link target => exact absurd hat.symm (hlink target)

/-- What was written is read back. -/
theorem read_of_write (h : fs.write here path contents = .ok fs') :
    fs'.read here path = .ok contents := by
  obtain ⟨place, -, -, -, hplace, -⟩ := write_eq_ok h
  exact read_eq_ok_iff.mpr ⟨place, hplace⟩

/-! ### Making directories -/

theorem makeDirectory_grows (h : fs.makeDirectory here path = .ok fs') :
    Grows Set.univ ∅ fs fs' := by
  rw [makeDirectory] at h
  rcases hlocate : fs.locate .makeDirectory here path with cause | ⟨place, _ | _ | _ | _⟩ <;>
    rw [hlocate] at h
  · exact absurd h (by simp)
  · obtain ⟨hplace, hat⟩ := entry?_of_locate hlocate (by simp)
    obtain rfl := Except.ok.inj h
    refine Grows.mono (Set.subset_univ _) (Set.empty_subset _) ((madeAt_put hplace fs).grows ?_)
    exact fun q hq => .inl (hq ▸ hat)
  · exact absurd h (by simp)
  · obtain rfl := Except.ok.inj h
    exact .refl _ _ _
  · exact absurd h (by simp)

/-- Makes the directories that a directory is in. -/
def makeParents (fs : Files) (here : List String) (fuel : Nat) (path : String) :
    Files × Except FileError Unit :=
  match Path.parentText? path with
  | some parent => fs.makeDirectories here fuel parent
  | none => (fs, .ok ())

/-- Makes a directory whose parents are there; the tree stays as it is if that fails. -/
def makeLast (fs : Files) (here : List String) (path : String) : Files × Except FileError Unit :=
  match fs.makeDirectory here path with
  | .ok fs => (fs, .ok ())
  | .error e => (fs, .error e)

theorem makeLast_grows (fs : Files) (here : List String) (path : String) :
    Grows Set.univ ∅ fs (fs.makeLast here path).1 := by
  rw [makeLast]
  split
  · rename_i hmake
    exact makeDirectory_grows hmake
  · exact .refl _ _ _

theorem makeDirectories_succ (fs : Files) (here : List String) (fuel : Nat) (path : String) :
    fs.makeDirectories here (fuel + 1) path =
      match fs.find? here path with
      | some .directory => (fs, .ok ())
      | some _ => (fs, .error ⟨.makeDirectory, path, .notDirectory⟩)
      | none =>
        match fs.makeParents here fuel path with
        | (fs, .error e) => (fs, .error e)
        | (fs, .ok ()) => fs.makeLast here path := by
  have hparents : makeParents fs here fuel path = (match Path.parentText? path with
    | some parent => fs.makeDirectories here fuel parent
    | none => (fs, .ok ())) := rfl
  rw [makeDirectories, hparents]
  rcases fs.find? here path with _ | _ | _ | _
  · rcases Path.parentText? path with _ | parent
    · rfl
    · dsimp only
      rcases fs.makeDirectories here fuel parent with ⟨fs', _ | _⟩ <;> rfl
  all_goals rfl

/-- **Making directories** leaves files alone. -/
theorem makeDirectories_grows (fs : Files) (here : List String) (fuel : Nat) (path : String) :
    Grows Set.univ ∅ fs (fs.makeDirectories here fuel path).1 := by
  induction fuel generalizing path with
  | zero => exact .refl _ _ _
  | succ fuel ih =>
    have hparents : Grows Set.univ ∅ fs (fs.makeParents here fuel path).1 := by
      rw [makeParents]
      split
      · exact ih _
      · exact .refl _ _ _
    rw [makeDirectories_succ]
    rcases fs.find? here path with _ | _ | _ | _
    · rcases hfs' : fs.makeParents here fuel path with ⟨fs', _ | _⟩
      · rw [hfs'] at hparents
        exact hparents
      · rw [hfs'] at hparents
        exact hparents.trans (makeLast_grows fs' here path)
    all_goals exact .refl _ _ _

theorem makeParents_grows (fs : Files) (here : List String) (fuel : Nat) (path : String) :
    Grows Set.univ ∅ fs (fs.makeParents here fuel path).1 := by
  rw [makeParents]
  split
  · exact makeDirectories_grows _ _ _ _
  · exact .refl _ _ _

end WorstCase.Files
