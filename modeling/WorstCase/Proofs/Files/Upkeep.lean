import WorstCase.Proofs.Files.Delivery
import WorstCase.Proofs.Files.Script

/-!
# Trees stay well-formed

A walk through a well-formed tree ends in one of its directories or right below one
(`Files.WellFormed.parent_of_arrives`), and that is where files are written and directories are
made. So a tree stays well-formed whatever a script does to it, and the working directory stays a
directory (`Script.run_sound`).
-/

namespace WorstCase

open WorstCase.Path (IsName)

namespace Files

variable {fs fs' : Files} {here place todo d : List String} {path c : String}
  {entry : Option FileEntry} {purpose : Purpose} {n : Nat}

/-- Above a directory there are directories. -/
theorem WellFormed.entry?_dropLast (hfs : fs.WellFormed) (h : fs.entry? place = some .directory) :
    fs.entry? place.dropLast = some .directory := by
  rcases List.eq_nil_or_concat' place with rfl | ⟨d, c, rfl⟩
  · exact h
  · rw [List.dropLast_concat]
    exact hfs.parents d c _ h

/-- **A walk ends right below a directory**, or at one. -/
theorem WellFormed.parent_of_arrives (hfs : fs.WellFormed) {l : Location}
    (h : Arrives fs purpose n here todo l) (hhere : fs.entry? here = some .directory)
    (htodo : ∀ c ∈ todo, '/' ∉ c.toList) (hentry : l.entry ≠ some .directory) :
    ∃ d c, l.place = d ++ [c] ∧ (IsName c ∧ '/' ∉ c.toList) ∧ fs.entry? d = some .directory := by
  induction h with
  | nil => exact absurd rfl hentry
  | stay _ _ ih => exact ih hhere (List.forall_mem_cons.mp htodo).2 hentry
  | up _ ih => exact ih (hfs.entry?_dropLast hhere) (List.forall_mem_cons.mp htodo).2 hentry
  | nothing hpass _ _ =>
    exact ⟨_, _, rfl, ⟨hpass.isName, (List.forall_mem_cons.mp htodo).1⟩, hhere⟩
  | file hpass _ _ =>
    exact ⟨_, _, rfl, ⟨hpass.isName, (List.forall_mem_cons.mp htodo).1⟩, hhere⟩
  | down _ hfound _ ih => exact ih hfound (List.forall_mem_cons.mp htodo).2 hentry
  | stop hpass _ _ =>
    exact ⟨_, _, rfl, ⟨hpass.isName, (List.forall_mem_cons.mp htodo).1⟩, hhere⟩
  | link _ _ _ _ ih =>
    refine ih ?_ (fun x hx => ?_) hentry
    · split
      · rfl
      · exact hhere
    · exact (List.mem_append.mp hx).elim Path.slash_notMem_of_mem_components
        ((List.forall_mem_cons.mp htodo).2 x)

theorem WellFormed.parent_of_locate (hfs : fs.WellFormed)
    (hhere : fs.entry? here = some .directory)
    (h : fs.locate purpose here path = .ok ⟨place, entry⟩) (hentry : entry ≠ some .directory) :
    ∃ d c, place = d ++ [c] ∧ (IsName c ∧ '/' ∉ c.toList) ∧ fs.entry? d = some .directory := by
  rw [locate_of_isPath (isPath_of_locate h)] at h
  refine hfs.parent_of_arrives (arrives_of_walk h) ?_
    (fun _ => Path.slash_notMem_of_mem_components) hentry
  split
  · rfl
  · exact hhere

/-- What is put right below a directory, where nothing else is kept, has a place in the tree. -/
theorem WellFormed.put (hfs : fs.WellFormed) (hd : fs.entry? d = some .directory)
    (hc : IsName c ∧ '/' ∉ c.toList) (hfree : fs.entry? (d ++ [c]) ≠ some .directory)
    (e : FileEntry) : (fs.put (d ++ [c]) e).WellFormed where
  nodup := by
    rw [Files.put, List.map_cons, List.nodup_cons]
    refine ⟨fun hmem => ?_, hfs.nodup.sublist (List.filter_sublist.map _)⟩
    obtain ⟨p, hp, heq⟩ := List.mem_map.mp hmem
    exact of_decide_eq_true (List.mem_filter.mp hp).2 heq
  names := by
    have hnames : ∀ x ∈ d, IsName x ∧ '/' ∉ x.toList := by
      intro x hx
      have hmem := mem_of_entry_eq_some (List.ne_nil_of_mem hx) hd
      exact (hfs.names d (List.mem_map_of_mem hmem)).2 x hx
    rw [Files.put, List.map_cons, List.forall_mem_cons]
    refine ⟨⟨by simp, List.forall_mem_append.mpr ⟨hnames, List.forall_mem_singleton.mpr hc⟩⟩,
      fun place hplace => hfs.names place ?_⟩
    exact (List.filter_sublist.map _).subset hplace
  parents := by
    intro place x e' he'
    have hplace : d ++ [c] ≠ [] := by simp
    rw [entry?_put hplace] at he' ⊢
    -- what is new has no place in it, and its own directory is another place
    have hparent : fs.entry? place = some .directory := by
      split at he'
      · rename_i heq
        rw [(List.append_inj' heq rfl).1]
        exact hd
      · exact hfs.parents place x e' he'
    rw [if_neg fun heq : place = d ++ [c] => hfree (heq ▸ hparent), hparent]

/-! ### Operations -/

theorem WellFormed.write (hfs : fs.WellFormed) (hhere : fs.entry? here = some .directory)
    {contents : ByteArray} (h : fs.write here path contents = .ok fs') : fs'.WellFormed := by
  rw [Files.write] at h
  rcases hlocate : fs.locate .create here path with cause | ⟨place, entry⟩ <;> rw [hlocate] at h
  · exact absurd h (by simp)
  have hentry : entry ≠ some .directory := by
    rintro rfl
    exact absurd h (by simp)
  have hput : fs' = fs.put place (.file contents) := by
    rcases entry with _ | _ | _ | _
    · exact (Except.ok.inj h).symm
    · exact (Except.ok.inj h).symm
    · exact absurd rfl hentry
    · exact (Except.ok.inj h).symm
  obtain ⟨d, c, rfl, hc, hd⟩ := hfs.parent_of_locate hhere hlocate hentry
  rw [hput]
  exact hfs.put hd hc ((entry?_of_locate hlocate hentry).2 ▸ hentry) _

theorem WellFormed.makeDirectory (hfs : fs.WellFormed) (hhere : fs.entry? here = some .directory)
    (h : fs.makeDirectory here path = .ok fs') : fs'.WellFormed := by
  rw [Files.makeDirectory] at h
  rcases hlocate : fs.locate .makeDirectory here path with cause | ⟨place, _ | _ | _ | _⟩ <;>
    rw [hlocate] at h
  · exact absurd h (by simp)
  · obtain rfl := Except.ok.inj h
    obtain ⟨d, c, rfl, hc, hd⟩ := hfs.parent_of_locate hhere hlocate (by simp)
    exact hfs.put hd hc (by rw [(entry?_of_locate hlocate (by simp)).2]; simp) _
  · exact absurd h (by simp)
  · obtain rfl := Except.ok.inj h
    exact hfs
  · exact absurd h (by simp)

/-- A directory stays one in a tree that grows. -/
theorem Grows.directory {made written : Set (List String)} (h : Grows made written fs fs')
    (hplace : fs.entry? place = some .directory) : fs'.entry? place = some .directory := by
  obtain ⟨e, he, hkept⟩ := h.kept hplace
  rw [he, show e = .directory from hkept]

theorem WellFormed.makeLast (hfs : fs.WellFormed) (hhere : fs.entry? here = some .directory)
    (path : String) : (fs.makeLast here path).1.WellFormed := by
  rw [Files.makeLast]
  split
  · rename_i hmake
    exact hfs.makeDirectory hhere hmake
  · exact hfs

theorem WellFormed.makeDirectories (hfs : fs.WellFormed)
    (hhere : fs.entry? here = some .directory) (fuel : Nat) (path : String) :
    (fs.makeDirectories here fuel path).1.WellFormed := by
  induction fuel generalizing path with
  | zero => exact hfs
  | succ fuel ih =>
    have hparents : (fs.makeParents here fuel path).1.WellFormed := by
      rw [makeParents]
      split
      · exact ih _
      · exact hfs
    have hhere' := (makeParents_grows fs here fuel path).directory hhere
    rw [makeDirectories_succ]
    rcases fs.find? here path with _ | _ | _ | _
    · rcases hmade : fs.makeParents here fuel path with ⟨fs₁, e | _⟩ <;>
        rw [hmade] at hparents hhere'
      · exact hparents
      · exact hparents.makeLast hhere' path
    · exact hfs
    · exact hfs
    · exact hfs

end Files

/-! ### Scripts -/

/-- A well-formed tree, seen from one of its directories. -/
structure World.Sound (w : World) : Prop where
  files : w.files.WellFormed
  here : w.files.entry? w.here = some .directory

namespace World.Sound

variable {w w' : World}

theorem alike (h : w.Sound) (hw : w.Alike w') : w'.Sound :=
  ⟨by rw [hw.files]; exact h.files, by rw [hw.files, hw.here]; exact h.here⟩

theorem write (h : w.Sound) (path : String) (contents : ByteArray) :
    (w.write path contents).2.Sound := by
  rw [World.write]
  rcases hwrite : w.files.write w.here path contents with e | fs
  · exact h
  · obtain ⟨_, _, _, _, _, hgrows⟩ := Files.write_eq_ok hwrite
    exact ⟨h.files.write h.here hwrite, hgrows.directory h.here⟩

theorem makeDirectories (h : w.Sound) (path : String) : (w.makeDirectories path).2.Sound :=
  ⟨h.files.makeDirectories h.here (path.length + 1) path,
    (Files.makeDirectories_grows w.files w.here (path.length + 1) path).directory h.here⟩

end World.Sound

namespace Script

variable {σ α : Type}

/-- A script does not go anywhere. -/
theorem here_run (s : Script σ α) (t : σ) (w : World) : (s.run t w).2.2.here = w.here := by
  induction s generalizing t w with
  | done a => rfl
  | read p k ih => exact ih ..
  | write p c k ih =>
    have hwrite : (w.write p c).2.here = w.here := by
      rw [World.write]
      split <;> rfl
    exact (ih ..).trans hwrite
  | makeDirectories p k ih => exact (ih ..).trans rfl
  | kind p k ih => exact ih ..
  | listing p k ih => exact ih ..
  | here k ih => exact ih ..
  | environment k ih => exact ih ..
  | now k ih => exact ih ..
  | put c b k ih => exact (ih ..).trans (World.Alike.put w c b).here
  | look k ih => exact ih ..
  | update g k ih => exact ih ..

/-- **Whatever a script does**, a well-formed tree stays well-formed. -/
theorem run_sound (s : Script σ α) (t : σ) {w : World} (h : w.Sound) : (s.run t w).2.2.Sound := by
  induction s generalizing t w with
  | done a => exact h
  | read p k ih => exact ih _ _ h
  | write p c k ih => exact ih _ _ (h.write p c)
  | makeDirectories p k ih => exact ih _ _ (h.makeDirectories p)
  | kind p k ih => exact ih _ _ h
  | listing p k ih => exact ih _ _ h
  | here k ih => exact ih _ _ h
  | environment k ih => exact ih _ _ h
  | now k ih => exact ih _ _ h
  | put c b k ih => exact ih _ (h.alike (World.Alike.put w c b))
  | look k ih => exact ih _ _ h
  | update g k ih => exact ih _ h

end Script

end WorstCase
