import WorstCase.Proofs.Files.Corridor

/-!
# Delivering a file

A file is delivered to a path by making the directory that it is in and writing it there. When the
tree grows meanwhile, because other files are delivered, too, that changes nothing, as long as no
link on the path dangles and the other files are not in the way: the same directories are made, the
file gets to the same **site**, and what fails is the same (`Files.exists_delivers`).
-/

namespace WorstCase.Files

open WorstCase.Path (IsName)

variable {fs fs' : Files} {made written : Set (List String)} {absolute : Bool}
  {here d pre names cs : List String} {x : String}

/-! ### Well-formed trees -/

/-- A tree in which every entry has a path of its own, consisting of names, and is in a directory.
-/
structure WellFormed (fs : Files) : Prop where
  nodup : (fs.entries.map (·.1)).Nodup
  names : ∀ place ∈ fs.entries.map (·.1), place ≠ [] ∧ ∀ c ∈ place, IsName c ∧ '/' ∉ c.toList
  parents : ∀ place c e, fs.entry? (place ++ [c]) = some e → fs.entry? place = some .directory

theorem mem_of_entry_eq_some {place : List String} {e : FileEntry} (hplace : place ≠ [])
    (h : fs.entry? place = some e) : (place, e) ∈ fs.entries := by
  rw [ entry?, if_neg (by simpa using hplace)] at h
  obtain ⟨above, below, hentries, -⟩ := List.lookup_eq_some_iff.mp h
  rw [hentries]
  exact List.mem_append_right _ List.mem_cons_self

/-- Whether a tree is well-formed can be seen from its entries. -/
theorem WellFormed.of_entries (hnodup : (fs.entries.map (·.1)).Nodup)
    (h : ∀ place ∈ fs.entries.map (·.1),
      place ≠ [] ∧ (∀ c ∈ place, IsName c ∧ '/' ∉ c.toList) ∧
        (fs.entry? place.dropLast).map FileEntry.kind = some .directory) : fs.WellFormed where
  nodup := hnodup
  names place hplace := ⟨(h place hplace).1, (h place hplace).2.1⟩
  parents place c e he := by
    have hmem := List.mem_map_of_mem (f := (·.1)) (mem_of_entry_eq_some (by simp) he)
    have hparent := (h _ hmem).2.2
    rw [List.dropLast_concat] at hparent
    obtain ⟨e', he', hkind⟩ := Option.map_eq_some_iff.mp hparent
    cases e' with
    | directory => exact he'
    | file => exact absurd hkind (by simp [FileEntry.kind])
    | link => exact absurd hkind (by simp [FileEntry.kind])

/-- Below what is missing everything is missing. -/
theorem WellFormed.entry?_append (h : fs.WellFormed) {place : List String}
    (hplace : fs.entry? place = none) (xs : List String) : fs.entry? (place ++ xs) = none := by
  induction xs using List.reverseRecOn with
  | nil => rwa [List.append_nil]
  | append_singleton xs x ih =>
    rw [← List.append_assoc]
    by_contra hsome
    obtain ⟨e, he⟩ := Option.ne_none_iff_exists'.mp hsome
    exact absurd (ih.symm.trans (h.parents _ _ _ he)) (by simp)

/-! ### Deliveries -/

/-- Makes the directory that a file will be in. -/
def prepare (fs : Files) (here : List String) (path : String) : Files × Except FileError Unit :=
  if Path.directory path = "." then (fs, .ok ())
  else fs.makeDirectories here ((Path.directory path).length + 1) (Path.directory path)

/-- Delivers a file: makes the directory that it will be in, and writes it. -/
def deliver (fs : Files) (here : List String) (path : String) (contents : ByteArray) :
    Files × Except FileError Unit :=
  match fs.prepare here path with
  | (fs, .error e) => (fs, .error e)
  | (fs, .ok ()) =>
    match fs.write here path contents with
    | .ok fs => (fs, .ok ())
    | .error e => (fs, .error e)

/-- A file that is delivered to the path gets to this place. -/
def Reaches (fs : Files) (here : List String) (path : String) (place : List String) : Prop :=
  ∃ contents fs', fs.deliver here path contents = (fs', .ok ()) ∧
    fs'.locate .look here path = .ok ⟨place, some (.file contents)⟩

/-- When a file is delivered to the path, this directory is made for it. -/
def Makes (fs : Files) (here : List String) (path : String) (place : List String) : Prop :=
  fs.entry? place = none ∧ Files.entry? (fs.prepare here path).1 place = some .directory

/-- What it comes to to deliver a file to a path, also if the tree has grown elsewhere: which
directories are made, whether that fails, and to which site the file gets, unless that fails. -/
structure Delivers (fs : Files) (here : List String) (path : String) (made : Set (List String))
    (makes : Except FileError Unit) (site : Except FileError (List String)) : Prop where
  made_new : ∀ q ∈ made, fs.entry? q = none
  site_new : ∀ p, site = .ok p → p ∉ made ∧
    (fs.entry? p = none ∨ ∃ c, fs.entry? p = some (.file c))
  prepare : ∀ {made' written fs'}, Grows made' written fs fs' → (∀ q ∈ made, q ∉ written) →
    ∃ fs'', fs'.prepare here path = (fs'', makes) ∧ MadeAt made fs' fs''
  write : ∀ {made' written fs'} (contents : ByteArray), Grows made' written fs fs' →
    makes = .ok () → (∀ q ∈ made, fs'.entry? q = some .directory) →
    (∀ p, site = .ok p → p ∉ made') →
    (∃ e, site = .error e ∧ fs'.write here path contents = .error e) ∨
      ∃ p fs'', site = .ok p ∧ fs'.write here path contents = .ok fs'' ∧ PutAt p contents fs' fs''
  find : ∀ {made' written fs'}, Grows made' written fs fs' → (∀ q ∈ made, q ∉ written) →
    (makes = .ok () → ∀ p, site = .ok p → p ∉ made' ∧ p ∉ written) →
    (fs'.find? here path = none ↔ fs.find? here path = none)

theorem length_le_ofComponents (h : Path.Tidy absolute cs) :
    cs.length ≤ (Path.ofComponents absolute cs).length := by
  induction cs using List.reverseRecOn with
  | nil => exact Nat.zero_le _
  | append_singleton cs c ih =>
    rw [← String.length_toList, List.length_append, List.length_singleton]
    by_cases hcs : cs = []
    · subst hcs
      exact List.length_pos_iff.mpr (Path.toList_ofComponents_ne_nil h)
    · have hle := ih h.of_append
      rw [← String.length_toList] at hle
      rw [Path.toList_ofComponents_concat hcs, List.length_append, List.length_cons]
      omega

theorem ofComponents_ne_dot (h : Path.Tidy absolute cs) (hne : cs ≠ []) :
    Path.ofComponents absolute cs ≠ "." := by
  intro heq
  have hclean := Path.cleanComponents_ofComponents h
  rw [heq] at hclean
  exact hne (hclean.symm.trans (by decide))

theorem find?_root (fs : Files) (here : List String) : fs.find? here "/" = some .directory := by
  have hpath : IsPath "/" := ⟨by decide, by decide, by decide⟩
  rw [find?, locate_of_isPath hpath, show Path.components "/" = ["", ""] by decide,
    walk_stay (.inl rfl), walk_stay (.inl rfl), walk_nil]

/-- A file in an existing directory needs no directory to be made. -/
theorem prepare_solid (h : Grows made written fs fs') (htidy : Path.Tidy absolute (cs ++ [x]))
    (hsolid : Solid fs (origin absolute here) cs) :
    fs'.prepare here (Path.ofComponents absolute (cs ++ [x])) =
      (fs', (fs.prepare here (Path.ofComponents absolute (cs ++ [x]))).2) := by
  rw [Files.prepare, Files.prepare, Path.directory_ofComponents htidy]
  by_cases hcs : cs = []
  · subst hcs
    cases absolute
    · rw [if_pos (by decide), if_pos (by decide)]
    · rw [show Path.ofComponents true [] = "/" by decide, if_neg (by decide), if_neg (by decide),
        makeDirectories_succ, makeDirectories_succ, find?_root, find?_root]
  · rw [if_neg (ofComponents_ne_dot htidy.of_append hcs),
      if_neg (ofComponents_ne_dot htidy.of_append hcs)]
    exact makeDirectories_solid h htidy.of_append hcs hsolid _

theorem write_of_locate {place : List String} {entry : Option FileEntry} {path : String}
    (h : fs.locate .create here path = .ok ⟨place, entry⟩) (hentry : entry ≠ some .directory)
    (contents : ByteArray) :
    ∃ fs', fs.write here path contents = .ok fs' ∧ PutAt place contents fs fs' := by
  have hplace := (entry?_of_locate h hentry).1
  refine ⟨fs.put place (.file contents), ?_, putAt_put hplace fs contents⟩
  rw [write, h]
  rcases entry with _ | _ | _ | _
  · rfl
  · rfl
  · exact absurd rfl hentry
  · rfl

/-- On a solid path a file is written over another one, or that fails anyhow. -/
theorem write_solid (htidy : Path.Tidy absolute cs) (hne : cs ≠ [])
    (hsolid : Solid fs (origin absolute here) cs) :
    ∃ site : Except FileError (List String),
      (∀ p, site = .ok p → ∃ c, fs.entry? p = some (.file c)) ∧
      ∀ {made written fs'} (contents : ByteArray), Grows made written fs fs' →
        (∃ e, site = .error e ∧
          fs'.write here (Path.ofComponents absolute cs) contents = .error e) ∨
        ∃ p fs'', site = .ok p ∧
          fs'.write here (Path.ofComponents absolute cs) contents = .ok fs'' ∧
          PutAt p contents fs' fs'' := by
  rcases (Grows.refl ∅ ∅ fs).locate_solid htidy hne hsolid .create with
    ⟨place, e, -, hfirst, -, -⟩ | ⟨cause, hfirst, -⟩
  · cases e with
    | file c =>
      have hentry := (entry?_of_locate hfirst (by simp)).2
      refine ⟨.ok place, fun p hp => ⟨c, Except.ok.inj hp ▸ hentry⟩, fun contents h => .inr ?_⟩
      obtain ⟨e', hlocate, c', rfl, -⟩ := h.locate_solid_ok htidy hne hsolid hfirst
      obtain ⟨fs'', hwrite, hput⟩ := write_of_locate hlocate (by simp) contents
      exact ⟨_, fs'', rfl, hwrite, hput⟩
    | directory =>
      refine ⟨.error ⟨.openFile, Path.ofComponents absolute cs, .isDirectory⟩, by simp,
        fun contents h => .inl ⟨_, rfl, ?_⟩⟩
      obtain ⟨e', hlocate, rfl⟩ := h.locate_solid_ok htidy hne hsolid hfirst
      rw [Files.write, hlocate]
    | link target => exact absurd rfl (ne_link_of_locate (.inr rfl) hfirst target)
  · refine ⟨.error ⟨.openFile, Path.ofComponents absolute cs, cause⟩, by simp,
      fun contents h => .inl ⟨_, rfl, ?_⟩⟩
    rw [Files.write, h.locate_solid_error htidy hne hsolid hfirst]

/-- A solid path leads to a file that is there, or delivering fails anyhow. -/
theorem exists_delivers_of_solid (htidy : Path.Tidy absolute (cs ++ [x]))
    (hsolid : Solid fs (origin absolute here) (cs ++ [x])) :
    ∃ made makes site,
      Delivers fs here (Path.ofComponents absolute (cs ++ [x])) made makes site := by
  obtain ⟨site, hsite, hwrite⟩ := write_solid htidy (by simp) hsolid
  refine ⟨∅, (fs.prepare here (Path.ofComponents absolute (cs ++ [x]))).2, site,
    { made_new := fun q hq => hq.elim
      site_new := fun p hp => ⟨fun hq => hq.elim, .inr (hsite p hp)⟩
      prepare := fun h _ => ⟨_, prepare_solid h htidy hsolid.of_append,
        fun q => ⟨fun hq => hq.elim, fun _ => rfl⟩⟩
      write := fun contents h _ _ _ => hwrite contents h
      find := fun h _ _ => ?_ }⟩
  rw [find?, find?]
  rcases h.locate_solid htidy (by simp) hsolid .look with ⟨place, e, e', hT, hF, -⟩ |
    ⟨cause, hT, hF⟩ <;> simp [hT, hF]

/-! ### Delivering through a corridor -/

section Corridor

variable {n' : Nat} (hnames : ∀ x ∈ names, IsName x)
  (htidy : Path.Tidy absolute (pre ++ (names ++ [x])))
  (hway : Way fs maxLinks (origin absolute here) pre n' d)

include hnames htidy hway

/-- Making the directories of a corridor, or none if there are none in it. -/
theorem prepare_corridor :
    ∃ r, (Fits absolute pre (names ++ [x]) → r = .ok ()) ∧
      (r = .ok () → ∀ x ∈ names, x.length ≤ maxName) ∧
      ∀ {made written fs'}, Grows made written fs fs' → fs'.Open absolute pre d names →
        ∃ fs'', fs'.prepare here (Path.ofComponents absolute (pre ++ (names ++ [x]))) =
          (fs'', r) ∧ MadeAt (corridor absolute pre d names) fs' fs'' := by
  have htidy' := htidy
  rw [← List.append_assoc] at htidy' ⊢
  by_cases hnil : names = []
  · subst hnil
    rw [List.append_nil] at htidy' ⊢
    refine ⟨_, fun hfits => ?_, fun _ => by simp, fun h _ => ⟨_, prepare_solid h htidy'
      (hway.solid fun c hc => (htidy.ne_empty c (List.mem_append_left _ hc)).1),
      fun q => ⟨by simp, fun _ => rfl⟩⟩⟩
    rw [prepare, Path.directory_ofComponents htidy']
    split
    · rfl
    rename_i hdot
    by_cases hpre : pre = []
    · subst hpre
      cases absolute
      · exact absurd (by decide) hdot
      · rw [show Path.ofComponents true [] = "/" by decide, makeDirectories_succ, find?_root]
    · rw [makeDirectories_succ, find?, locate_ofComponents htidy'.of_append hpre
        (isPath_of_append hpre hfits.1 htidy'), hway.walk_look]
  · obtain ⟨r, hr, hmake⟩ := makeDirectories_corridor hnames hnil htidy'.of_append hway
      ((Path.ofComponents absolute (pre ++ names)).length + 1) (by
        have := length_le_ofComponents htidy'.of_append
        rw [List.length_append] at this
        omega)
    refine ⟨r, fun hfits => hr.mpr (hfits.of_append htidy hnil), fun hok => (hr.mp hok).2,
      fun h hopen => ?_⟩
    rw [prepare, Path.directory_ofComponents htidy',
      if_neg (ofComponents_ne_dot htidy'.of_append (by simp [hnil]))]
    exact hmake _ _ _ h hopen

variable (hx : IsName x) (hclosed : fs.entry? (d ++ (names ++ [x])) = none)

include hx hclosed

/-- Behind the directories of a corridor there is nothing yet, or a file. -/
theorem locate_create_corridor (hfits : Fits absolute pre (names ++ [x]))
    (h : Grows made written fs fs')
    (hdirectories : ∀ q ∈ corridor absolute pre d names, fs'.entry? q = some .directory)
    (hmade : d ++ (names ++ [x]) ∉ made) :
    ∃ entry, entry ≠ some .directory ∧
      fs'.locate .create here (Path.ofComponents absolute (pre ++ (names ++ [x]))) =
        .ok ⟨d ++ (names ++ [x]), entry⟩ := by
  have hlocate := locate_concat hnames (h.way hway) htidy hx hfits.1
    (fun y hy => hfits.2 y (List.mem_append_left _ hy)) hdirectories .create
  rw [if_neg (Nat.not_lt.mpr (hfits.2 x (by simp)))] at hlocate
  rcases hentry : fs'.entry? (d ++ (names ++ [x])) with _ | e
  · rw [hentry, meet, if_pos (by simp), List.append_assoc] at hlocate
    exact ⟨none, by simp, hlocate⟩
  · rcases h.new hclosed hentry with ⟨-, hq⟩ | ⟨⟨c, rfl⟩, -⟩
    · exact absurd hq hmade
    · rw [hentry, meet, if_pos (by simp), List.append_assoc] at hlocate
      exact ⟨some (.file c), by simp, hlocate⟩

/-- Behind the directories of a corridor a file is written, if the path to it fits. -/
theorem write_corridor (hshort : ∀ x ∈ names, x.length ≤ maxName) :
    ∃ site : Except FileError (List String),
      (∀ p, site = .ok p ↔ Fits absolute pre (names ++ [x]) ∧ p = d ++ (names ++ [x])) ∧
      ∀ {made written fs'} (contents : ByteArray), Grows made written fs fs' →
        (∀ q ∈ corridor absolute pre d names, fs'.entry? q = some .directory) →
        (∀ p, site = .ok p → p ∉ made) →
        (∃ e, site = .error e ∧
          fs'.write here (Path.ofComponents absolute (pre ++ (names ++ [x]))) contents =
            .error e) ∨
        ∃ p fs'', site = .ok p ∧
          fs'.write here (Path.ofComponents absolute (pre ++ (names ++ [x]))) contents = .ok fs'' ∧
          PutAt p contents fs' fs'' := by
  by_cases hpath : IsPath (Path.ofComponents absolute (pre ++ (names ++ [x])))
  · by_cases hlength : maxName < x.length
    · have hfits : ¬ Fits absolute pre (names ++ [x]) := fun hfits =>
        absurd (hfits.2 x (by simp)) (Nat.not_le.mpr hlength)
      refine ⟨.error ⟨.openFile, Path.ofComponents absolute (pre ++ (names ++ [x])), .nameTooLong⟩,
        by simp [hfits], fun contents h hdirectories _ => .inl ⟨_, rfl, ?_⟩⟩
      rw [Files.write, locate_concat hnames (h.way hway) htidy hx hpath hshort hdirectories,
        if_pos hlength]
    · have hfits : Fits absolute pre (names ++ [x]) := ⟨hpath, List.forall_mem_append.mpr
        ⟨hshort, List.forall_mem_singleton.mpr (Nat.not_lt.mp hlength)⟩⟩
      refine ⟨.ok (d ++ (names ++ [x])), fun p => by simp [hfits, eq_comm],
        fun {made written fs'} contents h hdirectories hmade => .inr ?_⟩
      obtain ⟨entry, hne, hfound⟩ := locate_create_corridor hnames htidy hway hx hclosed hfits h
        hdirectories (hmade _ rfl)
      obtain ⟨fs'', hwrite, hput⟩ := write_of_locate hfound hne contents
      exact ⟨_, fs'', rfl, hwrite, hput⟩
  · have hfits : ¬ Fits absolute pre (names ++ [x]) := fun hfits => hpath hfits.1
    obtain ⟨cause, hcause⟩ := exists_locate_eq_error hpath
    refine ⟨.error ⟨.openFile, Path.ofComponents absolute (pre ++ (names ++ [x])), cause⟩,
      by simp [hfits], fun contents h _ _ => .inl ⟨_, rfl, ?_⟩⟩
    rw [Files.write, hcause]

/-- A file is not found at the end of a corridor before it is written. -/
theorem find?_corridor {made' : Set (List String)} (h : Grows made' written fs fs')
    (hopen : fs'.Open absolute pre d names)
    (hsite : Fits absolute pre (names ++ [x]) → d ++ (names ++ [x]) ∉ made' ∧
      d ++ (names ++ [x]) ∉ written) :
    fs'.find? here (Path.ofComponents absolute (pre ++ (names ++ [x]))) = none := by
  by_contra hsome
  obtain ⟨e, he⟩ := Option.ne_none_iff_exists'.mp hsome
  have hnone : Fits absolute pre (names ++ [x]) →
      fs'.entry? (d ++ (names ++ [x])) = none := by
    intro hfits
    by_contra hsome
    obtain ⟨e, he⟩ := Option.ne_none_iff_exists'.mp hsome
    exact (h.new hclosed he).elim (fun hd => (hsite hfits).1 hd.2) fun hf => (hsite hfits).2 hf.2
  have hopen' : fs'.Open absolute pre d (names ++ [x]) := by
    intro q hq
    rcases mem_corridor_concat.mp hq with hq | ⟨hfits, rfl⟩
    · exact hopen q hq
    · exact .inl (hnone hfits)
  obtain ⟨-, hfits, hdirectories⟩ := found_in_corridor
    (List.forall_mem_append.mpr ⟨hnames, List.forall_mem_singleton.mpr hx⟩) (h.way hway) htidy
    (by simp) hopen' he
  have := hdirectories _ (mem_corridor_concat.mpr (.inr ⟨hfits, rfl⟩))
  exact absurd ((hnone hfits).symm.trans this) (by simp)

end Corridor

/-- The file is not among the directories of the corridor. -/
theorem site_notMem_corridor : d ++ (names ++ [x]) ∉ corridor absolute pre d names := by
  rintro ⟨xs, hxs, -, -, heq⟩
  have hlength := hxs.length_le
  rw [← List.append_cancel_left heq, List.length_append, List.length_singleton] at hlength
  omega

/-- Others make nothing but directories in a corridor, unless they write there. -/
theorem Grows.open_corridor (h : Grows made written fs fs')
    (hnew : ∀ q ∈ corridor absolute pre d names, fs.entry? q = none)
    (hwritten : ∀ q ∈ corridor absolute pre d names, q ∉ written) :
    fs'.Open absolute pre d names := by
  intro q hq
  rcases hq' : fs'.entry? q with _ | e
  · exact .inl rfl
  · rcases h.new (hnew q hq) hq' with ⟨rfl, -⟩ | hf
    · exact .inr rfl
    · exact absurd hf.2 (hwritten q hq)

/-- Delivering through a corridor in which nothing is yet makes its directories. -/
theorem exists_delivers_of_closed {n' : Nat} (hnames : ∀ x ∈ names, IsName x) (hx : IsName x)
    (htidy : Path.Tidy absolute (pre ++ (names ++ [x])))
    (hway : Way fs maxLinks (origin absolute here) pre n' d)
    (hclosed : ∀ xs, xs ≠ [] → xs <+: names ++ [x] → fs.entry? (d ++ xs) = none) :
    ∃ made makes site,
      Delivers fs here (Path.ofComponents absolute (pre ++ (names ++ [x]))) made makes site := by
  have hsiteClosed := hclosed (names ++ [x]) (by simp) List.prefix_rfl
  have hnew : ∀ q ∈ corridor absolute pre d names, fs.entry? q = none := by
    rintro q ⟨xs, hxs, hne, -, rfl⟩
    exact hclosed xs hne (hxs.trans (List.prefix_append _ _))
  have hfind : ∀ {made' written fs'}, Grows made' written fs fs' →
      (∀ q ∈ corridor absolute pre d names, q ∉ written) →
      (Fits absolute pre (names ++ [x]) → d ++ (names ++ [x]) ∉ made' ∧
        d ++ (names ++ [x]) ∉ written) →
      (fs'.find? here (Path.ofComponents absolute (pre ++ (names ++ [x]))) = none ↔
        fs.find? here (Path.ofComponents absolute (pre ++ (names ++ [x]))) = none) := by
    intro made' written fs' h hwritten hsite
    rw [find?_corridor hnames htidy hway hx hsiteClosed h (h.open_corridor hnew hwritten) hsite,
      find?_corridor hnames htidy hway hx hsiteClosed (Grows.refl ∅ ∅ fs)
        ((Grows.refl ∅ ∅ fs).open_corridor hnew fun q _ => id) fun _ => ⟨id, id⟩]
  obtain ⟨r, hfits, hr, hprepare⟩ := prepare_corridor hnames htidy hway
  by_cases hshort : ∀ x ∈ names, x.length ≤ maxName
  · obtain ⟨site, hsite, hwrite⟩ := write_corridor hnames htidy hway hx hsiteClosed hshort
    exact ⟨corridor absolute pre d names, r, site,
      { made_new := hnew
        site_new := fun p hp => by
          obtain ⟨-, rfl⟩ := (hsite p).mp hp
          exact ⟨site_notMem_corridor, .inl hsiteClosed⟩
        prepare := fun h hwritten => hprepare h (h.open_corridor hnew hwritten)
        write := fun contents h _ hdirectories hmade => hwrite contents h hdirectories hmade
        find := fun h hwritten hp => hfind h hwritten fun hfit =>
          hp (hfits hfit) _ ((hsite _).mpr ⟨hfit, rfl⟩) }⟩
  · -- a name is too long already for a directory
    refine ⟨corridor absolute pre d names, r,
      .error ⟨.openFile, Path.ofComponents absolute (pre ++ (names ++ [x])), .nameTooLong⟩,
      { made_new := hnew
        site_new := fun p hp => absurd hp (by simp)
        prepare := fun h hwritten => hprepare h (h.open_corridor hnew hwritten)
        write := fun contents _ hok => absurd (hr hok) hshort
        find := fun h hwritten _ => hfind h hwritten fun hfit => ?_ }⟩
    exact absurd (fun y hy => hfit.2 y (List.mem_append_left _ hy)) hshort

/-- Behind the first thing that is missing on a path there is a corridor in which nothing is yet. -/
theorem exists_delivers_of_missing (hfs : fs.WellFormed) {n' : Nat} {c : String}
    {post : List String} (htidy : Path.Tidy absolute (pre ++ c :: post)) (hc : IsName c)
    (hway : Way fs maxLinks (origin absolute here) pre n' d) (hentry : fs.entry? (d ++ [c]) = none) :
    ∃ made makes site,
      Delivers fs here (Path.ofComponents absolute (pre ++ c :: post)) made makes site := by
  have hclosed : ∀ xs, xs ≠ [] → xs <+: c :: post → fs.entry? (d ++ xs) = none := by
    intro xs hxs hprefix
    obtain ⟨y, xs, rfl⟩ := List.exists_cons_of_ne_nil hxs
    obtain ⟨rfl, -⟩ := List.cons_prefix_cons.mp hprefix
    rw [List.append_cons]
    exact hfs.entry?_append hentry xs
  have hall : ∀ y ∈ c :: post, IsName y :=
    List.forall_mem_cons.mpr ⟨hc, htidy.isName_of_append hc⟩
  obtain ⟨names, x, hsplit⟩ := (List.eq_nil_or_concat' (c :: post)).resolve_left (by simp)
  rw [hsplit] at htidy hclosed hall ⊢
  rw [List.forall_mem_append, List.forall_mem_singleton] at hall
  exact exists_delivers_of_closed hall.1 hall.2 htidy hway hclosed

/-- A link on a straight path does not dangle. -/
theorem Straight.not_missing {pre post : List String} {n' : Nat} {c target : String}
    (h : fs.Straight here (Path.ofComponents absolute (pre ++ c :: post)))
    (htidy : Path.Tidy absolute (pre ++ c :: post))
    (hway : Way fs maxLinks (origin absolute here) pre n' d) (hc : IsName c)
    (hlength : c.length ≤ maxName) (hentry : fs.entry? (d ++ [c]) = some (.link target)) :
    ¬ Missing (fs.walk .look n' d [c]) := by
  have hall : [c].all (· = "") = false := by simp [hc.1]
  have hwalk : ∀ purpose, fs.walk purpose maxLinks (origin absolute here)
      ((if absolute then [""] else []) ++ (pre ++ [c])) = fs.walk purpose n' d [c] := by
    intro purpose
    rw [← hway.walk_append hall purpose]
    cases absolute
    · rfl
    · exact walk_stay (.inl rfl)
  have hlink := h ((if absolute then [""] else []) ++ (pre ++ [c])) (by
    rw [Path.components_ofComponents htidy.ne_empty (by simp), List.append_cons pre c post]
    exact (List.prefix_append_right_inj _).mpr (List.prefix_append _ _)) (d ++ [c]) target
  rw [Path.isAbsolute_ofComponents htidy.ne_empty, ← origin, hwalk, hwalk] at hlink
  refine hlink ?_
  rw [walk_name hc, if_neg (by simp), if_neg (Nat.not_lt.mpr hlength), hentry, meet]
  simp [Purpose.stopsAtLink]

/-- **What it comes to to deliver a file** does not depend on what else is delivered, if no link on
the path dangles. -/
theorem exists_delivers (hfs : fs.WellFormed) (htidy : Path.Tidy absolute (cs ++ [x]))
    (hstraight : fs.Straight here (Path.ofComponents absolute (cs ++ [x]))) :
    ∃ made makes site,
      Delivers fs here (Path.ofComponents absolute (cs ++ [x])) made makes site := by
  have hends : Ending fs maxLinks (origin absolute here) (cs ++ [x]) :=
    ending fs maxLinks _ fun c hc => (htidy.ne_empty c hc).1
  generalize hall : cs ++ [x] = all at hends
  cases hends with
  | whole h => exact hall ▸ exists_delivers_of_solid htidy (hall ▸ h)
  | missing hway hc hlength hentry =>
    exact exists_delivers_of_missing hfs (hall ▸ htidy) hc hway hentry
  | dangling hway hc hlength hentry hmissing =>
    rw [hall] at hstraight htidy
    exact absurd hmissing (hstraight.not_missing htidy hway hc hlength hentry)

theorem prepare_grows (fs : Files) (here : List String) (path : String) :
    Grows Set.univ ∅ fs (fs.prepare here path).1 := by
  rw [prepare]
  split
  · exact .refl _ _ _
  · exact makeDirectories_grows _ _ _ _

/-- A file that is delivered is where its path leads from then on. -/
theorem deliver_ok {path : String} {contents : ByteArray}
    (h : fs.deliver here path contents = (fs', .ok ())) :
    ∃ place, fs'.locate .look here path = .ok ⟨place, some (.file contents)⟩ ∧
      Grows Set.univ {place} fs fs' := by
  unfold deliver at h
  have hprepare := prepare_grows fs here path
  rcases hresult : fs.prepare here path with ⟨fs₁, e | _⟩ <;> rw [hresult] at h hprepare
  · exact absurd h (by simp)
  rcases hwrite : fs₁.write here path contents with e | fs₂ <;> simp only [hwrite] at h
  · exact absurd h (by simp)
  obtain ⟨rfl, -⟩ := Prod.mk.inj h
  obtain ⟨place, -, -, -, hplace, hgrows⟩ := write_eq_ok hwrite
  exact ⟨place, hplace, (hprepare.mono (Set.subset_univ _) (Set.empty_subset _)).trans
    (hgrows.mono (Set.empty_subset _) subset_rfl)⟩

/-- If a file cannot be delivered, there are new directories at most. -/
theorem deliver_error {path : String} {contents : ByteArray} {e : FileError}
    (h : fs.deliver here path contents = (fs', .error e)) : Grows Set.univ ∅ fs fs' := by
  unfold deliver at h
  have hprepare := prepare_grows fs here path
  rcases hresult : fs.prepare here path with ⟨fs₁, e | _⟩ <;> rw [hresult] at h hprepare
  · exact (Prod.mk.inj h).1 ▸ hprepare
  rcases hwrite : fs₁.write here path contents with e | fs₂ <;> simp only [hwrite] at h
  · exact (Prod.mk.inj h).1 ▸ hprepare
  · exact absurd h (by simp)

namespace Delivers

variable {path : String} {makes : Except FileError Unit} {site : Except FileError (List String)}

/-- The directories that are made. -/
theorem makes_of_mem (h : Delivers fs here path made makes site) {q : List String} (hq : q ∈ made) :
    fs.Makes here path q := by
  obtain ⟨fs'', hprepare, hmade⟩ := h.prepare (.refl ∅ ∅ fs) fun q _ => id
  exact ⟨h.made_new q hq, by rw [hprepare]; exact (hmade q).1 hq⟩

/-- The site is where the file gets to. -/
theorem reaches (h : Delivers fs here path made makes site) (hmakes : makes = .ok ())
    {p : List String} (hsite : site = .ok p) : fs.Reaches here path p := by
  obtain ⟨fs', hprepare, hmade⟩ := h.prepare (.refl ∅ ∅ fs) fun q _ => id
  have hgrows : Grows made ∅ fs fs' := hmade.grows fun q hq => .inl (h.made_new q hq)
  have hwrite : ∀ contents, ∃ place fs'', fs'.write here path contents = .ok fs'' ∧
      (∃ entry, fs'.locate .create here path = .ok ⟨place, entry⟩) ∧
      fs''.locate .look here path = .ok ⟨place, some (.file contents)⟩ ∧
      (place ≠ p → fs'.entry? p = some (.file contents)) := by
    intro contents
    rcases h.write contents hgrows hmakes (fun q hq => (hmade q).1 hq)
      (fun p hp => (h.site_new p hp).1) with ⟨e, he, -⟩ | ⟨p', fs'', hp', hok, hput⟩
    · exact absurd (hsite.symm.trans he) (by simp)
    obtain rfl := Except.ok.inj (hsite.symm.trans hp')
    obtain ⟨place, entry, hcreate, -, hlook, hgrows'⟩ := write_eq_ok hok
    refine ⟨place, fs'', hok, ⟨entry, hcreate⟩, hlook, fun hne => ?_⟩
    have hp := hput p
    rw [if_pos rfl] at hp
    rcases hold : fs'.entry? p with _ | e
    · exact (hgrows'.new hold hp).elim (fun hd => absurd hd.2 id) fun hf => absurd hf.2.symm hne
    · obtain ⟨e', he', hkept⟩ := hgrows'.kept hold
      rw [hp] at he'
      exact congrArg some (hkept.eq (Ne.symm hne)).symm |>.trans he'.symm
  -- if the place were another one, nothing could be written to the site
  obtain ⟨place, fs'', hok, ⟨entry, hcreate⟩, hlook, helse⟩ := hwrite ByteArray.empty
  obtain ⟨place', -, -, ⟨entry', hcreate'⟩, -, helse'⟩ := hwrite (ByteArray.empty.push 0)
  obtain ⟨rfl, -⟩ := Location.mk.inj (Except.ok.inj (hcreate.symm.trans hcreate'))
  have hplace : place = p := by
    by_contra hne
    have heq := FileEntry.file.inj (Option.some.inj ((helse hne).symm.trans (helse' hne)))
    exact absurd (congrArg ByteArray.size heq) (by decide)
  subst hplace
  refine ⟨ByteArray.empty, fs'', ?_, hlook⟩
  unfold deliver
  simp only [hprepare, hmakes, hok]

end Delivers

end WorstCase.Files
