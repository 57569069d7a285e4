import WorstCase.Proofs.Files.Delivery

/-!
# Trees without links

In a tree without links a path leads where its text says, if it leads anywhere
(`Files.Unlinked.place_eq_of_locate`). What is delivered to a path gets there
(`Files.Unlinked.place_eq_of_reaches`), and the directories that are made for it are on the way
(`Files.Unlinked.prefix_of_makes`).
-/

namespace WorstCase.Files

open WorstCase.Path (IsName)

variable {fs fs' : Files} {purpose : Purpose} {n : Nat} {absolute : Bool} {path x : String}
  {here place todo cs names q : List String} {entry : Option FileEntry}

/-! ### Where texts lead -/

/-- Where components lead from a directory, by their text. -/
def descend (here : List String) : List String → List String
  | [] => here
  | c :: rest =>
    if c = "" ∨ c = "." then descend here rest
    else if c = ".." then descend here.dropLast rest
    else descend (here ++ [c]) rest

/-- Where a path leads, by its text. -/
def placeOf (here : List String) (path : String) : List String :=
  descend (origin (Path.isAbsolute path) here) (Path.components path)

theorem descend_stay {c : String} (hc : c = "" ∨ c = ".") (here rest : List String) :
    descend here (c :: rest) = descend here rest := by
  rw [descend, if_pos hc]

theorem descend_up (here rest : List String) :
    descend here (".." :: rest) = descend here.dropLast rest := by
  rw [descend, if_neg (by decide), if_pos rfl]

theorem descend_name {c : String} (hc : IsName c) (here rest : List String) :
    descend here (c :: rest) = descend (here ++ [c]) rest := by
  obtain ⟨hempty, hdot, hup⟩ := hc
  rw [descend, if_neg (by simp [hempty, hdot]), if_neg hup]

theorem descend_names (hnames : ∀ c ∈ names, IsName c) (here : List String) :
    descend here names = here ++ names := by
  induction names generalizing here with
  | nil => exact (List.append_nil here).symm
  | cons c names ih =>
    rw [List.forall_mem_cons] at hnames
    rw [descend_name hnames.1, ih hnames.2, List.append_assoc, List.singleton_append]

theorem descend_append (here xs ys : List String) :
    descend here (xs ++ ys) = descend (descend here xs) ys := by
  induction xs generalizing here with
  | nil => rfl
  | cons c xs ih =>
    rcases Path.component_cases c with hc | rfl | hc
    · rw [List.cons_append, descend_stay hc, descend_stay hc, ih]
    · rw [List.cons_append, descend_up, descend_up, ih]
    · rw [List.cons_append, descend_name hc, descend_name hc, ih]

theorem descend_of_all (h : todo.all (· = "") = true) (here : List String) :
    descend here todo = here := by
  induction todo with
  | nil => rfl
  | cons c todo ih =>
    rw [List.all_cons, Bool.and_eq_true, decide_eq_true_eq] at h
    rw [descend_stay (.inl h.1), ih h.2]

theorem placeOf_ofComponents (htidy : Path.Tidy absolute cs) (hne : cs ≠ []) :
    placeOf here (Path.ofComponents absolute cs) = descend (origin absolute here) cs := by
  rw [placeOf, Path.isAbsolute_ofComponents htidy.ne_empty,
    Path.components_ofComponents htidy.ne_empty hne]
  cases absolute
  · rfl
  · exact descend_stay (.inl rfl) _ _

/-! ### Where paths lead -/

/-- A tree without links. -/
def Unlinked (fs : Files) : Prop := ∀ q target, fs.entry? q ≠ some (.link target)

namespace Unlinked

theorem of_entries (h : ∀ p ∈ fs.entries, p.2.kind ≠ .other) : fs.Unlinked := by
  intro q target hq
  by_cases hnil : q = []
  · rw [hnil, entry?_nil] at hq
    exact absurd hq (by simp)
  · exact h _ (mem_of_entry_eq_some hnil hq) rfl

/-- Growing adds no links. -/
theorem grows {made written : Set (List String)} (h : fs.Unlinked)
    (hgrows : Grows made written fs fs') : fs'.Unlinked := by
  intro q target hq
  rcases hold : fs.entry? q with _ | e
  · rcases hgrows.new hold hq with ⟨heq, -⟩ | ⟨⟨c, heq⟩, -⟩ <;> exact absurd heq (by simp)
  · obtain ⟨e', he', hkept⟩ := hgrows.kept hold
    obtain rfl := Option.some.inj (hq.symm.trans he')
    cases e with
    | file c =>
      obtain ⟨c', hc', -⟩ := hkept
      exact absurd hc' (by simp)
    | directory => exact absurd hkept (by simp [FileEntry.KeptAs])
    | link target' => exact h q target' hold

theorem place_eq_of_arrives (h : fs.Unlinked) {l : Location}
    (harrives : Arrives fs purpose n here todo l) : l.place = descend here todo := by
  induction harrives with
  | nil => rfl
  | stay hc _ ih => rw [descend_stay hc, ih]
  | up _ ih => rw [descend_up, ih]
  | nothing hpass _ hrest => rw [descend_name hpass.isName, descend_of_all hrest]
  | file hpass _ hrest =>
    rw [descend_name hpass.isName, descend_of_all]
    rcases hrest with hnil | ⟨hall, -⟩
    · rw [List.isEmpty_iff.mp hnil]
      rfl
    · exact hall
  | down hpass _ _ ih => rw [descend_name hpass.isName, ih]
  | stop _ hentry _ => exact absurd hentry (h _ _)
  | link _ hentry _ _ _ => exact absurd hentry (h _ _)

theorem place_eq_of_walk (h : fs.Unlinked)
    (hwalk : fs.walk purpose n here todo = .ok ⟨place, entry⟩) : place = descend here todo :=
  h.place_eq_of_arrives (arrives_of_walk hwalk)

/-- **A path leads where its text says.** -/
theorem place_eq_of_locate (h : fs.Unlinked)
    (hlocate : fs.locate purpose here path = .ok ⟨place, entry⟩) : place = placeOf here path := by
  rw [locate_of_isPath (isPath_of_locate hlocate)] at hlocate
  exact h.place_eq_of_walk hlocate

theorem straight (h : fs.Unlinked) (here : List String) (path : String) :
    fs.Straight here path := by
  intro cs _ q target hwalk
  exact absurd (entry?_of_walk hwalk (by simp)).2 (h q target)

/-! ### Delivering -/

/-- **What is delivered** gets where the text of the path says. -/
theorem place_eq_of_reaches (h : fs.Unlinked) (hreaches : fs.Reaches here path place) :
    place = placeOf here path := by
  obtain ⟨contents, fs', hdeliver, hlocate⟩ := hreaches
  obtain ⟨_, -, hgrows⟩ := deliver_ok hdeliver
  exact (h.grows hgrows).place_eq_of_locate hlocate

/-- **What is made for a file** is on the way to it. -/
theorem prefix_of_makes (h : fs.Unlinked) (hfs : fs.WellFormed)
    (htidy : Path.Tidy absolute (cs ++ [x]))
    (hmakes : fs.Makes here (Path.ofComponents absolute (cs ++ [x])) q) :
    q <+: placeOf here (Path.ofComponents absolute (cs ++ [x])) := by
  obtain ⟨hnew, hmade⟩ := hmakes
  rw [placeOf_ofComponents htidy (by simp)]
  have hends : Ending fs maxLinks (origin absolute here) (cs ++ [x]) :=
    ending fs maxLinks _ fun c hc => (htidy.ne_empty c hc).1
  generalize hall : cs ++ [x] = all at hends
  cases hends with
  | whole hsolid =>
    have hprepare := prepare_solid (.refl ∅ ∅ fs) htidy
      (Solid.of_append (hall ▸ hsolid : Solid fs (origin absolute here) (cs ++ [x])))
    rw [hprepare] at hmade
    exact absurd (hnew.symm.trans hmade) (by simp)
  | @missing pre post d c n' hway hc hlength hentry =>
    -- from the first thing that is missing on there are names only
    have hnames : ∀ y ∈ c :: post, IsName y := List.forall_mem_cons.mpr
      ⟨hc, Path.Tidy.isName_of_append (hall ▸ htidy) hc⟩
    rw [hall] at hmade htidy
    obtain ⟨names, y, hsplit⟩ := (List.eq_nil_or_concat' (c :: post)).resolve_left (by simp)
    have hd := h.place_eq_of_walk hway.walk_look
    rw [descend_append, ← hd, descend_names hnames, hsplit]
    rw [hsplit] at hmade htidy
    have hopen : fs.Open absolute pre d names := by
      rintro q ⟨xs, hxs, hne, -, rfl⟩
      obtain ⟨z, xs, rfl⟩ := List.exists_cons_of_ne_nil hne
      have hz := hxs.trans (List.prefix_append names [y])
      rw [← hsplit] at hz
      obtain ⟨rfl, -⟩ := List.cons_prefix_cons.mp hz
      rw [List.append_cons]
      exact .inl (hfs.entry?_append hentry xs)
    obtain ⟨r, -, -, hprepare⟩ := prepare_corridor
      (fun z hz => hnames z (hsplit ▸ List.mem_append_left _ hz)) htidy hway
    obtain ⟨fs'', hfs'', hmadeAt⟩ := hprepare (.refl ∅ ∅ fs) hopen
    rw [hfs''] at hmade
    by_cases hq : q ∈ corridor absolute pre d names
    · obtain ⟨xs, hxs, -, -, rfl⟩ := hq
      exact (List.prefix_append_right_inj d).mpr (hxs.trans (List.prefix_append _ _))
    · rw [(hmadeAt q).2 hq, hnew] at hmade
      exact absurd hmade (by simp)
  | dangling hway hc hlength hentry => exact absurd hentry (h _ _)

end Unlinked

end WorstCase.Files
