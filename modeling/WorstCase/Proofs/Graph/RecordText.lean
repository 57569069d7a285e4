import WorstCase.Proofs.Graph.Insertion
import WorstCase.Proofs.Graph.Reordered
import WorstCase.Proofs.Text.Blank

/-!
# Blanks around records

A listing is trimmed before it is cut into records, so a record loses the blanks behind it when it
moves to the end. What is read from the record stays the same: its **gist** (`Record.Gist`), which
is all that blocks and edges are made of. A record is read with and without the blanks around it, or
in neither form, and with the same gist (`Record.read_trim`).

A declared dominator that is blank counts as none. Neither names a block, since variables are never
empty (`Record.read_spec`).

`Record.texts` are the records of a text without the blanks around them. If the text was made by
putting a marker before each of some bodies, then these are its records (`Record.texts_join`).
-/

namespace WorstCase

namespace Record

variable {blanks : List Char} {r : Record}

/-! ### Bodies with blanks behind them -/

/-- **The label of a body** does not depend on the blanks behind it. -/
theorem labelOf?_append_blank (h : Text.isBlankText blanks = true) (body : List Char) :
    labelOf? (body ++ blanks) = labelOf? body := by
  rw [labelOf?, labelOf?, show "<label>:".toList = "<label>".toList ++ [':'] from rfl]
  rcases Text.cut?_append_blank "<label>".toList h (l := ':') (by decide) body with
    ⟨before, after, hs, hb⟩ | ⟨hs, hb | ⟨hblank, -⟩⟩
  · simp only [hs, hb, Text.words_append_blank h]
  · -- the second line holds the label
    have hline := Text.cut?_takeWhile_append_blank [] h (l := '\n') (o := ':') (by decide)
      (by decide) body
    rw [List.nil_append] at hline
    simp only [hs, hb]
    rcases hline with ⟨before, after, after', more, hs, hb, hmore, htake⟩ |
      ⟨hs, hb | ⟨before, after, hb, hblank⟩⟩
    · simp only [hs, hb, htake, Text.trim_append_blank hmore]
    · simp only [hs, hb]
    · simp only [hs, hb, Text.trim_of_blank hblank]
  · exact absurd hblank (by decide)

/-- **The labels that a branch names** do not depend on the blanks behind it. -/
theorem targets_append_blank (h : Text.isBlankText blanks = true) (body : List Char) :
    targets (body ++ blanks) = targets body := by
  have hline : ∀ line more, Text.isBlankText more = true →
      (Text.pieces "label".toList (line ++ more)).filterMap target? =
        (Text.pieces "label".toList line).filterMap target? := by
    intro line more hmore
    obtain ⟨ps, p, hs, hb⟩ :=
      Text.pieces_append_blank "labe".toList (l := 'l') hmore (by decide) (by decide) line
    have htarget : target? (p ++ more) = target? p := by
      rw [target?, Text.trim_append_blank hmore, target?]
    rw [show "label".toList = "labe".toList ++ ['l'] from rfl, hs, hb, List.filterMap_append,
      List.filterMap_append, List.filterMap_cons, List.filterMap_cons, htarget]
  rw [targets, targets, show "br ".toList = "br".toList ++ [' '] from rfl]
  rcases Text.cut?_takeWhile_append_blank "br".toList h (l := ' ') (o := '\n') (by decide)
    (by decide) body with ⟨before, after, after', more, hs, hb, hmore, htake⟩ |
      ⟨hs, hb | ⟨before, after, hb, hblank⟩⟩
  · simp only [hs, hb, Text.firstLine, htake, hline _ _ hmore]
  · simp only [hs, hb]
  · -- the branch stands in the blanks and names nothing
    simp only [hs, hb, Text.firstLine]
    exact hline [] _ hblank

/-- **The declared dominator** does not depend on the blanks behind it, unless it is blank. -/
theorem dominatorName?_append_blank (h : Text.isBlankText blanks = true) (r : Record) :
    ({ r with body := r.body ++ blanks }.dominatorName?).filter (· ≠ []) =
      r.dominatorName?.filter (· ≠ []) := by
  rw [dominatorName?, dominatorName?,
    show "Dominator = ".toList = "Dominator =".toList ++ [' '] from rfl]
  rcases Text.cut?_takeWhile_append_blank "Dominator =".toList h (l := ' ') (o := '\n') (by decide)
    (by decide) r.body with ⟨before, after, after', more, hs, hb, hmore, htake⟩ |
      ⟨hs, hb | ⟨before, after, hb, hblank⟩⟩
  · simp only [hs, hb, Option.map_some, Text.firstLine, htake, Text.trim_append_blank hmore]
  · simp only [hs, hb]
  · simp only [hs, hb, Option.map_some, Option.map_none, Text.firstLine, Text.trim_of_blank hblank]
    rfl

/-! ### Gists -/

/-- What is read from a record. -/
structure Gist where
  name : List Char
  label : List Char
  cost : Option (List Char)
  dominator : Option (List Char)
  targets : List (List Char)

/-- The gist of a record. -/
def gist (r : Record) : Gist where
  name := r.name
  label := r.label
  cost := (Text.words r.body).head?
  dominator := r.dominatorName?.filter (· ≠ [])
  targets := targets r.body

theorem gist_append_blank (h : Text.isBlankText blanks = true) (r : Record) :
    { r with body := r.body ++ blanks }.gist = r.gist := by
  rw [gist, gist, dominatorName?_append_blank h, targets_append_blank h, Text.words_append_blank h]

/-- **A record is read in the same way without the blanks around it.** -/
theorem read_trim (text : List Char) :
    EndAlike (fun r r' => r'.gist = r.gist) (read (Text.trim text)) (read text) := by
  obtain ⟨leading, trailing, hleading, htrailing, hcut⟩ :=
    Text.exists_cut?_trim (o := ':') (by decide) (by decide) text
  rw [read, read, hcut]
  rcases Text.cut? [':'] (Text.trim text) with _ | ⟨before, body⟩
  · exact .error _ _
  simp only [Option.map_some, Text.trim_blank_append hleading, labelOf?_append_blank htrailing]
  rcases uidOfVariable? (Text.trim before) with _ | uid
  · exact .error _ _
  rcases labelOf? body with _ | label
  · exact .error _ _
  · exact .ok (gist_append_blank htrailing ⟨_, _, _⟩)

/-! ### Records that are read -/

/-- The variable of a record that is read, and it is not empty. -/
theorem read_spec {text : List Char} (h : read text = .ok r) :
    (∃ before, Text.cut? [':'] text = some (before, r.body) ∧ r.name = Text.trim before) ∧
      r.name ≠ [] := by
  unfold read at h
  split at h
  · simp at h
  rename_i before body hcut
  dsimp only at h
  split at h
  · simp at h
  rename_i uid huid
  split at h
  · simp at h
  obtain rfl := Except.ok.inj h
  refine ⟨⟨before, hcut, rfl⟩, fun hname => ?_⟩
  dsimp only at hname
  rw [hname] at huid
  exact nomatch huid

/-! ### Texts of records -/

/-- The records of a text, without the blanks around them. -/
def texts (text : List Char) : List (List Char) :=
  ((Text.pieces marker (Text.trim text)).filter fun t => !Text.isBlankText t).map Text.trim

/-- Whether a record names the start or the end: its variable holds `bd_`. -/
def namesEndpoint (text : List Char) : Bool :=
  match Text.cut? [':'] text with
  | some (before, _) => Text.occursIn dominantMark (Text.trim before)
  | none => false

/-- A text that is made of records. -/
def join (bodies : List (List Char)) : List Char :=
  bodies.flatMap (marker ++ ·)

/-- What may stand behind a marker: a text that is not blank and has no other marker. -/
structure IsBody (t : List Char) : Prop where
  not_blank : Text.isBlankText t = false
  no_marker : ¬ marker <:+: t

theorem namesEndpoint_trim (t : List Char) : namesEndpoint (Text.trim t) = namesEndpoint t := by
  obtain ⟨leading, trailing, hleading, -, hcut⟩ :=
    Text.exists_cut?_trim (o := ':') (by decide) (by decide) t
  rw [namesEndpoint, namesEndpoint, hcut]
  rcases Text.cut? [':'] (Text.trim t) with _ | ⟨before, after⟩
  · rfl
  · simp only [Option.map_some, Text.trim_blank_append hleading]

theorem pieces_append_join {bodies : List (List Char)} (h : ∀ t ∈ bodies, ¬ marker <:+: t)
    {t : List Char} (ht : ¬ marker <:+: t) :
    Text.pieces marker (t ++ join bodies) = t :: bodies := by
  induction bodies generalizing t with
  | nil =>
    rw [join, List.flatMap_nil, List.append_nil]
    exact Text.pieces_eq_singleton ht
  | cons t' bodies ih =>
    rw [List.forall_mem_cons] at h
    have hmarker : marker = "BasicBlock".toList ++ [' '] := rfl
    have hnext := Text.pieces_append_sep (show ' ' ∉ "BasicBlock".toList by decide) ht
      (t' ++ join bodies)
    rw [← hmarker, ih h.2 h.1] at hnext
    rw [← hnext, join, List.flatMap_cons, ← join, List.append_assoc]

/-- A text of records loses what is blank behind its last record. -/
theorem exists_trim_join (bodies : List (List Char)) {t : List Char}
    (ht : Text.isBlankText t = false) :
    ∃ t' trailing, Text.isBlankText trailing = true ∧ t = t' ++ trailing ∧
      Text.trim (join (bodies ++ [t])) = join (bodies ++ [t']) := by
  have hjoin : ∀ t, join (bodies ++ [t]) = join bodies ++ "BasicBlock".toList ++ ' ' :: t := by
    intro t
    rw [join, List.flatMap_append, ← join, List.flatMap_singleton, List.append_assoc]
    rfl
  have hnot : ∀ {x}, ¬ Text.isBlankText (x ++ ' ' :: t) = true := fun {x} hblank => by
    rw [Text.isBlankText_append_cons (by decide), ht] at hblank
    exact absurd hblank.2.2 (by simp)
  obtain ⟨leading, trailing, hleading, htrailing, heq⟩ :=
    Text.exists_eq_trim (join (bodies ++ [t]))
  have hnil : leading = [] := by
    obtain ⟨s, hs⟩ : ∃ s, join (bodies ++ [t]) = 'B' :: s := by cases bodies <;> exact ⟨_, rfl⟩
    rcases leading with _ | ⟨c, leading⟩
    · rfl
    · rw [hs] at heq
      obtain rfl := (List.cons.inj heq).1
      exact absurd (Text.isBlank_of_mem hleading List.mem_cons_self (by decide)) (by decide)
  rw [hnil, List.nil_append] at heq
  rcases List.append_eq_append_iff.mp ((hjoin t).symm.trans heq) with
    ⟨rest, htrim, ht'⟩ | ⟨rest, -, hrest⟩
  · cases rest with
    | nil =>
      rw [List.nil_append] at ht'
      exact absurd (ht' ▸ htrailing) (hnot (x := []))
    | cons c t' =>
      obtain ⟨rfl, hlast⟩ := List.cons.inj ht'
      exact ⟨t', trailing, htrailing, hlast, by rw [htrim, hjoin]⟩
  · exact absurd (hrest ▸ htrailing) hnot

/-- **The records that a text is made of** are its records. -/
theorem texts_join {bodies : List (List Char)} (h : ∀ t ∈ bodies, IsBody t) :
    texts (join bodies) = bodies.map Text.trim := by
  obtain rfl | ⟨bodies, t, rfl⟩ := List.eq_nil_or_concat' bodies
  · rfl
  have ht := h t (by simp)
  obtain ⟨t', trailing, htrailing, rfl, htrim⟩ := exists_trim_join bodies ht.not_blank
  have hlast : IsBody t' := by
    refine ⟨?_, fun hocc => ht.no_marker (hocc.trans (List.prefix_append _ _).isInfix)⟩
    have hblank := ht.not_blank
    rw [Text.isBlankText, Text.symbols_append_blank htrailing, List.all_append,
      ← Text.isBlankText, ← Text.isBlankText, htrailing, Bool.and_true] at hblank
    exact hblank
  have hall : ∀ x ∈ bodies ++ [t'], IsBody x := fun x hx => by
    rcases List.mem_append.mp hx with hx | hx
    · exact h x (List.mem_append_left _ hx)
    · exact List.mem_singleton.mp hx ▸ hlast
  have hpieces : Text.pieces marker (join (bodies ++ [t'])) = [] :: (bodies ++ [t']) :=
    pieces_append_join (t := []) (fun x hx => (hall x hx).no_marker) (by decide)
  have hkept : (bodies ++ [t']).filter (fun x => !Text.isBlankText x) = bodies ++ [t'] :=
    List.filter_eq_self.mpr fun x hx => by rw [(hall x hx).not_blank]; rfl
  rw [texts, htrim, hpieces, List.filter_cons_of_neg (by decide), hkept]
  simp [Text.trim_append_blank htrailing]

end Record

end WorstCase
