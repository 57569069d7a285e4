import WorstCase.Proofs.Graph.RecordOrder
import WorstCase.Proofs.Text.Decimal
import WorstCase.Proofs.Text.Pieces

/-!
# Blocks written as records

An **outline** is what a listing says of one block: its variable, its cost, its label, its declared
dominator and how it ends. `Outline.render` writes outlines as the records of a listing, four lines
each.

What is read of such a record is what was written (`Outline.read_text`). The parser looks for
markers in the raw text, so every step asks why a marker is not found too early: what stands before
it lacks one of its characters. A label holds no blank, so it holds none of the markers that end in
one; a variable holds a digit, `b`, `d` or an underscore at every place; and where labels stand in a
row, each of them is followed by a comma or a line break.
-/

namespace WorstCase

namespace Outline

/-! ### What is written -/

/-- A name of a block or a condition: letters, digits, underscores and dots, and nowhere the letters
that introduce the target of a branch. -/
structure Label where
  chars : List Char
  ne_nil : chars ≠ []
  allowed : chars.all (fun c => c.isAlphanum || c = '_' || c = '.') = true
  no_label : ¬ "label".toList <:+: chars
deriving DecidableEq

/-- A block variable: `bd_` for the start and the end, `b_` for all others, and the uid. -/
structure Variable where
  dominant : Bool
  uid : Nat
  fits : uid < 2 ^ 63
deriving DecidableEq

/-- How a block ends. -/
inductive Exit where
  /-- Control goes to one block. -/
  | jump (target : Label)
  /-- Control goes to one of some blocks. -/
  | branch (condition : Label) (targets : List Label)
  | leave
deriving DecidableEq

end Outline

/-- What a listing says of a block. -/
structure Outline where
  var : Outline.Variable
  cost : Int64
  label : Outline.Label
  /-- The variable of the declared dominator, if there is one. -/
  dominator : Option Outline.Variable
  exit : Outline.Exit
deriving DecidableEq

namespace Outline

/-- A block variable as it is written. -/
def Variable.text (v : Variable) : List Char :=
  (if v.dominant then "bd_" else "b_").toList ++ Decimal.chars v.uid

/-- The declared dominator as it is written. -/
def dominatorText (o : Outline) : List Char :=
  match o.dominator with
  | some v => v.text
  | none => "NULL".toList

/-- The targets of a branch behind its condition. -/
def operands (xs : List Label) : List Char :=
  xs.flatMap fun x => ", label %".toList ++ x.chars

namespace Exit

/-- The last line of a block. -/
def line : Exit → List Char
  | .jump x => "  br label %".toList ++ x.chars
  | .branch c xs => "  br i1 %".toList ++ (c.chars ++ operands xs)
  | .leave => "  ret void".toList

/-- The labels of the blocks to which control may go. -/
def targets : Exit → List Label
  | .jump x => [x]
  | .branch _ xs => xs
  | .leave => []

end Exit

/-- The lines of a block, the first of them behind its variable. -/
def lines (o : Outline) : List (List Char) :=
  [' ' :: Decimal.chars o.cost.toInt, o.label.chars ++ [':'],
    "  Dominator = ".toList ++ o.dominatorText, o.exit.line]

/-- What stands behind the variable of a block. -/
def body (o : Outline) : List Char :=
  o.lines.flatMap (· ++ ['\n'])

/-- A block as it is written behind the marker of its record. -/
def text (o : Outline) : List Char :=
  o.var.text ++ ':' :: o.body

/-- A listing of blocks. -/
def render (os : List Outline) : List Char :=
  os.flatMap fun o => "BasicBlock ".toList ++ o.text

/-- What is read of a block. -/
def gist (o : Outline) : Record.Gist where
  name := o.var.text
  label := o.label.chars
  cost := some (Decimal.chars o.cost.toInt)
  dominator := some o.dominatorText
  targets := o.exit.targets.map (·.chars)

/-! ### The characters of labels and variables -/

theorem plain_of_isAlphanum {c : Char} (h : c.isAlphanum = true) :
    c.toNat < 128 ∧ Text.isBlank c = false := by
  have hrange : 48 ≤ c.toNat ∧ c.toNat ≤ 122 := by
    change ((decide ('A'.val ≤ c.val ∧ c.val ≤ 'Z'.val) ||
      (decide ('a'.val ≤ c.val) && decide (c.val ≤ 'z'.val))) ||
      (decide ('0'.val ≤ c.val) && decide (c.val ≤ '9'.val))) = true at h
    simp only [Bool.or_eq_true, Bool.and_eq_true, decide_eq_true_eq, UInt32.le_iff_toNat_le] at h
    rcases h with (⟨hl, hu⟩ | ⟨hl, hu⟩) | ⟨hl, hu⟩ <;>
      exact ⟨le_trans (by decide) hl, le_trans hu (by decide)⟩
  refine ⟨by omega, ?_⟩
  simp only [Text.isBlank, Bool.or_eq_false_iff, Bool.and_eq_false_iff, decide_eq_false_iff_not,
    beq_eq_false_iff_ne]
  omega

theorem plain_of_isDigit {c : Char} (h : c.isDigit = true) :
    c.toNat < 128 ∧ Text.isBlank c = false :=
  plain_of_isAlphanum ((congrArg (c.isAlpha || ·) h).trans (Bool.or_true _))

namespace Label

variable {x : Label} {c : Char}

theorem mem_chars (h : c ∈ x.chars) : c.isAlphanum = true ∨ c = '_' ∨ c = '.' := by
  simpa [or_assoc] using List.all_eq_true.mp x.allowed c h

theorem plain (x : Label) : ∀ c ∈ x.chars, c.toNat < 128 ∧ Text.isBlank c = false := by
  intro c hc
  rcases mem_chars hc with h | rfl | rfl
  · exact plain_of_isAlphanum h
  · decide
  · decide

/-- No other character is in a label. -/
theorem notMem (x : Label) (h : c.isAlphanum = false) (h' : c ≠ '_') (h'' : c ≠ '.') :
    c ∉ x.chars := fun hc => by
  rcases mem_chars hc with hc | hc | hc
  · exact absurd hc (by simp [h])
  · exact h' hc
  · exact h'' hc

/-- A marker with a blank is in no label. -/
theorem not_infix (x : Label) {marker : List Char} (h : ' ' ∈ marker) : ¬ marker <:+: x.chars :=
  Text.not_infix_of_notMem h (x.notMem (by decide) (by decide) (by decide))

end Label

namespace Variable

variable {v w : Variable} {c : Char}

theorem mem_text (h : c ∈ v.text) : c ∈ ['b', 'd', '_'] ∨ c.isDigit = true := by
  refine (List.mem_append.mp h).imp (fun hc => ?_) fun hc =>
    Decimal.isDigit_of_mem_chars (Int.natCast_nonneg _) hc
  split at hc
  · exact hc
  · exact List.mem_of_mem_erase (show c ∈ ['b', 'd', '_'].erase 'd' from hc)

theorem plain (v : Variable) : ∀ c ∈ v.text, c.toNat < 128 ∧ Text.isBlank c = false := by
  intro c hc
  have hletters : ∀ d ∈ ['b', 'd', '_'], d.toNat < 128 ∧ Text.isBlank d = false :=
    @of_decide_eq_true _ (List.decidableBAll _ _) rfl
  exact (mem_text hc).elim (hletters c) plain_of_isDigit

theorem notMem (v : Variable) (h : c.isDigit = false) (h' : c ∉ ['b', 'd', '_']) : c ∉ v.text :=
  fun hc => (mem_text hc).elim h' (by simp [h])

/-- **The uid of a variable** is read from it. -/
theorem uidOfVariable?_text (v : Variable) : uidOfVariable? v.text = some (v.uid : Int) := by
  have hdigit : ∀ c ∈ Decimal.chars (v.uid : Int), decide (c ≠ '_') = true := by
    intro c hc
    have hc' := Decimal.isDigit_of_mem_chars (Int.natCast_nonneg _) hc
    refine decide_eq_true ?_
    rintro rfl
    exact absurd hc' (by decide)
  have hfits : Decimal.fits64 (v.uid : Int) = true := by
    have hlt := v.fits
    rw [Decimal.fits64, Bool.and_eq_true, decide_eq_true_eq, decide_eq_true_eq]
    omega
  have hdrop : v.text.dropWhile (· ≠ '_') = '_' :: Decimal.chars v.uid := by
    rw [text]
    split <;> rfl
  have htake : (Decimal.chars (v.uid : Int)).takeWhile (· ≠ '_') = Decimal.chars v.uid :=
    List.takeWhile_eq_self_iff.mpr hdigit
  rw [uidOfVariable?, hdrop]
  simp only [htake, Decimal.readInt64?_chars hfits]

theorem text_injective (h : v.text = w.text) : v = w := by
  have huid : (v.uid : Int) = w.uid := by
    have hread := v.uidOfVariable?_text
    rw [h, w.uidOfVariable?_text] at hread
    exact (Option.some_inj.mp hread).symm
  have hdominant : v.dominant = w.dominant := by
    rw [text, text, huid] at h
    have hprefix := List.append_cancel_right h
    revert hprefix
    cases v.dominant <;> cases w.dominant <;> decide
  cases v
  cases w
  obtain rfl := Int.ofNat_inj.mp huid
  obtain rfl : _ = _ := hdominant
  rfl

theorem text_of_dominant (h : v.dominant = true) :
    v.text = Record.dominantMark ++ Decimal.chars v.uid := by
  rw [text, h]
  rfl

theorem text_ne_nil (v : Variable) : v.text ≠ [] :=
  List.append_ne_nil_of_right_ne_nil _ (Decimal.chars_ne_nil _)

/-- Only the variables of the start and the end hold the mark of these. -/
theorem occursIn_text (v : Variable) :
    Text.occursIn Record.dominantMark v.text = v.dominant := by
  have hne : Record.dominantMark ≠ [] := by decide
  rw [Text.occursIn_eq]
  cases hd : v.dominant with
  | true =>
    rw [text_of_dominant hd, Text.cut?_append_self hne]
    rfl
  | false =>
    have hnone : 'd' ∉ v.text := by
      rw [text, hd, List.mem_append, not_or]
      refine ⟨by decide, fun hmem => ?_⟩
      exact absurd (Decimal.isDigit_of_mem_chars (Int.natCast_nonneg _) hmem) (by decide)
    rw [(Text.cut?_eq_none_iff hne).mpr (Text.not_infix_of_notMem (by decide) hnone)]
    rfl

end Variable

variable {o : Outline} {xs : List Label} {c : Char}

/-! ### The characters of lines -/

theorem costLine_notMem (o : Outline) (h : c.isDigit = false) (h' : c ∉ [' ', '-']) :
    c ∉ ' ' :: Decimal.chars o.cost.toInt := by
  rw [List.mem_cons, List.mem_singleton, not_or] at h'
  rw [List.mem_cons, not_or]
  exact ⟨h'.1, fun hc => (Decimal.mem_chars hc).elim h'.2 (by simp [h])⟩

theorem labelLine_notMem (o : Outline) (h : c.isAlphanum = false) (h' : c ∉ ['_', '.', ':']) :
    c ∉ o.label.chars ++ [':'] := by
  simp only [List.mem_cons, List.not_mem_nil, or_false, not_or] at h'
  rw [List.mem_append, List.mem_singleton, not_or]
  exact ⟨o.label.notMem h h'.1 h'.2.1, h'.2.2⟩

theorem cost_plain (o : Outline) :
    ∀ c ∈ Decimal.chars o.cost.toInt, c.toNat < 128 ∧ Text.isBlank c = false := by
  intro c hc
  rcases Decimal.mem_chars hc with rfl | hc
  · decide
  · exact plain_of_isDigit hc

theorem dominatorText_plain (o : Outline) :
    ∀ c ∈ o.dominatorText, c.toNat < 128 ∧ Text.isBlank c = false := by
  unfold dominatorText
  split
  · exact Variable.plain _
  · exact @of_decide_eq_true _ (List.decidableBAll _ _) rfl

theorem dominatorText_notMem (o : Outline) (h : c.isDigit = false) (h' : c ∉ ['b', 'd', '_'])
    (hnull : c ∉ "NULL".toList) : c ∉ o.dominatorText := by
  unfold dominatorText
  split
  · exact Variable.notMem _ h h'
  · exact hnull

theorem dominatorText_ne_nil (o : Outline) : o.dominatorText ≠ [] := by
  unfold dominatorText
  split
  · exact Variable.text_ne_nil _
  · decide

/-- A character that is in no label, and not around the targets either. -/
theorem operands_notMem (h : c.isAlphanum = false) (h' : c ≠ '_') (h'' : c ≠ '.')
    (haround : c ∉ ", label %".toList) : c ∉ operands xs := by
  intro hc
  obtain ⟨x, -, hx⟩ := List.mem_flatMap.mp hc
  exact (List.mem_append.mp hx).elim haround (x.notMem h h' h'')

theorem exit_notMem (o : Outline) (h : c.isAlphanum = false) (h' : c ≠ '_') (h'' : c ≠ '.')
    (haround : c ∉ ", label %".toList) : c ∉ o.exit.line := by
  intro hc
  unfold Exit.line at hc
  have hletter : ∀ {ds : List Char}, c ∈ ds →
      ds.all (fun d => d.isAlphanum || ", label %".toList.contains d) = true → False := by
    intro ds hds hall
    have hletter := List.all_eq_true.mp hall c hds
    rw [h, Bool.false_or, List.contains_iff_mem] at hletter
    exact haround hletter
  split at hc
  · rcases List.mem_append.mp hc with hc | hc
    · exact hletter hc (by decide)
    · exact Label.notMem _ h h' h'' hc
  · rcases List.mem_append.mp hc with hc | hc
    · exact hletter hc (by decide)
    · rcases List.mem_append.mp hc with hc | hc
      · exact Label.notMem _ h h' h'' hc
      · exact operands_notMem h h' h'' haround hc
  · exact hletter hc (by decide)

/-! ### What is read of the lines -/

/-- The lines of a block one by one. -/
theorem body_eq (o : Outline) :
    o.body = (' ' :: Decimal.chars o.cost.toInt) ++ '\n' :: (o.label.chars ++ ':' :: '\n' ::
      ("  Dominator = ".toList ++ (o.dominatorText ++ '\n' :: (o.exit.line ++ ['\n'])))) := by
  simp [body, lines]

/-- The cost is the first word. -/
theorem head?_words_body (o : Outline) :
    (Text.words o.body).head? = some (Decimal.chars o.cost.toInt) := by
  have hcost := Text.words_of_plain o.cost_plain (Decimal.chars_ne_nil _)
  have hspace := Text.words_append_cons (o := ' ') (by decide) (by decide) []
    (Decimal.chars o.cost.toInt)
  rw [List.nil_append, Text.words_nil, List.nil_append, hcost] at hspace
  rw [body_eq, Text.words_append_cons (by decide) (by decide), hspace]
  rfl

/-- The label is what stands before the colon on the second line. -/
theorem labelOf?_body (o : Outline) : Record.labelOf? o.body = some o.label.chars := by
  have hbracket : '<' ∉ o.body := by
    intro hmem
    obtain ⟨l, hl, hmem⟩ := List.mem_flatMap.mp hmem
    have hmem := (List.mem_append.mp hmem).resolve_right (by decide)
    simp only [lines, List.mem_cons, List.not_mem_nil, or_false] at hl
    rcases hl with rfl | rfl | rfl | rfl
    · exact o.costLine_notMem (by decide) (by decide) hmem
    · exact o.labelLine_notMem (by decide) (by decide) hmem
    · exact (List.mem_append.mp hmem).elim (by decide)
        (o.dominatorText_notMem (by decide) (by decide) (by decide))
    · exact o.exit_notMem (by decide) (by decide) (by decide) (by decide) hmem
  have hcomment : Text.cut? "<label>:".toList o.body = none :=
    (Text.cut?_eq_none_iff (by decide)).mpr (Text.not_infix_of_notMem (by decide) hbracket)
  have hbreak : '\n' ∉ ' ' :: Decimal.chars o.cost.toInt :=
    o.costLine_notMem (by decide) (by decide)
  have hcolon : ∀ c ∈ o.label.chars, decide (c ≠ ':') = true := by
    intro c hc
    refine decide_eq_true ?_
    rintro rfl
    exact o.label.notMem (by decide) (by decide) (by decide) hc
  rw [Record.labelOf?, hcomment, body_eq]
  simp only [Text.cut?_append_cons_self hbreak, List.takeWhile_append_of_pos hcolon]
  rw [List.takeWhile_cons_of_neg (by decide), List.append_nil, Text.trim_of_plain o.label.plain,
    if_neg (by simpa using o.label.ne_nil)]

/-- The dominator is what stands behind its marker: no earlier line has both its first letter and
its blanks. -/
theorem dominatorName?_body {r : Record} (hr : r.body = o.body) :
    r.dominatorName? = some o.dominatorText := by
  have hearlier : ∀ l ∈ [' ' :: Decimal.chars o.cost.toInt, o.label.chars ++ [':']],
      ¬ "Dominator = ".toList <:+: l := by
    intro l hl
    rw [List.mem_cons, List.mem_singleton] at hl
    rcases hl with rfl | rfl
    · exact Text.not_infix_of_notMem (c := 'D') (by decide)
        (o.costLine_notMem (by decide) (by decide))
    · exact Text.not_infix_of_notMem (c := ' ') (by decide)
        (o.labelLine_notMem (by decide) (by decide))
  have hlines : o.body = [' ' :: Decimal.chars o.cost.toInt, o.label.chars ++ [':']].flatMap
      (· ++ ['\n']) ++ ("  ".toList ++ ("Dominator = ".toList ++
        (o.dominatorText ++ '\n' :: (o.exit.line ++ ['\n'])))) := by
    simp [body_eq]
  have hcut : (Text.cut? "Dominator = ".toList r.body).map Prod.snd =
      some (o.dominatorText ++ '\n' :: (o.exit.line ++ ['\n'])) := by
    rw [hr, hlines, Text.map_cut?_lines (by decide) (by decide) hearlier]
    rw [show "Dominator = ".toList = 'D' :: "ominator = ".toList from rfl,
      Text.cut?_append_of_notMem (by decide), Text.cut?_append_self (List.cons_ne_nil _ _)]
    rfl
  have hbreak : '\n' ∉ o.dominatorText :=
    o.dominatorText_notMem (by decide) (by decide) (by decide)
  obtain ⟨⟨before, after⟩, hfound, rfl⟩ := Option.map_eq_some_iff.mp hcut
  rw [Record.dominatorName?, hfound, Option.map_some]
  simp only [Text.firstLine_append_cons hbreak, Text.trim_of_plain o.dominatorText_plain]

/-! ### Targets -/

theorem Label.not_infix_operand (x : Label) : ¬ "label".toList <:+: " %".toList ++ x.chars := by
  have htext : " %".toList ++ x.chars = " ".toList ++ '%' :: x.chars := rfl
  rw [htext, Text.infix_append_cons_iff (by decide), not_or]
  exact ⟨by decide, x.no_label⟩

/-- The name of a target is read with and without the comma behind it. -/
theorem target?_operand (x : Label) : Record.target? (" %".toList ++ x.chars) = some x.chars ∧
    Record.target? (" %".toList ++ x.chars ++ ", ".toList) = some x.chars := by
  have hcomma : ',' ∉ x.chars := x.notMem (by decide) (by decide) (by decide)
  have hspace : Text.isBlankText " ".toList = true := by decide
  have htarget : ∀ {q s : List Char}, Text.trim q = '%' :: (x.chars ++ s) →
      Record.target? q = some (Text.dropSuffix [','] (x.chars ++ s)) := by
    intro q s hq
    obtain ⟨c, rest, hx⟩ := List.exists_cons_of_ne_nil x.ne_nil
    rw [Record.target?, hq, hx]
    rfl
  have hplain : ∀ c ∈ '%' :: x.chars, c.toNat < 128 ∧ Text.isBlank c = false :=
    List.forall_mem_cons.mpr ⟨by decide, x.plain⟩
  constructor
  · have htrim : Text.trim (" %".toList ++ x.chars) = '%' :: (x.chars ++ []) := by
      rw [List.append_nil, ← Text.trim_of_plain hplain]
      exact Text.trim_blank_append hspace _
    rw [htarget htrim, List.append_nil, Text.dropSuffix_of_not_suffix]
    exact fun h => hcomma (h.subset (List.mem_singleton_self _))
  · have htrim : Text.trim (" %".toList ++ x.chars ++ ", ".toList) =
        '%' :: (x.chars ++ [',']) := by
      have hplain' : ∀ c ∈ '%' :: (x.chars ++ [',']), c.toNat < 128 ∧ Text.isBlank c = false := by
        rw [← List.cons_append, List.forall_mem_append]
        exact ⟨hplain, List.forall_mem_singleton.mpr (by decide)⟩
      have htext : " %".toList ++ x.chars ++ ", ".toList =
          " ".toList ++ (('%' :: (x.chars ++ [','])) ++ " ".toList) := by simp
      rw [htext, Text.trim_blank_append hspace, Text.trim_append_blank hspace,
        Text.trim_of_plain hplain']
    rw [htarget htrim, Text.dropSuffix_append]

/-- **The pieces of operands**: each is cut off before the letters that introduce the next. -/
theorem filterMap_operands {p : List Char} {t : Option (List Char)}
    (hp : ¬ "label".toList <:+: p) (ht : Record.target? p = t)
    (ht' : Record.target? (p ++ ", ".toList) = t) (xs : List Label) :
    (Text.pieces "label".toList (p ++ operands xs)).filterMap Record.target? =
      t.toList ++ xs.map (·.chars) := by
  have hne : "label".toList ≠ [] := by decide
  induction xs generalizing p t with
  | nil =>
    rw [operands, List.flatMap_nil, List.append_nil, Text.pieces_eq_singleton hp]
    cases t <;> simp [ht]
  | cons x xs ih =>
    obtain ⟨hx, hx'⟩ := target?_operand x
    have hcomma : ¬ "label".toList <:+: p ++ [','] := by
      rw [Text.infix_append_cons_iff (by decide), not_or]
      exact ⟨hp, by decide⟩
    have htext : p ++ operands (x :: xs) =
        p ++ [','] ++ ' ' :: ("label".toList ++ (" %".toList ++ x.chars ++ operands xs)) := by
      simp [operands]
    have hcut : Text.cut? "label".toList (p ++ operands (x :: xs)) =
        some (p ++ ", ".toList, " %".toList ++ x.chars ++ operands xs) := by
      rw [htext, Text.cut?_append_cons hne (by decide) hcomma, Text.cut?_append_self hne]
      simp
    rw [Text.pieces_eq hne, hcut]
    simp only [List.filterMap_cons, ht', ih x.not_infix_operand hx hx']
    cases t <;> simp

/-- What begins with another character than a percent sign names no target. -/
theorem target?_eq_none {c : Char} (hlt : c.toNat < 128) (hsolid : Text.isBlank c = false)
    (hc : c ≠ '%') (s : List Char) : Record.target? (c :: s) = none := by
  obtain ⟨before, after, hbefore, -, hs⟩ := Text.exists_eq_trim (c :: s)
  obtain rfl : before = [] := by
    rcases before with _ | ⟨d, before⟩
    · rfl
    · obtain rfl := (List.cons.inj hs).1
      exact absurd (Text.isBlank_of_mem hbefore List.mem_cons_self hlt) (by simp [hsolid])
  rw [Record.target?]
  split
  · rename_i d rest htrim
    rw [htrim] at hs
    exact absurd (List.cons.inj hs).1 hc
  · rfl

/-- The branch is looked for on the last line: no earlier line holds the letters `br` with a
space. -/
theorem map_cut?_body (o : Outline) :
    (Text.cut? "br ".toList o.body).map Prod.snd =
      (Text.cut? "br ".toList (o.exit.line ++ ['\n'])).map Prod.snd := by
  have hearlier : ∀ l ∈ [' ' :: Decimal.chars o.cost.toInt, o.label.chars ++ [':'],
      "  Dominator = ".toList ++ o.dominatorText], ¬ "br ".toList <:+: l := by
    intro l hl
    simp only [List.mem_cons, List.not_mem_nil, or_false] at hl
    rcases hl with rfl | rfl | rfl
    · exact Text.not_infix_of_notMem (c := 'b') (by decide)
        (o.costLine_notMem (by decide) (by decide))
    · exact Text.not_infix_of_notMem (c := ' ') (by decide)
        (o.labelLine_notMem (by decide) (by decide))
    · -- the space behind the dominator's marker does not follow these letters
      have hmarker : "  Dominator = ".toList ++ o.dominatorText =
          "  Dominator ".toList ++ '=' :: (' ' :: o.dominatorText) := rfl
      rw [hmarker, Text.infix_append_cons_iff (by decide), not_or]
      refine ⟨by decide, Text.not_infix_of_notMem (c := 'r') (by decide) ?_⟩
      rw [List.mem_cons, not_or]
      exact ⟨by decide, o.dominatorText_notMem (by decide) (by decide) (by decide)⟩
  rw [← Text.map_cut?_lines (by decide) (by decide) hearlier (o.exit.line ++ ['\n'])]
  simp [body_eq]

/-- What stands behind the letters `br` is cut into targets. -/
theorem targets_of_line {rest : List Char} (h : o.exit.line = "  br ".toList ++ rest) :
    Record.targets o.body = (Text.pieces "label".toList rest).filterMap Record.target? := by
  have hbreak : '\n' ∉ rest := by
    have hline := o.exit_notMem (c := '\n') (by decide) (by decide) (by decide) (by decide)
    rw [h, List.mem_append, not_or] at hline
    exact hline.2
  have htext : o.exit.line ++ ['\n'] = "  ".toList ++ ("br ".toList ++ (rest ++ ['\n'])) := by
    simp [h]
  have hcut : (Text.cut? "br ".toList o.body).map Prod.snd = some (rest ++ ['\n']) := by
    rw [map_cut?_body, htext]
    rw [show "br ".toList = 'b' :: "r ".toList from rfl, Text.cut?_append_of_notMem (by decide),
      Text.cut?_append_self (List.cons_ne_nil _ _)]
    rfl
  rw [Record.targets_of_cut? hcut, Text.firstLine_append_cons hbreak]

/-- **The targets of a branch are read.** -/
theorem targets_body (o : Outline) : Record.targets o.body = o.exit.targets.map (·.chars) := by
  have hne : "label".toList ≠ [] := by decide
  cases hexit : o.exit with
  | jump x =>
    obtain ⟨hx, hx'⟩ := target?_operand x
    have hline : o.exit.line = "  br ".toList ++ ("label".toList ++ (" %".toList ++ x.chars)) := by
      rw [hexit]
      rfl
    have hlast := filterMap_operands x.not_infix_operand hx hx' []
    rw [operands, List.flatMap_nil, List.append_nil] at hlast
    rw [targets_of_line hline, Text.pieces_eq hne, Text.cut?_append_self hne, List.filterMap_cons,
      hlast]
    rfl
  | branch c xs =>
    have hline : o.exit.line = "  br ".toList ++ (("i1 %".toList ++ c.chars) ++ operands xs) := by
      rw [hexit]
      rfl
    have hcondition : ¬ "label".toList <:+: "i1 %".toList ++ c.chars := by
      have htext : "i1 %".toList ++ c.chars = "i1 ".toList ++ '%' :: c.chars := rfl
      rw [htext, Text.infix_append_cons_iff (by decide), not_or]
      exact ⟨by decide, c.no_label⟩
    have hnone : ∀ s, Record.target? ('i' :: s) = none :=
      target?_eq_none (by decide) (by decide) (by decide)
    exact (targets_of_line hline).trans (filterMap_operands hcondition (hnone _) (hnone _) xs)
  | leave =>
    have hcut : (Text.cut? "br ".toList o.body).map Prod.snd = none := by
      rw [map_cut?_body, hexit]
      decide
    rw [Record.targets, Option.map_eq_none_iff.mp hcut]
    rfl

/-! ### Records -/

/-- **What is read of a record is what was written.** -/
theorem read_text (o : Outline) : ∃ r, Record.read o.text = .ok r ∧ r.gist = o.gist := by
  have hcolon : ':' ∉ o.var.text := o.var.notMem (by decide) (by decide)
  refine ⟨⟨o.var.text, o.label.chars, o.body⟩, ?_, ?_⟩
  · rw [Record.read, text, Text.cut?_append_cons_self hcolon]
    simp only [Text.trim_of_plain o.var.plain, o.var.uidOfVariable?_text, labelOf?_body]
  · rw [Record.gist, dominatorName?_body rfl, head?_words_body, targets_body, Option.filter_some,
      if_pos (by simpa using o.dominatorText_ne_nil), gist]

/-- Where labels stand in a row, a comma keeps each of them from the next blank. -/
theorem marker_not_infix_operands (x : Label) (xs : List Label) :
    ¬ Record.marker <:+: x.chars ++ operands xs := by
  induction xs generalizing x with
  | nil =>
    rw [operands, List.flatMap_nil, List.append_nil]
    exact x.not_infix (by decide)
  | cons y ys ih =>
    have htext : x.chars ++ operands (y :: ys) =
        x.chars ++ ',' :: (" label ".toList ++ '%' :: (y.chars ++ operands ys)) := by
      simp [operands]
    rw [htext, Text.infix_append_cons_iff (by decide), Text.infix_append_cons_iff (by decide),
      not_or, not_or]
    exact ⟨x.not_infix (by decide), by decide, ih y⟩

/-- A record holds one marker only. -/
theorem isBody_text (o : Outline) : Record.IsBody o.text := by
  have hbreak : '\n' ∉ Record.marker := by decide
  constructor
  · -- the colon is no blank
    rw [Bool.eq_false_iff]
    intro hblank
    refine absurd (Text.isBlank_of_mem hblank (o := ':') ?_ (by decide)) (by decide)
    exact List.mem_append_right _ List.mem_cons_self
  · rw [text, Text.infix_append_cons_iff (by decide), not_or]
    refine ⟨Text.not_infix_of_notMem (c := 'k') (by decide) (o.var.notMem (by decide) (by decide)),
      fun hbody => ?_⟩
    obtain ⟨l, hl, hocc⟩ := Text.exists_of_infix_lines (by decide) hbreak hbody
    simp only [lines, List.mem_cons, List.not_mem_nil, or_false] at hl
    rcases hl with rfl | rfl | rfl | rfl
    · exact Text.not_infix_of_notMem (c := 'k') (by decide)
        (o.costLine_notMem (by decide) (by decide)) hocc
    · exact Text.not_infix_of_notMem (c := ' ') (by decide)
        (o.labelLine_notMem (by decide) (by decide)) hocc
    · refine Text.not_infix_of_notMem (c := 'k') (by decide) ?_ hocc
      rw [List.mem_append, not_or]
      exact ⟨by decide, o.dominatorText_notMem (by decide) (by decide) (by decide)⟩
    · cases hexit : o.exit with
      | jump x =>
        have hline : o.exit.line = "  br label ".toList ++ '%' :: x.chars := by
          rw [hexit]
          rfl
        rw [hline, Text.infix_append_cons_iff (by decide)] at hocc
        exact hocc.elim (by decide) (x.not_infix (by decide))
      | branch c xs =>
        have hline : o.exit.line = "  br i1 ".toList ++ '%' :: (c.chars ++ operands xs) := by
          rw [hexit]
          rfl
        rw [hline, Text.infix_append_cons_iff (by decide)] at hocc
        exact hocc.elim (by decide) (marker_not_infix_operands c xs)
      | leave =>
        rw [hexit] at hocc
        exact absurd hocc (by decide)

/-- **A listing of blocks is read as these blocks.** Only the line break behind the last one is
lost. -/
theorem exists_readAll_render (os : List Outline) :
    ∃ records, Record.readAll (render os) = .ok records ∧
      records.map Record.gist = os.map gist := by
  have hjoin : render os = Record.join (os.map text) := by
    rw [render, Record.join, List.flatMap_map]
    rfl
  have htexts : Record.texts (render os) = (os.map text).map Text.trim := by
    rw [hjoin]
    refine Record.texts_join fun t ht => ?_
    obtain ⟨o, -, rfl⟩ := List.mem_map.mp ht
    exact o.isBody_text
  choose r hread hgist using read_text
  have hall : (os.map text).mapM Record.read = .ok (os.map r) := by
    rw [mapM_eq_ok_iff, List.forall₂_map_left_iff, List.forall₂_map_right_iff]
    exact List.forall₂_same.mpr fun o _ => hread o
  -- the records without blanks around them, and then those of the text
  obtain ⟨_, _, -, he⟩ | ⟨cores, rs, hcores, hrs, htrimmed⟩ :=
    (endAlike_mapM Record.read_trim (os.map text)).results
  · exact absurd (hall.symm.trans he) (by simp)
  obtain rfl := Except.ok.inj (hall.symm.trans hrs)
  have halike := Record.readAll_texts (render os)
  rw [htexts, hcores] at halike
  obtain ⟨_, _, he, -⟩ | ⟨_, records, hcores', hrecords, hgists⟩ := halike.results
  · exact absurd he (by simp)
  obtain rfl := Except.ok.inj hcores'
  refine ⟨records, hrecords, ?_⟩
  rw [Record.map_gist_eq hgists, ← Record.map_gist_eq htrimmed, List.map_map]
  exact List.map_congr_left fun o _ => hgist o

end Outline

end WorstCase
