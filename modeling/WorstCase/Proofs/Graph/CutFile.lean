import WorstCase.Graph.CutFile
import WorstCase.Proofs.Graph.Charge
import WorstCase.Proofs.Text.Lines
import WorstCase.Proofs.Text.Octets

/-!
# Cuts files are read back

Generations of pairs of labels can be written as lines in many ways (`Graph.CutLines`): a line with
a `#` stands between two generations, whatever else it holds, percent signs and blanks stand
anywhere in the line of a pair, and lines with nothing else stand anywhere.

What reading compares with labels is not the line without its percent signs and blanks, but the
characters of it, spelled out again. The spelling of the replacement that stands for a stray octet
is longer than the octet, so a line keeps what counts in it only if it has no stray octet
(`Graph.significant_eq_iff`). **That is all that can go wrong** (`Graph.readCuts_eq_ok_iff`): the
generations that are read are those that were written if and only if each pair is on a line without
a stray octet. A label with one is misread (`Graph.exists_misread_label`).
-/

namespace WorstCase.Graph

variable {g : Graph} {raw head tail : List Char} {lines : List (List Char)} {n : Nat}
  {gen : Generation} {gens : List Generation} {h t : Int}

/-! ### What counts in a line -/

/-- A line without percent signs and blanks. -/
def stripped (raw : List Char) : List Char :=
  raw.filter fun c => !isFiller c

theorem toNat_lt_of_isFiller {c : Char} (hc : isFiller c = true) : c.toNat < 128 := by
  simp only [isFiller, Bool.or_eq_true, beq_iff_eq] at hc
  rcases hc with (((rfl | rfl) | rfl) | rfl) | rfl <;> decide

/-- A spelling is stripped altogether or not at all. -/
theorem stripped_utf8 (c : Char) :
    stripped (Text.utf8 c) = if isFiller c then [] else Text.utf8 c := by
  split_ifs with hc
  · rw [Text.utf8_of_lt (toNat_lt_of_isFiller hc)]
    simp [stripped, hc]
  · refine List.filter_eq_self.mpr fun o ho => ?_
    rw [Bool.not_eq_true', ← Bool.not_eq_true]
    intro hfiller
    exact hc (Text.eq_of_mem_utf8 ho (toNat_lt_of_isFiller hfiller) ▸ hfiller)

theorem stripped_append (x y : List Char) : stripped (x ++ y) = stripped x ++ stripped y :=
  List.filter_append _ _

theorem significant_utf8_append (c : Char) (s : List Char) :
    significant (Text.utf8 c ++ s) = stripped (Text.utf8 c) ++ significant s := by
  rw [stripped_utf8, significant, Text.readable, Text.symbols_utf8_append, List.map_cons,
    List.filter_cons, ← Text.readable]
  by_cases hc : isFiller c = true
  · simp [Text.Symbol.shown, hc, significant]
  · simp [Text.Symbol.shown, hc, significant, Text.spell_cons]

theorem significant_stray {o : Char} {s : List Char} (ho : Text.leading? (o :: s) = none) :
    significant (o :: s) = Text.utf8 Text.replacement ++ significant s := by
  have hreplacement : isFiller Text.replacement = false := by decide
  rw [significant, Text.readable, Text.symbols_stray ho, List.map_cons, ← Text.readable,
    List.filter_cons]
  simp [Text.Symbol.shown, hreplacement, significant, Text.spell_cons]

/-- **What counts in a line** is the line without percent signs and blanks, or it is longer, and
this depends on stray octets. -/
theorem significant_cases (raw : List Char) :
    significant raw = stripped raw ∧ Text.IsSpelled (.ofList raw) ∨
      (stripped raw).length < (significant raw).length ∧ ¬ Text.IsSpelled (.ofList raw) := by
  simp only [Text.isSpelled_iff, String.toList_ofList]
  induction raw using Text.symbols_induction with
  | nil => exact .inl ⟨rfl, fun y hy => absurd hy List.not_mem_nil⟩
  | char c s ih =>
    rw [significant_utf8_append, stripped_append, Text.symbols_utf8_append]
    simpa [Text.Symbol.char?] using ih
  | stray o s ho ih =>
    have hle : (stripped s).length ≤ (significant s).length := by
      rcases ih with ⟨heq, -⟩ | ⟨hlt, -⟩
      · rw [heq]
      · exact hlt.le
    have hstripped : (stripped (o :: s)).length ≤ (stripped s).length + 1 := by
      rw [stripped, List.filter_cons]
      split_ifs
      · rfl
      · exact Nat.le_succ _
    have hlength : (Text.utf8 Text.replacement).length = 3 := by decide
    refine .inr ⟨?_, fun hall => ?_⟩
    · rw [significant_stray ho, List.length_append, hlength]
      omega
    · rw [Text.symbols_stray ho] at hall
      exact absurd (hall _ List.mem_cons_self) Bool.false_ne_true

/-- **A line keeps what counts in it** if and only if it has no stray octet. -/
theorem significant_eq_iff (raw : List Char) :
    significant raw = stripped raw ↔ Text.IsSpelled (.ofList raw) := by
  rcases significant_cases raw with ⟨heq, hspelled⟩ | ⟨hlt, hspelled⟩
  · exact iff_of_true heq hspelled
  · exact iff_of_false (fun heq => by simp [heq] at hlt) hspelled

theorem significant_ne_nil (hraw : stripped raw ≠ []) : significant raw ≠ [] := by
  rcases significant_cases raw with ⟨heq, -⟩ | ⟨hlt, -⟩
  · rwa [heq]
  · exact List.ne_nil_of_length_pos (by omega)

/-! ### Lines -/

/-- A label as it can stand in the line of a pair. -/
def IsPlainLabel (label : List Char) : Prop :=
  ∀ c ∈ label, isFiller c = false ∧ c ≠ ',' ∧ c ≠ '#'

instance (label : List Char) : Decidable (IsPlainLabel label) :=
  inferInstanceAs (Decidable (∀ c ∈ label, _))

/-- **The lines that write generations** of pairs of labels. Generations are given by the uids of
the labels. -/
inductive CutLines (g : Graph) : List (List Char) → List Generation → Prop
  /-- There is one generation before any line is written. -/
  | nil : CutLines g [] [[]]
  /-- A line with nothing that counts. -/
  | blank {lines : List (List Char)} {gens : List Generation} {raw : List Char}
      (hraw : ∀ c ∈ raw, isFiller c = true) (hlines : CutLines g lines gens) :
      CutLines g (raw :: lines) gens
  /-- A line between two generations. -/
  | mark {lines : List (List Char)} {gens : List Generation} {raw : List Char}
      (hraw : '#' ∈ raw) (hlines : CutLines g lines gens) :
      CutLines g (raw :: lines) ([] :: gens)
  /-- The line of a pair. -/
  | pair {lines : List (List Char)} {gen : Generation} {gens : List Generation}
      {raw head tail : List Char} {h t : Int} (hhead : IsPlainLabel head)
      (htail : IsPlainLabel tail) (hraw : stripped raw = head ++ ',' :: tail)
      (hh : g.uid? (String.ofList head) = some h) (ht : g.uid? (String.ofList tail) = some t)
      (hlines : CutLines g lines (gen :: gens)) :
      CutLines g (raw :: lines) ((⟨h, t⟩ :: gen) :: gens)

/-- What stands in the line of a pair begins no generation. -/
theorem notMem_of_stripped (hhead : IsPlainLabel head) (htail : IsPlainLabel tail)
    (hraw : stripped raw = head ++ ',' :: tail) : '#' ∉ raw := fun hmem => by
  have hstripped : '#' ∈ stripped raw := List.mem_filter.mpr ⟨hmem, by decide⟩
  rw [hraw, List.mem_append, List.mem_cons] at hstripped
  rcases hstripped with hmem | hmem | hmem
  · exact (hhead _ hmem).2.2 rfl
  · exact absurd hmem (by decide)
  · exact (htail _ hmem).2.2 rfl

theorem stripped_eq_nil_iff : stripped raw = [] ↔ ∀ c ∈ raw, isFiller c = true := by
  simp [stripped, List.filter_eq_nil_iff]

/-! ### Carriage returns -/

/-- The carriage return that a line reader takes away does not count, and it is spelled. -/
theorem content_spec (raw : List Char) :
    stripped (Text.content raw) = stripped raw ∧ ('#' ∈ Text.content raw ↔ '#' ∈ raw) ∧
      (Text.IsSpelled (.ofList (Text.content raw)) ↔ Text.IsSpelled (.ofList raw)) := by
  by_cases hraw : ['\r'] <:+ raw
  · obtain ⟨s, rfl⟩ := hraw
    have hsymbols : Text.symbols (s ++ ['\r']) = Text.symbols s ++ [.char '\r'] :=
      Text.symbols_append_cons (by decide) s []
    have hreturn : stripped ['\r'] = [] := by decide
    rw [Text.content, Text.dropSuffix_append, stripped_append, hreturn, List.append_nil,
      Text.isSpelled_iff, Text.isSpelled_iff, String.toList_ofList, String.toList_ofList, hsymbols]
    simp [or_imp, forall_and, Text.Symbol.char?]
  · rw [Text.content, Text.dropSuffix_of_not_suffix hraw]
    simp

theorem CutLines.map_content (hlines : g.CutLines lines gens) :
    g.CutLines (lines.map Text.content) gens := by
  induction hlines with
  | nil => exact .nil
  | blank hraw _ ih =>
    rw [← stripped_eq_nil_iff] at hraw
    exact .blank (stripped_eq_nil_iff.mp ((content_spec _).1.trans hraw)) ih
  | mark hraw _ ih => exact .mark ((content_spec _).2.1.mpr hraw) ih
  | pair hhead htail hraw hh ht _ ih =>
    exact .pair hhead htail ((content_spec _).1.trans hraw) hh ht ih

/-! ### Reading -/

/-- Labels are told apart by their uids. -/
theorem Coherent.uid?_inj (hg : g.Coherent) {l l' : String} {uid : Int}
    (hl : g.uid? l = some uid) (hl' : g.uid? l' = some uid) : l = l' := by
  obtain ⟨-, b, hb, rfl, hu⟩ := mem_labels.mp ((hg.uid?_iff _ _).mp hl)
  obtain ⟨-, b', hb', rfl, hu'⟩ := mem_labels.mp ((hg.uid?_iff _ _).mp hl')
  rw [List.inj_on_of_nodup_map hg.valid.uids_nodup hb hb' (hu.trans hu'.symm)]

/-- **Reading what counts in the line of a pair** gives the pair only where this is what was
written. -/
theorem Coherent.readCandidate_eq_ok_iff (hg : g.Coherent) {line : List Char}
    (hhead : IsPlainLabel head) (htail : IsPlainLabel tail)
    (hh : g.uid? (String.ofList head) = some h) (ht : g.uid? (String.ofList tail) = some t) :
    g.readCandidate n raw line = .ok ⟨h, t⟩ ↔ line = head ++ ',' :: tail := by
  constructor
  · intro hread
    unfold readCandidate at hread
    dsimp only at hread
    split at hread
    · exact nomatch hread
    rename_i head' tail' hcut
    split at hread
    · exact nomatch hread
    split at hread
    · exact nomatch hread
    rename_i h' hh'
    split at hread
    · exact nomatch hread
    rename_i t' ht'
    obtain ⟨rfl, rfl⟩ := CutId.mk.inj (Except.ok.inj hread)
    rw [Text.eq_of_cut? (List.cons_ne_nil ',' []) hcut,
      String.ofList_injective (hg.uid?_inj hh' hh), String.ofList_injective (hg.uid?_inj ht' ht),
      List.singleton_append]
  · rintro rfl
    have hcut : Text.cut? [','] (head ++ ',' :: tail) = some (head, tail) :=
      Text.cut?_append_cons_self (fun hmem => (hhead _ hmem).2.1 rfl) tail
    have hcomma : ',' ∉ tail := fun hmem => (htail _ hmem).2.1 rfl
    unfold readCandidate
    simp [hcut, hcomma, hh, ht]

/-- There is always a generation. -/
theorem exists_of_readGenerations (hread : g.readGenerations n lines = .ok gens) :
    ∃ gen rest, gens = gen :: rest := by
  induction lines generalizing n gens with
  | nil => exact ⟨[], [], (Except.ok.inj hread).symm⟩
  | cons raw lines ih =>
    rw [readGenerations] at hread
    split at hread
    · obtain ⟨gens', -, h⟩ := bind_eq_ok_iff.mp hread
      exact ⟨_, _, (pure_eq_ok_iff.mp h).symm⟩
    dsimp only at hread
    split at hread
    · exact ih hread
    · obtain ⟨id, -, h⟩ := bind_eq_ok_iff.mp hread
      obtain ⟨gens', hrest, h⟩ := bind_eq_ok_iff.mp h
      obtain ⟨gen, rest, rfl⟩ := ih hrest
      exact ⟨_, _, (pure_eq_ok_iff.mp h).symm⟩

/-! Reading the first line, for each kind of line. -/

theorem readGenerations_blank (hraw : ∀ c ∈ raw, isFiller c = true) :
    g.readGenerations n (raw :: lines) = g.readGenerations (n + 1) lines := by
  have hspelled : Text.IsSpelled (.ofList raw) :=
    Text.isSpelled_of_lt fun c hc => toNat_lt_of_isFiller (hraw c (by simpa using hc))
  have hmark : '#' ∉ raw := fun hmem => absurd (hraw _ hmem) (by decide)
  have hline : significant raw = [] :=
    ((significant_eq_iff raw).mpr hspelled).trans (stripped_eq_nil_iff.mpr hraw)
  rw [readGenerations, if_neg (by simpa using hmark)]
  simp [hline]

theorem readGenerations_mark (hraw : '#' ∈ raw) :
    g.readGenerations n (raw :: lines) = .ok ([] :: gens) ↔
      g.readGenerations (n + 1) lines = .ok gens := by
  rw [readGenerations, if_pos (by simpa using hraw)]
  rcases g.readGenerations (n + 1) lines with e | gens' <;>
    simp [bind, Except.bind, pure, Except.pure]

theorem Coherent.readGenerations_pair (hg : g.Coherent) (hhead : IsPlainLabel head)
    (htail : IsPlainLabel tail) (hraw : stripped raw = head ++ ',' :: tail)
    (hh : g.uid? (String.ofList head) = some h) (ht : g.uid? (String.ofList tail) = some t) :
    g.readGenerations n (raw :: lines) = .ok ((⟨h, t⟩ :: gen) :: gens) ↔
      Text.IsSpelled (.ofList raw) ∧ g.readGenerations (n + 1) lines = .ok (gen :: gens) := by
  have hne : (significant raw).isEmpty = false := by
    have hstripped : stripped raw ≠ [] := by simp [hraw]
    simpa using significant_ne_nil hstripped
  rw [readGenerations, if_neg (by simpa using notMem_of_stripped hhead htail hraw)]
  dsimp only
  have hcandidate : g.readCandidate n raw (significant raw) = .ok ⟨h, t⟩ ↔
      significant raw = head ++ ',' :: tail := hg.readCandidate_eq_ok_iff hhead htail hh ht
  rw [hne, if_neg Bool.false_ne_true, ← significant_eq_iff, hraw, ← hcandidate]
  rcases g.readCandidate n raw (significant raw) with e | id
  · simp [bind, Except.bind]
  rcases hrest : g.readGenerations (n + 1) lines with e | gens'
  · simp [bind, Except.bind]
  · obtain ⟨gen', rest, rfl⟩ := exists_of_readGenerations hrest
    simp [bind, Except.bind, pure, Except.pure, consCandidate, and_assoc]

/-- **Reading lines** gives the generations that they write if and only if all pairs are spelled. -/
theorem Coherent.readGenerations_eq_ok_iff (hg : g.Coherent) (hlines : g.CutLines lines gens) :
    g.readGenerations n lines = .ok gens ↔
      ∀ raw ∈ lines, '#' ∉ raw → Text.IsSpelled (.ofList raw) := by
  induction hlines generalizing n with
  | nil => simp [readGenerations]
  | blank hraw _ ih =>
    have hspelled : Text.IsSpelled (.ofList _) :=
      Text.isSpelled_of_lt fun c hc => toNat_lt_of_isFiller (hraw c (by simpa using hc))
    rw [readGenerations_blank hraw, ih, List.forall_mem_cons]
    exact (and_iff_right fun _ => hspelled).symm
  | mark hraw _ ih =>
    rw [readGenerations_mark hraw, ih, List.forall_mem_cons]
    exact (and_iff_right fun hmark => absurd hraw hmark).symm
  | pair hhead htail hraw hh ht _ ih =>
    have hmark := notMem_of_stripped hhead htail hraw
    rw [hg.readGenerations_pair hhead htail hraw hh ht, ih, List.forall_mem_cons,
      forall_prop_of_true hmark]

/-- **A cuts file is read back** if and only if each pair is on a line without a stray octet. The
rows of the file write the generations, and each of them is short enough for a reader. Reading gives
generations or an error and nothing else, so it leaves the graph as it is. -/
theorem readCuts_eq_ok_iff (hg : g.Built) {text : String}
    (hlines : g.CutLines (Text.rows text.toList) gens)
    (hshort : ∀ row ∈ Text.rows text.toList, row.length < Text.Lines.room) :
    g.readCuts text = .ok gens ↔
      ∀ row ∈ Text.rows text.toList, '#' ∉ row → Text.IsSpelled (.ofList row) := by
  have hread : g.readCuts text = .ok gens ↔
      g.readGenerations 1 ((Text.rows text.toList).map Text.content) = .ok gens := by
    rw [readCuts, Text.Lines.read_of_short hshort]
    rcases g.readGenerations 1 ((Text.rows text.toList).map Text.content) with e | gens' <;> simp
  rw [hread, hg.coherent.readGenerations_eq_ok_iff hlines.map_content, List.forall_mem_map]
  exact forall₂_congr fun row _ => by rw [(content_spec row).2.1, (content_spec row).2.2]

/-- A listing with a label that is a character of two octets and one that ends in a stray octet. -/
def oddLabelsText : String :=
  "BasicBlock bd_0: 1
    \xc3\xa9: Dominator = NULL
    br label %B
  BasicBlock b_2: 2
    A\xff: Dominator = bd_0
    br label %B
  BasicBlock bd_1: 4
    B: Dominator = bd_0
    ret void"

theorem exists_oddLabels : ∃ g, ofListing oddLabelsText = .ok g ∧
    g.uid? "\xc3\xa9" = some 0 ∧ g.uid? "A\xff" = some 2 ∧ g.uid? "B" = some 1 ∧
      g.uid? "A\xef\xbf\xbd" = none := by
  have haccepted : (ofListing oddLabelsText).toOption.any (fun g => decide
      (g.uid? "\xc3\xa9" = some 0 ∧ g.uid? "A\xff" = some 2 ∧ g.uid? "B" = some 1 ∧
        g.uid? "A\xef\xbf\xbd" = none)) = true := by
    rw [ofListing, oddLabelsText, String.toList_ofList]
    decide
  obtain ⟨g, hg, huids⟩ := (Option.any_eq_true _ _).mp haccepted
  exact ⟨g, ok_of_toOption_eq_some hg, of_decide_eq_true huids⟩

/-- A cuts file with percent signs and blanks, and with an empty generation. -/
def filledText : String := "%\xc3\xa9, % B\r\n\n# second\n\t#\n \t\nB %,\xc3\xa9"

theorem readCuts_eq_ok_iff_filled : ∃ g, ofListing oddLabelsText = .ok g ∧
    g.readCuts filledText = .ok [[⟨0, 1⟩], [], [⟨1, 0⟩]] := by
  obtain ⟨g, hg, hodd, -, hplain, -⟩ := exists_oddLabels
  have hrows : Text.rows filledText.toList =
      ["%\xc3\xa9, % B\r".toList, [], "# second".toList, "\t#".toList, " \t".toList,
        "B %,\xc3\xa9".toList] := by
    decide
  have hlines : g.CutLines (Text.rows filledText.toList) [[⟨0, 1⟩], [], [⟨1, 0⟩]] := by
    rw [hrows]
    have hfirst : stripped "%\xc3\xa9, % B\r".toList = "\xc3\xa9".toList ++ ',' :: "B".toList := by
      decide
    have hlast : stripped "B %,\xc3\xa9".toList = "B".toList ++ ',' :: "\xc3\xa9".toList := by decide
    refine .pair (by decide) (by decide) hfirst (by simpa using hodd) (by simpa using hplain) ?_
    refine .blank (by decide) (.mark (by decide) (.mark (by decide) (.blank (by decide) ?_)))
    exact .pair (by decide) (by decide) hlast (by simpa using hplain) (by simpa using hodd) .nil
  refine ⟨g, hg, (readCuts_eq_ok_iff (.listing hg) hlines (by rw [hrows]; decide)).mpr ?_⟩
  rw [hrows]
  decide

/-- **A label with a stray octet is misread.** The file writes one pair of labels, and reading it
finds no block with the label: the replacement has taken the place of the stray octet. -/
theorem exists_misread_label : ∃ g, ofListing oddLabelsText = .ok g ∧
    g.CutLines (Text.rows "A\xff,B\n".toList) [[⟨2, 1⟩]] ∧
    (∀ row ∈ Text.rows "A\xff,B\n".toList, row.length < Text.Lines.room) ∧
    g.readCuts "A\xff,B\n" = .error (.read
      { kind := .cuts, line := 1, fragment := "A\xef\xbf\xbd", cause := .unknownLabel }) := by
  obtain ⟨g, hg, -, hodd, hplain, hshown⟩ := exists_oddLabels
  have hrows : Text.rows "A\xff,B\n".toList = ["A\xff,B".toList] := by decide
  rw [hrows]
  refine ⟨g, hg, ?_, by decide, ?_⟩
  · have hpair : stripped "A\xff,B".toList = "A\xff".toList ++ ',' :: "B".toList := by decide
    exact .pair (by decide) (by decide) hpair (by simpa using hodd) (by simpa using hplain) .nil
  · have hread : Text.Lines.read "A\xff,B\n".toList = ⟨["A\xff,B".toList], false⟩ := by
      decide
    have hmark : "A\xff,B".toList.contains '#' = false := by decide
    have hline : significant "A\xff,B".toList = "A\xef\xbf\xbd,B".toList := by decide
    have hcut : Text.cut? [','] "A\xef\xbf\xbd,B".toList =
        some ("A\xef\xbf\xbd".toList, "B".toList) := by decide
    have hcomma : "B".toList.contains ',' = false := by decide
    have hcandidate : g.readCandidate 1 "A\xff,B".toList "A\xef\xbf\xbd,B".toList =
        .error { kind := .cuts, line := 1, fragment := "A\xef\xbf\xbd", cause := .unknownLabel } := by
      rw [readCandidate, hcut]
      dsimp only
      rw [hcomma, if_neg Bool.false_ne_true, String.ofList_toList, hshown]
    rw [readCuts, hread]
    dsimp only
    rw [readGenerations, hmark, if_neg Bool.false_ne_true, hline]
    dsimp only
    rw [hcandidate, if_neg (by decide)]
    rfl

end WorstCase.Graph
