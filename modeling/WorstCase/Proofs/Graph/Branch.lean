import WorstCase.Proofs.Graph.Successors
import WorstCase.Proofs.Text.Tokens

/-!
# The line of a branch

A branch is meant to be the first line of a body whose first word is `br`, and it names the blocks
of its **operands**: the names with a percent sign that follow a word `label`.

Reading looks for letters instead. It starts behind the first `br` with a space, wherever that is,
and cuts the rest of the line at the letters `label`, wherever they are. On a **plain** branch
(`Record.PlainBranch`) these are the words that are meant: the pieces of the line and its tokens
then name the same labels (`Record.filterMap_pieces`, an induction on the pieces), and the
successors of the block are the operands of its branch (`Graph.succs_of_plainBranch`).

On others they are not (`Graph.exists_branch_misread`): a comparison that is called `br` hides the
branch, and a label that holds the letters `label` is taken for a shorter one.
-/

namespace WorstCase

namespace Record

/-! ### Branches and their operands -/

/-- The label that an operand names. -/
def name? : List Char → Option (List Char)
  | '%' :: c :: x => some (c :: x)
  | _ => none

/-- The labels of the operands that follow a word `label`. -/
def operands : List (List Char) → List (List Char)
  | [] => []
  | t :: ts =>
    if t = "label".toList then (ts.head?.bind name?).toList ++ operands ts else operands ts

/-- Whether the first word of a line is `br`. -/
def opensBranch (line : List Char) : Bool :=
  (Text.words line).head? = some "br".toList

/-- The first line of a body whose first word is `br`. -/
def branchLine? (body : List Char) : Option (List Char) :=
  (Text.pieces ['\n'] body).find? opensBranch

/-- Whether a label can be told from what surrounds it: it holds no comma and no blank. -/
structure PlainLabel (x : List Char) : Prop where
  no_comma : ',' ∉ x
  solid : ∀ y ∈ Text.symbols x, y.isBlank = false

instance (x : List Char) : Decidable (PlainLabel x) :=
  decidable_of_iff (',' ∉ x ∧ ∀ y ∈ Text.symbols x, y.isBlank = false)
    ⟨fun h => ⟨h.1, h.2⟩, fun h => ⟨h.no_comma, h.solid⟩⟩

/-- When the letters of a branch are the words that are meant. -/
structure PlainBranch (records : List Record) (r : Record) (line : List Char) : Prop where
  /-- The letters `br` with a space do not occur on an earlier line. -/
  first : ∀ l ∈ (Text.pieces ['\n'] r.body).takeWhile (!opensBranch ·), ¬ "br ".toList <:+: l
  /-- The word `br` has a space behind it. -/
  spaced : ∃ blanks rest, Text.isBlankText blanks = true ∧ line = blanks ++ ("br ".toList ++ rest)
  /-- The word behind it is no operand. -/
  bare : ∀ t ∈ (Text.tokens line)[1]?, name? t = none
  /-- The letters `label` occur as a word of their own. -/
  whole : ∀ t ∈ Text.tokens line, "label".toList <:+: t → t = "label".toList
  labels : ∀ s ∈ records, PlainLabel s.label

/-! ### Operands -/

section Operands

variable {ts us : List (List Char)}

theorem operands_eq_nil (h : "label".toList ∉ ts) : operands ts = [] := by
  induction ts with
  | nil => rfl
  | cons t ts ih =>
    rw [List.mem_cons, not_or] at h
    rw [operands, if_neg (Ne.symm h.1), ih h.2]

/-- The first word `label` is followed by the first operand. -/
theorem operands_append_label (h : "label".toList ∉ ts) :
    operands (ts ++ "label".toList :: us) = (us.head?.bind name?).toList ++ operands us := by
  induction ts with
  | nil => rw [List.nil_append, operands, if_pos rfl]
  | cons t ts ih =>
    rw [List.mem_cons, not_or] at h
    rw [List.cons_append, operands, if_neg (Ne.symm h.1), ih h.2]

end Operands

/-! ### Pieces and tokens -/

/-- A plain label with a percent sign is one token. -/
theorem PlainLabel.tokens {x : List Char} (h : PlainLabel x) :
    Text.tokens ('%' :: x) = ['%' :: x] := by
  have hsymbols := Text.symbols_append_cons (o := '%') (by decide) [] x
  rw [List.nil_append] at hsymbols
  refine Text.tokens_of_solid ?_ ?_ (List.cons_ne_nil _ _)
  · rw [hsymbols]
    exact List.forall_mem_cons.mpr ⟨by decide, h.solid⟩
  · rw [List.mem_cons, not_or]
    exact ⟨by decide, h.no_comma⟩

/-- A name loses the comma behind it, if there is one. -/
theorem dropSuffix_comma (s : List Char) :
    s = Text.dropSuffix [','] s ∨ s = Text.dropSuffix [','] s ++ [','] := by
  by_cases h : [','] <:+ s
  · obtain ⟨x, rfl⟩ := h
    exact .inr (by rw [Text.dropSuffix_append])
  · exact .inl (Text.dropSuffix_of_not_suffix h).symm

/-- The first token behind a percent sign is a plain name without its comma. -/
theorem head?_tokens_percent {s : List Char} (h : PlainLabel (Text.dropSuffix [','] s)) :
    (Text.tokens ('%' :: s)).head? = some ('%' :: Text.dropSuffix [','] s) := by
  rcases dropSuffix_comma s with hname | hname
  · conv_lhs => rw [hname, h.tokens]
    rfl
  · conv_lhs => rw [hname, ← List.cons_append, Text.tokens_append_comma, h.tokens]
    rfl

/-- What begins with no percent sign names no label. -/
theorem name?_eq_none {o : Char} (ho : o ≠ '%') (t : List Char) : name? (o :: t) = none := by
  unfold name?
  split
  · rename_i heq
    exact absurd (List.cons.inj heq).1 ho
  · rfl

/-- **A piece names the label of its first token**, if it names the label of a record at all. -/
theorem target?_eq {q : List Char} (h : ∀ x ∈ target? q, x ≠ [] ∧ PlainLabel x) :
    target? q = (Text.tokens q).head?.bind name? := by
  obtain ⟨leading, trailing, hleading, htrailing, hq⟩ := Text.exists_eq_trim q
  have htrimmed : Text.tokens q = Text.tokens (Text.trim q) := by
    conv_lhs => rw [hq, Text.tokens_blank_append hleading, Text.tokens_append_blank htrailing]
  rcases Text.exists_head_token q with ⟨htokens, htrim⟩ | ⟨o, t, ts, rest, htokens, htrim⟩
  · rw [target?, htrim, htokens]
    rfl
  by_cases ho : o = '%'
  · subst ho
    rcases rest with _ | ⟨c, rest⟩
    · -- a percent sign alone
      have hsign : Text.tokens ['%'] = [['%']] := by decide
      rw [target?, htrimmed, htrim, hsign]
      rfl
    · have htarget : target? q = some (Text.dropSuffix [','] (c :: rest)) := by
        rw [target?, htrim]
        rfl
      obtain ⟨hne, hplain⟩ := h _ (Option.mem_def.mpr htarget)
      obtain ⟨d, x, hx⟩ := List.exists_cons_of_ne_nil hne
      rw [htarget, htrimmed, htrim, head?_tokens_percent hplain, hx]
      rfl
  · -- neither the piece nor its first token begins with a percent sign
    have hpiece : target? q = none := by
      rw [target?, htrim]
      split
      · rename_i heq
        exact absurd (List.cons.inj heq).1 ho
      · rfl
    rw [hpiece, htokens]
    exact (name?_eq_none ho t).symm

/-- The tokens on both sides of the first word `label`. -/
theorem tokens_of_cut? {q before after : List Char}
    (hwhole : ∀ t ∈ Text.tokens q, "label".toList <:+: t → t = "label".toList)
    (hcut : Text.cut? "label".toList q = some (before, after)) :
    Text.tokens q = Text.tokens before ++ "label".toList :: Text.tokens after := by
  have hne : "label".toList ≠ [] := by decide
  rw [Text.eq_of_cut? hne hcut] at hwhole ⊢
  refine Text.tokens_append_word ?_ ?_ hne hwhole
  · exact @of_decide_eq_true _ (List.decidableBAll _ _) rfl
  · exact @of_decide_eq_true _ (List.decidableBAll _ _) rfl

/-- **Pieces and tokens name the same labels**, where the letters `label` are words: the first piece
may name one, and each of the others the operand behind its word. -/
theorem filterMap_pieces {q : List Char}
    (hwhole : ∀ t ∈ Text.tokens q, "label".toList <:+: t → t = "label".toList)
    (hplain : ∀ x ∈ (Text.pieces "label".toList q).filterMap target?, x ≠ [] ∧ PlainLabel x) :
    (Text.pieces "label".toList q).filterMap target? =
      ((Text.tokens q).head?.bind name?).toList ++ operands (Text.tokens q) := by
  have hne : "label".toList ≠ [] := by decide
  have hfree : ∀ {s : List Char}, ¬ "label".toList <:+: s → "label".toList ∉ Text.tokens s :=
    fun hs hmem => hs ((Text.infix_of_mem_tokens hmem).resolve_left (by decide))
  induction hn : q.length using Nat.strongRecOn generalizing q with
  | ind n ih =>
    subst hn
    rw [Text.pieces_eq hne] at hplain ⊢
    rcases hcut : Text.cut? "label".toList q with _ | ⟨before, after⟩
    · rw [hcut] at hplain
      have hnone := hfree ((Text.cut?_eq_none_iff hne).mp hcut)
      have htarget := target?_eq (q := q) fun x hx =>
        hplain x (List.mem_filterMap.mpr ⟨q, List.mem_singleton_self q, hx⟩)
      rw [operands_eq_nil hnone, ← htarget, List.append_nil]
      cases h : target? q <;> simp [h]
    · rw [hcut] at hplain
      have hnone := hfree (Text.not_infix_of_cut? hne hcut)
      have hq := Text.eq_of_cut? hne hcut
      have htokens := tokens_of_cut? hwhole hcut
      -- what is behind the first word `label` is shorter
      have hafter := ih after.length (by rw [hq]; simp; omega) (q := after)
        (fun t ht => hwhole t (htokens ▸ List.mem_append_right _ (List.mem_cons_of_mem _ ht)))
        (fun x hx => hplain x ?_) rfl
      have htarget := target?_eq (q := before) fun x hx =>
        hplain x (List.mem_filterMap.mpr ⟨before, List.mem_cons_self, hx⟩)
      have hhead : ((Text.tokens q).head?.bind name?).toList = (target? before).toList := by
        rw [htokens, htarget]
        cases Text.tokens before <;> rfl
      rw [hhead, htokens, operands_append_label hnone, ← hafter]
      · cases h : target? before <;> simp [h]
      · rw [List.filterMap_cons]
        split
        · exact hx
        · exact List.mem_cons_of_mem _ hx

/-! ### The line that is read -/

/-- **The branch is found**: what is read is behind the word `br` on its line. -/
theorem targets_of_branchLine {records : List Record} {r : Record} {line : List Char}
    (hline : branchLine? r.body = some line) (hplain : PlainBranch records r line) :
    ∃ blanks rest, Text.isBlankText blanks = true ∧ line = blanks ++ ("br ".toList ++ rest) ∧
      targets r.body = (Text.pieces "label".toList rest).filterMap target? := by
  obtain ⟨blanks, rest, hblanks, rfl⟩ := hplain.spaced
  refine ⟨blanks, rest, hblanks, rfl, ?_⟩
  -- the lines above do not open a branch, and `PlainBranch` keeps the letters out of them
  obtain ⟨hopens, above, below, hlines, habove⟩ := List.find?_eq_some_iff_append.mp hline
  obtain ⟨more, hbody, hbreak, hmore⟩ := Text.exists_eq_of_lines hlines
  have hearlier : ∀ l ∈ above, ¬ "br ".toList <:+: l := by
    intro l hl
    refine hplain.first l ?_
    rw [hlines, List.takeWhile_append_of_pos habove]
    exact List.mem_append_left _ hl
  have hnone : 'b' ∉ blanks := fun hmem =>
    absurd (Text.isBlank_of_mem hblanks hmem (by decide)) (by decide)
  have hcut : (Text.cut? "br ".toList r.body).map Prod.snd = some (rest ++ more) := by
    rw [hbody, Text.map_cut?_lines (by decide) (by decide) hearlier, List.append_assoc,
      List.append_assoc]
    rw [show "br ".toList = 'b' :: "r ".toList from rfl, Text.cut?_append_of_notMem hnone,
      Text.cut?_append_self (List.cons_ne_nil _ _)]
    rfl
  have hfirst : Text.firstLine (rest ++ more) = rest := by
    have hrest : ∀ c ∈ rest, decide (c ≠ '\n') = true := fun c hc =>
      decide_eq_true fun hc' => hbreak (hc' ▸ by simp [hc])
    rw [Text.firstLine, List.takeWhile_append_of_pos hrest]
    cases more with
    | nil => simp
    | cons c more => simp [hmore c rfl]
  rw [targets_of_cut? hcut, hfirst]

/-- **A plain branch names its operands.** -/
theorem targets_eq_operands {records : List Record} {r : Record} {line : List Char}
    (hline : branchLine? r.body = some line) (hplain : PlainBranch records r line)
    (hlabels : ∀ x ∈ targets r.body, x ≠ [] ∧ ∃ s ∈ records, s.label = x) :
    targets r.body = operands (Text.tokens line) := by
  obtain ⟨blanks, rest, hblanks, rfl, htargets⟩ := targets_of_branchLine hline hplain
  have htokens : Text.tokens (blanks ++ ("br ".toList ++ rest)) =
      "br".toList :: Text.tokens rest := by
    rw [Text.tokens_blank_append hblanks]
    exact Text.tokens_append_cons (by decide) (by decide) "br".toList rest
  have hwhole := hplain.whole
  have hbare := hplain.bare
  rw [htokens] at hwhole hbare ⊢
  rw [htargets] at hlabels ⊢
  have hpieces := filterMap_pieces (q := rest) (fun t ht => hwhole t (List.mem_cons_of_mem _ ht))
    fun x hx => by
      obtain ⟨hne, s, hs, rfl⟩ := hlabels x hx
      exact ⟨hne, hplain.labels s hs⟩
  have hfirst : (Text.tokens rest).head?.bind name? = none := by
    rcases hhead : (Text.tokens rest).head? with _ | t
    · rfl
    · refine hbare t ?_
      rw [List.getElem?_cons_succ, ← List.head?_eq_getElem?, hhead]
      rfl
  rw [hpieces, hfirst, operands, if_neg (by decide)]
  rfl

theorem label_ne_nil_of_read {text : List Char} {r : Record} (h : read text = .ok r) :
    r.label ≠ [] := by
  unfold read at h
  split at h
  · simp at h
  dsimp only at h
  split at h
  · simp at h
  split at h
  · simp at h
  rename_i label hlabel
  obtain rfl := Except.ok.inj h
  rw [labelOf?, Option.ite_none_left_eq_some] at hlabel
  obtain ⟨hne, hsome⟩ := hlabel
  rw [← Option.some_inj.mp hsome]
  simpa using hne

theorem label_ne_nil_of_readAll {text : List Char} {records : List Record}
    (h : readAll text = .ok records) : ∀ r ∈ records, r.label ≠ [] := by
  intro r hr
  obtain ⟨t, -, ht⟩ := exists_mem_left_of_forall₂ (mapM_eq_ok_iff.mp h) hr
  exact label_ne_nil_of_read ht

/-- A branch that is read names the labels of records. -/
theorem exists_label_of_successors {records : List Record} {r : Record} {uids : List Int}
    (h : r.successors records = .ok uids) {x : List Char} (hx : x ∈ targets r.body) :
    ∃ s ∈ records, s.label = x := by
  obtain ⟨uid, -, huid⟩ := exists_mem_right_of_forall₂ (mapM_eq_ok_iff.mp h) hx
  rcases hfind : records.find? (·.label = x) with _ | s
  · simp [hfind] at huid
  · exact ⟨s, List.mem_of_find?_eq_some hfind, by simpa using List.find?_some hfind⟩

end Record

namespace Graph

/-! ### The successors of a block -/

/-- The blocks that the operands of a branch name, each of them once. -/
def branchSuccs? (g : Graph) (line : List Char) : Option (List Int) :=
  ((Record.operands (Text.tokens line)).mapM fun x => g.uid? (String.ofList x)).map List.eraseDups

theorem mapM_eq_some_of_map {α β : Type} {f : α → Option β} {l : List α} {l' : List β}
    (h : l.map f = l'.map some) : l.mapM f = some l' := by
  induction l generalizing l' with
  | nil =>
    obtain rfl := List.map_eq_nil_iff.mp h.symm
    rfl
  | cons a l ih =>
    cases l' with
    | nil => exact absurd h (by simp)
    | cons b l' =>
      obtain ⟨ha, hl⟩ := List.cons.inj h
      rw [List.mapM_cons, ha, ih hl]
      rfl

/-- **The successors of a block are the operands of its branch**, if the branch is plain. -/
theorem succs_of_plainBranch {text : String} {g : Graph} {records : List Record} {r : Record}
    {line : List Char} (hg : ofListing text = .ok g)
    (hread : Record.readAll text.toList = .ok records) (hr : r ∈ records)
    (hline : Record.branchLine? r.body = some line) (hplain : Record.PlainBranch records r line) :
    g.branchSuccs? line = some (g.succs r.uid) := by
  obtain ⟨records', start, stop, entries, hread', hl⟩ := lists_of_ofListing hg
  obtain rfl := Except.ok.inj (hread.symm.trans hread')
  have hlabels := Record.label_ne_nil_of_readAll hread
  obtain ⟨entry, hentry, hblock⟩ := exists_mem_right_of_forall₂ hl.parsed hr
  obtain ⟨cost, dominator, uids, -, -, hsucc, rfl⟩ := Record.block_eq_ok_iff.mp hblock
  have htargets := Record.targets_eq_operands hline hplain fun x hx => by
    obtain ⟨s, hs, hsx⟩ := Record.exists_label_of_successors hsucc hx
    exact ⟨hsx ▸ hlabels s hs, s, hs, hsx⟩
  have hnames := hl.successors_uid? hg hlabels hsucc
  rw [htargets] at hnames
  rw [branchSuccs?, mapM_eq_some_of_map hnames, Option.map_some, ← hl.succs_eq hg hread hentry]

/-! ### Branches that are misread -/

/-- A listing in which the first block compares before it branches and calls the result `br`, and
the second branches to `Blabel`. -/
def misreadText : String :=
  "BasicBlock bd_0: 1
    A: Dominator = NULL
    %br = icmp eq i32 %x, 0
    br i1 %br, label %B, label %C
  BasicBlock b_2: 2
    C: Dominator = bd_0
    br label %Blabel
  BasicBlock b_3: 3
    Blabel: Dominator = b_2
    br i1 %c, label %B, label %B
  BasicBlock bd_1: 4
    B: Dominator = bd_0
    ret void"

/-- The graph that is read: nothing leads out of the first block, and the second leads to `B`. -/
def misread : Graph where
  blocks :=
    [ { uid := 0, label := "A", selector := "bs_0", written := "bd_0", cost := 1 },
      { uid := 2, label := "C", selector := "b_2", written := "b_2", cost := 2, dominator := 0 },
      { uid := 3, label := "Blabel", selector := "b_3", written := "b_3", cost := 3,
        dominator := 2 },
      { uid := 1, label := "B", selector := "bs_1", written := "bd_1", cost := 4,
        dominator := 0 } ]
  edges := [⟨⟨2, 1⟩, 0⟩, ⟨⟨3, 1⟩, 0⟩]
  start := 0
  stop := 1

/-- The records of `misreadText`. -/
def misreadRecords : List Record :=
  (Record.readAll misreadText.toList).toOption.getD []

theorem ofListing_misreadText : ofListing misreadText = .ok misread := by
  refine ok_of_toOption_eq_some ?_
  rw [ofListing, misreadText, String.toList_ofList]
  decide

theorem readAll_misreadText : Record.readAll misreadText.toList = .ok misreadRecords := by
  refine ok_of_toOption_eq_some ?_
  rw [misreadRecords, misreadText, String.toList_ofList]
  decide

/-- The third block has a plain branch, which names one block twice. -/
theorem succs_of_plainBranch_misread :
    ∃ r line, ofListing misreadText = .ok misread ∧
      Record.readAll misreadText.toList = .ok misreadRecords ∧ r ∈ misreadRecords ∧
      Record.branchLine? r.body = some line ∧ Record.PlainBranch misreadRecords r line ∧
      misread.branchSuccs? line = some (misread.succs r.uid) ∧ misread.succs r.uid = [1] := by
  let line : List Char := "    br i1 %c, label %B, label %B".toList
  let r : Record :=
    { name := "b_3".toList
      label := "Blabel".toList
      body := " 3\n    Blabel: Dominator = b_2\n    br i1 %c, label %B, label %B\n  ".toList }
  have hrecords : r ∈ misreadRecords ∧ ∀ s ∈ misreadRecords, Record.PlainLabel s.label := by
    rw [misreadRecords, misreadText, String.toList_ofList]
    decide
  have hline : Record.branchLine? r.body = some line := by decide
  have hplain : Record.PlainBranch misreadRecords r line :=
    ⟨by decide, ⟨"    ".toList, "i1 %c, label %B, label %B".toList, by decide, rfl⟩,
      by decide, by decide, hrecords.2⟩
  exact ⟨r, line, ofListing_misreadText, readAll_misreadText, hrecords.1, hline, hplain,
    succs_of_plainBranch ofListing_misreadText readAll_misreadText hrecords.1 hline hplain,
    by decide⟩

/-- **Branches can be misread.** The letters `br` on an earlier line hide a branch to two blocks,
and the letters `label` in the name of a block turn the branch to it into one to another block. -/
theorem exists_branch_misread :
    ofListing misreadText = .ok misread ∧
      Record.readAll misreadText.toList = .ok misreadRecords ∧
      (∃ r ∈ misreadRecords, ∃ line, Record.branchLine? r.body = some line ∧
        misread.branchSuccs? line = some [1, 2] ∧ misread.succs r.uid = []) ∧
      ∃ r ∈ misreadRecords, ∃ line, Record.branchLine? r.body = some line ∧
        misread.branchSuccs? line = some [3] ∧ misread.succs r.uid = [1] := by
  have hlines :
      (∃ r ∈ misreadRecords,
        Record.branchLine? r.body = some "    br i1 %br, label %B, label %C".toList ∧
          misread.succs r.uid = []) ∧
      ∃ r ∈ misreadRecords,
        Record.branchLine? r.body = some "    br label %Blabel".toList ∧
          misread.succs r.uid = [1] := by
    rw [misreadRecords, misreadText, String.toList_ofList]
    decide
  obtain ⟨⟨r, hr, hline, hsuccs⟩, r', hr', hline', hsuccs'⟩ := hlines
  exact ⟨ofListing_misreadText, readAll_misreadText,
    ⟨r, hr, _, hline, by decide, hsuccs⟩, r', hr', _, hline', by decide, hsuccs'⟩

end Graph

end WorstCase
