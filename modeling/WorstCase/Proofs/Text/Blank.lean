import WorstCase.Proofs.Text.Symbols
import WorstCase.Text.Pieces
import Mathlib.Data.List.TakeWhile

/-!
# White space around texts

Most of what is read from a text does not depend on the **blanks** behind it. Trimming takes them
away (`Text.trim_append_blank`), and the words before them are the same
(`Text.words_append_blank`). A separator is found at the same place, or only in the blanks if it
ends in one, and then nothing but blanks stands behind it (`Text.cut?_append_blank`).
-/

namespace WorstCase.Text

variable {s x blanks : List Char}

/-! ### Blank texts -/

theorem isBlankText_iff : isBlankText s = true ↔ ∀ y ∈ symbols s, y.isBlank = true :=
  List.all_eq_true

theorem isBlankText_spell {cs : List Char} (h : ∀ c ∈ cs, isBlank c = true) :
    isBlankText (spell cs) = true := by
  rw [isBlankText_iff, symbols_spell]
  simpa [Symbol.isBlank, Symbol.isIn] using h

/-- Symbols that are blanks are spelled characters. -/
theorem ofSymbols_of_blank {ys : List Symbol} (h : ∀ y ∈ ys, y.isBlank = true) :
    ∃ cs, (∀ c ∈ cs, isBlank c = true) ∧ ofSymbols ys = spell cs ∧ ys = cs.map .char := by
  induction ys with
  | nil => exact ⟨[], by simp, rfl, rfl⟩
  | cons y ys ih =>
    rw [List.forall_mem_cons] at h
    obtain ⟨cs, hcs, hspell, rfl⟩ := ih h.2
    cases y with
    | stray o => exact absurd h.1 (by simp [Symbol.isBlank, Symbol.isIn])
    | char c =>
      refine ⟨c :: cs, List.forall_mem_cons.mpr ⟨h.1, hcs⟩, ?_, rfl⟩
      rw [ofSymbols, List.flatMap_cons, ← ofSymbols, hspell]
      rfl

/-- **A blank text spells blanks.** -/
theorem exists_spell_of_blank (h : isBlankText s = true) :
    ∃ cs, (∀ c ∈ cs, isBlank c = true) ∧ s = spell cs := by
  obtain ⟨cs, hcs, hspell, -⟩ := ofSymbols_of_blank (isBlankText_iff.mp h)
  exact ⟨cs, hcs, by rw [← hspell, ofSymbols_symbols]⟩

/-- A blank text has no other octets below 128 than blanks. -/
theorem isBlank_of_mem (h : isBlankText s = true) {o : Char} (ho : o ∈ s) (hlt : o.toNat < 128) :
    isBlank o = true := by
  obtain ⟨cs, hcs, rfl⟩ := exists_spell_of_blank h
  obtain ⟨c, hc, hmem⟩ := List.mem_flatMap.mp ho
  exact eq_of_mem_utf8 hmem hlt ▸ hcs c hc

/-- A blank text is blank on both sides of such an octet. -/
theorem isBlankText_append_cons {o : Char} (hlt : o.toNat < 128) :
    isBlankText (x ++ o :: s) = true ↔
      isBlankText x = true ∧ isBlank o = true ∧ isBlankText s = true := by
  have hsymbols : symbols (x ++ o :: s) = symbols x ++ .char o :: symbols s := by
    rw [← symbols_append_utf8, utf8_of_lt hlt]
    rfl
  simp only [isBlankText_iff, hsymbols, List.forall_mem_append, List.forall_mem_cons]
  rfl

theorem symbols_append_blank (h : isBlankText blanks = true) (s : List Char) :
    symbols (s ++ blanks) = symbols s ++ symbols blanks := by
  obtain ⟨cs, -, rfl⟩ := exists_spell_of_blank h
  have hcs := symbols_append_spell [] cs
  rw [List.nil_append] at hcs
  rw [symbols_append_spell, hcs]
  rfl

theorem symbols_blank_append (h : isBlankText blanks = true) (s : List Char) :
    symbols (blanks ++ s) = symbols blanks ++ symbols s := by
  obtain ⟨cs, -, rfl⟩ := exists_spell_of_blank h
  have hcs := symbols_append_spell [] cs
  rw [List.nil_append] at hcs
  rw [symbols_spell_append, hcs]
  rfl

/-! ### Trimming -/

theorem trim_blank_append (h : isBlankText blanks = true) (s : List Char) :
    trim (blanks ++ s) = trim s := by
  rw [trim, trim, symbols_blank_append h, trimStart,
    List.dropWhile_append_of_pos (isBlankText_iff.mp h), trimStart]

/-- **Trimming takes the blanks behind a text away.** -/
theorem trim_append_blank (h : isBlankText blanks = true) (s : List Char) :
    trim (s ++ blanks) = trim s := by
  have hend : ∀ ys : List Symbol, trimEnd (ys ++ symbols blanks) = trimEnd ys := by
    intro ys
    rw [trimEnd, trimEnd, List.reverse_append, List.dropWhile_append_of_pos]
    intro y hy
    exact isBlankText_iff.mp h y (List.mem_reverse.mp hy)
  have hall : (symbols blanks).dropWhile Symbol.isBlank = [] :=
    List.dropWhile_eq_nil_iff.mpr (isBlankText_iff.mp h)
  rw [trim, trim, symbols_append_blank h, trimStart, trimStart, List.dropWhile_append]
  split
  · rename_i hempty
    rw [hall, List.isEmpty_iff.mp hempty]
  · rw [hend]

theorem trim_of_blank (h : isBlankText blanks = true) : trim blanks = [] := by
  rw [← List.nil_append blanks, trim_append_blank h]
  rfl

/-- What trimming takes away is blank. -/
theorem exists_eq_trim (s : List Char) :
    ∃ before after, isBlankText before = true ∧ isBlankText after = true ∧
      s = before ++ (trim s ++ after) := by
  have hblank : ∀ {ys : List Symbol}, (∀ y ∈ ys, y.isBlank = true) →
      isBlankText (ofSymbols ys) = true := by
    intro ys hys
    obtain ⟨cs, hcs, hspell, -⟩ := ofSymbols_of_blank hys
    rw [hspell]
    exact isBlankText_spell hcs
  let rest := trimStart (symbols s)
  let after := (rest.reverse.takeWhile Symbol.isBlank).reverse
  have hstart : symbols s = (symbols s).takeWhile Symbol.isBlank ++ rest :=
    List.takeWhile_append_dropWhile.symm
  have hend : rest = trimEnd rest ++ after := by
    rw [trimEnd, ← List.reverse_append, List.takeWhile_append_dropWhile, List.reverse_reverse]
  refine ⟨ofSymbols ((symbols s).takeWhile Symbol.isBlank), ofSymbols after,
    hblank fun y hy => List.mem_takeWhile_imp hy,
    hblank fun y hy => List.mem_takeWhile_imp (List.mem_reverse.mp hy), ?_⟩
  calc s = ofSymbols (symbols s) := (ofSymbols_symbols s).symm
    _ = ofSymbols ((symbols s).takeWhile Symbol.isBlank ++ (trimEnd rest ++ after)) := by
        rw [← hend, ← hstart]
    _ = _ := by
        simp only [ofSymbols, List.flatMap_append, trim]
        rfl

/-! ### Words -/

/-- **The words before blanks are the words of the text.** -/
theorem words_append_blank (h : isBlankText blanks = true) (s : List Char) :
    words (s ++ blanks) = words s := by
  have hblank : ∀ {ys : List Symbol} (word : List Symbol), (∀ y ∈ ys, y.isBlank = true) →
      wordsFrom word ys = wordsFrom word [] := by
    intro ys
    induction ys with
    | nil => exact fun _ _ => rfl
    | cons y ys ih =>
      intro word hys
      rw [List.forall_mem_cons] at hys
      have hnil : wordsFrom [] ys = [] := ih [] hys.2
      simp only [wordsFrom, hys.1, hnil, if_true]
  have happend : ∀ (ys : List Symbol) (word : List Symbol),
      wordsFrom word (ys ++ symbols blanks) = wordsFrom word ys := by
    intro ys
    induction ys with
    | nil => exact fun word => hblank word (isBlankText_iff.mp h)
    | cons y ys ih =>
      intro word
      rw [List.cons_append, wordsFrom, wordsFrom, ih, ih]
  rw [words, words, symbols_append_blank h, happend]

/-! ### Reading up to a character -/

/-- A blank text stays blank where it is cut before an octet below 128. -/
theorem isBlankText_takeWhile (h : isBlankText blanks = true) {o : Char} (ho : o.toNat < 128) :
    isBlankText (blanks.takeWhile (· ≠ o)) = true := by
  by_cases hmem : o ∈ blanks
  · obtain ⟨before, rest, rfl, hbefore⟩ := List.eq_append_cons_of_mem hmem
    have hne : ∀ c ∈ before, decide (c ≠ o) = true := by
      intro c hc
      exact decide_eq_true fun heq => hbefore (heq ▸ hc)
    rw [List.takeWhile_append_of_pos hne, List.takeWhile_cons_of_neg (by simp), List.append_nil]
    exact ((isBlankText_append_cons ho).mp h).1
  · have hne : ∀ c ∈ blanks, decide (c ≠ o) = true := by
      intro c hc
      exact decide_eq_true fun heq => hmem (heq ▸ hc)
    rwa [List.takeWhile_eq_self_iff.mpr hne]

/-- What stands before the first `o` goes on with blanks at most. -/
theorem exists_takeWhile_append_blank (h : isBlankText blanks = true) {o : Char}
    (ho : o.toNat < 128) (s : List Char) :
    ∃ more, isBlankText more = true ∧
      (s ++ blanks).takeWhile (· ≠ o) = s.takeWhile (· ≠ o) ++ more := by
  rw [List.takeWhile_append]
  split
  · rename_i hlength
    refine ⟨_, isBlankText_takeWhile h ho, ?_⟩
    rw [(List.takeWhile_prefix _).eq_of_length hlength]
  · exact ⟨[], rfl, (List.append_nil _).symm⟩

/-! ### Cutting -/

section Cut

variable {sep : List Char}

theorem cut?_cons (hsep : sep ≠ []) (c : Char) (s : List Char) :
    cut? sep (c :: s) =
      if sep <+: c :: s then some ([], (c :: s).drop sep.length)
      else (cut? sep s).map fun (before, after) => (c :: before, after) := by
  have hshift : ∀ (s : List Char) (n : Nat),
      positionFrom sep n s = (positionFrom sep 0 s).map (· + n) := by
    intro s
    induction s with
    | nil => intro n; simp [positionFrom, hsep]
    | cons c s ih =>
      intro n
      rw [positionFrom, positionFrom]
      split
      · simp
      · rw [ih (n + 1), ih (0 + 1), Option.map_map]
        congr 1
        funext k
        simp only [Function.comp]
        omega
  simp only [cut?, position?, positionFrom, List.isPrefixOf_iff_prefix]
  split
  · simp
  · rw [hshift s (0 + 1), Option.map_map, Option.map_map]
    congr 1
    funext k
    simp [Function.comp, Nat.add_right_comm]

theorem eq_of_cut? (hsep : sep ≠ []) {before after : List Char}
    (h : cut? sep s = some (before, after)) : s = before ++ (sep ++ after) := by
  induction s generalizing before after with
  | nil => simp [cut?, position?, positionFrom, hsep] at h
  | cons c s ih =>
    rw [cut?_cons hsep] at h
    split_ifs at h with hprefix
    · obtain ⟨rest, hrest⟩ := hprefix
      simp only [← hrest, List.drop_left, Option.some_inj, Prod.mk.injEq] at h
      obtain ⟨rfl, rfl⟩ := h
      exact hrest.symm
    · obtain ⟨⟨before', after'⟩, hcut, heq⟩ := Option.map_eq_some_iff.mp h
      obtain ⟨rfl, rfl⟩ := Prod.mk.inj heq
      rw [ih hcut, List.cons_append]

/-- A separator that goes beyond a text, into blanks, ends in a blank and leaves blanks. -/
theorem blank_of_beyond (h : isBlankText blanks = true) {l : Char} (hl : l.toNat < 128)
    {s after : List Char} (hnot : ¬ sep ++ [l] <+: s)
    (heq : s ++ blanks = sep ++ [l] ++ after) : isBlank l = true ∧ isBlankText after = true := by
  obtain ⟨w, hw⟩ := (List.prefix_or_prefix_of_prefix ⟨after, heq.symm⟩
    (List.prefix_append s blanks)).resolve_left hnot
  obtain rfl | ⟨w', l', rfl⟩ := List.eq_nil_or_concat' w
  · exact absurd ⟨[], by rw [← hw, List.append_nil, List.append_nil]⟩ hnot
  rw [← List.append_assoc] at hw
  obtain ⟨-, hlast⟩ := List.append_inj' hw rfl
  obtain rfl := List.singleton_inj.mp hlast
  rw [← hw, List.append_assoc, List.append_assoc] at heq
  rw [List.append_cancel_left heq, List.singleton_append, isBlankText_append_cons hl] at h
  exact h.2

variable (sep) in
/-- **Where a separator is found before blanks**: where it is found in the text, or in the blanks,
or nowhere. -/
theorem cut?_append_blank (h : isBlankText blanks = true) {l : Char} (hl : l.toNat < 128)
    (s : List Char) :
    (∃ before after, cut? (sep ++ [l]) s = some (before, after) ∧
      cut? (sep ++ [l]) (s ++ blanks) = some (before, after ++ blanks)) ∨
    cut? (sep ++ [l]) s = none ∧
      (cut? (sep ++ [l]) (s ++ blanks) = none ∨
        isBlank l = true ∧ ∃ before after, cut? (sep ++ [l]) (s ++ blanks) = some (before, after) ∧
          isBlankText after = true) := by
  have hsep : sep ++ [l] ≠ [] := by simp
  induction s with
  | nil =>
    refine .inr ⟨by simp [cut?, position?, positionFrom], ?_⟩
    rcases hcut : cut? (sep ++ [l]) ([] ++ blanks) with _ | ⟨before, after⟩
    · exact .inl rfl
    · have heq := eq_of_cut? hsep hcut
      rw [List.nil_append, List.append_assoc, List.singleton_append, ← List.append_assoc] at heq
      rw [heq, isBlankText_append_cons hl] at h
      exact .inr ⟨h.2.1, before, after, rfl, h.2.2⟩
  | cons c s ih =>
    rw [List.cons_append, cut?_cons hsep, cut?_cons hsep]
    by_cases hp : sep ++ [l] <+: c :: s
    · have hp' : sep ++ [l] <+: c :: (s ++ blanks) := hp.trans (List.prefix_append (c :: s) blanks)
      rw [if_pos hp, if_pos hp', ← List.cons_append]
      exact .inl ⟨_, _, rfl, by rw [List.drop_append_of_le_length hp.length_le]⟩
    rw [if_neg hp]
    by_cases hp' : sep ++ [l] <+: c :: (s ++ blanks)
    · -- the separator begins here, and is too long for the text
      have hnone : cut? (sep ++ [l]) s = none := by
        rcases hcut : cut? (sep ++ [l]) s with _ | ⟨before, after⟩
        · rfl
        have hlength := congrArg List.length (eq_of_cut? hsep hcut)
        have hs : c :: s <+: c :: (s ++ blanks) := List.prefix_append (c :: s) blanks
        refine absurd (List.prefix_of_prefix_length_le hp' hs ?_) hp
        simp only [List.length_append, List.length_cons] at hlength ⊢
        omega
      obtain ⟨after, hafter⟩ := id hp'
      have hblank := blank_of_beyond (s := c :: s) h hl hp hafter.symm
      rw [if_pos hp', hnone, ← hafter, List.drop_left]
      exact .inr ⟨rfl, .inr ⟨hblank.1, [], after, rfl, hblank.2⟩⟩
    · rw [if_neg hp']
      rcases ih with ⟨before, after, hs, hb⟩ | ⟨hs, hb | ⟨hl, before, after, hb, hafter⟩⟩
      · exact .inl ⟨c :: before, after, by rw [hs]; rfl, by rw [hb]; rfl⟩
      · exact .inr ⟨by rw [hs]; rfl, .inl (by rw [hb]; rfl)⟩
      · exact .inr ⟨by rw [hs]; rfl, .inr ⟨hl, c :: before, after, by rw [hb]; rfl, hafter⟩⟩

variable (sep) in
/-- What stands between a separator and the next `o` goes on with blanks at most. -/
theorem cut?_takeWhile_append_blank (h : isBlankText blanks = true) {l o : Char}
    (hl : l.toNat < 128) (ho : o.toNat < 128) (s : List Char) :
    (∃ before after after' more, cut? (sep ++ [l]) s = some (before, after) ∧
      cut? (sep ++ [l]) (s ++ blanks) = some (before, after') ∧ isBlankText more = true ∧
        after'.takeWhile (· ≠ o) = after.takeWhile (· ≠ o) ++ more) ∨
    cut? (sep ++ [l]) s = none ∧
      (cut? (sep ++ [l]) (s ++ blanks) = none ∨
        ∃ before after, cut? (sep ++ [l]) (s ++ blanks) = some (before, after) ∧
          isBlankText (after.takeWhile (· ≠ o)) = true) := by
  rcases cut?_append_blank sep h hl s with
    ⟨before, after, hs, hb⟩ | ⟨hs, hb | ⟨-, before, after, hb, hafter⟩⟩
  · obtain ⟨more, hmore, htake⟩ := exists_takeWhile_append_blank h ho after
    exact .inl ⟨before, after, _, more, hs, hb, hmore, htake⟩
  · exact .inr ⟨hs, .inl hb⟩
  · exact .inr ⟨hs, .inr ⟨before, after, hb, isBlankText_takeWhile hafter ho⟩⟩

/-- A separator is found behind what lacks its first character. -/
theorem cut?_append_of_notMem {o : Char} (hx : o ∉ x) (s : List Char) :
    cut? (o :: sep) (x ++ s) =
      (cut? (o :: sep) s).map fun (before, after) => (x ++ before, after) := by
  induction x with
  | nil => simp
  | cons c x ih =>
    have hc : ¬ o :: sep <+: c :: (x ++ s) := fun hp =>
      hx (List.mem_cons.mpr (.inl (List.cons_prefix_cons.mp hp).1))
    rw [List.cons_append, cut?_cons (by simp), if_neg hc,
      ih fun hmem => hx (List.mem_cons_of_mem _ hmem), Option.map_map]
    rfl

/-- **Where a character is found in a trimmed text**: at the same place, blanks apart. -/
theorem exists_cut?_trim {o : Char} (hlt : o.toNat < 128) (ho : isBlank o = false)
    (s : List Char) :
    ∃ leading trailing, isBlankText leading = true ∧ isBlankText trailing = true ∧
      cut? [o] s =
        (cut? [o] (trim s)).map fun (before, after) => (leading ++ before, after ++ trailing) := by
  obtain ⟨leading, trailing, hleading, htrailing, hs⟩ := exists_eq_trim s
  refine ⟨leading, trailing, hleading, htrailing, ?_⟩
  have hnot : o ∉ leading := fun hmem => by
    rw [isBlank_of_mem hleading hmem hlt] at ho
    exact absurd ho (by simp)
  have hcore : cut? [o] (trim s ++ trailing) =
      (cut? [o] (trim s)).map fun (before, after) => (before, after ++ trailing) := by
    rcases cut?_append_blank [] htrailing hlt (trim s) with
      ⟨before, after, hs, hb⟩ | ⟨hs, hb | ⟨hblank, -⟩⟩
    · rw [List.nil_append] at hs hb
      rw [hs, hb]
      rfl
    · rw [List.nil_append] at hs hb
      rw [hs, hb]
      rfl
    · rw [ho] at hblank
      exact absurd hblank (by simp)
  calc cut? [o] s = cut? [o] (leading ++ (trim s ++ trailing)) := by rw [← hs]
    _ = _ := by
        rw [cut?_append_of_notMem hnot, hcore, Option.map_map]
        rfl

end Cut

/-! ### Pieces -/

section Pieces

variable {sep : List Char} {l : Char}

theorem piecesFrom_eq_singleton (hs : ¬ sep <:+: s) (piece : List Char) :
    piecesFrom sep 0 piece s = [piece.reverse ++ s] := by
  induction s generalizing piece with
  | nil => rw [piecesFrom, List.append_nil]
  | cons c s ih =>
    rw [List.infix_cons_iff, not_or] at hs
    rw [piecesFrom, if_neg (by rw [List.isPrefixOf_iff_prefix]; exact hs.1), ih hs.2,
      List.reverse_cons, List.append_assoc]
    rfl

/-- A text without the separator is one piece. -/
theorem pieces_eq_singleton (hs : ¬ sep <:+: s) : pieces sep s = [s] :=
  piecesFrom_eq_singleton hs []

theorem piecesFrom_append_blank (h : isBlankText blanks = true) (hlt : l.toNat < 128)
    (hl : isBlank l = false) (skip : Nat) (piece s : List Char) (hskip : skip ≤ s.length) :
    ∃ ps p, piecesFrom (sep ++ [l]) skip piece s = ps ++ [p] ∧
      piecesFrom (sep ++ [l]) skip piece (s ++ blanks) = ps ++ [p ++ blanks] := by
  induction s generalizing skip piece with
  | nil =>
    obtain rfl := Nat.le_zero.mp hskip
    have hnot : ¬ sep ++ [l] <:+: blanks := fun hocc => by
      have hmem : l ∈ blanks :=
        hocc.subset (List.mem_append_right _ (List.mem_singleton_self l))
      rw [isBlank_of_mem h hmem hlt] at hl
      exact absurd hl (by simp)
    exact ⟨[], piece.reverse, by rw [piecesFrom, List.nil_append],
      by rw [List.nil_append, List.nil_append, piecesFrom_eq_singleton hnot]⟩
  | cons c s ih =>
    cases skip with
    | succ skip => exact ih skip piece (Nat.le_of_succ_le_succ hskip)
    | zero =>
      rw [List.cons_append, piecesFrom, piecesFrom]
      by_cases hp : sep ++ [l] <+: c :: s
      · have hp' : sep ++ [l] <+: c :: (s ++ blanks) :=
          hp.trans (List.prefix_append (c :: s) blanks)
        have hlength : (sep ++ [l]).length - 1 ≤ s.length := by
          have hle := hp.length_le
          rw [List.length_cons] at hle
          omega
        obtain ⟨ps, p, hs, hb⟩ := ih _ [] hlength
        rw [if_pos (List.isPrefixOf_iff_prefix.mpr hp), if_pos (List.isPrefixOf_iff_prefix.mpr hp'),
          hs, hb]
        exact ⟨piece.reverse :: ps, p, rfl, rfl⟩
      · have hp' : ¬ sep ++ [l] <+: c :: (s ++ blanks) := by
          rintro ⟨after, hafter⟩
          have hblank := (blank_of_beyond (s := c :: s) h hlt hp hafter.symm).1
          rw [hl] at hblank
          exact absurd hblank (by simp)
        rw [if_neg (by rwa [List.isPrefixOf_iff_prefix]),
          if_neg (by rwa [List.isPrefixOf_iff_prefix])]
        exact ih 0 (c :: piece) (Nat.zero_le _)

variable (sep) in
/-- **Blanks behind a text go to its last piece**, unless the separator ends in one. -/
theorem pieces_append_blank (h : isBlankText blanks = true) (hlt : l.toNat < 128)
    (hl : isBlank l = false) (s : List Char) :
    ∃ ps p, pieces (sep ++ [l]) s = ps ++ [p] ∧
      pieces (sep ++ [l]) (s ++ blanks) = ps ++ [p ++ blanks] :=
  piecesFrom_append_blank h hlt hl 0 [] s (Nat.zero_le _)

theorem piecesFrom_append (sep skipped piece s : List Char) :
    piecesFrom sep skipped.length piece (skipped ++ s) = piecesFrom sep 0 piece s := by
  induction skipped with
  | nil => rfl
  | cons c skipped ih => exact ih

/-- **A text begins with a piece** if the separator stands behind it, and not earlier. The last
character of the separator is found at its end only, so that none begins in the piece. -/
theorem pieces_append_sep (hl : l ∉ sep) (hx : ¬ sep ++ [l] <:+: x) (s : List Char) :
    pieces (sep ++ [l]) (x ++ (sep ++ [l] ++ s)) = x :: pieces (sep ++ [l]) s := by
  have hfrom : ∀ piece, piecesFrom (sep ++ [l]) 0 piece (x ++ (sep ++ [l] ++ s)) =
      (piece.reverse ++ x) :: pieces (sep ++ [l]) s := by
    induction x with
    | nil =>
      intro piece
      obtain ⟨c, rest, hsep⟩ := List.exists_cons_of_ne_nil (List.concat_ne_nil l sep)
      have hp : (c :: rest).isPrefixOf (c :: (rest ++ s)) = true :=
        List.isPrefixOf_iff_prefix.mpr (List.prefix_append (c :: rest) s)
      rw [hsep, List.nil_append, List.cons_append, piecesFrom, if_pos hp, pieces, List.append_nil]
      exact congrArg (piece.reverse :: ·) (piecesFrom_append _ rest [] s)
    | cons c x ih =>
      intro piece
      rw [List.infix_cons_iff, not_or] at hx
      have hp : ¬ sep ++ [l] <+: c :: (x ++ (sep ++ [l] ++ s)) := fun hp => by
        -- it would end in the separator behind the piece, but before the end of that
        obtain ⟨w, hw⟩ := (List.prefix_or_prefix_of_prefix hp
          (List.prefix_append (c :: x) (sep ++ [l] ++ s))).resolve_left hx.1
        have hshort : w.length ≤ sep.length := by
          have hlength := congrArg List.length hw
          simp only [List.length_append, List.length_cons, List.length_nil] at hlength
          omega
        rw [← List.cons_append, ← hw, List.prefix_append_right_inj, hw, List.append_assoc] at hp
        have hsub : w <+: sep :=
          List.prefix_of_prefix_length_le hp (List.prefix_append sep ([l] ++ s)) hshort
        obtain rfl | ⟨w', l', rfl⟩ := List.eq_nil_or_concat' w
        · exact hx.1 ⟨[], by rw [List.append_nil, ← hw, List.append_nil]⟩
        · rw [← List.append_assoc] at hw
          obtain rfl := List.singleton_inj.mp (List.append_inj' hw rfl).2
          exact hl (hsub.subset (List.mem_append_right _ (List.mem_singleton_self _)))
      rw [List.cons_append, piecesFrom, if_neg (by rwa [List.isPrefixOf_iff_prefix]), ih hx.2,
        List.reverse_cons, List.append_assoc]
      rfl
  exact hfrom []

end Pieces

end WorstCase.Text
