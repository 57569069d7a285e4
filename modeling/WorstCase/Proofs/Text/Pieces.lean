import WorstCase.Proofs.Text.Blank
import Mathlib.Data.List.Basic
import Mathlib.Data.List.Infix

/-!
# Searching a text part by part

A separator does not reach across a character that it does not hold. So what stands before such a
character can be searched on its own: an occurrence lies on one side of it
(`Text.infix_append_cons_iff`), and the first one is behind it if there is none before it
(`Text.cut?_append_cons`). In the same way a blank parts the words of a text
(`Text.words_append_cons`).

Pieces are what is cut off again and again (`Text.pieces_eq`). Those between the occurrences of a
single character are those of the library (`Text.pieces_singleton`).
-/

namespace WorstCase.Text

/-! ### Separators -/

section Separator

variable {sep x : List Char} {o : Char}

theorem prefix_append_cons_iff (ho : o ∉ sep) (s : List Char) :
    sep <+: x ++ o :: s ↔ sep <+: x := by
  constructor
  · intro h
    rcases List.prefix_or_prefix_of_prefix h (List.prefix_append x (o :: s)) with hx | ⟨w, rfl⟩
    · exact hx
    · rw [List.prefix_append_right_inj] at h
      cases w with
      | nil => exact (List.append_nil x).symm ▸ List.prefix_rfl
      | cons c w =>
        obtain rfl := (List.cons_prefix_cons.mp h).1
        exact absurd (List.mem_append_right _ List.mem_cons_self) ho
  · exact fun h => h.trans (List.prefix_append _ _)

/-- **An occurrence lies on one side** of a character that the separator does not hold. -/
theorem infix_append_cons_iff (ho : o ∉ sep) (s : List Char) :
    sep <:+: x ++ o :: s ↔ sep <:+: x ∨ sep <:+: s := by
  induction x with
  | nil =>
    have hnil : sep <+: o :: s ↔ sep <+: [] := prefix_append_cons_iff (x := []) ho s
    rw [List.nil_append, List.infix_cons_iff, hnil, List.prefix_nil, List.infix_nil]
  | cons c x ih =>
    have hcons : sep <+: c :: (x ++ o :: s) ↔ sep <+: c :: x :=
      prefix_append_cons_iff (x := c :: x) ho s
    rw [List.cons_append, List.infix_cons_iff, ih, hcons, List.infix_cons_iff, or_assoc]

/-- A text that lacks a character of the separator lacks the separator. -/
theorem not_infix_of_notMem {c : Char} (hc : c ∈ sep) (hx : c ∉ x) : ¬ sep <:+: x :=
  fun h => hx (h.subset hc)

theorem cut?_eq_none_iff (hsep : sep ≠ []) : cut? sep x = none ↔ ¬ sep <:+: x := by
  induction x with
  | nil => simp [cut?, position?, positionFrom, hsep]
  | cons c x ih =>
    rw [cut?_cons hsep, List.infix_cons_iff, not_or, ← ih]
    split_ifs with hp
    · exact iff_of_false (by simp) fun h => h.1 hp
    · rw [Option.map_eq_none_iff, and_iff_right hp]

/-- Before the first occurrence there is none. -/
theorem not_infix_of_cut? (hsep : sep ≠ []) {before after : List Char}
    (h : cut? sep x = some (before, after)) : ¬ sep <:+: before := by
  have heq := eq_of_cut? hsep h
  induction x generalizing before with
  | nil => simp [hsep] at heq
  | cons c x ih =>
    rw [cut?_cons hsep] at h
    split_ifs at h with hp
    · obtain ⟨rfl, -⟩ := Prod.mk.inj (Option.some_inj.mp h)
      rwa [List.infix_nil]
    · obtain ⟨⟨before', after'⟩, hcut, hmap⟩ := Option.map_eq_some_iff.mp h
      obtain ⟨rfl, rfl⟩ := Prod.mk.inj hmap
      rw [List.infix_cons_iff, not_or]
      refine ⟨fun hbefore => hp ?_, ih hcut (List.cons.inj heq).2⟩
      exact heq ▸ hbefore.trans (List.prefix_append _ _)

theorem occursIn_eq (sep x : List Char) : occursIn sep x = (cut? sep x).isSome := by
  rw [occursIn, cut?, Option.isSome_map]

/-- **The first occurrence is behind what has none**, up to a character that the separator does not
hold. -/
theorem cut?_append_cons (hsep : sep ≠ []) (ho : o ∉ sep) (hx : ¬ sep <:+: x) (s : List Char) :
    cut? sep (x ++ o :: s) = (cut? sep s).map fun (before, after) => (x ++ o :: before, after) := by
  induction x with
  | nil =>
    have hnot : ¬ sep <+: o :: s := fun hp =>
      hsep (List.prefix_nil.mp ((prefix_append_cons_iff (x := []) ho s).mp hp))
    rw [List.nil_append, cut?_cons hsep, if_neg hnot]
    rfl
  | cons c x ih =>
    rw [List.infix_cons_iff, not_or] at hx
    have hnot : ¬ sep <+: c :: (x ++ o :: s) :=
      mt (prefix_append_cons_iff (x := c :: x) ho s).mp hx.1
    rw [List.cons_append, cut?_cons hsep, if_neg hnot, ih hx.2, Option.map_map]
    rfl

/-- A separator at the beginning is found there. -/
theorem cut?_append_self (hsep : sep ≠ []) (s : List Char) :
    cut? sep (sep ++ s) = some ([], s) := by
  obtain ⟨c, rest, rfl⟩ := List.exists_cons_of_ne_nil hsep
  rw [List.cons_append, cut?_cons hsep, ← List.cons_append, if_pos (List.prefix_append _ _),
    List.drop_left]

/-- A text is cut at the first of a character. -/
theorem cut?_append_cons_self (hx : o ∉ x) (s : List Char) :
    cut? [o] (x ++ o :: s) = some (x, s) := by
  have hself : cut? [o] (o :: s) = some ([], s) := cut?_append_self (List.cons_ne_nil _ _) s
  rw [cut?_append_of_notMem hx, hself]
  simp

/-- **Where a character occurs first.** -/
theorem position?_singleton_eq_some_iff {n : Nat} :
    position? [o] x = some n ↔
      ∃ before after, x = before ++ o :: after ∧ o ∉ before ∧ before.length = n := by
  have hne : [o] ≠ [] := List.cons_ne_nil _ _
  have hcut : ∀ {n : Nat}, position? [o] x = some n →
      cut? [o] x = some (x.take n, x.drop (n + 1)) := fun h => by
    rw [cut?, h]
    rfl
  have hlength : ∀ {n : Nat}, position? [o] x = some n → (x.take n).length = n := fun {n} h => by
    have heq := congrArg List.length (eq_of_cut? hne (hcut h))
    simp only [List.length_append, List.length_take, List.length_drop, List.length_singleton]
      at heq ⊢
    omega
  constructor
  · intro h
    have hnone := not_infix_of_cut? hne (hcut h)
    rw [List.singleton_infix_iff] at hnone
    exact ⟨_, _, by simpa using eq_of_cut? hne (hcut h), hnone, hlength h⟩
  · rintro ⟨before, after, rfl, hbefore, rfl⟩
    have hparts := cut?_append_cons_self hbefore after
    obtain ⟨n, hn, -⟩ := Option.map_eq_some_iff.mp hparts
    rw [hcut hn, Option.some_inj, Prod.mk.injEq] at hparts
    rw [hn, ← hlength hn, hparts.1]

theorem piecesFrom_eq (hsep : sep ≠ []) (piece s : List Char) :
    piecesFrom sep 0 piece s =
      match cut? sep s with
      | some (before, after) => (piece.reverse ++ before) :: pieces sep after
      | none => [piece.reverse ++ s] := by
  induction s generalizing piece with
  | nil =>
    rw [(cut?_eq_none_iff hsep).mpr (by rwa [List.infix_nil]), piecesFrom, List.append_nil]
  | cons c s ih =>
    rw [piecesFrom, cut?_cons hsep]
    by_cases hp : sep <+: c :: s
    · obtain ⟨after, hafter⟩ := id hp
      obtain ⟨c', rest, rfl⟩ := List.exists_cons_of_ne_nil hsep
      obtain ⟨rfl, rfl⟩ := List.cons.inj hafter
      have hdrop : (c' :: rest.append after).drop (c' :: rest).length = after := List.drop_left
      rw [if_pos (List.isPrefixOf_iff_prefix.mpr hp), if_pos hp, hdrop]
      simp only [List.append_nil]
      exact congrArg (piece.reverse :: ·) (piecesFrom_append _ rest [] after)
    · rw [if_neg (by rwa [List.isPrefixOf_iff_prefix]), if_neg hp, ih]
      rcases cut? sep s with _ | ⟨before, after⟩
      · simp
      · simp

/-- **The pieces of a text**: the first is cut off, the others are those of what remains. -/
theorem pieces_eq (hsep : sep ≠ []) (s : List Char) :
    pieces sep s =
      match cut? sep s with
      | some (before, after) => before :: pieces sep after
      | none => [s] :=
  piecesFrom_eq hsep [] s

/-! ### Endings -/

theorem dropSuffix_append (sep x : List Char) : dropSuffix sep (x ++ sep) = x := by
  rw [dropSuffix, if_pos (List.isSuffixOf_iff_suffix.mpr (List.suffix_append _ _))]
  simp

theorem dropSuffix_of_not_suffix (hx : ¬ sep <:+ x) : dropSuffix sep x = x :=
  if_neg (by rwa [List.isSuffixOf_iff_suffix])

/-! ### Lines -/

/-- **Lines without an occurrence** do not matter to what stands behind the first one. -/
theorem map_cut?_lines (hsep : sep ≠ []) (hbreak : '\n' ∉ sep) {lines : List (List Char)}
    (h : ∀ l ∈ lines, ¬ sep <:+: l) (s : List Char) :
    (cut? sep (lines.flatMap (· ++ ['\n']) ++ s)).map Prod.snd = (cut? sep s).map Prod.snd := by
  induction lines with
  | nil => rfl
  | cons l lines ih =>
    rw [List.forall_mem_cons] at h
    rw [List.flatMap_cons, List.append_assoc, List.append_assoc, List.singleton_append,
      cut?_append_cons hsep hbreak h.1, Option.map_map, ← ih h.2]
    rfl

/-- Where a line stands in a text. -/
theorem exists_eq_of_lines {above below : List (List Char)} {line s : List Char}
    (h : pieces ['\n'] s = above ++ line :: below) :
    ∃ rest, s = above.flatMap (· ++ ['\n']) ++ (line ++ rest) ∧ '\n' ∉ line ∧
      ∀ c ∈ rest.head?, c = '\n' := by
  have hne : ['\n'] ≠ [] := List.cons_ne_nil _ _
  induction above generalizing s with
  | nil =>
    rw [pieces_eq hne] at h
    rcases hcut : cut? ['\n'] s with _ | ⟨before, after⟩
    · rw [hcut] at h
      obtain ⟨rfl, -⟩ := List.cons.inj h
      rw [cut?_eq_none_iff hne, List.singleton_infix_iff] at hcut
      exact ⟨[], by simp, hcut, by simp⟩
    · rw [hcut] at h
      obtain ⟨rfl, -⟩ := List.cons.inj h
      have hnone := not_infix_of_cut? hne hcut
      rw [List.singleton_infix_iff] at hnone
      exact ⟨'\n' :: after, eq_of_cut? hne hcut, hnone, by simp⟩
  | cons l above ih =>
    rw [pieces_eq hne] at h
    rcases hcut : cut? ['\n'] s with _ | ⟨before, after⟩
    · rw [hcut] at h
      exact absurd (List.cons.inj h).2.symm (by simp)
    · rw [hcut] at h
      obtain ⟨rfl, hrest⟩ := List.cons.inj h
      obtain ⟨rest, rfl, hline⟩ := ih hrest
      refine ⟨rest, ?_, hline⟩
      rw [eq_of_cut? hne hcut, List.flatMap_cons, List.append_assoc, List.append_assoc]

/-- What occurs in a text of lines occurs in one of them. -/
theorem exists_of_infix_lines (hsep : sep ≠ []) (hbreak : '\n' ∉ sep) {lines : List (List Char)}
    (h : sep <:+: lines.flatMap (· ++ ['\n'])) : ∃ l ∈ lines, sep <:+: l := by
  induction lines with
  | nil => exact absurd (List.infix_nil.mp h) hsep
  | cons l lines ih =>
    rw [List.flatMap_cons, List.append_assoc, List.singleton_append,
      infix_append_cons_iff hbreak] at h
    rcases h with hl | hrest
    · exact ⟨l, List.mem_cons_self, hl⟩
    · obtain ⟨l', hl', hocc⟩ := ih hrest
      exact ⟨l', List.mem_cons_of_mem _ hl', hocc⟩

theorem firstLine_append_cons (hx : '\n' ∉ x) (s : List Char) : firstLine (x ++ '\n' :: s) = x := by
  have hall : ∀ c ∈ x, decide (c ≠ '\n') = true := fun c hc =>
    decide_eq_true fun hc' => hx (hc' ▸ hc)
  rw [firstLine, List.takeWhile_append_of_pos hall]
  simp

end Separator

/-! ### Texts joined by a character -/

section Joined

variable {c x : Char}

/-- What a joined text consists of. -/
theorem mem_intercalate {ls : List (List Char)} (h : x ∈ [c].intercalate ls) :
    x = c ∨ ∃ l ∈ ls, x ∈ l := by
  match ls with
  | [] => exact absurd h (by simp [List.intercalate])
  | [l] => exact .inr ⟨l, List.mem_singleton_self l, by simpa [List.intercalate] using h⟩
  | l :: l' :: ls =>
    have hcons : [c].intercalate (l :: l' :: ls) = l ++ c :: [c].intercalate (l' :: ls) := by
      simp [List.intercalate, List.intersperse]
    rw [hcons, List.mem_append, List.mem_cons] at h
    rcases h with h | h | h
    · exact .inr ⟨l, List.mem_cons_self, h⟩
    · exact .inl h
    · exact (mem_intercalate h).imp_right fun ⟨m, hm, hx⟩ => ⟨m, List.mem_cons_of_mem _ hm, hx⟩

theorem pieces_singleton (c : Char) (s : List Char) : pieces [c] s = s.splitOn c := by
  have hfrom : ∀ piece s : List Char,
      piecesFrom [c] 0 piece s = List.splitOnPPrepend (· == c) s piece := by
    intro piece s
    induction s generalizing piece with
    | nil => rfl
    | cons d s ih =>
      rw [piecesFrom, List.splitOnPPrepend_cons_eq_if]
      by_cases hd : d = c
      · simp [hd, ih, List.splitOnPPrepend_nil_right]
      · simp [hd, ih, Ne.symm hd]
  exact hfrom [] s

end Joined

/-! ### Symbols below 128 -/

/-- An octet below 128 is a symbol of its own. -/
theorem symbols_append_cons {o : Char} (ho : o.toNat < 128) (x s : List Char) :
    symbols (x ++ o :: s) = symbols x ++ .char o :: symbols s := by
  rw [← symbols_append_utf8, utf8_of_lt ho, List.singleton_append]

/-- Octets below 128 spell themselves. -/
theorem symbols_append_of_lt {w : List Char} (hw : ∀ c ∈ w, c.toNat < 128) (s : List Char) :
    symbols (w ++ s) = w.map .char ++ symbols s := by
  induction w with
  | nil => rfl
  | cons c w ih =>
    rw [List.forall_mem_cons] at hw
    have hcons := symbols_append_cons hw.1 [] (w ++ s)
    rw [List.nil_append] at hcons
    rw [List.cons_append, hcons, ih hw.2]
    rfl

/-! ### Words -/

section Words

variable {b : Symbol} {ys : List Symbol}

/-- A blank parts words. -/
theorem wordsFrom_append_cons (hb : b.isBlank = true) (word xs ys : List Symbol) :
    wordsFrom word (xs ++ b :: ys) = wordsFrom word xs ++ wordsFrom [] ys := by
  induction xs generalizing word with
  | nil =>
    rw [List.nil_append, wordsFrom, wordsFrom, if_pos hb]
    split <;> rfl
  | cons y xs ih =>
    rw [List.cons_append, wordsFrom, wordsFrom, ih, ih]
    split
    · split <;> rfl
    · rfl

/-- What holds no blank continues the word that is being read. -/
theorem wordsFrom_solid_append (h : ∀ y ∈ ys, y.isBlank = false) (word zs : List Symbol) :
    wordsFrom word (ys ++ zs) = wordsFrom (ys.reverse ++ word) zs := by
  induction ys generalizing word with
  | nil => rfl
  | cons y ys ih =>
    rw [List.forall_mem_cons] at h
    have hstep : wordsFrom word (y :: (ys ++ zs)) = wordsFrom (y :: word) (ys ++ zs) := by
      simp [wordsFrom, h.1]
    rw [List.cons_append, hstep, ih h.2, List.reverse_cons, List.append_assoc]
    rfl

theorem wordsFrom_nil_of_solid (h : ∀ y ∈ ys, y.isBlank = false) (hne : ys ≠ []) :
    wordsFrom [] ys = [ys] := by
  have hread := wordsFrom_solid_append h [] []
  rw [List.append_nil, List.append_nil] at hread
  rw [hread, wordsFrom, if_neg (by simpa using hne), List.reverse_reverse]

/-- Blanks at the beginning belong to no word. -/
theorem wordsFrom_blank_append (h : ∀ y ∈ ys, y.isBlank = true) (zs : List Symbol) :
    wordsFrom [] (ys ++ zs) = wordsFrom [] zs := by
  induction ys with
  | nil => rfl
  | cons y ys ih =>
    rw [List.forall_mem_cons] at h
    have hstep : wordsFrom [] (y :: (ys ++ zs)) = wordsFrom [] (ys ++ zs) := by
      simp [wordsFrom, h.1]
    rw [List.cons_append, hstep, ih h.2]

end Words

/-- **A blank parts words.** -/
theorem words_append_cons {o : Char} (hlt : o.toNat < 128) (ho : isBlank o = true)
    (x s : List Char) : words (x ++ o :: s) = words x ++ words s := by
  have hblank : (Symbol.char o).isBlank = true := ho
  rw [words, symbols_append_cons hlt, wordsFrom_append_cons hblank, List.map_append]
  rfl

/-! ### Texts without blanks -/

section Plain

variable {s : List Char}

theorem symbols_of_lt (h : ∀ c ∈ s, c.toNat < 128) : symbols s = s.map .char := by
  have hsymbols := symbols_append_of_lt h []
  rw [List.append_nil] at hsymbols
  exact hsymbols.trans (List.append_nil _)

/-- A text without blanks is one word. -/
theorem words_of_plain (h : ∀ c ∈ s, c.toNat < 128 ∧ isBlank c = false) (hne : s ≠ []) :
    words s = [s] := by
  have hsymbols := symbols_of_lt fun c hc => (h c hc).1
  have hsolid : ∀ y ∈ symbols s, y.isBlank = false := by
    rw [hsymbols, List.forall_mem_map]
    exact fun c hc => (h c hc).2
  rw [words, wordsFrom_nil_of_solid hsolid (by simpa [hsymbols] using hne), List.map_singleton,
    ofSymbols_symbols]

/-- A text without blanks has none to trim. -/
theorem trim_of_plain (h : ∀ c ∈ s, c.toNat < 128 ∧ isBlank c = false) : trim s = s := by
  obtain ⟨before, after, hbefore, hafter, hs⟩ := exists_eq_trim s
  have hnil : ∀ {blanks : List Char}, isBlankText blanks = true → (∀ c ∈ blanks, c ∈ s) →
      blanks = [] := by
    intro blanks hblanks hsub
    refine List.eq_nil_iff_forall_not_mem.mpr fun c hc => ?_
    obtain ⟨hlt, hsolid⟩ := h c (hsub c hc)
    exact absurd (isBlank_of_mem hblanks hc hlt) (by simp [hsolid])
  have hbefore' := hnil hbefore fun c hc => hs ▸ List.mem_append_left _ hc
  have hafter' := hnil hafter fun c hc =>
    hs ▸ List.mem_append_right _ (List.mem_append_right _ hc)
  rw [hbefore', hafter', List.nil_append, List.append_nil] at hs
  exact hs.symm

end Plain

end WorstCase.Text
