import WorstCase.Proofs.Text.Pieces

/-!
# Trimmed texts

A text is **trimmed** if it neither begins nor ends with a blank. Trimming makes texts so
(`Text.isTrimmed_trim`) and leaves those alone that are (`Text.IsTrimmed.trim_eq`); words are
trimmed (`Text.isTrimmed_of_mem_words`), and so is what is joined from trimmed texts
(`Text.IsTrimmed.append_cons`).

Part of a text need not have the symbols that it has within the text, because its octets could be
read in another way. For symbols that stand next to each other they are the same
(`Text.symbols_ofSymbols`).
-/

namespace WorstCase.Text

variable {s x w : List Char} {y : Symbol} {ys zs : List Symbol}

/-! ### Symbols of a part -/

/-- What begins with a symbol: its octets, and a text that has the other symbols. -/
theorem exists_of_symbols_eq_cons (h : symbols s = y :: ys) :
    ∃ t, s = y.octets ++ t ∧ symbols t = ys ∧ ∀ o, y = .stray o → leading? (o :: t) = none := by
  induction s using symbols_induction with
  | nil => exact absurd h (List.cons_ne_nil y ys).symm
  | char c t _ =>
    rw [symbols_utf8_append] at h
    obtain ⟨rfl, rfl⟩ := List.cons.inj h
    exact ⟨t, rfl, rfl, by simp⟩
  | stray o t hlead _ =>
    rw [symbols_stray hlead] at h
    obtain ⟨rfl, rfl⟩ := List.cons.inj h
    refine ⟨t, rfl, rfl, fun o' ho' => ?_⟩
    rw [← Symbol.stray.inj ho']
    exact hlead

/-- A stray octet stays stray if less follows it. -/
theorem symbols_ofSymbols_of_prefix (h : symbols s = ys ++ zs) : symbols (ofSymbols ys) = ys := by
  induction ys generalizing s with
  | nil => rfl
  | cons y ys ih =>
    obtain ⟨t, -, ht, hstray⟩ := exists_of_symbols_eq_cons h
    rw [ofSymbols, List.flatMap_cons, ← ofSymbols]
    cases y with
    | char c => rw [Symbol.octets, symbols_utf8_append, ih ht]
    | stray o =>
      have hprefix : o :: ofSymbols ys <+: o :: t := by
        refine List.cons_prefix_cons.mpr ⟨rfl, ofSymbols zs, ?_⟩
        rw [← ofSymbols_symbols t, ht]
        exact List.flatMap_append.symm
      have hlead : leading? (o :: ofSymbols ys) = none := by
        rcases hsome : leading? (o :: ofSymbols ys) with _ | c
        · rfl
        have hlong := leading?_eq_some_iff.mpr ((leading?_eq_some_iff.mp hsome).trans hprefix)
        rw [hstray o rfl] at hlong
        exact absurd hlong (by simp)
      rw [Symbol.octets, List.singleton_append, symbols_stray hlead, ih ht]

/-- **Symbols next to each other** are the symbols of their octets. -/
theorem symbols_ofSymbols (h : ys <:+: symbols s) : symbols (ofSymbols ys) = ys := by
  obtain ⟨xs, zs, h⟩ := h
  induction xs generalizing s with
  | nil => exact symbols_ofSymbols_of_prefix h.symm
  | cons x xs ih =>
    obtain ⟨t, -, ht, -⟩ := exists_of_symbols_eq_cons h.symm
    exact ih ht.symm

/-! ### Trimmed texts -/

/-- A trimmed text has no blank at either end. -/
structure IsTrimmed (s : List Char) : Prop where
  head : ∀ y ∈ (symbols s).head?, y.isBlank = false
  last : ∀ y ∈ (symbols s).getLast?, y.isBlank = false

theorem isTrimmed_nil : IsTrimmed [] :=
  ⟨fun _ hy => absurd hy (Option.not_mem_none _), fun _ hy => absurd hy (Option.not_mem_none _)⟩

/-- **A trimmed text is trimmed already.** -/
theorem IsTrimmed.trim_eq (h : IsTrimmed s) : trim s = s := by
  have hkeep : ∀ {ys : List Symbol}, (∀ y ∈ ys.head?, y.isBlank = false) →
      ys.dropWhile Symbol.isBlank = ys := by
    intro ys hys
    cases ys with
    | nil => rfl
    | cons y ys => exact List.dropWhile_cons_of_neg (by simp [hys y rfl])
  have hlast : ∀ y ∈ (symbols s).reverse.head?, y.isBlank = false := by
    rw [List.head?_reverse]
    exact h.last
  rw [trim, trimStart, hkeep h.head, trimEnd, hkeep hlast, List.reverse_reverse, ofSymbols_symbols]

theorem prefix_trimEnd (ys : List Symbol) : trimEnd ys <+: ys := by
  rw [trimEnd, ← List.reverse_suffix, List.reverse_reverse]
  exact List.dropWhile_suffix _

/-- What trimming leaves are symbols of the text. -/
theorem symbols_trim (s : List Char) : symbols (trim s) = trimEnd (trimStart (symbols s)) :=
  symbols_ofSymbols ((prefix_trimEnd _).isInfix.trans (List.dropWhile_suffix _).isInfix)

/-- **Trimming takes all blanks away.** -/
theorem isTrimmed_trim (s : List Char) : IsTrimmed (trim s) where
  head := by
    rw [symbols_trim]
    intro y hy
    -- the first symbol that is left was the first one before blanks at the end were taken away
    obtain ⟨zs, hzs⟩ := prefix_trimEnd (trimStart (symbols s))
    have hhead : (trimStart (symbols s)).head? = some y := by
      rw [← hzs, List.head?_append, Option.mem_def.mp hy]
      rfl
    have hnot := List.head?_dropWhile_not Symbol.isBlank (symbols s)
    rw [trimStart] at hhead
    rw [hhead] at hnot
    simpa using hnot
  last := by
    rw [symbols_trim]
    intro y hy
    rw [trimEnd, List.getLast?_reverse] at hy
    have hnot := List.head?_dropWhile_not Symbol.isBlank (trimStart (symbols s)).reverse
    rw [Option.mem_def.mp hy] at hnot
    simpa using hnot

/-- **What is joined from trimmed texts is trimmed.** -/
theorem IsTrimmed.append_cons {o : Char} (ho : o.toNat < 128) (hx : IsTrimmed x) (hxne : x ≠ [])
    (hs : IsTrimmed s) (hsne : s ≠ []) : IsTrimmed (x ++ o :: s) where
  head := by
    obtain ⟨y, ys, hsymbols⟩ := List.exists_cons_of_ne_nil fun h : symbols x = [] => hxne <| by
      rw [← ofSymbols_symbols x, h]
      rfl
    have hhead := hx.head
    rw [hsymbols] at hhead
    rw [symbols_append_cons ho, hsymbols]
    exact hhead
  last := by
    obtain ⟨ys, y, hsymbols⟩ := List.eq_nil_or_concat' (symbols s) |>.resolve_left fun h =>
      hsne <| by
        rw [← ofSymbols_symbols s, h]
        rfl
    have hlast := hs.last
    rw [hsymbols, List.getLast?_append_of_ne_nil _ (List.cons_ne_nil y [])] at hlast
    rw [symbols_append_cons ho, hsymbols, ← List.cons_append, ← List.append_assoc,
      List.getLast?_append_of_ne_nil _ (List.cons_ne_nil y [])]
    exact hlast

/-! ### Words -/

/-- A word is a run of symbols without a blank. -/
theorem solid_of_mem_wordsFrom {t word : List Symbol} (hword : ∀ y ∈ word, y.isBlank = false)
    (h : t ∈ wordsFrom word ys) : t <:+: word.reverse ++ ys ∧ ∀ y ∈ t, y.isBlank = false := by
  have hdone : ∀ {word ys : List Symbol}, (∀ y ∈ word, y.isBlank = false) →
      t ∈ (if word.isEmpty then [] else [word.reverse]) →
      t <:+: word.reverse ++ ys ∧ ∀ y ∈ t, y.isBlank = false := by
    intro word ys hword ht
    split at ht
    · exact absurd ht List.not_mem_nil
    · rw [List.mem_singleton.mp ht]
      exact ⟨(List.prefix_append _ _).isInfix, fun y hy => hword y (List.mem_reverse.mp hy)⟩
  induction ys generalizing word with
  | nil => exact hdone hword h
  | cons y ys ih =>
    rw [wordsFrom] at h
    by_cases hy : y.isBlank = true
    · rw [if_pos hy] at h
      have hcases : t ∈ (if word.isEmpty then [] else [word.reverse]) ∨ t ∈ wordsFrom [] ys := by
        split at h
        · exact .inr h
        · rename_i hne
          rw [if_neg hne, List.mem_singleton]
          exact List.mem_cons.mp h
      rcases hcases with ht | ht
      · exact hdone hword ht
      · obtain ⟨hrun, hsolid⟩ := ih (by simp) ht
        exact ⟨hrun.trans ((List.suffix_cons y ys).trans (List.suffix_append _ _)).isInfix, hsolid⟩
    · rw [if_neg hy] at h
      have hcons : ∀ z ∈ y :: word, z.isBlank = false :=
        List.forall_mem_cons.mpr ⟨by simpa using hy, hword⟩
      have hread := ih hcons h
      rwa [List.reverse_cons, List.append_assoc] at hread

/-- **Words are trimmed.** -/
theorem isTrimmed_of_mem_words (h : w ∈ words s) : IsTrimmed w := by
  obtain ⟨t, ht, rfl⟩ := List.mem_map.mp h
  obtain ⟨hrun, hsolid⟩ := solid_of_mem_wordsFrom (by simp) ht
  refine ⟨fun y hy => ?_, fun y hy => ?_⟩ <;> rw [symbols_ofSymbols hrun] at hy
  · exact hsolid y (List.mem_of_mem_head? hy)
  · exact hsolid y (List.mem_of_mem_getLast? hy)

end WorstCase.Text
