import WorstCase.Proofs.Text.Pieces

/-!
# Tokens of a line

The **tokens** of a line are its words, where every comma is a word of its own. Blanks around a text
do not matter, and a blank parts the tokens before it from those behind it
(`Text.tokens_append_cons`).

Where some letters occur in a line, they lie in one token. If that token consists of these letters
alone, then the tokens before it and behind it are those of the parts of the line
(`Text.tokens_append_word`).
-/

namespace WorstCase.Text

/-! ### Words that are being read -/

section Words

variable {ys : List Symbol}

/-- Reading on after some symbols: words that are complete, and one that is not. -/
theorem exists_wordsFrom_append (word xs : List Symbol) :
    ∃ done pending, ∀ ys, wordsFrom word (xs ++ ys) = done ++ wordsFrom pending ys := by
  induction xs generalizing word with
  | nil => exact ⟨[], word, fun _ => rfl⟩
  | cons x xs ih =>
    by_cases hx : x.isBlank = true
    · obtain ⟨done, pending, h⟩ := ih []
      refine ⟨wordsFrom word [] ++ done, pending, fun ys => ?_⟩
      have hpart := wordsFrom_append_cons hx word [] (xs ++ ys)
      rw [List.nil_append] at hpart
      rw [List.cons_append, hpart, h, List.append_assoc]
    · obtain ⟨done, pending, h⟩ := ih (x :: word)
      refine ⟨done, pending, fun ys => ?_⟩
      rw [List.cons_append, wordsFrom, if_neg hx, h]

/-- A word that is being read goes on up to the next blank. -/
theorem exists_wordsFrom_eq_cons {word : List Symbol} (hword : word ≠ []) (ys : List Symbol) :
    ∃ more rest, wordsFrom word ys = (word.reverse ++ more) :: rest ∧
      (more = [] → rest = wordsFrom [] ys) := by
  induction ys generalizing word with
  | nil => exact ⟨[], [], by simp [wordsFrom, hword], fun _ => rfl⟩
  | cons y ys ih =>
    by_cases hy : y.isBlank = true
    · refine ⟨[], wordsFrom [] ys, by simp [wordsFrom, hy, hword], fun _ => ?_⟩
      simp [wordsFrom, hy]
    · obtain ⟨more, rest, heq, -⟩ := ih (List.cons_ne_nil y word)
      refine ⟨y :: more, rest, ?_, fun h => absurd h (by simp)⟩
      rw [wordsFrom, if_neg hy, heq, List.reverse_cons, List.append_assoc]
      rfl

/-- Solid symbols lie in one word, and if they are this word then the others are those of the
symbols before and behind. -/
theorem exists_mem_wordsFrom (hsolid : ∀ y ∈ ys, y.isBlank = false) (hne : ys ≠ [])
    (xs zs : List Symbol) :
    ∃ before after, before ++ (ys ++ after) ∈ wordsFrom [] (xs ++ (ys ++ zs)) ∧
      (before = [] → after = [] →
        wordsFrom [] (xs ++ (ys ++ zs)) = wordsFrom [] xs ++ ys :: wordsFrom [] zs) := by
  obtain ⟨done, pending, hxs⟩ := exists_wordsFrom_append [] xs
  have hpending : ys.reverse ++ pending ≠ [] := by simp [hne]
  obtain ⟨more, rest, hrest, hmore⟩ := exists_wordsFrom_eq_cons hpending zs
  have hys := wordsFrom_solid_append hsolid pending zs
  refine ⟨pending.reverse, more, ?_, fun hbefore hafter => ?_⟩
  · rw [hxs, hys, hrest, List.reverse_append, List.reverse_reverse, List.append_assoc]
    exact List.mem_append_right _ List.mem_cons_self
  · obtain rfl := List.reverse_eq_nil_iff.mp hbefore
    have hdone := hxs []
    rw [List.append_nil] at hdone
    rw [hxs, hys, hrest, hmore hafter, hdone, hafter]
    simp [wordsFrom]

end Words

/-! ### Tokens -/

/-- A symbol, with blanks around it if it is a comma. -/
def setApart (y : Symbol) : List Symbol :=
  if y = .char ',' then [.char ' ', y, .char ' '] else [y]

/-- The words of a line, where every comma is a word of its own. -/
def tokens (line : List Char) : List (List Char) :=
  (wordsFrom [] ((symbols line).flatMap setApart)).map ofSymbols

theorem flatMap_setApart {ys : List Symbol} (h : .char ',' ∉ ys) : ys.flatMap setApart = ys := by
  induction ys with
  | nil => rfl
  | cons y ys ih =>
    rw [List.mem_cons, not_or] at h
    rw [List.flatMap_cons, setApart, if_neg (Ne.symm h.1), ih h.2, List.singleton_append]

theorem setApart_of_blank {y : Symbol} (hy : y.isBlank = true) : setApart y = [y] := by
  refine if_neg ?_
  rintro rfl
  exact absurd hy (by decide)

/-- **A blank parts tokens.** -/
theorem tokens_append_cons {o : Char} (hlt : o.toNat < 128) (ho : isBlank o = true)
    (x s : List Char) : tokens (x ++ o :: s) = tokens x ++ tokens s := by
  have hblank : (Symbol.char o).isBlank = true := ho
  rw [tokens, symbols_append_cons hlt, List.flatMap_append, List.flatMap_cons,
    setApart_of_blank hblank, List.singleton_append, wordsFrom_append_cons hblank, List.map_append]
  rfl

theorem tokens_blank_append {blanks : List Char} (h : isBlankText blanks = true) (s : List Char) :
    tokens (blanks ++ s) = tokens s := by
  have hsame : (symbols blanks).flatMap setApart = symbols blanks :=
    flatMap_setApart fun hmem => absurd (isBlankText_iff.mp h _ hmem) (by decide)
  rw [tokens, symbols_blank_append h, List.flatMap_append, hsame,
    wordsFrom_blank_append (isBlankText_iff.mp h), tokens]

theorem exists_octets (y : Symbol) : ∃ o octets, y.octets = o :: octets := by
  cases y with
  | stray o => exact ⟨o, [], rfl⟩
  | char c =>
    obtain ⟨o, octets, hutf8, -⟩ := utf8_shape c
    exact ⟨o, octets, hutf8⟩

theorem ofSymbols_eq_nil {ys : List Symbol} (h : ofSymbols ys = []) : ys = [] := by
  cases ys with
  | nil => rfl
  | cons y ys =>
    obtain ⟨o, octets, hoctets⟩ := exists_octets y
    rw [ofSymbols, List.flatMap_cons, List.append_eq_nil_iff, hoctets] at h
    exact absurd h.1 (by simp)

/-- What a word of characters below 128 is made of. -/
theorem ofSymbols_map_char {w : List Char} (hw : ∀ c ∈ w, c.toNat < 128) :
    ofSymbols (w.map .char) = w := by
  rw [← symbols_of_lt hw, ofSymbols_symbols]

theorem ofSymbols_comma : ofSymbols [.char ','] = [','] :=
  ofSymbols_map_char (w := [',']) (List.forall_mem_singleton.mpr (by decide))

/-- **Letters that are a token of their own** part the other tokens. -/
theorem tokens_append_word {w : List Char} (hlt : ∀ c ∈ w, c.toNat < 128)
    (hsolid : ∀ c ∈ w, isBlank c = false ∧ c ≠ ',') (hne : w ≠ []) {x s : List Char}
    (hwhole : ∀ t ∈ tokens (x ++ (w ++ s)), w <:+: t → t = w) :
    tokens (x ++ (w ++ s)) = tokens x ++ w :: tokens s := by
  obtain ⟨c, w', rfl⟩ := List.exists_cons_of_ne_nil hne
  have hsymbols : symbols (x ++ (c :: w' ++ s)) =
      symbols x ++ ((c :: w').map .char ++ symbols s) := by
    rw [List.forall_mem_cons] at hlt
    rw [List.cons_append, symbols_append_cons hlt.1, symbols_append_of_lt hlt.2]
    rfl
  have happart : ((c :: w').map Symbol.char).flatMap setApart = (c :: w').map .char := by
    refine flatMap_setApart fun hmem => ?_
    obtain ⟨d, hd, heq⟩ := List.mem_map.mp hmem
    exact (hsolid d hd).2 (Symbol.char.inj heq)
  have hblank : ∀ y ∈ (c :: w').map Symbol.char, y.isBlank = false := by
    intro y hy
    obtain ⟨d, hd, rfl⟩ := List.mem_map.mp hy
    exact (hsolid d hd).1
  obtain ⟨before, after, hmem, hwords⟩ := exists_mem_wordsFrom hblank (by simp)
    ((symbols x).flatMap setApart) ((symbols s).flatMap setApart)
  have hall : (symbols (x ++ (c :: w' ++ s))).flatMap setApart =
      (symbols x).flatMap setApart ++ ((c :: w').map .char ++ (symbols s).flatMap setApart) := by
    rw [hsymbols, List.flatMap_append, List.flatMap_append, happart]
  -- the token around the letters is the letters, so nothing is around them
  have htoken : ofSymbols before ++ (c :: w' ++ ofSymbols after) ∈
      tokens (x ++ (c :: w' ++ s)) := by
    rw [tokens, hall]
    refine List.mem_map.mpr ⟨_, hmem, ?_⟩
    have happend : ∀ ys zs : List Symbol, ofSymbols (ys ++ zs) = ofSymbols ys ++ ofSymbols zs :=
      fun ys zs => List.flatMap_append
    rw [happend, happend, ofSymbols_map_char hlt]
  have heq := hwhole _ htoken ⟨ofSymbols before, ofSymbols after, List.append_assoc _ _ _⟩
  have hlength := congrArg List.length heq
  simp only [List.length_append] at hlength
  have hbefore : ofSymbols before = [] := List.length_eq_zero_iff.mp (by omega)
  have hafter : ofSymbols after = [] := List.length_eq_zero_iff.mp (by omega)
  rw [tokens, hall, hwords (ofSymbols_eq_nil hbefore) (ofSymbols_eq_nil hafter), List.map_append,
    List.map_cons, ofSymbols_map_char hlt]
  rfl

/-- A comma parts tokens, and is one. -/
theorem wordsFrom_comma (word ys : List Symbol) :
    wordsFrom word (setApart (.char ',') ++ ys) =
      wordsFrom word [] ++ [.char ','] :: wordsFrom [] ys := by
  have hblank : (Symbol.char ' ').isBlank = true := by decide
  have hfirst := wordsFrom_append_cons hblank word [] (.char ',' :: .char ' ' :: ys)
  have hsecond := wordsFrom_append_cons hblank [] [.char ','] ys
  have hcomma : wordsFrom [] [.char ','] = [[.char ',']] := by decide
  rw [List.nil_append] at hfirst
  rw [List.singleton_append, hcomma] at hsecond
  rw [setApart, if_pos rfl]
  exact hfirst.trans (congrArg (wordsFrom word [] ++ ·) hsecond)

theorem tokens_append_comma (x s : List Char) :
    tokens (x ++ ',' :: s) = tokens x ++ [','] :: tokens s := by
  obtain ⟨done, pending, hx⟩ := exists_wordsFrom_append [] ((symbols x).flatMap setApart)
  have hdone := hx []
  rw [List.append_nil] at hdone
  rw [tokens, symbols_append_cons (by decide), List.flatMap_append, List.flatMap_cons, hx,
    wordsFrom_comma, ← List.append_assoc, ← hdone, List.map_append, List.map_cons, ofSymbols_comma,
    tokens, tokens]

/-- A word that is read is a part of the symbols, unless it is a comma. -/
theorem infix_of_mem_wordsFrom {t ys word : List Symbol}
    (h : t ∈ wordsFrom word (ys.flatMap setApart)) :
    t = [.char ','] ∨ t <:+: word.reverse ++ ys := by
  have hpending : ∀ {word zs : List Symbol}, t ∈ wordsFrom word [] → t <:+: word.reverse ++ zs := by
    intro word zs ht
    rw [wordsFrom] at ht
    split at ht
    · exact absurd ht List.not_mem_nil
    · rw [List.mem_singleton.mp ht]
      exact (List.prefix_append _ _).isInfix
  have hrest : ∀ {word zs : List Symbol} {y : Symbol}, t <:+: zs → t <:+: word.reverse ++ y :: zs :=
    fun ht => (ht.trans (List.suffix_cons _ _).isInfix).trans (List.suffix_append _ _).isInfix
  induction ys generalizing word with
  | nil => exact .inr (hpending h)
  | cons y ys ih =>
    rw [List.flatMap_cons] at h
    by_cases hcomma : y = .char ','
    · rw [hcomma, wordsFrom_comma, List.mem_append, List.mem_cons] at h
      rcases h with ht | rfl | ht
      · exact .inr (hpending ht)
      · exact .inl rfl
      · exact (ih ht).imp_right hrest
    rw [setApart, if_neg hcomma, List.singleton_append] at h
    by_cases hy : y.isBlank = true
    · have hpart := wordsFrom_append_cons hy word [] (ys.flatMap setApart)
      rw [List.nil_append] at hpart
      rw [hpart, List.mem_append] at h
      rcases h with ht | ht
      · exact .inr (hpending ht)
      · exact (ih ht).imp_right hrest
    · rw [wordsFrom, if_neg hy] at h
      refine (ih h).imp_right fun ht => ?_
      rwa [List.reverse_cons, List.append_assoc] at ht

/-- **A token that is no comma stands in the text.** -/
theorem infix_of_mem_tokens {t s : List Char} (h : t ∈ tokens s) : t = [','] ∨ t <:+: s := by
  obtain ⟨ys, hys, rfl⟩ := List.mem_map.mp h
  refine (infix_of_mem_wordsFrom hys).imp (fun heq => ?_) fun ht => ?_
  · rw [heq, ofSymbols_comma]
  · obtain ⟨before, after, hcut⟩ := ht
    rw [List.reverse_nil, List.nil_append] at hcut
    refine ⟨ofSymbols before, ofSymbols after, ?_⟩
    rw [← ofSymbols_symbols s, ← hcut]
    simp only [ofSymbols, List.flatMap_append]

section FirstSymbol

variable {s : List Char} {y : Symbol} {ys : List Symbol}

/-- What is trimmed begins with the first symbol that is no blank. -/
theorem exists_trim_eq (hstart : trimStart (symbols s) = y :: ys) (hy : y.isBlank = false) :
    ∃ zs, trim s = y.octets ++ ofSymbols zs := by
  obtain ⟨zs, hend⟩ : ∃ zs, trimEnd (y :: ys) = y :: zs := by
    have hlast : [y].dropWhile Symbol.isBlank = [y] := by simp [hy]
    rw [trimEnd, List.reverse_cons, List.dropWhile_append, hlast]
    split
    · exact ⟨[], rfl⟩
    · exact ⟨_, by rw [List.reverse_append]; rfl⟩
  exact ⟨zs, by rw [trim, hstart, hend]; rfl⟩

/-- So do the tokens. -/
theorem tokens_eq (hstart : trimStart (symbols s) = y :: ys) :
    tokens s = (wordsFrom [] (setApart y ++ ys.flatMap setApart)).map ofSymbols := by
  have hsymbols : symbols s = (symbols s).takeWhile Symbol.isBlank ++ y :: ys := by
    rw [← hstart, trimStart, List.takeWhile_append_dropWhile]
  have hleading : ((symbols s).takeWhile Symbol.isBlank).flatMap setApart =
      (symbols s).takeWhile Symbol.isBlank :=
    flatMap_setApart fun hmem => absurd (List.mem_takeWhile_imp hmem) (by decide)
  rw [tokens, hsymbols, List.flatMap_append, List.flatMap_cons, hleading,
    wordsFrom_blank_append fun z hz => List.mem_takeWhile_imp hz]

end FirstSymbol

/-- **A text and its first token begin with the same octet**, once blanks are trimmed away. -/
theorem exists_head_token (s : List Char) :
    (tokens s = [] ∧ trim s = []) ∨
      ∃ o t ts rest, tokens s = (o :: t) :: ts ∧ trim s = o :: rest := by
  rcases hstart : trimStart (symbols s) with _ | ⟨y, ys⟩
  · -- nothing but blanks
    have hblank : isBlankText s = true := isBlankText_iff.mpr (List.dropWhile_eq_nil_iff.mp hstart)
    have htokens := tokens_blank_append hblank []
    rw [List.append_nil] at htokens
    exact .inl ⟨htokens, trim_of_blank hblank⟩
  right
  have hy : y.isBlank = false := by
    have hhead := List.head?_dropWhile_not Symbol.isBlank (symbols s)
    rw [trimStart] at hstart
    rw [hstart] at hhead
    simpa using hhead
  obtain ⟨o, octets, hoctets⟩ := exists_octets y
  obtain ⟨zs, htrim⟩ := exists_trim_eq hstart hy
  rw [hoctets, List.cons_append] at htrim
  by_cases hcomma : y = .char ','
  · -- the comma is the first token
    subst hcomma
    have ho : utf8 ',' = [','] := utf8_of_lt (by decide)
    obtain ⟨rfl, rfl⟩ := List.cons.inj (hoctets.symm.trans ho)
    refine ⟨',', [], (wordsFrom [] (ys.flatMap setApart)).map ofSymbols, _, ?_, htrim⟩
    have hnil : wordsFrom [] [] = [] := rfl
    rw [tokens_eq hstart, wordsFrom_comma, hnil, List.nil_append, List.map_cons, ofSymbols_comma]
  · -- the first token goes on up to the next blank or comma
    obtain ⟨more, rest, hread, -⟩ :=
      exists_wordsFrom_eq_cons (List.cons_ne_nil y []) (ys.flatMap setApart)
    refine ⟨o, octets ++ ofSymbols more, rest.map ofSymbols, _, ?_, htrim⟩
    rw [tokens_eq hstart, setApart, if_neg hcomma, List.singleton_append, wordsFrom,
      if_neg (by simp [hy]), hread, List.map_cons, ofSymbols, List.flatMap_append,
      List.reverse_singleton, List.flatMap_singleton, hoctets]
    rfl

/-- A text without blanks and commas is one token. -/
theorem tokens_of_solid {s : List Char} (hsolid : ∀ y ∈ symbols s, y.isBlank = false)
    (hcomma : ',' ∉ s) (hne : s ≠ []) : tokens s = [s] := by
  have hnone : .char ',' ∉ symbols s := fun hmem => hcomma <| by
    rw [← ofSymbols_symbols s]
    refine List.mem_flatMap.mpr ⟨_, hmem, ?_⟩
    rw [Symbol.octets, utf8_of_lt (by decide)]
    exact List.mem_singleton_self _
  have hne' : symbols s ≠ [] := fun hnil => hne <| by
    rw [← ofSymbols_symbols s, hnil]
    rfl
  rw [tokens, flatMap_setApart hnone, wordsFrom_nil_of_solid hsolid hne', List.map_singleton,
    ofSymbols_symbols]

theorem tokens_append_blank {blanks : List Char} (h : isBlankText blanks = true) (s : List Char) :
    tokens (s ++ blanks) = tokens s := by
  have hsame : (symbols blanks).flatMap setApart = symbols blanks :=
    flatMap_setApart fun hmem => absurd (isBlankText_iff.mp h _ hmem) (by decide)
  rw [tokens, symbols_append_blank h, List.flatMap_append, hsame]
  rcases hsymbols : symbols blanks with _ | ⟨b, bs⟩
  · rw [List.append_nil, tokens]
  · have hblank := isBlankText_iff.mp h
    rw [hsymbols, List.forall_mem_cons] at hblank
    have hnil : wordsFrom [] bs = [] := by
      have hbs := wordsFrom_blank_append hblank.2 []
      rwa [List.append_nil] at hbs
    rw [wordsFrom_append_cons hblank.1, hnil, List.append_nil, tokens]

end WorstCase.Text
