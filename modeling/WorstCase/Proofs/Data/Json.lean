import WorstCase.Data.Json.Read
import WorstCase.Data.Json.Write
import WorstCase.Proofs.Text.Decimal
import WorstCase.Proofs.Text.Octets
import Mathlib.Data.List.Basic
import Mathlib.Data.List.DropRight

/-!
# JSON is read as it was written

A data tree whose texts spell characters, and that is not nested too deeply, is read back from its
JSON (`Json.Writable.read?_write`), on one line or indented, with all its fields in order. The JSON
is spelled from characters itself, so the proof is about these characters: what a string, a list or
a record is written as is read up to where it ends, whatever comes next. Escapes are undone one
character at a time (`Json.exists_escape`). Lists and records share the argument for what commas
join between two brackets (`Json.ReadsPart`, `Json.ReadsParts`).
-/

namespace WorstCase

namespace Json

open Text

/-! ### Strings -/

theorem hexValue?_hexDigit : ∀ d < 16, hexValue? (hexDigit d) = some d := by
  decide

/-- Four hexadecimal digits are read back. -/
theorem hex4?_hexDigits {n : Nat} (h : n < 65536) :
    ∃ a b c d, hexDigits 4 n = [a, b, c, d] ∧ hex4? a b c d = some n := by
  refine ⟨_, _, _, _, rfl, ?_⟩
  simp only [hex4?, hexValue?_hexDigit _ (Nat.mod_lt _ (show 16 > 0 by decide)), Nat.pow_eq]
  simp only [Option.bind_eq_bind, Option.bind_some, pure, Option.some.injEq]
  omega

theorem hexDigit_lt : ∀ d < 16, (hexDigit d).toNat < 128 := by
  decide

theorem spell_hexDigits (n : Nat) : spell (hexDigits 4 n) = hexDigits 4 n := by
  refine spell_of_lt fun c hc => ?_
  obtain ⟨i, -, rfl⟩ := List.mem_map.mp hc
  exact hexDigit_lt _ (Nat.mod_lt _ (by decide))

/-- A character that is escaped by its number is one that a number can stand for. -/
theorem readStringFrom_unit {c : Char} (h : c.toNat < 0xD800 ∨ 0xE000 ≤ c.toNat)
    (hlt : c.toNat < 65536) (acc rest : List Char) :
    readStringFrom none acc ('\\' :: 'u' :: (hexDigits 4 c.toNat ++ rest)) =
      readStringFrom none (c :: acc) rest := by
  obtain ⟨a₁, a₂, a₃, a₄, hdigits, hread⟩ := hex4?_hexDigits hlt
  have hhigh : isHighHalf c.toNat = false := by
    simp only [isHighHalf, Bool.and_eq_false_iff, decide_eq_false_iff_not]
    omega
  have hlow : isLowHalf c.toNat = false := by
    simp only [isLowHalf, Bool.and_eq_false_iff, decide_eq_false_iff_not]
    omega
  rw [hdigits]
  simp [readStringFrom, hread, addUnit, hhigh, hlow, unitChar, Char.ofNat_toNat]

theorem readStringFrom_letter {l c : Char} (hl : l ≠ 'u') (h : unescape? l = some c)
    (acc rest : List Char) :
    readStringFrom none acc ('\\' :: l :: rest) = readStringFrom none (c :: acc) rest := by
  rw [readStringFrom.eq_4 _ _ _ _ (by simp [hl])]
  simp [h, settle]

theorem readStringFrom_plain {c : Char} (hquote : c ≠ '"') (hslash : c ≠ '\\')
    (hlow : 0x20 ≤ c.toNat) (acc rest : List Char) :
    readStringFrom none acc (c :: rest) = readStringFrom none (c :: acc) rest := by
  rw [readStringFrom.eq_5 _ _ _ _ (by simp [hquote]) (by simp [hslash]) (by simp [hslash])]
  simp [hslash, settle, Nat.not_lt.mpr hlow]

/-- **What a character is escaped to is read as that character.** -/
theorem exists_escape (c : Char) :
    ∃ e, escapedChar c = spell e ∧ 0 < e.length ∧
      ∀ acc rest, readStringFrom none acc (e ++ rest) = readStringFrom none (c :: acc) rest := by
  have hletter : ∀ {l c : Char}, l.toNat < 128 → l ≠ 'u' → unescape? l = some c →
      ∃ e, ['\\', l] = spell e ∧ 0 < e.length ∧
        ∀ acc rest, readStringFrom none acc (e ++ rest) = readStringFrom none (c :: acc) rest := by
    intro l c hl hu hc
    refine ⟨['\\', l], (spell_of_lt ?_).symm, by simp, readStringFrom_letter hu hc⟩
    simp [hl]
  unfold escapedChar
  split
  · exact hletter (by decide) (by decide) rfl
  · exact hletter (by decide) (by decide) rfl
  · exact hletter (by decide) (by decide) rfl
  · exact hletter (by decide) (by decide) rfl
  · exact hletter (by decide) (by decide) rfl
  rename_i hquote hslash _ _ _
  simp only
  split_ifs with h8 hC hunit
  · obtain rfl : Char.ofNat 8 = c := by rw [← h8, Char.ofNat_toNat]
    exact hletter (by decide) (by decide) rfl
  · obtain rfl : Char.ofNat 12 = c := by rw [← hC, Char.ofNat_toNat]
    exact hletter (by decide) (by decide) rfl
  · have hsmall : c.toNat < 0xD800 := by
      simp only [Bool.or_eq_true, decide_eq_true_eq] at hunit
      rcases hunit with ((((h | rfl) | rfl) | rfl) | h) | h
      · omega
      · decide
      · decide
      · decide
      · omega
      · omega
    refine ⟨'\\' :: 'u' :: hexDigits 4 c.toNat, ?_, by simp,
      readStringFrom_unit (.inl hsmall) (by omega)⟩
    rw [spell_cons, spell_cons, spell_hexDigits]
    rfl
  · refine ⟨[c], by rw [spell_cons]; simp [spell], by simp, ?_⟩
    simp only [Bool.or_eq_true, decide_eq_true_eq, not_or] at hunit
    exact readStringFrom_plain hquote hslash (by omega)

theorem exists_body (cs : List Char) :
    ∃ body, cs.flatMap escapedChar = spell body ∧ ∀ acc rest,
      readStringFrom none acc (body ++ '"' :: rest) = some (acc.reverse ++ cs, rest) := by
  induction cs with
  | nil => exact ⟨[], rfl, fun acc rest => by simp [readStringFrom, settle]⟩
  | cons c cs ih =>
    obtain ⟨e, he, -, hread⟩ := exists_escape c
    obtain ⟨body, hbody, hrest⟩ := ih
    refine ⟨e ++ body, by rw [List.flatMap_cons, he, hbody, spell_append], fun acc rest => ?_⟩
    rw [List.append_assoc, hread, hrest]
    simp

/-- **A string is read back** up to its closing quote. -/
theorem exists_string {s : String} {cs : List Char} (h : s.toList = spell cs) :
    ∃ body, (string s).toList = spell ('"' :: (body ++ ['"'])) ∧
      ∀ rest, readString (body ++ '"' :: rest) = some (cs, rest) := by
  obtain ⟨body, hbody, hread⟩ := exists_body cs
  refine ⟨body, ?_, fun rest => hread [] rest⟩
  rw [string, String.toList_ofList, h, readable_spell, hbody, spell_cons, spell_append]
  rfl

theorem spelledText_eq {s : String} {cs : List Char} (h : s.toList = spell cs) :
    spelledText cs = s := by
  rw [spelledText, ← h, String.ofList_toList]

/-! ### Numbers -/

/-- What may come after a value: nothing, or a character that ends it. -/
def Follows (rest : List Char) : Prop :=
  ∀ c ∈ rest.head?, c = ',' ∨ c = ']' ∨ c = '\x7d' ∨ c = '\n'

/-- Only zero begins with a zero. -/
theorem head_digits_ne_zero {n : Nat} (hn : 0 < n) : (Decimal.digits n).head? ≠ some '0' := by
  induction n using Nat.strongRecOn with
  | ind n ih =>
    rw [Decimal.digits]
    by_cases hlt : n < 10
    · rw [Nat.toDigits_of_lt_base hlt]
      have hchar : ∀ k < 10, 0 < k → Nat.digitChar k ≠ '0' := by decide
      simpa using hchar n hlt hn
    · rw [Nat.toDigits_of_base_le (by decide) (by omega)]
      have hne : Nat.toDigits 10 (n / 10) ≠ [] := Nat.toDigits_ne_nil
      rw [List.head?_append_of_ne_nil _ hne]
      exact ih (n / 10) (by omega) (by omega)

theorem digitRun?_append {ds rest : List Char} (hds : ∀ c ∈ ds, c.isDigit = true) (hne : ds ≠ [])
    (hrest : Follows rest) : digitRun? (ds ++ rest) = some (ds, rest) := by
  have htail : rest.takeWhile Char.isDigit = [] := by
    rcases rest with _ | ⟨c, rest⟩
    · rfl
    · rcases hrest c rfl with rfl | rfl | rfl | rfl <;> rfl
  have htake : (ds ++ rest).takeWhile Char.isDigit = ds := by
    rw [List.takeWhile_append_of_pos hds, htail, List.append_nil]
  simp [digitRun?, htake, hne]

theorem whole?_digits (n : Nat) {rest : List Char} (hrest : Follows rest) :
    whole? (Decimal.digits n ++ rest) = some (Decimal.digits n, rest) := by
  rcases Nat.eq_zero_or_pos n with rfl | hn
  · rfl
  · have hne : Decimal.digits n ≠ [] := Nat.toDigits_ne_nil
    have hall : ∀ c ∈ Decimal.digits n, c.isDigit = true := fun c hc =>
      Nat.isDigit_of_mem_toDigits (by decide) (by decide) hc
    have hhead := head_digits_ne_zero hn
    obtain ⟨c, ds, hds⟩ := List.exists_cons_of_ne_nil hne
    rw [hds] at hall hhead ⊢
    rw [← digitRun?_append hall (List.cons_ne_nil c ds) hrest]
    rw [List.cons_append, whole?.eq_2 _ (by simpa using hhead)]

theorem fraction?_of_follows {rest : List Char} (h : Follows rest) :
    fraction? rest = some ([], rest) := by
  rcases rest with _ | ⟨c, rest⟩
  · rfl
  · rcases h c rfl with rfl | rfl | rfl | rfl <;> rfl

theorem exponent?_of_follows {rest : List Char} (h : Follows rest) :
    exponent? rest = some ([], rest) := by
  rcases rest with _ | ⟨c, rest⟩
  · rfl
  · rcases h c rfl with rfl | rfl | rfl | rfl <;> rfl

/-- **An integer is read back.** -/
theorem readNumber_chars (n : Int) {rest : List Char} (hrest : Follows rest) :
    readNumber (Decimal.chars n ++ rest) = some (.int n, rest) := by
  have hread := Decimal.readInt?_chars n
  by_cases hn : n < 0
  · have hchars : Decimal.chars n = '-' :: Decimal.digits n.natAbs := by
      rw [Decimal.chars, if_pos hn]
    rw [hchars] at hread ⊢
    simp [readNumber, whole?_digits _ hrest, fraction?_of_follows hrest,
      exponent?_of_follows hrest, hread]
  · have hchars : Decimal.chars n = Decimal.digits n.natAbs := by
      rw [Decimal.chars, if_neg hn]
    rw [hchars] at hread ⊢
    have hne : Decimal.digits n.natAbs ≠ [] := Nat.toDigits_ne_nil
    obtain ⟨c, ds, hds⟩ := List.exists_cons_of_ne_nil hne
    have hdigit : c.isDigit = true :=
      Nat.isDigit_of_mem_toDigits (b := 10) (n := n.natAbs) (by decide) (by decide)
        (show c ∈ Decimal.digits n.natAbs by rw [hds]; exact List.mem_cons_self)
    have hminus : c ≠ '-' := by
      rintro rfl
      exact absurd hdigit (by decide)
    have hwhole := whole?_digits n.natAbs hrest
    rw [hds] at hread hwhole ⊢
    rw [List.cons_append] at hwhole ⊢
    unfold readNumber
    split
    rename_i sign body hsign
    split at hsign
    · rename_i heq
      exact absurd (List.cons.inj heq).1 hminus
    · obtain ⟨rfl, rfl⟩ := Prod.mk.inj hsign
      simp [hwhole, fraction?_of_follows hrest, exponent?_of_follows hrest, hread]

/-! ### Values -/

/-- The blanks before an item: none, or a line break with spaces. -/
def Blanks (s : List Char) : Prop := s = [] ∨ ∃ k, s = '\n' :: List.replicate k ' '

theorem blanks_lineBreak (depth : Option Nat) :
    ∃ b, (lineBreak depth).toList = spell b ∧ Blanks b := by
  cases depth with
  | none => exact ⟨[], rfl, .inl rfl⟩
  | some k =>
    refine ⟨'\n' :: List.replicate (2 * k) ' ', ?_, .inr ⟨_, rfl⟩⟩
    rw [spell_of_lt]
    · simp [lineBreak]
    · intro c hc
      rcases List.mem_cons.mp hc with rfl | hc
      · decide
      · rw [List.eq_of_mem_replicate hc]
        decide

theorem skipSpace_cons {c : Char} (h : isSpace c = false) (s : List Char) :
    skipSpace (c :: s) = c :: s := by
  rw [skipSpace, List.dropWhile_cons_of_neg (by simp [h])]

theorem Blanks.skipSpace_append {b : List Char} (h : Blanks b) (s : List Char) :
    skipSpace (b ++ s) = skipSpace s := by
  rcases h with rfl | ⟨k, rfl⟩
  · rfl
  · have hspaces : ∀ k, skipSpace (List.replicate k ' ' ++ s) = skipSpace s := by
      intro k
      induction k with
      | zero => rfl
      | succ k ih => rw [List.replicate_succ, List.cons_append, skipSpace, List.dropWhile_cons_of_pos
          (by rfl), ← skipSpace, ih]
    rw [List.cons_append, skipSpace, List.dropWhile_cons_of_pos (by rfl), ← skipSpace, hspaces]

theorem Blanks.follows {b : List Char} (h : Blanks b) {c : Char} (hc : c = ']' ∨ c = '\x7d')
    (rest : List Char) : Follows (b ++ c :: rest) := by
  rcases h with rfl | ⟨k, rfl⟩
  · intro d hd
    obtain rfl := Option.some_inj.mp hd
    exact .inr (hc.imp_right .inl)
  · intro d hd
    obtain rfl := Option.some_inj.mp hd
    exact .inr (.inr (.inr rfl))

/-- Reading a value begins by skipping blanks. -/
theorem readValue_congr {s s' : List Char} (h : skipSpace s = skipSpace s') (fuel levels : Nat) :
    readValue fuel levels s = readValue fuel levels s' := by
  cases fuel with
  | zero => simp [readValue]
  | succ fuel => rw [readValue, readValue, h]

theorem readItems_congr {s s' : List Char} (h : skipSpace s = skipSpace s') (fuel levels : Nat) :
    readItems fuel levels s = readItems fuel levels s' := by
  cases fuel with
  | zero => simp [readItems]
  | succ fuel => rw [readItems, readItems, readValue_congr h]

theorem readFields_congr {s s' : List Char} (h : skipSpace s = skipSpace s') (fuel levels : Nat) :
    readFields fuel levels s = readFields fuel levels s' := by
  cases fuel with
  | zero => simp [readFields]
  | succ fuel => rw [readFields, readFields, h]

/-- The characters `cs` of a text are read as `d`, where `levels` more levels may be opened. -/
structure Reads (levels : Nat) (text : String) (d : Datum) (cs : List Char) : Prop where
  spelled : text.toList = spell cs
  start : ∃ c cs', cs = c :: cs' ∧ isSpace c = false ∧ c ≠ ']'
  read : ∀ {fuel : Nat} {rest : List Char}, 2 * cs.length ≤ fuel + 1 → Follows rest →
    readValue fuel levels (cs ++ rest) = some (d, rest)

/-- Words and numbers take one step. -/
theorem Reads.of_word {levels : Nat} {text : String} {d : Datum} {cs : List Char}
    (hspelled : text.toList = spell cs)
    (hstart : ∃ c cs', cs = c :: cs' ∧ isSpace c = false ∧ c ≠ ']')
    (hread : ∀ {fuel : Nat} {rest : List Char}, Follows rest →
      readValue (fuel + 1) levels (cs ++ rest) = some (d, rest)) : Reads levels text d cs where
  spelled := hspelled
  start := hstart
  read := by
    intro fuel rest hfuel hrest
    obtain ⟨c, cs', rfl, -⟩ := hstart
    rw [List.length_cons] at hfuel
    obtain ⟨fuel, rfl⟩ : ∃ k, fuel = k + 1 := ⟨fuel - 1, by omega⟩
    exact hread hrest

/-- The first character of an integer. -/
theorem exists_chars_cons (n : Int) :
    ∃ c cs, Decimal.chars n = c :: cs ∧ (c = '-' ∨ c.isDigit = true) := by
  obtain ⟨c, cs, h⟩ := List.exists_cons_of_ne_nil (Decimal.chars_ne_nil n)
  exact ⟨c, cs, h, Decimal.mem_chars (by rw [h]; exact List.mem_cons_self)⟩

theorem digit_bounds {c : Char} (h : c.isDigit = true) : 48 ≤ c.toNat ∧ c.toNat ≤ 57 := by
  rw [Char.isDigit, Bool.and_eq_true, decide_eq_true_eq, decide_eq_true_eq] at h
  exact ⟨h.1, h.2⟩

/-- What begins like a number is read as one. -/
theorem readValue_of_number {c : Char} (h : c = '-' ∨ c.isDigit = true) (fuel levels : Nat)
    (s : List Char) : readValue (fuel + 1) levels (c :: s) = readNumber (c :: s) := by
  have hne : ∀ d : Char, d.toNat < 45 ∨ 57 < d.toNat → c ≠ d := by
    rintro d hd rfl
    rcases h with rfl | h
    · exact absurd hd (by decide)
    · have hbounds := digit_bounds h
      omega
  have hspace : isSpace c = false := by
    simp only [isSpace, Bool.or_eq_false_iff, beq_eq_false_iff_ne]
    exact ⟨⟨⟨hne _ (by decide), hne _ (by decide)⟩, hne _ (by decide)⟩, hne _ (by decide)⟩
  rw [readValue, skipSpace_cons hspace]
  split
  all_goals first
    | rfl
    | (rename_i heq
       exact absurd (List.cons.inj heq).1 (hne _ (by decide)))

theorem reads_int (levels : Nat) (n : Int) :
    Reads levels (Decimal.text n) (.int n) (Decimal.chars n) := by
  obtain ⟨c, cs, hcs, hc⟩ := exists_chars_cons n
  have hlt : ∀ d ∈ Decimal.chars n, d.toNat < 128 := by
    intro d hd
    rcases Decimal.mem_chars hd with rfl | hd
    · decide
    · have hbounds := digit_bounds hd
      omega
  refine .of_word (by rw [Decimal.toList_text, spell_of_lt hlt]) ⟨c, cs, hcs, ?_⟩ fun hrest => ?_
  · rcases hc with rfl | hc
    · decide
    · have hbounds := digit_bounds hc
      have hne : ∀ d : Char, d.toNat < 48 ∨ 57 < d.toNat → c ≠ d := by
        rintro d hd rfl
        omega
      simp only [isSpace, Bool.or_eq_false_iff, beq_eq_false_iff_ne]
      exact ⟨⟨⟨⟨hne _ (by decide), hne _ (by decide)⟩, hne _ (by decide)⟩, hne _ (by decide)⟩,
        hne _ (by decide)⟩
  · have hnumber := readNumber_chars n hrest
    rw [hcs, List.cons_append] at hnumber ⊢
    rw [readValue_of_number hc, hnumber]

theorem exists_reads_string (levels : Nat) {s : String} (h : IsSpelled s) :
    ∃ cs, Reads levels (string s) (.text s) cs := by
  obtain ⟨cs, hcs⟩ := h
  obtain ⟨body, hbody, hread⟩ := exists_string hcs
  refine ⟨_, .of_word hbody ⟨'"', _, rfl, by decide⟩ fun {fuel rest} _ => ?_⟩
  have hquote : skipSpace ('"' :: (body ++ '"' :: rest)) = '"' :: (body ++ '"' :: rest) :=
    skipSpace_cons (by decide) _
  simp [readValue, hquote, hread, spelledText_eq hcs]

/-! ### Between brackets -/

theorem follows_comma (s : List Char) : Follows (',' :: s) := by
  intro d hd
  obtain rfl := Option.some_inj.mp hd
  exact .inl rfl

section Parts

variable {α : Type} {reader : Nat → List Char → Option (List α × List Char)} {close : Char}
  {text text' : String} {x : α} {xs : List α} {cs cs' : List Char}

/-- The characters `cs` of a text are read as one part of what stands before `close`: as the last
one, and as one that a comma follows. -/
structure ReadsPart (reader : Nat → List Char → Option (List α × List Char)) (close : Char)
    (text : String) (x : α) (cs : List Char) : Prop where
  spelled : text.toList = spell cs
  start : ∃ c cs', c ≠ close ∧ ∀ s, skipSpace (cs ++ s) = c :: (cs' ++ s)
  last : ∀ {fuel : Nat} {b rest : List Char}, 2 * cs.length ≤ fuel + 1 → Blanks b →
    reader (fuel + 1) (cs ++ (b ++ close :: rest)) = some ([x], rest)
  more : ∀ {fuel : Nat} {s : List Char}, 2 * cs.length ≤ fuel + 1 →
    reader (fuel + 1) (cs ++ ',' :: s) = (reader fuel s).map fun (xs, rest) => (x :: xs, rest)

/-- The characters `cs` of a text are read as all that stands before `close`. -/
structure ReadsParts (reader : Nat → List Char → Option (List α × List Char)) (close : Char)
    (text : String) (xs : List α) (cs : List Char) : Prop where
  spelled : text.toList = spell cs
  start : ∃ c cs', c ≠ close ∧ ∀ s, skipSpace (cs ++ s) = c :: (cs' ++ s)
  read : ∀ {fuel : Nat} {b rest : List Char}, 2 * cs.length ≤ fuel → Blanks b →
    reader fuel (cs ++ (b ++ close :: rest)) = some (xs, rest)

theorem ReadsPart.length_pos (h : ReadsPart reader close text x cs) : 0 < cs.length := by
  obtain ⟨c, cs', -, hstart⟩ := h.start
  rcases cs with _ | ⟨d, cs⟩
  · exact absurd (hstart []) (by simp [skipSpace])
  · exact Nat.zero_lt_succ _

theorem ReadsPart.singleton (h : ReadsPart reader close text x cs) :
    ReadsParts reader close text [x] cs where
  spelled := h.spelled
  start := h.start
  read := by
    intro fuel b rest hfuel hb
    have hpos := h.length_pos
    obtain ⟨fuel, rfl⟩ : ∃ k, fuel = k + 1 := ⟨fuel - 1, by omega⟩
    exact h.last hfuel hb

theorem ReadsPart.cons (h : ReadsPart reader close text x cs)
    (hxs : ReadsParts reader close text' xs cs') :
    ReadsParts reader close (text ++ "," ++ text') (x :: xs) (cs ++ ',' :: cs') where
  spelled := by
    have hcomma : ",".toList = spell [','] := by
      rw [spell_of_lt (by decide)]
      rfl
    rw [String.toList_append, String.toList_append, h.spelled, hxs.spelled, hcomma, ← spell_append,
      ← spell_append, List.append_assoc, List.singleton_append]
  start := by
    obtain ⟨c, front, hc, hstart⟩ := h.start
    refine ⟨c, front ++ ',' :: cs', hc, fun s => ?_⟩
    rw [List.append_assoc, hstart, List.append_assoc]
  read := by
    intro fuel b rest hfuel hb
    rw [List.length_append, List.length_cons] at hfuel
    obtain ⟨fuel, rfl⟩ : ∃ k, fuel = k + 1 := ⟨fuel - 1, by omega⟩
    rw [List.append_assoc, List.cons_append, h.more (by omega), hxs.read (by omega) hb,
      Option.map_some]

/-- Parts that commas join are read back one after the other. -/
theorem exists_readsParts {part : α → String} (join : List α → String)
    (hlast : ∀ x, join [x] = part x)
    (hmore : ∀ x xs, xs ≠ [] → join (x :: xs) = part x ++ "," ++ join xs) (hne : xs ≠ [])
    (h : ∀ x ∈ xs, ∃ cs, ReadsPart reader close (part x) x cs) :
    ∃ cs, ReadsParts reader close (join xs) xs cs := by
  induction xs with
  | nil => exact absurd rfl hne
  | cons x xs ih =>
    obtain ⟨cs, hx⟩ := h x List.mem_cons_self
    rcases eq_or_ne xs [] with rfl | hxs
    · rw [hlast]
      exact ⟨cs, hx.singleton⟩
    · obtain ⟨cs', hread⟩ := ih hxs fun y hy => h y (List.mem_cons_of_mem _ hy)
      rw [hmore x xs hxs]
      exact ⟨_, hx.cons hread⟩

/-- What stands between two brackets is read as a value, if the first bracket leads to the reader
of its parts. -/
theorem ReadsParts.exists_reads (h : ReadsParts reader close text xs cs) {levels : Nat} {o : Char}
    {f : List α → Datum} {opening closing : String}
    (hbrackets : (o = '[' ∧ close = ']') ∨ (o = '\x7b' ∧ close = '\x7d'))
    (hopening : opening.toList = [o]) (hclosing : closing.toList = [close])
    (hread : ∀ {s : List Char}, (skipSpace s).head? ≠ some close → ∀ fuel,
      readValue (fuel + 1) (levels + 1) (o :: s) =
        (reader fuel s).map fun (xs, rest) => (f xs, rest)) (depth : Option Nat) :
    ∃ cs', Reads (levels + 1) (opening ++ text ++ lineBreak depth ++ closing) (f xs) cs' := by
  obtain ⟨lb, hlb, hblanks⟩ := blanks_lineBreak depth
  have hascii : spell [o] = [o] ∧ spell [close] = [close] := by
    rcases hbrackets with ⟨rfl, rfl⟩ | ⟨rfl, rfl⟩ <;>
      exact ⟨spell_of_lt (by decide), spell_of_lt (by decide)⟩
  refine ⟨o :: (cs ++ (lb ++ [close])), ?_, ⟨o, _, rfl, ?_⟩, fun {fuel rest} hfuel _ => ?_⟩
  · rw [← List.singleton_append, spell_append, spell_append, spell_append, hascii.1, hascii.2,
      String.toList_append, String.toList_append, String.toList_append, hopening, h.spelled, hlb,
      hclosing, List.append_assoc, List.append_assoc]
  · rcases hbrackets with ⟨rfl, -⟩ | ⟨rfl, -⟩ <;> decide
  · simp only [List.length_cons, List.length_append] at hfuel
    obtain ⟨fuel, rfl⟩ : ∃ k, fuel = k + 1 := ⟨fuel - 1, by omega⟩
    have htext : o :: (cs ++ (lb ++ [close])) ++ rest = o :: (cs ++ (lb ++ close :: rest)) := by
      simp
    obtain ⟨c, cs', hc, hstart⟩ := h.start
    have hhead : (skipSpace (cs ++ (lb ++ close :: rest))).head? ≠ some close := by
      rw [hstart]
      simpa using hc
    rw [htext, hread hhead, h.read (by omega) hblanks, Option.map_some]

end Parts

theorem skipSpace_skipSpace (s : List Char) : skipSpace (skipSpace s) = skipSpace s :=
  List.dropWhile_idempotent isSpace s

/-! ### Lists -/

section Lists

variable {levels : Nat} {depth : Option Nat}

/-- A bracket leads to the items of a list. -/
theorem readValue_bracket {s : List Char} (h : (skipSpace s).head? ≠ some ']') (fuel : Nat) :
    readValue (fuel + 1) (levels + 1) ('[' :: s) =
      (readItems fuel levels s).map fun (items, rest) => (.list items, rest) := by
  rw [readValue, skipSpace_cons (by decide)]
  simp only
  split
  · rename_i heq
    exact absurd (congrArg List.head? heq) h
  · rw [readItems_congr (skipSpace_skipSpace s)]

/-- An item is read with the line break before it. -/
theorem Reads.exists_item {x : Datum} {cx : List Char} (h : Reads levels (write depth x) x cx) :
    ∃ cs, ReadsPart (readItems · levels) ']' (lineBreak depth ++ write depth x) x cs := by
  obtain ⟨lb, hlb, hblanks⟩ := blanks_lineBreak depth
  obtain ⟨c, cs', hcs', hspace, hbracket⟩ := h.start
  have hvalue : ∀ {fuel : Nat} {rest : List Char}, 2 * (lb ++ cx).length ≤ fuel + 1 →
      Follows rest → readValue fuel levels (lb ++ cx ++ rest) = some (x, rest) := by
    intro fuel rest hfuel hrest
    rw [List.length_append] at hfuel
    rw [List.append_assoc, readValue_congr (hblanks.skipSpace_append _), h.read (by omega) hrest]
  refine ⟨lb ++ cx, ?_, ⟨c, cs', hbracket, fun s => ?_⟩, fun {fuel b rest} hfuel hb => ?_,
    fun {fuel s} hfuel => ?_⟩
  · rw [String.toList_append, hlb, h.spelled, spell_append]
  · rw [List.append_assoc, hblanks.skipSpace_append, hcs', List.cons_append, skipSpace_cons hspace]
  · have hclose : skipSpace (b ++ ']' :: rest) = ']' :: rest := by
      rw [hb.skipSpace_append, skipSpace_cons (by decide)]
    rw [readItems, hvalue hfuel (hb.follows (.inl rfl) rest)]
    simp [hclose]
  · have hcomma : skipSpace (',' :: s) = ',' :: s := skipSpace_cons (by decide) s
    rw [readItems, hvalue hfuel (follows_comma s)]
    simp [hcomma]

/-- **A list is read back** if its items are. -/
theorem exists_reads_list {items : List Datum} (hne : items ≠ [])
    (h : ∀ x ∈ items, ∃ cs, Reads levels (write (deeper depth) x) x cs) :
    ∃ cs, Reads (levels + 1) (write depth (.list items)) (.list items) cs := by
  obtain ⟨cs, hcs⟩ := exists_readsParts (writeItems (deeper depth))
    (fun x => by rw [writeItems]) (fun x xs hxs => by rw [writeItems]; exact hxs) hne
    fun x hx => (h x hx).elim fun _ hread => hread.exists_item
  rw [write, if_neg (by simpa using hne)]
  exact hcs.exists_reads (.inl ⟨rfl, rfl⟩) (by simp) (by simp) readValue_bracket depth

end Lists

/-! ### Records -/

section Records

variable {levels : Nat} {depth : Option Nat}

/-- A brace leads to the fields of a record. -/
theorem readValue_brace {s : List Char} (h : (skipSpace s).head? ≠ some '\x7d') (fuel : Nat) :
    readValue (fuel + 1) (levels + 1) ('\x7b' :: s) =
      (readFields fuel levels s).map fun (fields, rest) => (.record fields, rest) := by
  rw [readValue, skipSpace_cons (by decide)]
  simp only
  split
  · rename_i heq
    exact absurd (congrArg List.head? heq) h
  · rw [readFields_congr (skipSpace_skipSpace s)]

/-- The colon after a key, with the blank after it. -/
theorem exists_colon (depth : Option Nat) :
    ∃ gap, (colon depth).toList = spell (':' :: gap) ∧
      ∀ s, skipSpace (gap ++ s) = skipSpace s := by
  cases depth with
  | none =>
    refine ⟨[], ?_, fun s => rfl⟩
    rw [spell_of_lt (by decide)]
    simp [colon]
  | some n =>
    refine ⟨[' '], ?_, fun s => ?_⟩
    · rw [spell_of_lt (by decide)]
      simp [colon]
    · rw [List.singleton_append, skipSpace, List.dropWhile_cons_of_pos (by rfl), ← skipSpace]

/-- A field is read with the line break before it. -/
theorem Reads.exists_field {k : String} {x : Datum} {cx : List Char} (hk : IsSpelled k)
    (h : Reads levels (write depth x) x cx) :
    ∃ cs, ReadsPart (readFields · levels) '\x7d'
      (lineBreak depth ++ string k ++ colon depth ++ write depth x) (k, x) cs := by
  obtain ⟨lb, hlb, hblanks⟩ := blanks_lineBreak depth
  obtain ⟨gap, hcolon, hgap⟩ := exists_colon depth
  obtain ⟨ck, hck⟩ := hk
  obtain ⟨body, hbody, hread⟩ := exists_string hck
  let cs := lb ++ '"' :: (body ++ '"' :: ':' :: (gap ++ cx))
  have hlen : cx.length + 1 ≤ cs.length := by
    simp [cs]
    omega
  have hfirst : ∀ s, skipSpace (cs ++ s) = '"' :: (body ++ '"' :: ':' :: (gap ++ cx) ++ s) := by
    intro s
    rw [List.append_assoc, hblanks.skipSpace_append, List.cons_append, skipSpace_cons (by decide)]
  have hafter : ∀ s, skipSpace (':' :: s) = ':' :: s := skipSpace_cons (by decide)
  have hvalue : ∀ {fuel : Nat} {rest : List Char}, 2 * cs.length ≤ fuel + 1 → Follows rest →
      readValue fuel levels (gap ++ (cx ++ rest)) = some (x, rest) := by
    intro fuel rest hfuel hrest
    rw [readValue_congr (hgap _), h.read (by omega) hrest]
  refine ⟨cs, ?_, ⟨'"', _, by decide, hfirst⟩, fun {fuel b rest} hfuel hb => ?_,
    fun {fuel s} hfuel => ?_⟩
  · simp only [String.toList_append, hlb, hbody, hcolon, h.spelled, ← spell_append]
    simp [cs]
  · have hclose : skipSpace (b ++ '\x7d' :: rest) = '\x7d' :: rest := by
      rw [hb.skipSpace_append, skipSpace_cons (by decide)]
    have hkey := hread (':' :: (gap ++ (cx ++ (b ++ '\x7d' :: rest))))
    have hlast := hvalue hfuel (hb.follows (.inr rfl) rest)
    rw [readFields, hfirst]
    simp [hkey, hafter, hlast, hclose, spelledText_eq hck]
  · have hcomma : skipSpace (',' :: s) = ',' :: s := skipSpace_cons (by decide) s
    have hkey := hread (':' :: (gap ++ (cx ++ ',' :: s)))
    have hmore := hvalue hfuel (follows_comma s)
    rw [readFields, hfirst]
    simp [hkey, hafter, hmore, hcomma, spelledText_eq hck]

/-- **A record is read back** if its fields are, with all of them in order. -/
theorem exists_reads_record {fields : List (String × Datum)} (hne : fields ≠ [])
    (hkeys : ∀ f ∈ fields, IsSpelled f.1)
    (h : ∀ f ∈ fields, ∃ cs, Reads levels (write (deeper depth) f.2) f.2 cs) :
    ∃ cs, Reads (levels + 1) (write depth (.record fields)) (.record fields) cs := by
  obtain ⟨cs, hcs⟩ := exists_readsParts (writeFields (deeper depth))
    (fun f => by rw [writeFields]) (fun f fs hfs => by rw [writeFields]; exact hfs) hne
    fun f hf => (h f hf).elim fun _ hread => hread.exists_field (hkeys f hf)
  rw [write, if_neg (by simpa using hne)]
  exact hcs.exists_reads (.inr ⟨rfl, rfl⟩) (by simp) (by simp) readValue_brace depth

end Records

/-! ### Data trees -/

/-- A data tree that is read back: its texts spell characters, and it has no more than `levels`
levels of lists and records. -/
inductive Writable : Nat → Datum → Prop
  | null {levels : Nat} : Writable levels .null
  | bool {levels : Nat} (b : Bool) : Writable levels (.bool b)
  | int {levels : Nat} (n : Int) : Writable levels (.int n)
  | text {levels : Nat} {s : String} (h : IsSpelled s) : Writable levels (.text s)
  | list {levels : Nat} {items : List Datum} (h : ∀ x ∈ items, Writable levels x) :
      Writable (levels + 1) (.list items)
  | record {levels : Nat} {fields : List (String × Datum)} (hkeys : ∀ f ∈ fields, IsSpelled f.1)
      (h : ∀ f ∈ fields, Writable levels f.2) : Writable (levels + 1) (.record fields)

/-- **A data tree is read back** from its characters, by induction on the tree. -/
theorem Writable.exists_reads {levels : Nat} {d : Datum} (h : Writable levels d)
    (depth : Option Nat) : ∃ cs, Reads levels (write depth d) d cs := by
  induction h generalizing depth with
  | null =>
    refine ⟨"null".toList, .of_word ?_ ⟨'n', _, rfl, by decide⟩ fun _ => ?_⟩
    · rw [write, spell_of_lt (by decide)]
    · simp [readValue, skipSpace, expect?, isSpace]
  | bool b =>
    cases b
    · refine ⟨"false".toList, .of_word ?_ ⟨'f', _, rfl, by decide⟩ fun _ => ?_⟩
      · rw [write, if_neg (by decide), spell_of_lt (by decide)]
      · simp [readValue, skipSpace, expect?, isSpace]
    · refine ⟨"true".toList, .of_word ?_ ⟨'t', _, rfl, by decide⟩ fun _ => ?_⟩
      · rw [write, if_pos rfl, spell_of_lt (by decide)]
      · simp [readValue, skipSpace, expect?, isSpace]
  | int n =>
    rw [write]
    exact ⟨_, reads_int _ n⟩
  | text h =>
    rw [write]
    exact exists_reads_string _ h
  | @list levels items _ ih =>
    rcases eq_or_ne items [] with rfl | hitems
    · refine ⟨['[', ']'], .of_word ?_ ⟨'[', _, rfl, by decide⟩ fun _ => ?_⟩
      · rw [write, spell_of_lt (by decide)]
        simp
      · simp [readValue, skipSpace, isSpace]
    · exact exists_reads_list hitems fun x hx => ih x hx _
  | @record levels fields hkeys _ ih =>
    rcases eq_or_ne fields [] with rfl | hfields
    · refine ⟨['\x7b', '\x7d'], .of_word ?_ ⟨'\x7b', _, rfl, by decide⟩ fun _ => ?_⟩
      · rw [write, spell_of_lt (by decide)]
        simp
      · simp [readValue, skipSpace, isSpace]
    · exact exists_reads_record hfields hkeys fun f hf => ih f hf _

/-- **JSON is read as it was written**, with a line break after it. -/
theorem Writable.read?_write {d : Datum} (h : Writable maxDepth d) (depth : Option Nat) :
    read? (write depth d ++ "\n") = some d := by
  obtain ⟨cs, hcs⟩ := h.exists_reads depth
  have htext : (write depth d ++ "\n").toList = spell (cs ++ ['\n']) := by
    rw [String.toList_append, hcs.spelled, spell_append, spell_of_lt (s := ['\n']) (by decide)]
    simp
  have hfollows : Follows ['\n'] := fun c hc => .inr (.inr (.inr (Option.some_inj.mp hc).symm))
  have hread : readValue (2 * (cs ++ ['\n']).length + 2) maxDepth (cs ++ ['\n']) =
      some (d, ['\n']) := hcs.read (by rw [List.length_append]; omega) hfollows
  rw [read?, htext, readable_spell]
  simp only [hread, Option.map_some]

end Json

end WorstCase
