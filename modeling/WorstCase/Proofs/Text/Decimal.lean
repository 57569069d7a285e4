import WorstCase.Text.Decimal
import Mathlib.Data.List.Basic

/-!
# Decimal integers written and read

A text **spells** an integer if there is nothing else in it than an optional sign, and one digit or
more (`Decimal.Spells`). Reading an integer decides this (`Decimal.readInt?_eq_some_iff`).

An integer is written with digits and, if it is negative, a minus sign in front
(`Decimal.mem_chars`). Different integers are written differently (`Decimal.chars_injective`), and
what is written spells the integer, so that it is read again (`Decimal.readInt?_chars`).

A text **begins** with an integer of 64 bits if a text in front spells it and no digit follows
(`Decimal.Begins`); whatever else follows does not count. This is what reading the integer in
front decides (`Decimal.map_prefixInt64?_eq_some_iff`), so a text begins with one integer at most
(`Decimal.Begins.unique`), and one that spells an integer begins with it (`Decimal.Spells.begins`).
-/

namespace WorstCase

namespace Decimal

variable {s x t ds : List Char} {n : Int}

/-! ### What is written -/

theorem mem_chars {n : Int} {c : Char} (h : c ∈ chars n) : c = '-' ∨ c.isDigit := by
  unfold chars at h
  split at h
  · refine (List.mem_cons.mp h).imp_right fun h => ?_
    exact Nat.isDigit_of_mem_toDigits (by decide) (by decide) h
  · exact .inr (Nat.isDigit_of_mem_toDigits (by decide) (by decide) h)

theorem digits_injective {n k : Nat} (h : digits n = digits k) : n = k := by
  have hval := congrArg (fun ds => Nat.ofDigitChars 10 ds 0) h
  simpa only [digits, Nat.ofDigitChars_ten_toDigits] using hval

theorem minus_notMem_digits (n : Nat) : '-' ∉ digits n := fun h => by
  simpa using Nat.isDigit_of_mem_toDigits (by decide) (by decide) h

theorem chars_injective {n k : Int} (h : chars n = chars k) : n = k := by
  unfold chars at h
  split at h <;> split at h
  · have := digits_injective (List.cons.inj h).2
    omega
  · exact absurd (h ▸ List.mem_cons_self) (minus_notMem_digits _)
  · exact absurd (h ▸ List.mem_cons_self) (minus_notMem_digits _)
  · have := digits_injective h
    omega

@[simp]
theorem toList_text (n : Int) : (text n).toList = chars n := by
  simp [text]

theorem chars_of_nonneg {n : Int} (h : 0 ≤ n) : chars n = digits n.natAbs := by
  rw [chars, if_neg (by omega)]

theorem chars_ne_nil (n : Int) : chars n ≠ [] := by
  unfold chars
  split
  · exact List.cons_ne_nil _ _
  · exact Nat.toDigits_ne_nil

theorem isDigit_of_mem_chars {n : Int} (hn : 0 ≤ n) {c : Char} (h : c ∈ chars n) :
    c.isDigit = true := by
  rw [chars_of_nonneg hn] at h
  exact Nat.isDigit_of_mem_toDigits (by decide) (by decide) h

/-! ### Runs of digits -/

theorem digit?_of_isDigit {c : Char} (h : c.isDigit = true) :
    digit? c = some (c.toNat - '0'.toNat) := by
  rw [Char.isDigit, Bool.and_eq_true, decide_eq_true_eq, decide_eq_true_eq] at h
  exact if_pos h

/-- Reading digits adds them up in base ten. -/
theorem readDigits_of_isDigit {s : List Char} (h : ∀ c ∈ s, c.isDigit = true) (n : Nat) :
    readDigits n s = some (Nat.ofDigitChars 10 s n) := by
  induction s generalizing n with
  | nil => rfl
  | cons c s ih =>
    rw [List.forall_mem_cons] at h
    rw [readDigits, digit?_of_isDigit h.1, Option.bind_some, ih h.2, Nat.ofDigitChars_cons]

theorem isSome_digit? (c : Char) : (digit? c).isSome = c.isDigit := by
  by_cases hc : c.isDigit = true
  · rw [digit?_of_isDigit hc, hc, Option.isSome_some]
  · have hnone : digit? c = none := if_neg fun h => hc <| by
      rw [Char.isDigit, Bool.and_eq_true, decide_eq_true_eq, decide_eq_true_eq]
      exact h
    rw [hnone, (Bool.not_eq_true _).mp hc, Option.isSome_none]

/-- Only digits are read as digits. -/
theorem isDigit_of_readDigits {n k : Nat} (h : readDigits n s = some k) :
    ∀ c ∈ s, c.isDigit = true := by
  induction s generalizing n with
  | nil => exact fun c hc => absurd hc List.not_mem_nil
  | cons c s ih =>
    obtain ⟨d, hd, hread⟩ := Option.bind_eq_some_iff.mp h
    have hc : c.isDigit = true := by rw [← isSome_digit?, hd, Option.isSome_some]
    exact List.forall_mem_cons.mpr ⟨hc, ih hread⟩

/-- A non-empty run of digits, and the number that it is in base ten. -/
structure Digits (ds : List Char) (n : Nat) : Prop where
  ne_nil : ds ≠ []
  isDigit : ∀ c ∈ ds, c.isDigit = true
  value : Nat.ofDigitChars 10 ds 0 = n

/-- **Reading digits** decides what they are. -/
theorem readNat?_eq_some_iff {n : Nat} : readNat? s = some n ↔ Digits s n := by
  cases s with
  | nil => exact ⟨fun h => absurd h (by simp [readNat?]), fun h => absurd rfl h.ne_nil⟩
  | cons c s =>
    change readDigits 0 (c :: s) = some n ↔ _
    constructor
    · intro h
      have hdigits := isDigit_of_readDigits h
      rw [readDigits_of_isDigit hdigits, Option.some_inj] at h
      exact ⟨List.cons_ne_nil c s, hdigits, h⟩
    · intro h
      rw [readDigits_of_isDigit h.isDigit, h.value]

/-- What begins with digits does not begin with a sign. -/
theorem Digits.append_ne_cons {n : Nat} (hds : Digits ds n) (t : List Char) {sign : Char}
    (hsign : sign.isDigit = false) (rest : List Char) : ds ++ t ≠ sign :: rest := by
  obtain ⟨c, ds', rfl⟩ := List.exists_cons_of_ne_nil hds.ne_nil
  intro heq
  obtain rfl : c = sign := (List.cons.inj heq).1
  exact absurd (hds.isDigit c List.mem_cons_self) (by simp [hsign])

/-- Digits are taken up to the first character that is none. -/
theorem Digits.takeWhile_append {n : Nat} (hds : Digits ds n)
    (ht : ∀ c ∈ t.head?, c.isDigit = false) :
    (ds ++ t).takeWhile (fun c => (digit? c).isSome) = ds := by
  have hstop : t.takeWhile (fun c => (digit? c).isSome) = [] := by
    cases t with
    | nil => rfl
    | cons c t => exact List.takeWhile_cons_of_neg (by simp [isSome_digit?, ht c rfl])
  rw [List.takeWhile_append_of_pos fun c hc => by rw [isSome_digit?, hds.isDigit c hc], hstop,
    List.append_nil]

/-! ### What is spelled -/

/-- **The integer that a text spells**, with a sign or without one. -/
inductive Spells : List Char → Int → Prop
  | plain {ds : List Char} {n : Nat} (hds : Digits ds n) : Spells ds n
  | plus {ds : List Char} {n : Nat} (hds : Digits ds n) : Spells ('+' :: ds) n
  | minus {ds : List Char} {n : Nat} (hds : Digits ds n) : Spells ('-' :: ds) (-n)

theorem readInt?_minus (s : List Char) :
    readInt? ('-' :: s) = (readNat? s).map fun n : Nat => -(n : Int) := by
  rw [readInt?]
  cases readNat? s <;> rfl

/-- **Reading decides what is spelled.** -/
theorem readInt?_eq_some_iff : readInt? s = some n ↔ Spells s n := by
  constructor
  · intro h
    unfold readInt? at h
    split at h
    · -- the definition reads the digits as an integer before it negates them
      rename_i s
      rw [← readInt?.eq_1, readInt?_minus] at h
      obtain ⟨k, hread, rfl⟩ := Option.map_eq_some_iff.mp h
      exact .minus (readNat?_eq_some_iff.mp hread)
    · obtain ⟨k, hread, rfl⟩ := Option.map_eq_some_iff.mp h
      exact .plus (readNat?_eq_some_iff.mp hread)
    · obtain ⟨k, hread, rfl⟩ := Option.map_eq_some_iff.mp h
      exact .plain (readNat?_eq_some_iff.mp hread)
  · rintro (hds | hds | hds)
    · have hne : ∀ {sign : Char}, sign.isDigit = false → ∀ rest, s ≠ sign :: rest :=
        fun hsign rest => by simpa using hds.append_ne_cons [] hsign rest
      rw [readInt?.eq_3 _ (hne rfl) (hne rfl), readNat?_eq_some_iff.mpr hds]
      rfl
    · rw [readInt?, readNat?_eq_some_iff.mpr hds]
      rfl
    · rw [readInt?_minus, readNat?_eq_some_iff.mpr hds]
      rfl

/-! ### What is read again -/

theorem Digits.of_digits (n : Nat) : Digits (digits n) n where
  ne_nil := Nat.toDigits_ne_nil
  isDigit := fun _ hc => Nat.isDigit_of_mem_toDigits (by decide) (by decide) hc
  value := Nat.ofDigitChars_ten_toDigits

/-- What is written spells the integer. -/
theorem spells_chars (n : Int) : Spells (chars n) n := by
  unfold chars
  split
  · have hspells := Spells.minus (.of_digits n.natAbs)
    have hneg : -(n.natAbs : Int) = n := by omega
    rwa [hneg] at hspells
  · have hspells := Spells.plain (.of_digits n.natAbs)
    have hpos : (n.natAbs : Int) = n := by omega
    rwa [hpos] at hspells

/-- **What is written is read again.** -/
theorem readInt?_chars (n : Int) : readInt? (chars n) = some n :=
  readInt?_eq_some_iff.mpr (spells_chars n)

theorem readInt64?_chars {n : Int} (h : fits64 n = true) : readInt64? (chars n) = some n := by
  rw [readInt64?, readInt?_chars, Option.filter_some, if_pos h]

/-- Every 64-bit integer fits 64 bits. -/
theorem fits64_toInt (n : Int64) : fits64 n.toInt = true := by
  have hle := n.le_toInt
  have hlt := n.toInt_lt
  rw [fits64, Bool.and_eq_true, decide_eq_true_eq, decide_eq_true_eq]
  omega

/-! ### Integers in front -/

/-- The integers that fit 64 bits are those that are stored exactly. -/
theorem fits64_iff : fits64 n = true ↔ (Int64.ofInt n).toInt = n := by
  constructor
  · intro h
    rw [fits64, Bool.and_eq_true, decide_eq_true_eq, decide_eq_true_eq] at h
    exact Int64.toInt_ofInt_of_le (by omega) (by omega)
  · intro h
    rw [← h]
    exact fits64_toInt _

/-- **The integer of 64 bits that a text begins with**: a text in front spells it, and what follows
begins with no digit. -/
def Begins (s : List Char) (n : Int64) : Prop :=
  ∃ x t, s = x ++ t ∧ Spells x n.toInt ∧ ∀ c ∈ t.head?, c.isDigit = false

/-- Reading the integer in front takes a text apart: it reads a sign and digits, and the rest begins
with no digit. -/
theorem exists_prefixInt64?_eq (s : List Char) :
    ∃ x t, s = x ++ t ∧ (∀ c ∈ t.head?, c.isDigit = false) ∧ prefixInt64? s = readInt64? x := by
  have hstop : ∀ (rest : List Char),
      ∀ c ∈ (rest.dropWhile fun c => (digit? c).isSome).head?, c.isDigit = false := by
    intro rest c hc
    have hnot := List.head?_dropWhile_not (fun c => (digit? c).isSome) rest
    rw [Option.mem_def.mp hc] at hnot
    rwa [← isSome_digit?]
  unfold prefixInt64?
  split
  -- with a sign or without one, the part that is read and the rest make up the text
  rename_i sign rest hsign
  refine ⟨sign ++ rest.takeWhile fun c => (digit? c).isSome,
    rest.dropWhile fun c => (digit? c).isSome, ?_, hstop rest, rfl⟩
  rw [List.append_assoc, List.takeWhile_append_dropWhile]
  split at hsign <;> cases hsign <;> rfl

/-- Where an integer stands in front, this is the part that is read. -/
theorem prefixInt64?_append (h : Spells x n) (ht : ∀ c ∈ t.head?, c.isDigit = false) :
    prefixInt64? (x ++ t) = readInt64? x := by
  cases h with
  | plain hds =>
    rw [prefixInt64?.eq_3 _ (hds.append_ne_cons t rfl) (hds.append_ne_cons t rfl),
      hds.takeWhile_append ht, List.nil_append]
  | plus hds => rw [List.cons_append, prefixInt64?, hds.takeWhile_append ht, List.singleton_append]
  | minus hds => rw [List.cons_append, prefixInt64?, hds.takeWhile_append ht, List.singleton_append]

/-- **Reading the integer in front decides what a text begins with.** -/
theorem map_prefixInt64?_eq_some_iff {n : Int64} :
    (prefixInt64? s).map Int64.ofInt = some n ↔ Begins s n := by
  constructor
  · intro h
    obtain ⟨x, t, hs, ht, hread⟩ := exists_prefixInt64?_eq s
    obtain ⟨k, hk, rfl⟩ := Option.map_eq_some_iff.mp h
    rw [hread, readInt64?, Option.filter_eq_some_iff, readInt?_eq_some_iff] at hk
    obtain ⟨hspells, hfits⟩ := hk
    exact ⟨x, t, hs, by rwa [fits64_iff.mp hfits], ht⟩
  · rintro ⟨x, t, rfl, hspells, ht⟩
    rw [prefixInt64?_append hspells ht, readInt64?, readInt?_eq_some_iff.mpr hspells,
      Option.filter_some, if_pos (fits64_toInt n), Option.map_some, Int64.ofInt_toInt]

/-- A letter ends the integer. -/
example : Begins "-0x10".toList 0 :=
  map_prefixInt64?_eq_some_iff.mp (by decide)

/-- A text begins with one integer at most. -/
theorem Begins.unique {n k : Int64} (h : Begins s n) (h' : Begins s k) : n = k :=
  Option.some_inj.mp
    ((map_prefixInt64?_eq_some_iff.mpr h).symm.trans (map_prefixInt64?_eq_some_iff.mpr h'))

/-- A text that is an integer begins with this one. -/
theorem Spells.begins {n : Int64} (h : Spells s n.toInt) : Begins s n :=
  ⟨s, [], (List.append_nil s).symm, h, fun _ hc => absurd hc (Option.not_mem_none _)⟩

end Decimal

end WorstCase
