import WorstCase.Text.Blank
import Mathlib.Data.List.Basic
import Mathlib.Tactic.SplitIfs

/-!
# Symbols of joined texts

Texts are octets, and characters are read off them by UTF-8. The spelling of a character begins with
an octet that continues nothing and goes on with octets that begin nothing (`Text.utf8_shape`), so
the symbols of a text can be found from any place where a character begins: a text that is put
together at such a place has the symbols of its parts (`Text.symbols_append_utf8`).
-/

namespace WorstCase.Text

/-! ### The octets of a character -/

theorem toNat_octet_ofNat {n : Nat} (h : n < 256) : (octet (UInt8.ofNat n)).toNat = n := by
  have hvalid : n.isValidChar := .inl (by omega)
  rw [octet, UInt8.toNat_ofNat_of_lt' h, Char.ofNat, dif_pos hvalid]
  rfl

theorem toNat_lt (c : Char) : c.toNat < 0x110000 := by
  rcases c.valid with h | h
  · exact Nat.lt_trans h (by decide)
  · exact h.2

/-- The four sizes of a spelling. -/
theorem utf8_eq (c : Char) :
    utf8 c =
      if c.toNat ≤ 127 then [octet (.ofNat c.toNat)]
      else if c.toNat ≤ 2047 then
        [octet (.ofNat (c.toNat / 64 % 32 + 192)), octet (.ofNat (c.toNat % 64 + 128))]
      else if c.toNat ≤ 65535 then
        [octet (.ofNat (c.toNat / 4096 % 16 + 224)), octet (.ofNat (c.toNat / 64 % 64 + 128)),
          octet (.ofNat (c.toNat % 64 + 128))]
      else
        [octet (.ofNat (c.toNat / 262144 % 8 + 240)), octet (.ofNat (c.toNat / 4096 % 64 + 128)),
          octet (.ofNat (c.toNat / 64 % 64 + 128)), octet (.ofNat (c.toNat % 64 + 128))] := by
  rw [utf8, String.utf8EncodeChar.eq_1]
  simp only [apply_ite (List.map octet), List.map_cons, List.map_nil]
  rfl

/-- Whether an octet continues a character. -/
def isContinuation (o : Char) : Bool := 0x80 ≤ o.toNat && o.toNat < 0xC0

/-- **A spelling begins with an octet that continues nothing**, and all others continue it. -/
theorem utf8_shape (c : Char) :
    ∃ o rest, utf8 c = o :: rest ∧ isContinuation o = false ∧
      ∀ x ∈ rest, isContinuation x = true := by
  have hcont : ∀ n, isContinuation (octet (.ofNat (n % 64 + 128))) = true := by
    intro n
    rw [isContinuation, toNat_octet_ofNat (by omega)]
    simp only [Bool.and_eq_true, decide_eq_true_eq]
    omega
  have hlead : ∀ n, n < 256 → n < 128 ∨ 192 ≤ n →
      isContinuation (octet (.ofNat n)) = false := by
    intro n hn h
    rw [isContinuation, toNat_octet_ofNat hn]
    simp only [Bool.and_eq_false_iff, decide_eq_false_iff_not]
    omega
  have hall : ∀ {xs : List Nat}, ∀ x ∈ xs.map fun n => octet (.ofNat (n % 64 + 128)),
      isContinuation x = true := by
    intro xs x hx
    obtain ⟨n, -, rfl⟩ := List.mem_map.mp hx
    exact hcont n
  rw [utf8_eq]
  split_ifs
  · exact ⟨_, [], rfl, hlead _ (by omega) (.inl (by omega)), by simp⟩
  · exact ⟨_, _, rfl, hlead _ (by omega) (.inr (by omega)), @hall [c.toNat]⟩
  · exact ⟨_, _, rfl, hlead _ (by omega) (.inr (by omega)), @hall [c.toNat / 64, c.toNat]⟩
  · exact ⟨_, _, rfl, hlead _ (by omega) (.inr (by omega)),
      @hall [c.toNat / 4096, c.toNat / 64, c.toNat]⟩

/-- An octet below 128 spells the character of its number, and occurs in no other spelling. -/
theorem eq_of_mem_utf8 {c o : Char} (h : o ∈ utf8 c) (ho : o.toNat < 128) : c = o := by
  have hne : ∀ n, 128 ≤ n → n < 256 → o ≠ octet (.ofNat n) := by
    rintro n hle hlt rfl
    rw [toNat_octet_ofNat hlt] at ho
    omega
  rw [utf8_eq] at h
  split_ifs at h
  · obtain rfl := List.mem_singleton.mp h
    exact Char.toNat_inj.mp (toNat_octet_ofNat (by omega)).symm
  all_goals
    refine absurd h ?_
    simp only [List.mem_cons, List.not_mem_nil, or_false, not_or]
    repeat' constructor
    all_goals exact hne _ (by omega) (by omega)

theorem utf8_of_lt {c : Char} (h : c.toNat < 128) : utf8 c = [c] := by
  rw [utf8_eq, if_pos (by omega)]
  exact congrArg (fun x => [x]) (Char.toNat_inj.mp (toNat_octet_ofNat (by omega)))

/-- What a spelling begins with is the character that it spells. -/
theorem candidate_utf8_append (c : Char) (s : List Char) : candidate (utf8 c ++ s) = c := by
  have hlt := toNat_lt c
  rw [utf8_eq]
  split_ifs with h₁ h₂ h₃
  · simp only [List.cons_append, List.nil_append, candidate]
    rw [toNat_octet_ofNat (by omega), if_pos (by omega)]
    exact Char.ofNat_toNat c
  · simp only [List.cons_append, List.nil_append, candidate]
    rw [toNat_octet_ofNat (by omega), if_neg (by omega), if_pos (by omega)]
    simp only [List.take_succ_cons, List.take_zero, List.foldl_cons, List.foldl_nil]
    rw [toNat_octet_ofNat (by omega)]
    refine (congrArg Char.ofNat ?_).trans (Char.ofNat_toNat c)
    omega
  · simp only [List.cons_append, List.nil_append, candidate]
    rw [toNat_octet_ofNat (by omega), if_neg (by omega), if_neg (by omega), if_pos (by omega)]
    simp only [List.take_succ_cons, List.take_zero, List.foldl_cons, List.foldl_nil]
    rw [toNat_octet_ofNat (by omega), toNat_octet_ofNat (by omega)]
    refine (congrArg Char.ofNat ?_).trans (Char.ofNat_toNat c)
    omega
  · simp only [List.cons_append, List.nil_append, candidate]
    rw [toNat_octet_ofNat (by omega), if_neg (by omega), if_neg (by omega), if_neg (by omega)]
    simp only [List.take_succ_cons, List.take_zero, List.foldl_cons, List.foldl_nil]
    rw [toNat_octet_ofNat (by omega), toNat_octet_ofNat (by omega), toNat_octet_ofNat (by omega)]
    refine (congrArg Char.ofNat ?_).trans (Char.ofNat_toNat c)
    omega

/-- **The character that a text begins with** is the one whose spelling it begins with. -/
theorem leading?_eq_some_iff {s : List Char} {c : Char} :
    leading? s = some c ↔ utf8 c <+: s := by
  unfold leading?
  constructor
  · intro h
    dsimp only at h
    split_ifs at h with hprefix
    rw [← Option.some_inj.mp h]
    exact List.isPrefixOf_iff_prefix.mp hprefix
  · rintro ⟨t, rfl⟩
    rw [candidate_utf8_append, if_pos (List.isPrefixOf_iff_prefix.mpr (List.prefix_append _ _))]

/-! ### Symbols one by one -/

theorem symbolsFrom_eq (k : Nat) (s : List Char) : symbolsFrom k s = symbols (s.drop k) := by
  induction s generalizing k with
  | nil => cases k <;> rfl
  | cons o s ih =>
    cases k with
    | zero => rfl
    | succ k => exact ih k

theorem symbols_utf8_append (c : Char) (s : List Char) :
    symbols (utf8 c ++ s) = .char c :: symbols s := by
  obtain ⟨o, rest, hutf8, -⟩ := utf8_shape c
  have hlead : leading? (o :: (rest ++ s)) = some c :=
    leading?_eq_some_iff.mpr ⟨s, by rw [hutf8]; rfl⟩
  rw [hutf8, List.cons_append, symbols, symbolsFrom, hlead]
  dsimp only
  rw [symbolsFrom_eq, hutf8, List.length_cons, Nat.add_sub_cancel, List.drop_left]

theorem symbols_stray {o : Char} {s : List Char} (h : leading? (o :: s) = none) :
    symbols (o :: s) = .stray o :: symbols s := by
  rw [symbols, symbolsFrom, h]
  rfl

/-- Texts are made up of spelled characters and stray octets. -/
theorem symbols_induction {P : List Char → Prop} (nil : P [])
    (char : ∀ c s, P s → P (utf8 c ++ s))
    (stray : ∀ o s, leading? (o :: s) = none → P s → P (o :: s)) (s : List Char) : P s := by
  induction hn : s.length using Nat.strongRecOn generalizing s with
  | ind n ih =>
    subst hn
    rcases s with _ | ⟨o, s⟩
    · exact nil
    rcases hlead : leading? (o :: s) with _ | c
    · exact stray o s hlead (ih _ (by simp) s rfl)
    · obtain ⟨t, ht⟩ := leading?_eq_some_iff.mp hlead
      obtain ⟨o', rest, hutf8, -⟩ := utf8_shape c
      have hlength := congrArg List.length ht
      rw [hutf8, List.length_append, List.length_cons] at hlength
      rw [← ht]
      exact char c t (ih _ (by omega) t rfl)

/-- **Symbols lose nothing.** -/
theorem ofSymbols_symbols (s : List Char) : ofSymbols (symbols s) = s := by
  induction s using symbols_induction with
  | nil => rfl
  | char c s ih => rw [symbols_utf8_append, ofSymbols, List.flatMap_cons, ← ofSymbols, ih]; rfl
  | stray o s h ih => rw [symbols_stray h, ofSymbols, List.flatMap_cons, ← ofSymbols, ih]; rfl

/-- Symbols can be read off from where a character begins. -/
theorem symbols_append_utf8 (x : List Char) (c : Char) (y : List Char) :
    symbols (x ++ (utf8 c ++ y)) = symbols x ++ .char c :: symbols y := by
  induction x using symbols_induction with
  | nil => exact symbols_utf8_append c y
  | char c' s ih =>
    rw [List.append_assoc, symbols_utf8_append, symbols_utf8_append, ih, List.cons_append]
  | stray o s h ih =>
    have hlead : leading? (o :: (s ++ (utf8 c ++ y))) = none := by
      rcases hsome : leading? (o :: (s ++ (utf8 c ++ y))) with _ | c'
      · rfl
      have hnot : ¬ utf8 c' <+: o :: s := fun hprefix => by
        rw [leading?_eq_some_iff.mpr hprefix] at h
        exact absurd h (by simp)
      have hprefix : utf8 c' <+: (o :: s) ++ (utf8 c ++ y) := leading?_eq_some_iff.mp hsome
      -- the spelling would have to go on with the first octet of `c`, which begins a character
      obtain ⟨w, hw⟩ := (List.prefix_or_prefix_of_prefix hprefix
        (List.prefix_append _ _)).resolve_left hnot
      rw [← hw, List.prefix_append_right_inj] at hprefix
      rcases w with _ | ⟨x, w⟩
      · exact absurd ⟨[], by rw [← hw]; simp⟩ hnot
      obtain ⟨b, rest, hutf8, hb, -⟩ := utf8_shape c
      obtain ⟨b', rest', hutf8', -, hrest'⟩ := utf8_shape c'
      rw [hutf8] at hprefix
      rw [hutf8'] at hw
      obtain rfl : x = b := (List.cons_prefix_cons.mp hprefix).1
      have hx : x ∈ rest' := by
        rw [← (List.cons.inj hw).2]
        exact List.mem_append_right _ List.mem_cons_self
      exact absurd (hrest' x hx) (by simp [hb])
    rw [symbols_stray h, List.cons_append, symbols_stray hlead, ih, List.cons_append]

/-- **Symbols of joined texts**, where the first is spelled out. -/
theorem symbols_spell_append (cs s : List Char) :
    symbols (spell cs ++ s) = cs.map .char ++ symbols s := by
  induction cs with
  | nil => rfl
  | cons c cs ih =>
    rw [spell, List.flatMap_cons, ← spell, List.append_assoc, symbols_utf8_append, ih]
    rfl

theorem symbols_spell (cs : List Char) : symbols (spell cs) = cs.map .char := by
  have hsymbols := symbols_spell_append cs []
  rw [List.append_nil] at hsymbols
  exact hsymbols.trans (List.append_nil _)

/-- **Symbols of joined texts**, where the second is spelled out. -/
theorem symbols_append_spell (s cs : List Char) :
    symbols (s ++ spell cs) = symbols s ++ cs.map .char := by
  cases cs with
  | nil => simp [spell]
  | cons c cs =>
    rw [spell, List.flatMap_cons, ← spell, symbols_append_utf8, symbols_spell, List.map_cons]

end WorstCase.Text
