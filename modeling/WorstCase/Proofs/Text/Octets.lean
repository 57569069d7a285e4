import WorstCase.Text.Octets
import WorstCase.Proofs.Text.Symbols

/-!
# Texts as bytes

A text is a string of octets, and its bytes are the numbers of its characters
(`Text.data_toBytes`). As long as the characters are octets indeed, a text is read back from its
bytes (`Text.ofBytes_toBytes`).

A text is **spelled** (`Text.IsSpelled`) if its octets are those of characters, with no stray octet
between them (`Text.isSpelled_iff`).
-/

namespace WorstCase

/-- The bytes of an array, counted from its front, are those of its data. -/
theorem toList_eq_data_toList (bytes : ByteArray) : bytes.toList = bytes.data.toList := by
  have hloop : ∀ (n i : Nat) (r : List UInt8), bytes.size - i = n →
      ByteArray.toList.loop bytes i r = r.reverse ++ bytes.data.toList.drop i := by
    intro n
    induction n with
    | zero =>
      intro i r hn
      rw [ByteArray.toList.loop, if_neg (by omega), List.drop_eq_nil_of_le, List.append_nil]
      rw [Array.length_toList, ByteArray.size_data]
      omega
    | succ n ih =>
      intro i r hn
      have hi : i < bytes.data.toList.length := by
        rw [Array.length_toList, ByteArray.size_data]
        omega
      have hget : bytes.get! i = bytes.data.toList[i] := by
        rw [Array.getElem_toList]
        exact getElem!_pos bytes.data i (by simpa using hi)
      rw [ByteArray.toList.loop, if_pos (by omega), ih (i + 1) _ (by omega),
        List.drop_eq_getElem_cons hi, hget, List.reverse_cons, List.append_assoc,
        List.singleton_append]
  exact (hloop _ 0 [] rfl).trans (List.nil_append _)

namespace Text

/-- The byte of an octet. -/
def byteOf (c : Char) : UInt8 := UInt8.ofNat c.toNat

/-- What holds of every character of a text is seen by going through the text, not through all the
characters there are. -/
instance (priority := high) decidableForallMem {s : List Char} {p : Char → Prop} [DecidablePred p] :
    Decidable (∀ c ∈ s, p c) :=
  List.decidableBAll p s

/-- All characters of a text are octets. -/
def IsOctets (s : String) : Prop := ∀ c ∈ s.toList, c.toNat < 256

instance (s : String) : Decidable (IsOctets s) :=
  inferInstanceAs (Decidable (∀ c ∈ s.toList, c.toNat < 256))

@[simp]
theorem data_toBytes (s : String) : (toBytes s).data.toList = s.toList.map byteOf := rfl

theorem octet_byteOf {c : Char} (h : c.toNat < 256) : octet (byteOf c) = c :=
  Char.toNat_inj.mp (toNat_octet_ofNat h)

theorem byteOf_injOn {c c' : Char} (hc : c.toNat < 256) (hc' : c'.toNat < 256)
    (h : byteOf c = byteOf c') : c = c' := by
  rw [← octet_byteOf hc, ← octet_byteOf hc', h]

theorem map_octet_map_byteOf {s : List Char} (h : ∀ c ∈ s, c.toNat < 256) :
    (s.map byteOf).map octet = s := by
  rw [List.map_map]
  exact (List.map_congr_left fun c hc => octet_byteOf (h c hc)).trans (List.map_id s)

/-- **A text of octets is read back from its bytes.** -/
theorem ofBytes_toBytes {s : String} (h : IsOctets s) : ofBytes (toBytes s) = s := by
  rw [ofBytes, toList_eq_data_toList, data_toBytes, map_octet_map_byteOf h, String.ofList_toList]

/-! ### Spelled texts -/

/-- A text spells characters if it has no stray octet. -/
def IsSpelled (s : String) : Prop := ∃ cs, s.toList = spell cs

theorem spell_append (cs cs' : List Char) : spell (cs ++ cs') = spell cs ++ spell cs' :=
  List.flatMap_append

theorem spell_cons (c : Char) (cs : List Char) : spell (c :: cs) = utf8 c ++ spell cs :=
  List.flatMap_cons

theorem spell_of_lt {s : List Char} (h : ∀ c ∈ s, c.toNat < 128) : spell s = s := by
  induction s with
  | nil => rfl
  | cons c s ih =>
    rw [List.forall_mem_cons] at h
    rw [spell_cons, utf8_of_lt h.1, ih h.2, List.singleton_append]

/-- What is spelled is read off. -/
theorem readable_spell (cs : List Char) : readable (spell cs) = cs := by
  have hshown : Symbol.shown ∘ Symbol.char = id := rfl
  rw [readable, symbols_spell, List.map_map, hshown, List.map_id]

theorem toNat_lt_of_mem_spell {cs : List Char} {c : Char} (h : c ∈ spell cs) : c.toNat < 256 := by
  obtain ⟨d, -, hc⟩ := List.mem_flatMap.mp h
  obtain ⟨b, -, rfl⟩ := List.mem_map.mp hc
  have hb := toNat_octet_ofNat b.toNat_lt
  rw [UInt8.ofNat_toNat] at hb
  rw [hb]
  exact b.toNat_lt

/-- **A text is spelled if it has no stray octet.** -/
theorem isSpelled_iff {s : String} : IsSpelled s ↔ ∀ y ∈ symbols s.toList, y.char?.isSome := by
  constructor
  · rintro ⟨cs, hcs⟩ y hy
    rw [hcs, symbols_spell] at hy
    obtain ⟨c, -, rfl⟩ := List.mem_map.mp hy
    rfl
  · intro h
    have hchars : ∀ ys : List Symbol, (∀ y ∈ ys, y.char?.isSome) →
        (ys.map Symbol.shown).map .char = ys := by
      intro ys hys
      rw [List.map_map]
      refine (List.map_congr_left fun y hy => ?_).trans (List.map_id ys)
      cases y with
      | char c => rfl
      | stray o => exact absurd (hys _ hy) Bool.false_ne_true
    refine ⟨readable s.toList, ?_⟩
    rw [← ofSymbols_symbols (spell _), symbols_spell, readable, hchars _ h, ofSymbols_symbols]

instance (s : String) : Decidable (IsSpelled s) :=
  decidable_of_iff _ isSpelled_iff.symm

theorem isSpelled_of_lt {s : String} (h : ∀ c ∈ s.toList, c.toNat < 128) : IsSpelled s :=
  ⟨s.toList, (spell_of_lt h).symm⟩

end Text

end WorstCase
