import WorstCase.Data.Msgpack
import WorstCase.Proofs.Text.Octets
import Mathlib.Algebra.Order.Group.Nat
import Mathlib.Data.List.Basic
import Mathlib.Tactic.Positivity
import Mathlib.Tactic.Ring

/-!
# MessagePack is read as it was written

A value **fits** (`Msg.Fits`) if its integers have 64 bits and its texts and lists are not longer
than four bytes can count. What fits is read back from its bytes, whatever follows them
(`Msg.Fits.decode?_encode`). Only the form of an integer may differ: one that takes eight bytes
is read as one that always has eight bytes, see `Msg.reread`.

Conversely, whatever is read fits (`Msg.fits_of_decode?`), also when it was written by others.
-/

namespace WorstCase.Msg

/-! ### Numbers -/

@[simp]
theorem length_bigEndian (width n : Nat) : (bigEndian width n).length = width := by
  simp [bigEndian]

theorem bigEndian_succ (width n : Nat) :
    bigEndian (width + 1) n = UInt8.ofNat (n / 256 ^ width) :: bigEndian width n := by
  rw [bigEndian, List.range_succ_eq_map, List.map_cons, List.map_map, bigEndian]
  congr 1
  refine List.map_congr_left fun i _ => ?_
  have hi : width + 1 - 1 - (i + 1) = width - 1 - i := by omega
  rw [Function.comp_apply, Nat.succ_eq_add_one, hi]

theorem natOf_cons (b : UInt8) (bytes : List UInt8) :
    natOf (b :: bytes) = b.toNat * 256 ^ bytes.length + natOf bytes := by
  have hfold : ∀ (bytes : List UInt8) (m : Nat),
      bytes.foldl (fun n b => 256 * n + b.toNat) m = m * 256 ^ bytes.length + natOf bytes := by
    intro bytes
    induction bytes with
    | nil => simp [natOf]
    | cons b bytes ih =>
      intro m
      have hnat : natOf (b :: bytes) = bytes.foldl (fun n b => 256 * n + b.toNat) (256 * 0 + b.toNat) :=
        rfl
      rw [List.foldl_cons, ih, hnat, ih, List.length_cons]
      ring
  simpa [natOf] using hfold bytes (256 * 0 + b.toNat)

theorem natOf_lt (bytes : List UInt8) : natOf bytes < 256 ^ bytes.length := by
  induction bytes with
  | nil => simp [natOf]
  | cons b bytes ih =>
    have hb : b.toNat + 1 ≤ 256 := b.toNat_lt
    have hle := Nat.mul_le_mul_right (256 ^ bytes.length) hb
    rw [Nat.add_one_mul] at hle
    rw [natOf_cons, List.length_cons, Nat.pow_succ, Nat.mul_comm (256 ^ bytes.length)]
    omega

/-- A number is read back modulo what its bytes can hold. -/
theorem natOf_bigEndian (width n : Nat) : natOf (bigEndian width n) = n % 256 ^ width := by
  induction width with
  | zero => simp [bigEndian, natOf, Nat.mod_one]
  | succ width ih =>
    have hbyte : (UInt8.ofNat (n / 256 ^ width)).toNat = n / 256 ^ width % 256 := UInt8.toNat_ofNat'
    rw [bigEndian_succ, natOf_cons, length_bigEndian, ih, hbyte, Nat.mod_pow_succ, Nat.mul_comm,
      Nat.add_comm]

theorem natOf_bigEndian_of_lt {width n : Nat} (h : n < 256 ^ width) :
    natOf (bigEndian width n) = n := by
  rw [natOf_bigEndian, Nat.mod_eq_of_lt h]

/-- **An integer is read back from its two's complement.** -/
theorem intOf_bigEndian_bits {width : Nat} {n : Int} (hlow : -(256 ^ width : Nat) ≤ 2 * n)
    (hhigh : 2 * n < (256 ^ width : Nat)) : intOf (bigEndian width (bits width n)) = n := by
  have hpos : (0 : Int) < (256 ^ width : Nat) := by positivity
  have hmod := Int.emod_lt_of_pos n hpos
  have hnonneg := Int.emod_nonneg n hpos.ne'
  have hbits : ((bits width n : Nat) : Int) = n % (256 ^ width : Nat) := by
    rw [bits, Nat.pow_eq, Int.toNat_of_nonneg hnonneg]
  have hlt : bits width n < 256 ^ width := by omega
  simp only [intOf, natOf_bigEndian_of_lt hlt, length_bigEndian, Nat.pow_eq]
  by_cases hn : 0 ≤ n
  · rw [Int.emod_eq_of_lt hn (by omega)] at hbits
    rw [if_pos (by omega), hbits]
  · have hemod : n % (256 ^ width : Nat) = n + (256 ^ width : Nat) := by
      rw [← Int.add_emod_right, Int.emod_eq_of_lt (by omega) (by omega)]
    rw [hemod] at hbits
    rw [if_neg (by omega), hbits]
    omega

theorem intOf_bounds (bytes : List UInt8) :
    -(256 ^ bytes.length : Nat) ≤ 2 * intOf bytes ∧ 2 * intOf bytes < (256 ^ bytes.length : Nat) := by
  have hlt := natOf_lt bytes
  simp only [intOf, Nat.pow_eq]
  split <;> omega

/-! ### Parts of a value -/

@[simp]
theorem takeBytes_append (bytes rest : List UInt8) :
    takeBytes bytes.length (bytes ++ rest) = some (bytes, rest) := by
  simp [takeBytes]

theorem takeBytes_eq_some {n : Nat} {bytes front rest : List UInt8}
    (h : takeBytes n bytes = some (front, rest)) : front.length = n := by
  simp only [takeBytes, List.splitAt_eq] at h
  split at h
  · rename_i hlen
    simp only [Option.some.injEq, Prod.mk.injEq] at h
    rwa [← h.1]
  · simp at h

theorem takeBytes_bigEndian (width n : Nat) (rest : List UInt8) :
    takeBytes width (bigEndian width n ++ rest) = some (bigEndian width n, rest) := by
  have h := takeBytes_append (bigEndian width n) rest
  rwa [length_bigEndian] at h

theorem readLength_bigEndian {width n : Nat} (h : n < 256 ^ width) (rest : List UInt8) :
    readLength width (bigEndian width n ++ rest) = some (n, rest) := by
  rw [readLength, takeBytes_bigEndian, Option.map_some]
  simp only [natOf_bigEndian_of_lt h]

theorem readLength_lt {width n : Nat} {bytes rest : List UInt8} (hwidth : width ≤ 4)
    (h : readLength width bytes = some (n, rest)) : n < 2 ^ 32 := by
  obtain ⟨⟨front, rest'⟩, htake, heq⟩ := Option.map_eq_some_iff.mp h
  have hlen := takeBytes_eq_some htake
  have hlt := natOf_lt front
  have hpow : 256 ^ front.length ≤ 256 ^ 4 := Nat.pow_le_pow_right (by omega) (hlen ▸ hwidth)
  simp only [Prod.mk.injEq] at heq
  rw [← heq.1]
  omega

/-! ### Heads -/

section Heads

variable {fuel n : Nat} {code : UInt8} {width : Nat} {rest : List UInt8}

theorem decodeFrom_unsigned (hcode : head? code = some (.unsigned width)) (h : n < 256 ^ width) :
    decodeFrom (fuel + 1) (coded code width n ++ rest) = some (.int n, rest) := by
  simp [decodeFrom, coded, hcode, takeBytes_bigEndian, natOf_bigEndian_of_lt h]

theorem decodeFrom_signed {n : Int} (hcode : head? code = some (.signed width)) (hwidth : width ≠ 8)
    (hlow : -(256 ^ width : Nat) ≤ 2 * n) (hhigh : 2 * n < (256 ^ width : Nat)) :
    decodeFrom (fuel + 1) (coded code width (bits width n) ++ rest) = some (.int n, rest) := by
  simp [decodeFrom, coded, hcode, hwidth, takeBytes_bigEndian, intOf_bigEndian_bits hlow hhigh]

theorem decodeFrom_int64 {n : Int} (hlow : -(256 ^ 8 : Nat) ≤ 2 * n)
    (hhigh : 2 * n < (256 ^ 8 : Nat)) :
    decodeFrom (fuel + 1) (coded 0xD3 8 (bits 8 n) ++ rest) =
      some (.int64 (Int64.ofInt n), rest) := by
  have hcode : head? 0xD3 = some (.signed 8) := rfl
  simp [decodeFrom, coded, hcode, takeBytes_bigEndian, intOf_bigEndian_bits hlow hhigh]

theorem decodeFrom_byte {m : Msg} (hcode : head? code = some (.done m)) :
    decodeFrom (fuel + 1) (code :: rest) = some (m, rest) := by
  simp [decodeFrom, hcode]

/-- A byte that tells a text of up to 31 bytes. -/
theorem head?_text (h : n < 32) : head? (UInt8.ofNat (0xA0 + n)) = some (.text n) := by
  have hcode : (UInt8.ofNat (0xA0 + n)).toNat = 0xA0 + n := by simp; omega
  simp only [head?, hcode]
  rw [if_neg (by omega), if_neg (by omega), if_neg (by omega), if_pos (by omega),
    Nat.add_sub_cancel_left]

theorem head?_array (h : n < 16) : head? (UInt8.ofNat (0x90 + n)) = some (.array n) := by
  have hcode : (UInt8.ofNat (0x90 + n)).toNat = 0x90 + n := by simp; omega
  simp only [head?, hcode]
  rw [if_neg (by omega), if_neg (by omega), if_pos (by omega), Nat.add_sub_cancel_left]

theorem head?_map (h : n < 16) : head? (UInt8.ofNat (0x80 + n)) = some (.map n) := by
  have hcode : (UInt8.ofNat (0x80 + n)).toNat = 0x80 + n := by simp; omega
  simp only [head?, hcode]
  rw [if_neg (by omega), if_pos (by omega), Nat.add_sub_cancel_left]

theorem head?_small (h : n < 128) : head? (UInt8.ofNat n) = some (.done (.int n)) := by
  have hcode : (UInt8.ofNat n).toNat = n := by simp; omega
  simp only [head?, hcode]
  rw [if_pos h]

theorem head?_negative {n : Int} (hlow : -32 ≤ n) (hneg : n < 0) :
    head? (UInt8.ofNat (bits 1 n)) = some (.done (.int n)) := by
  have hbits : ((bits 1 n : Nat) : Int) = n + 256 := by
    simp only [bits, Nat.pow_eq]
    omega
  have hcode : (UInt8.ofNat (bits 1 n)).toNat = bits 1 n := by simp; omega
  simp only [head?, hcode]
  rw [if_neg (by omega), if_neg (by omega), if_neg (by omega), if_neg (by omega),
    if_pos (by omega), hbits, Int.add_sub_cancel]

/-- After the head of a text come its bytes. -/
theorem decodeFrom_textHead (h : n < 2 ^ 32) :
    decodeFrom (fuel + 1) (textHead n ++ rest) =
      (takeBytes n rest).map fun (bytes, rest) => (.text bytes, rest) := by
  have hlong : ∀ {code : UInt8} {width : Nat}, head? code = some (.longText width) →
      n < 256 ^ width → decodeFrom (fuel + 1) (coded code width n ++ rest) =
        (takeBytes n rest).map fun (bytes, rest) => (.text bytes, rest) := by
    intro code width hcode hn
    simp only [decodeFrom, coded, List.cons_append, hcode, readLength_bigEndian hn, bind, Option.bind]
    rcases takeBytes n rest with _ | ⟨bytes, rest⟩ <;> rfl
  rw [textHead]
  split_ifs with h1 h2 h3
  · simp only [decodeFrom, List.singleton_append, head?_text h1, bind, Option.bind]
    rcases takeBytes n rest with _ | ⟨bytes, rest⟩ <;> rfl
  · exact hlong rfl (by omega)
  · exact hlong rfl (by omega)
  · exact hlong rfl (by omega)

theorem decodeFrom_binaryHead (h : n < 2 ^ 32) :
    decodeFrom (fuel + 1) (binaryHead n ++ rest) =
      (takeBytes n rest).map fun (bytes, rest) => (.binary bytes, rest) := by
  have hlong : ∀ {code : UInt8} {width : Nat}, head? code = some (.longBinary width) →
      n < 256 ^ width → decodeFrom (fuel + 1) (coded code width n ++ rest) =
        (takeBytes n rest).map fun (bytes, rest) => (.binary bytes, rest) := by
    intro code width hcode hn
    simp only [decodeFrom, coded, List.cons_append, hcode, readLength_bigEndian hn, bind, Option.bind]
    rcases takeBytes n rest with _ | ⟨bytes, rest⟩ <;> rfl
  rw [binaryHead]
  split_ifs with h1 h2
  · exact hlong rfl (by omega)
  · exact hlong rfl (by omega)
  · exact hlong rfl (by omega)

/-- After the head of an array come its items. -/
theorem decodeFrom_arrayHead (h : n < 2 ^ 32) :
    decodeFrom (fuel + 1) (arrayHead n ++ rest) =
      (decodeMany fuel n rest).map fun (items, rest) => (.array items, rest) := by
  have hlong : ∀ {code : UInt8} {width : Nat}, head? code = some (.longArray width) →
      n < 256 ^ width → decodeFrom (fuel + 1) (coded code width n ++ rest) =
        (decodeMany fuel n rest).map fun (items, rest) => (.array items, rest) := by
    intro code width hcode hn
    simp only [decodeFrom, coded, List.cons_append, hcode, readLength_bigEndian hn, bind, Option.bind]
    rcases decodeMany fuel n rest with _ | ⟨items, rest⟩ <;> rfl
  rw [arrayHead]
  split_ifs with h1 h2
  · simp only [decodeFrom, List.singleton_append, head?_array h1, bind, Option.bind]
    rcases decodeMany fuel n rest with _ | ⟨items, rest⟩ <;> rfl
  · exact hlong rfl (by omega)
  · exact hlong rfl (by omega)

/-- After the head of a map come its keys and values in turn. -/
theorem decodeFrom_mapHead (h : n < 2 ^ 32) :
    decodeFrom (fuel + 1) (mapHead n ++ rest) =
      (decodeMany fuel (2 * n) rest).map fun (items, rest) => (.map (pairUp items), rest) := by
  have hlong : ∀ {code : UInt8} {width : Nat}, head? code = some (.longMap width) →
      n < 256 ^ width → decodeFrom (fuel + 1) (coded code width n ++ rest) =
        (decodeMany fuel (2 * n) rest).map fun (items, rest) => (.map (pairUp items), rest) := by
    intro code width hcode hn
    simp only [decodeFrom, coded, List.cons_append, hcode, readLength_bigEndian hn, bind, Option.bind]
    rcases decodeMany fuel (2 * n) rest with _ | ⟨items, rest⟩ <;> rfl
  rw [mapHead]
  split_ifs with h1 h2
  · simp only [decodeFrom, List.singleton_append, head?_map h1, bind, Option.bind]
    rcases decodeMany fuel (2 * n) rest with _ | ⟨items, rest⟩ <;> rfl
  · exact hlong rfl (by omega)
  · exact hlong rfl (by omega)

end Heads

/-! ### Values that fit -/

/-- A value that the format has room for. -/
inductive Fits : Msg → Prop
  | nil : Fits .nil
  | bool (b : Bool) : Fits (.bool b)
  | int {n : Int} (hlow : -2 ^ 63 ≤ n) (hhigh : n < 2 ^ 64) : Fits (.int n)
  | int64 (n : Int64) : Fits (.int64 n)
  | float {bytes : List UInt8} (h : bytes.length = 4 ∨ bytes.length = 8) : Fits (.float bytes)
  | text {bytes : List UInt8} (h : bytes.length < 2 ^ 32) : Fits (.text bytes)
  | binary {bytes : List UInt8} (h : bytes.length < 2 ^ 32) : Fits (.binary bytes)
  | extension {bytes : List UInt8} (h : 0 < bytes.length) (hlong : bytes.length ≤ 2 ^ 32) :
      Fits (.extension bytes)
  | array {items : List Msg} (hlong : items.length < 2 ^ 32) (h : ∀ x ∈ items, Fits x) :
      Fits (.array items)
  | map {entries : List (Msg × Msg)} (hlong : entries.length < 2 ^ 32)
      (hkeys : ∀ e ∈ entries, Fits e.1) (hvalues : ∀ e ∈ entries, Fits e.2) : Fits (.map entries)

mutual

/-- What a value is read back as: an integer that takes eight bytes becomes one that always has
eight bytes. -/
def reread : Msg → Msg
  | .int n => if n < -2147483648 then .int64 (Int64.ofInt n) else .int n
  | .array items => .array (rereadItems items)
  | .map entries => .map (rereadEntries entries)
  | m => m

def rereadItems : List Msg → List Msg
  | [] => []
  | x :: xs => reread x :: rereadItems xs

def rereadEntries : List (Msg × Msg) → List (Msg × Msg)
  | [] => []
  | (k, x) :: xs => (reread k, reread x) :: rereadEntries xs

end

/-- The keys and values of a map in turn. -/
def inTurn (entries : List (Msg × Msg)) : List Msg :=
  entries.flatMap fun e => [e.1, e.2]

theorem inTurn_cons (e : Msg × Msg) (entries : List (Msg × Msg)) :
    inTurn (e :: entries) = e.1 :: e.2 :: inTurn entries := rfl

theorem encodeEntries_eq (entries : List (Msg × Msg)) :
    encodeEntries entries = encodeItems (inTurn entries) := by
  induction entries with
  | nil => rfl
  | cons e entries ih => simp only [encodeEntries, inTurn_cons, encodeItems, ih, List.append_assoc]

theorem pairUp_rereadItems (entries : List (Msg × Msg)) :
    pairUp (rereadItems (inTurn entries)) = rereadEntries entries := by
  induction entries with
  | nil => rfl
  | cons e entries ih => simp only [inTurn_cons, rereadItems, pairUp, rereadEntries, ih]

theorem length_inTurn (entries : List (Msg × Msg)) :
    (inTurn entries).length = 2 * entries.length := by
  induction entries with
  | nil => rfl
  | cons e entries ih =>
    rw [inTurn_cons, List.length_cons, List.length_cons, List.length_cons, ih]
    omega

/-! ### Reading what was written -/

theorem reread_int {n : Int} (h : -2147483648 ≤ n) : reread (.int n) = .int n := by
  rw [reread, if_neg (by omega)]

theorem decodeFrom_intBytes {fuel : Nat} {n : Int} {rest : List UInt8} (hlow : -2 ^ 63 ≤ n)
    (hhigh : n < 2 ^ 64) :
    decodeFrom (fuel + 1) (intBytes n ++ rest) = some (reread (.int n), rest) := by
  rw [intBytes]
  by_cases hn : 0 ≤ n
  · have htoNat : ((n.toNat : Nat) : Int) = n := Int.toNat_of_nonneg hn
    rw [if_pos hn, reread_int (by omega)]
    split_ifs with h1 h2 h3 h4
    · rw [List.singleton_append, decodeFrom_byte (head?_small (by omega)), htoNat]
    all_goals rw [decodeFrom_unsigned rfl (by omega), htoNat]
  rw [if_neg hn]
  split_ifs with h1 h2 h3 h4
  · rw [reread_int (by omega), List.singleton_append,
      decodeFrom_byte (head?_negative h1 (by omega))]
  · rw [reread_int (by omega), decodeFrom_signed rfl (by decide) (by omega) (by omega)]
  · rw [reread_int (by omega), decodeFrom_signed rfl (by decide) (by omega) (by omega)]
  · rw [reread_int h4, decodeFrom_signed rfl (by decide) (by omega) (by omega)]
  · rw [reread, if_pos (by omega), decodeFrom_int64 (by omega) (by omega)]

/-- The bytes of a value are read back as it, if there is fuel for twice as many. -/
def Readable (m : Msg) : Prop :=
  0 < m.encode.length ∧ ∀ (fuel : Nat) (rest : List UInt8), 2 * m.encode.length ≤ fuel + 1 →
    decodeFrom fuel (m.encode ++ rest) = some (m.reread, rest)

theorem decodeMany_encodeItems {items : List Msg} (h : ∀ x ∈ items, Readable x) {fuel : Nat}
    {rest : List UInt8} (hfuel : 2 * (encodeItems items).length ≤ fuel) :
    decodeMany fuel items.length (encodeItems items ++ rest) = some (rereadItems items, rest) := by
  induction items generalizing fuel with
  | nil => simp [decodeMany, encodeItems, rereadItems]
  | cons x items ih =>
    obtain ⟨hpos, hx⟩ := h x List.mem_cons_self
    rw [encodeItems, List.length_append] at hfuel
    obtain ⟨fuel, rfl⟩ : ∃ k, fuel = k + 1 := ⟨fuel - 1, by omega⟩
    have hrest := ih (fun y hy => h y (List.mem_cons_of_mem _ hy)) (show _ ≤ fuel by omega)
    rw [encodeItems, List.append_assoc, List.length_cons, decodeMany,
      hx fuel _ (by omega)]
    simp [hrest, rereadItems]

/-- A value whose head is one byte or more, read by its head. -/
theorem readable_of_head {m : Msg} (head body : List UInt8) (hm : m.encode = head ++ body)
    (hhead : 0 < head.length)
    (h : ∀ (fuel : Nat) (rest : List UInt8), 2 * body.length ≤ fuel →
      decodeFrom (fuel + 1) (head ++ (body ++ rest)) = some (m.reread, rest)) : Readable m := by
  rw [Readable, hm, List.length_append]
  refine ⟨by omega, fun fuel rest hfuel => ?_⟩
  obtain ⟨fuel, rfl⟩ : ∃ k, fuel = k + 1 := ⟨fuel - 1, by omega⟩
  rw [List.append_assoc]
  exact h fuel rest (by omega)

theorem intBytes_ne_nil (n : Int) : intBytes n ≠ [] := by
  unfold intBytes coded
  split_ifs <;> simp

theorem textHead_ne_nil (n : Nat) : textHead n ≠ [] := by
  unfold textHead coded
  split_ifs <;> simp

theorem binaryHead_ne_nil (n : Nat) : binaryHead n ≠ [] := by
  unfold binaryHead coded
  split_ifs <;> simp

theorem arrayHead_ne_nil (n : Nat) : arrayHead n ≠ [] := by
  unfold arrayHead coded
  split_ifs <;> simp

theorem mapHead_ne_nil (n : Nat) : mapHead n ≠ [] := by
  unfold mapHead coded
  split_ifs <;> simp

/-- A value that one byte stands for. -/
theorem readable_of_byte {m : Msg} {code : UInt8} (hm : m.encode = [code])
    (hcode : head? code = some (.done m.reread)) : Readable m := by
  refine readable_of_head [code] [] hm Nat.zero_lt_one fun fuel rest _ => ?_
  exact decodeFrom_byte hcode

theorem readable_int {n : Int} (hlow : -2 ^ 63 ≤ n) (hhigh : n < 2 ^ 64) : Readable (.int n) := by
  have hpos := List.length_pos_of_ne_nil (intBytes_ne_nil n)
  refine readable_of_head _ [] (List.append_nil _).symm hpos fun fuel rest _ => ?_
  exact decodeFrom_intBytes hlow hhigh

theorem readable_int64 (n : Int64) : Readable (.int64 n) := by
  have hlow := n.le_toInt
  have hhigh := n.toInt_lt
  refine readable_of_head (coded 0xD3 8 (bits 8 n.toInt)) [] (List.append_nil _).symm
    (by simp [coded]) fun fuel rest _ => ?_
  rw [List.nil_append, decodeFrom_int64 (by omega) (by omega), Int64.ofInt_toInt, reread]
  all_goals simp

theorem readable_float {bytes : List UInt8} (h : bytes.length = 4 ∨ bytes.length = 8) :
    Readable (.float bytes) := by
  have hfloat : ∀ {code : UInt8}, (Msg.float bytes).encode = code :: bytes →
      head? code = some (.float bytes.length) → Readable (.float bytes) := by
    intro code hencode hcode
    refine readable_of_head [code] bytes hencode Nat.zero_lt_one fun fuel rest _ => ?_
    simp [decodeFrom, hcode, reread]
  rcases h with h | h
  · exact hfloat (by rw [encode, floatBytes, if_pos h]) (by rw [h]; rfl)
  · exact hfloat (by rw [encode, floatBytes, if_neg (by omega)]) (by rw [h]; rfl)

theorem readable_extension {bytes : List UInt8} (h : 0 < bytes.length)
    (hlong : bytes.length ≤ 2 ^ 32) : Readable (.extension bytes) := by
  refine readable_of_head (coded 0xC9 4 (bytes.length - 1)) bytes rfl (by simp [coded])
    fun fuel rest _ => ?_
  have hcode : head? 0xC9 = some (.longExtension 4) := rfl
  have hlen : bytes.length - 1 + 1 = bytes.length := by omega
  simp [decodeFrom, coded, hcode, hlen,
    readLength_bigEndian (show bytes.length - 1 < 256 ^ 4 by omega), reread]

theorem readable_array {items : List Msg} (hlong : items.length < 2 ^ 32)
    (h : ∀ x ∈ items, Readable x) : Readable (.array items) := by
  refine readable_of_head (arrayHead items.length) (encodeItems items) rfl
    (List.length_pos_of_ne_nil (arrayHead_ne_nil _)) fun fuel rest hfuel => ?_
  rw [decodeFrom_arrayHead hlong, decodeMany_encodeItems h hfuel]
  rfl

theorem readable_map {entries : List (Msg × Msg)} (hlong : entries.length < 2 ^ 32)
    (hkeys : ∀ e ∈ entries, Readable e.1) (hvalues : ∀ e ∈ entries, Readable e.2) :
    Readable (.map entries) := by
  refine readable_of_head (mapHead entries.length) (encodeEntries entries) rfl
    (List.length_pos_of_ne_nil (mapHead_ne_nil _)) fun fuel rest hfuel => ?_
  have hitems : ∀ x ∈ inTurn entries, Readable x := by
    intro x hx
    obtain ⟨e, he, hx⟩ := List.mem_flatMap.mp hx
    rcases List.mem_pair.mp hx with rfl | rfl
    · exact hkeys e he
    · exact hvalues e he
  rw [encodeEntries_eq] at hfuel ⊢
  rw [decodeFrom_mapHead hlong, ← length_inTurn, decodeMany_encodeItems hitems hfuel,
    Option.map_some]
  simp only [pairUp_rereadItems, reread]

/-- **What fits is read back**, by induction on the value. -/
theorem Fits.readable {m : Msg} (h : Fits m) : Readable m := by
  induction h with
  | nil => exact readable_of_byte rfl rfl
  | bool b =>
    cases b
    · exact readable_of_byte rfl rfl
    · exact readable_of_byte rfl rfl
  | int hlow hhigh => exact readable_int hlow hhigh
  | int64 n => exact readable_int64 n
  | float h => exact readable_float h
  | @text bytes h =>
    refine readable_of_head _ bytes rfl (List.length_pos_of_ne_nil (textHead_ne_nil _))
      fun fuel rest _ => ?_
    rw [decodeFrom_textHead h, takeBytes_append]
    rfl
  | @binary bytes h =>
    refine readable_of_head _ bytes rfl (List.length_pos_of_ne_nil (binaryHead_ne_nil _))
      fun fuel rest _ => ?_
    rw [decodeFrom_binaryHead h, takeBytes_append]
    rfl
  | extension h hlong => exact readable_extension h hlong
  | array hlong _ ih => exact readable_array hlong ih
  | map hlong _ _ ihkeys ihvalues => exact readable_map hlong ihkeys ihvalues

/-- **What was written is read back**, whatever follows it. -/
theorem Fits.decode?_encode {m : Msg} (h : Fits m) (rest : List UInt8) :
    decode? (m.encode ++ rest) = some m.reread := by
  rw [decode?, h.readable.2 _ rest (by rw [List.length_append]; omega), Option.map_some]

/-! ### What is read -/

/-- What a head announces does not outgrow four bytes. -/
def Head.Bounded : Head → Prop
  | .done m => Fits m
  | .unsigned width | .signed width => width ≤ 8
  | .float width => width = 4 ∨ width = 8
  | .text n | .extension n | .array n | .map n => n < 2 ^ 32
  | .longText width | .longBinary width | .longExtension width | .longArray width
  | .longMap width => width ≤ 4

theorem bounded_of_head? {code : UInt8} {h : Head} (hcode : head? code = some h) : h.Bounded := by
  have hlt := code.toNat_lt
  simp only [head?] at hcode
  split_ifs at hcode with h1 h2 h3 h4 h5
  · obtain rfl := Option.some_inj.mp hcode
    exact .int (by omega) (by omega)
  · obtain rfl := Option.some_inj.mp hcode
    simp only [Head.Bounded]
    omega
  · obtain rfl := Option.some_inj.mp hcode
    simp only [Head.Bounded]
    omega
  · obtain rfl := Option.some_inj.mp hcode
    simp only [Head.Bounded]
    omega
  · obtain rfl := Option.some_inj.mp hcode
    exact .int (by omega) (by omega)
  · -- the codes that stand for one kind of value each
    split at hcode <;> cases hcode <;> simp [Head.Bounded, Fits.nil, Fits.bool]

theorem fits_pairUp {items : List Msg} (h : ∀ x ∈ items, Fits x) :
    ∀ e ∈ pairUp items, Fits e.1 ∧ Fits e.2 := by
  fun_induction pairUp items with
  | case1 k x rest ih =>
    intro e he
    rcases List.mem_cons.mp he with rfl | he
    · exact ⟨h _ List.mem_cons_self, h _ (List.mem_cons_of_mem _ List.mem_cons_self)⟩
    · exact ih (fun y hy => h y (List.mem_cons_of_mem _ (List.mem_cons_of_mem _ hy))) e he
  | case2 => exact fun e he => absurd he List.not_mem_nil

theorem length_pairUp_le (items : List Msg) : 2 * (pairUp items).length ≤ items.length := by
  fun_induction pairUp items with
  | case1 k x rest ih =>
    rw [List.length_cons, List.length_cons, List.length_cons]
    omega
  | case2 => exact Nat.zero_le _

theorem fits_array {items : List Msg} {n : Nat} (hn : n < 2 ^ 32)
    (h : items.length = n ∧ ∀ x ∈ items, Fits x) : Fits (.array items) :=
  .array (h.1 ▸ hn) h.2

theorem fits_map {items : List Msg} {n : Nat} (hn : n < 2 ^ 32)
    (h : items.length = 2 * n ∧ ∀ x ∈ items, Fits x) : Fits (.map (pairUp items)) := by
  have hlen := length_pairUp_le items
  have hpairs := fits_pairUp h.2
  exact .map (by omega) (fun e he => (hpairs e he).1) fun e he => (hpairs e he).2

theorem fits_text {bytes front rest : List UInt8} {n : Nat} (hn : n < 2 ^ 32)
    (h : takeBytes n bytes = some (front, rest)) : Fits (.text front) :=
  .text (takeBytes_eq_some h ▸ hn)

theorem fits_unsigned {bytes front rest : List UInt8} {width : Nat} (hwidth : width ≤ 8)
    (h : takeBytes width bytes = some (front, rest)) : Fits (.int (natOf front)) := by
  have hlt := natOf_lt front
  have hpow : 256 ^ front.length ≤ 256 ^ 8 :=
    Nat.pow_le_pow_right (by omega) (takeBytes_eq_some h ▸ hwidth)
  exact .int (by omega) (by omega)

theorem fits_signed {bytes front rest : List UInt8} {width : Nat} (hwidth : width ≤ 8)
    (h : takeBytes width bytes = some (front, rest)) : Fits (.int (intOf front)) := by
  have hint := intOf_bounds front
  have hpow : 256 ^ front.length ≤ 256 ^ 8 :=
    Nat.pow_le_pow_right (by omega) (takeBytes_eq_some h ▸ hwidth)
  exact .int (by omega) (by omega)

theorem fits_extension {bytes front rest : List UInt8} {n : Nat} (hn : n < 2 ^ 32)
    (h : takeBytes (n + 1) bytes = some (front, rest)) : Fits (.extension front) := by
  have hfront := takeBytes_eq_some h
  exact .extension (by omega) (by omega)

/-- Values that are read in a row with so much fuel fit, and are as many as were asked for. -/
def ManyFit (fuel : Nat) : Prop :=
  ∀ {count : Nat} {bytes rest : List UInt8} {items : List Msg},
    decodeMany fuel count bytes = some (items, rest) →
      items.length = count ∧ ∀ x ∈ items, Fits x

/-- A value that is read as one part is made from that part. -/
theorem exists_part {α : Type} {part : Option (α × List UInt8)} {f : α → Msg} {m : Msg}
    {rest : List UInt8} (h : (part.bind fun p => pure (f p.1, p.2)) = some (m, rest)) :
    ∃ x rest', part = some (x, rest') ∧ f x = m := by
  obtain ⟨⟨x, rest'⟩, hpart, h⟩ := Option.bind_eq_some_iff.mp h
  exact ⟨x, rest', hpart, congrArg Prod.fst (Option.some_inj.mp h)⟩

/-- A value that is read fits if what its head announces does. -/
theorem fits_of_decodeFrom {fuel : Nat} (hmany : ManyFit fuel) {bytes rest : List UInt8} {m : Msg}
    (h : decodeFrom (fuel + 1) bytes = some (m, rest)) : Fits m := by
  rcases bytes with _ | ⟨code, bytes⟩
  · simp [decodeFrom] at h
  rw [decodeFrom] at h
  obtain ⟨head, hcode, h⟩ := Option.bind_eq_some_iff.mp h
  have hbound := bounded_of_head? hcode
  cases head with
  | done value =>
    obtain rfl := congrArg Prod.fst (Option.some_inj.mp h)
    exact hbound
  | unsigned width =>
    obtain ⟨front, _, htake, rfl⟩ := exists_part (f := fun front => .int (natOf front)) h
    exact fits_unsigned hbound htake
  | signed width =>
    obtain ⟨⟨front, _⟩, htake, h⟩ := Option.bind_eq_some_iff.mp h
    simp only at h
    split at h <;> obtain rfl := congrArg Prod.fst (Option.some_inj.mp h)
    · exact .int64 _
    · exact fits_signed hbound htake
  | float width =>
    obtain ⟨front, _, htake, rfl⟩ := exists_part (f := .float) h
    exact .float (takeBytes_eq_some htake ▸ hbound)
  | text length =>
    obtain ⟨front, _, htake, rfl⟩ := exists_part (f := .text) h
    exact fits_text hbound htake
  | longText width =>
    obtain ⟨⟨length, _⟩, hlen, h⟩ := Option.bind_eq_some_iff.mp h
    obtain ⟨front, _, htake, rfl⟩ := exists_part (f := .text) h
    exact fits_text (readLength_lt hbound hlen) htake
  | longBinary width =>
    obtain ⟨⟨length, _⟩, hlen, h⟩ := Option.bind_eq_some_iff.mp h
    obtain ⟨front, _, htake, rfl⟩ := exists_part (f := .binary) h
    exact .binary (takeBytes_eq_some htake ▸ readLength_lt hbound hlen)
  | extension length =>
    obtain ⟨front, _, htake, rfl⟩ := exists_part (f := .extension) h
    exact fits_extension hbound htake
  | longExtension width =>
    obtain ⟨⟨length, _⟩, hlen, h⟩ := Option.bind_eq_some_iff.mp h
    obtain ⟨front, _, htake, rfl⟩ := exists_part (f := .extension) h
    exact fits_extension (readLength_lt hbound hlen) htake
  | array length =>
    obtain ⟨items, _, hitems, rfl⟩ := exists_part (f := .array) h
    exact fits_array hbound (hmany hitems)
  | longArray width =>
    obtain ⟨⟨length, _⟩, hlen, h⟩ := Option.bind_eq_some_iff.mp h
    obtain ⟨items, _, hitems, rfl⟩ := exists_part (f := .array) h
    exact fits_array (readLength_lt hbound hlen) (hmany hitems)
  | map length =>
    obtain ⟨items, _, hitems, rfl⟩ := exists_part (f := fun items => .map (pairUp items)) h
    exact fits_map hbound (hmany hitems)
  | longMap width =>
    obtain ⟨⟨length, _⟩, hlen, h⟩ := Option.bind_eq_some_iff.mp h
    obtain ⟨items, _, hitems, rfl⟩ := exists_part (f := fun items => .map (pairUp items)) h
    exact fits_map (readLength_lt hbound hlen) (hmany hitems)

@[simp]
theorem decodeMany_zero (fuel : Nat) (bytes : List UInt8) :
    decodeMany fuel 0 bytes = some ([], bytes) := by
  cases fuel <;> rw [decodeMany]

theorem manyFit_zero : ManyFit 0 := by
  intro count bytes rest items h
  cases count with
  | zero =>
    rw [decodeMany_zero] at h
    obtain rfl := congrArg Prod.fst (Option.some_inj.mp h)
    simp
  | succ count => simp [decodeMany] at h

theorem manyFit_succ {fuel : Nat}
    (hone : ∀ {bytes rest : List UInt8} {m : Msg}, decodeFrom fuel bytes = some (m, rest) → Fits m)
    (hmany : ManyFit fuel) : ManyFit (fuel + 1) := by
  intro count bytes rest items h
  cases count with
  | zero =>
    rw [decodeMany_zero] at h
    obtain rfl := congrArg Prod.fst (Option.some_inj.mp h)
    simp
  | succ count =>
    rw [decodeMany] at h
    obtain ⟨⟨x, rest'⟩, hx, h⟩ := Option.bind_eq_some_iff.mp h
    obtain ⟨⟨xs, rest''⟩, hxs, h⟩ := Option.bind_eq_some_iff.mp h
    obtain rfl := congrArg Prod.fst (Option.some_inj.mp h)
    obtain ⟨hlen, hfits⟩ := hmany hxs
    exact ⟨by rw [List.length_cons, hlen], List.forall_mem_cons.mpr ⟨hone hx, hfits⟩⟩

/-- **What is read fits**, by induction on the fuel. -/
theorem fits_of_decode (fuel : Nat) :
    (∀ {bytes rest : List UInt8} {m : Msg}, decodeFrom fuel bytes = some (m, rest) → Fits m) ∧
      ManyFit fuel := by
  induction fuel with
  | zero => exact ⟨fun h => by simp [decodeFrom] at h, manyFit_zero⟩
  | succ fuel ih => exact ⟨fits_of_decodeFrom ih.2, manyFit_succ ih.1 ih.2⟩

theorem fits_of_decode? {bytes : List UInt8} {m : Msg} (h : decode? bytes = some m) : Fits m := by
  obtain ⟨⟨m', rest⟩, hdecode, rfl⟩ := Option.map_eq_some_iff.mp h
  exact (fits_of_decode _).1 hdecode

/-! ### Values as data -/

/-- A text that the format has room for. -/
structure Carries (s : String) : Prop where
  octets : Text.IsOctets s
  short : s.length < 2 ^ 32

instance (s : String) : Decidable (Carries s) :=
  decidable_of_iff (Text.IsOctets s ∧ s.length < 2 ^ 32) ⟨fun h => ⟨h.1, h.2⟩, fun h => ⟨h.1, h.2⟩⟩

theorem carries_empty : Carries "" := ⟨by simp [Text.IsOctets], by decide⟩

theorem asText?_ofText {s : String} (h : Carries s) : asText? (ofText s) = some s := by
  rw [ofText, asText?, toList_eq_data_toList]
  exact congrArg some (Text.ofBytes_toBytes h.octets)

theorem fits_ofText {s : String} (h : Carries s) : Fits (ofText s) := by
  refine .text ?_
  rw [toList_eq_data_toList, Text.data_toBytes, List.length_map, String.length_toList]
  exact h.short

@[simp]
theorem reread_ofText (s : String) : reread (ofText s) = ofText s := rfl

@[simp]
theorem reread_int64 (n : Int64) : reread (.int64 n) = .int64 n := rfl

@[simp]
theorem reread_map (entries : List (Msg × Msg)) :
    reread (.map entries) = .map (rereadEntries entries) := rfl

@[simp]
theorem reread_array (items : List Msg) : reread (.array items) = .array (rereadItems items) := rfl

@[simp]
theorem rereadEntries_nil : rereadEntries [] = [] := rfl

@[simp]
theorem rereadEntries_cons (k x : Msg) (entries : List (Msg × Msg)) :
    rereadEntries ((k, x) :: entries) = (reread k, reread x) :: rereadEntries entries := rfl

theorem rereadItems_eq (items : List Msg) : rereadItems items = items.map reread := by
  induction items with
  | nil => rfl
  | cons x items ih => rw [rereadItems, ih, List.map_cons]

theorem asInt?_reread_int (n : Int) : asInt? (reread (.int n)) = some (Int64.ofInt n) := by
  rw [reread]
  split <;> rfl

theorem asInt?_int64 (n : Int64) : asInt? (.int64 n) = some n := rfl

theorem carries_ofBytes {bytes : List UInt8} (h : bytes.length < 2 ^ 32) :
    Carries (Text.ofBytes ⟨bytes.toArray⟩) := by
  have hlist : (Text.ofBytes ⟨bytes.toArray⟩).toList = bytes.map Text.octet := by
    rw [Text.ofBytes, toList_eq_data_toList, String.toList_ofList]
  refine ⟨fun c hc => ?_, ?_⟩
  · rw [hlist] at hc
    obtain ⟨b, -, rfl⟩ := List.mem_map.mp hc
    have hb := Text.toNat_octet_ofNat b.toNat_lt
    rw [UInt8.ofNat_toNat] at hb
    rw [hb]
    exact b.toNat_lt
  · rwa [← String.length_toList, hlist, List.length_map]

/-- A text that is read is one that the format has room for. -/
theorem Fits.carries {m : Msg} {s : String} (hm : Fits m) (h : asText? m = some s) : Carries s := by
  cases hm with
  | nil =>
    obtain rfl := Option.some_inj.mp h
    exact carries_empty
  | text hlen =>
    obtain rfl := Option.some_inj.mp h
    exact carries_ofBytes hlen
  | binary hlen =>
    obtain rfl := Option.some_inj.mp h
    exact carries_ofBytes hlen
  | _ => simp [asText?] at h

/-! ### Named fields -/

/-- A map whose keys are names. -/
def ofNamed (fields : List (String × Msg)) : Msg :=
  .map (fields.map fun f => (ofText f.1, f.2))

section Named

variable {fields : List (String × Msg)}

/-- A map whose keys are names fits if its values do. -/
theorem fits_ofNamed (hlen : fields.length < 2 ^ 32) (hkeys : ∀ f ∈ fields, Carries f.1)
    (h : ∀ f ∈ fields, Fits f.2) : Fits (ofNamed fields) := by
  refine .map (by simpa using hlen) (fun e he => ?_) fun e he => ?_
  · obtain ⟨f, hf, rfl⟩ := List.mem_map.mp he
    exact fits_ofText (hkeys f hf)
  · obtain ⟨f, hf, rfl⟩ := List.mem_map.mp he
    exact h f hf

/-- Names come back as they are. -/
theorem reread_ofNamed (fields : List (String × Msg)) :
    reread (ofNamed fields) = ofNamed (fields.map fun f => (f.1, reread f.2)) := by
  have hentries : rereadEntries (fields.map fun f => (ofText f.1, f.2)) =
      (fields.map fun f => (f.1, reread f.2)).map fun f => (ofText f.1, f.2) := by
    induction fields with
    | nil => rfl
    | cons f fields ih =>
      rw [List.map_cons, rereadEntries_cons, ih, reread_ofText]
      rfl
  exact (reread_map _).trans (congrArg Msg.map hentries)

/-- A map whose keys are names is read field by field. -/
theorem overRecord_ofNamed {α : Type} {names : List String} {blank old : α}
    {put : α → String × Msg → Option α} (h : ∀ f ∈ fields, Carries f.1) :
    overRecord names blank put old (ofNamed fields) = fields.foldlM put old := by
  have hkeys : (fields.map fun f => (ofText f.1, f.2)).mapM
      (fun e => (asText? e.1).map (·, e.2)) = some fields := by
    induction fields with
    | nil => rfl
    | cons f fields ih =>
      have hrest := ih fun f' hf' => h f' (List.mem_cons_of_mem _ hf')
      rw [List.map_cons, List.mapM_cons, hrest]
      simp only [asText?_ofText (h f List.mem_cons_self)]
      rfl
  exact congrArg (fun o : Option _ => o.bind fun fields => fields.foldlM put old) hkeys

end Named

section Preserved

variable {α : Type} {P : α → Prop}

theorem exists_mem_of_mapM {β γ : Type} {f : β → Option γ} {xs : List β} {ys : List γ}
    (h : xs.mapM f = some ys) {y : γ} (hy : y ∈ ys) : ∃ x ∈ xs, f x = some y := by
  induction xs generalizing ys with
  | nil =>
    obtain rfl := Option.some_inj.mp h
    exact absurd hy List.not_mem_nil
  | cons x xs ih =>
    rw [List.mapM_cons] at h
    obtain ⟨z, hz, h⟩ := Option.bind_eq_some_iff.mp h
    obtain ⟨zs, hzs, h⟩ := Option.bind_eq_some_iff.mp h
    obtain rfl := Option.some_inj.mp h
    rcases List.mem_cons.mp hy with rfl | hy
    · exact ⟨x, List.mem_cons_self, hz⟩
    · obtain ⟨x', hx', hy⟩ := ih hzs hy
      exact ⟨x', List.mem_cons_of_mem _ hx', hy⟩

theorem length_mapM {β γ : Type} {f : β → Option γ} {xs : List β} {ys : List γ}
    (h : xs.mapM f = some ys) : ys.length = xs.length := by
  induction xs generalizing ys with
  | nil =>
    obtain rfl := Option.some_inj.mp h
    rfl
  | cons x xs ih =>
    rw [List.mapM_cons] at h
    obtain ⟨z, -, h⟩ := Option.bind_eq_some_iff.mp h
    obtain ⟨zs, hzs, h⟩ := Option.bind_eq_some_iff.mp h
    obtain rfl := Option.some_inj.mp h
    rw [List.length_cons, List.length_cons, ih hzs]

theorem foldlM_preserves {put : α → String × Msg → Option α}
    (hput : ∀ {a a'} {f : String × Msg}, P a → Fits f.2 → put a f = some a' → P a')
    {fields : List (String × Msg)} (hfields : ∀ f ∈ fields, Fits f.2) {a a' : α} (ha : P a)
    (h : fields.foldlM put a = some a') : P a' := by
  induction fields generalizing a with
  | nil =>
    obtain rfl := Option.some_inj.mp h
    exact ha
  | cons f fields ih =>
    rw [List.foldlM_cons] at h
    obtain ⟨b, hb, h⟩ := Option.bind_eq_some_iff.mp h
    exact ih (fun f' hf' => hfields f' (List.mem_cons_of_mem _ hf'))
      (hput ha (hfields f List.mem_cons_self) hb) h

/-- What every field keeps is kept by a record. -/
theorem Fits.overRecord_preserves {names : List String} {blank old a : α}
    {put : α → String × Msg → Option α} {m : Msg} (hm : Fits m) (hblank : P blank) (hold : P old)
    (hput : ∀ {a a'} {f : String × Msg}, P a → Fits f.2 → put a f = some a' → P a')
    (h : m.overRecord names blank put old = some a) : P a := by
  cases hm with
  | nil =>
    obtain rfl := Option.some_inj.mp h
    exact hblank
  | @map entries _ _ hvalues =>
    obtain ⟨fields, hfields, h⟩ := Option.bind_eq_some_iff.mp h
    refine foldlM_preserves hput (fun f hf => ?_) hold h
    obtain ⟨e, he, heq⟩ := exists_mem_of_mapM hfields hf
    obtain ⟨k, -, rfl⟩ := Option.map_eq_some_iff.mp heq
    exact hvalues e he
  | @array items _ hitems =>
    unfold overRecord at h
    split at h
    · obtain rfl := Option.some_inj.mp h
      exact hblank
    · obtain rfl := Option.some_inj.mp h
      exact hblank
    · simp_all
    · rename_i heq
      cases heq
      split at h
      · exact foldlM_preserves hput (fun f hf => hitems f.2 (List.of_mem_zip hf).2) hold h
      · simp at h
    · simp at h
  | _ => simp [overRecord] at h

/-- Laying a list over nothing gives the list, if each item is read back over a blank one. -/
theorem lay_map {δ : Type} {blank : α} {merge : α → δ → Option α} {f : α → δ} {items : List α}
    (h : ∀ x ∈ items, merge blank (f x) = some x) :
    Shelf.lay blank merge [] (items.map f) = some items := by
  induction items with
  | nil => rfl
  | cons x items ih =>
    have hrest := ih fun y hy => h y (List.mem_cons_of_mem _ hy)
    simp [Shelf.lay, h x List.mem_cons_self, hrest]

theorem length_lay {δ : Type} {blank : α} {merge : α → δ → Option α} {old items : List α}
    {data : List δ} (h : Shelf.lay blank merge old data = some items) :
    items.length = data.length := by
  induction data generalizing old items with
  | nil =>
    obtain rfl := Option.some_inj.mp h
    rfl
  | cons x data ih =>
    rw [Shelf.lay] at h
    obtain ⟨y, -, h⟩ := Option.bind_eq_some_iff.mp h
    obtain ⟨ys, hys, h⟩ := Option.bind_eq_some_iff.mp h
    obtain rfl := Option.some_inj.mp h
    rw [List.length_cons, List.length_cons, ih hys]

theorem lay_preserves {δ : Type} {Q : δ → Prop} {blank : α} {merge : α → δ → Option α}
    (hblank : P blank) (hmerge : ∀ {a x a'}, P a → Q x → merge a x = some a' → P a')
    {old items : List α} {data : List δ} (hold : ∀ a ∈ old, P a) (hdata : ∀ x ∈ data, Q x)
    (h : Shelf.lay blank merge old data = some items) : ∀ a ∈ items, P a := by
  induction data generalizing old items with
  | nil =>
    rw [Shelf.lay] at h
    obtain rfl := Option.some_inj.mp h
    simp
  | cons x data ih =>
    rw [Shelf.lay] at h
    obtain ⟨y, hy, h⟩ := Option.bind_eq_some_iff.mp h
    obtain ⟨ys, hys, h⟩ := Option.bind_eq_some_iff.mp h
    obtain rfl := Option.some_inj.mp h
    have hhead : P (old.head?.getD blank) := by
      rcases old with _ | ⟨a, old⟩
      · exact hblank
      · exact hold a List.mem_cons_self
    refine List.forall_mem_cons.mpr ⟨hmerge hhead (hdata x List.mem_cons_self) hy, ?_⟩
    exact ih (fun a ha => hold a (List.mem_of_mem_drop ha))
      (fun x hx => hdata x (List.mem_cons_of_mem _ hx)) hys

/-- What every item keeps is kept by a list that others are read into. -/
theorem Fits.overShelf_preserves {blank : α} {merge : α → Msg → Option α} {old s : Shelf α}
    {m : Msg} (hm : Fits m) (hblank : P blank) (hold : ∀ a ∈ old.places, P a)
    (hmerge : ∀ {a x a'}, P a → Fits x → merge a x = some a' → P a')
    (h : m.overShelf blank merge old = some s) : ∀ a ∈ s.places, P a := by
  cases hm with
  | nil =>
    obtain rfl := Option.some_inj.mp h
    simp [Shelf.places]
  | @array items _ hitems =>
    obtain ⟨front, hlay, rfl⟩ := Option.map_eq_some_iff.mp h
    intro a ha
    rcases List.mem_append.mp ha with ha | ha
    · exact lay_preserves hblank hmerge hold hitems hlay a ha
    · exact hold a (List.mem_of_mem_drop ha)
  | _ => simp [overShelf] at h

end Preserved

end WorstCase.Msg
