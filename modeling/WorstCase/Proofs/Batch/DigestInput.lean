import WorstCase.Batch.Job
import WorstCase.Proofs.Encoding.BlockTexts
import WorstCase.Proofs.Text.Decimal
import WorstCase.Proofs.Text.Octets
import WorstCase.Proofs.Text.Pieces

/-!
# What a digest stands for

The digest of an input is the hash of its contents, followed by three **salts**: the fingerprint of
the options, and the digests of the matching file and of the cuts file, which are empty if there is
no such file. Contents are not marked off from the salts, and they may hold bytes that look like
salts. What is hashed can be taken apart nevertheless, from its end:

* a companion ends the bytes with a colon if it is missing and with a hexadecimal digit if it is
  there, and that tells how many bytes it takes (`Digest.append_companion_inj`);
* what is left holds no zero byte after the one before the fingerprint
  (`Digest.append_salt_inj`);
* the fingerprint holds its options between spaces (`Batch.fingerprint_inj`).

So what is hashed determines the contents, the fingerprint and the digests of the companions
(`Batch.Fed.eq_of_bytes`).
-/

namespace WorstCase

theorem Decimal.toNat_of_mem_chars {n : Int} {c : Char} (h : c ∈ chars n) :
    c.toNat = 45 ∨ 48 ≤ c.toNat ∧ c.toNat ≤ 57 := by
  refine (mem_chars h).imp (fun h => congrArg Char.toNat h) fun h => ?_
  simpa [Char.isDigit, UInt32.le_iff_toNat_le] using h

namespace Digest

/-! ### Digests as texts -/

/-- Whether a character is a lower-case hexadecimal digit. -/
def isHexDigit (c : Char) : Bool :=
  (48 ≤ c.toNat && c.toNat ≤ 57) || (97 ≤ c.toNat && c.toNat ≤ 102)

/-- A digest as a text: 64 hexadecimal digits. -/
structure Hex where
  text : String
  length_eq : text.length = 64
  digits : ∀ c ∈ text.toList, isHexDigit c = true

/-- The salt for a companion, by its digest. -/
def companionSalt : Option Hex → String
  | none => ""
  | some d => d.text

namespace Hex

theorem ext {d d' : Hex} (h : d.text = d'.text) : d = d' := by
  cases d
  cases d'
  cases h
  rfl

theorem isOctets (d : Hex) : Text.IsOctets d.text := fun c hc => by
  have := d.digits c hc
  simp only [isHexDigit, Bool.or_eq_true, Bool.and_eq_true, decide_eq_true_eq] at this
  omega

/-- A digest ends with a digit, and not with a colon. -/
theorem exists_concat (d : Hex) :
    ∃ cs c, d.text.toList = cs ++ [c] ∧ Text.byteOf c ≠ Text.byteOf ':' := by
  obtain h | ⟨cs, c, h⟩ := List.eq_nil_or_concat' d.text.toList
  · have hlength := d.length_eq
    rw [← String.length_toList, h] at hlength
    exact absurd hlength (by decide)
  · have hc : c ∈ d.text.toList := h ▸ List.mem_append_right _ List.mem_cons_self
    refine ⟨cs, c, h, fun heq => ?_⟩
    obtain rfl := Text.byteOf_injOn (d.isOctets c hc) (by decide) heq
    exact absurd (d.digits ':' hc) (by decide)

end Hex

/-! ### Salts as bytes -/

/-- The characters of a salt with its length in front. -/
def saltChars (salt : String) : List Char :=
  '\x00' :: (Decimal.chars salt.length ++ ':' :: salt.toList)

theorem data_saltBytes (salt : String) :
    (saltBytes salt).data.toList = (saltChars salt).map Text.byteOf := by
  simp [saltBytes, saltChars]

theorem data_salted (contents : ByteArray) (salts : List String) :
    (salted contents salts).data.toList =
      contents.data.toList ++ salts.flatMap fun s => (saltChars s).map Text.byteOf := by
  induction salts generalizing contents with
  | nil => simp [salted]
  | cons s salts ih =>
    have hstep : salted contents (s :: salts) = salted (contents ++ saltBytes s) salts := rfl
    rw [hstep, ih, ByteArray.toList_data_append, data_saltBytes, List.flatMap_cons,
      List.append_assoc]

theorem saltChars_missing : saltChars (companionSalt none) = ['\x00', '0', ':'] := by
  decide

theorem saltChars_companion (d : Hex) :
    saltChars (companionSalt (some d)) = ['\x00', '6', '4', ':'] ++ d.text.toList := by
  have h : Decimal.chars 64 = ['6', '4'] := by decide
  simp [saltChars, companionSalt, d.length_eq, h]

/-- **A companion can be told from the end of the bytes.** -/
theorem append_companion_inj {xs xs' : List UInt8} {m m' : Option Hex}
    (h : xs ++ (saltChars (companionSalt m)).map Text.byteOf =
      xs' ++ (saltChars (companionSalt m')).map Text.byteOf) : xs = xs' ∧ m = m' := by
  -- a salt that ends in a colon is not one that ends in a digit
  have hne : ∀ {ys ys' : List UInt8} {d : Hex},
      ys ++ (saltChars (companionSalt none)).map Text.byteOf ≠
        ys' ++ (saltChars (companionSalt (some d))).map Text.byteOf := by
    intro ys ys' d heq
    obtain ⟨cs, c, hcs, hc⟩ := d.exists_concat
    rw [saltChars_missing, saltChars_companion, hcs, ← List.append_assoc, List.map_append,
      ← List.append_assoc,
      show ['\x00', '0', ':'].map Text.byteOf = [0, 48] ++ [Text.byteOf ':'] by decide,
      ← List.append_assoc] at heq
    exact hc (List.append_singleton_inj.mp heq).2.symm
  match m, m' with
  | none, none => exact ⟨List.append_cancel_right h, rfl⟩
  | none, some d => exact absurd h hne
  | some d, none => exact absurd h.symm hne
  | some d, some d' =>
    have hlength : d.text.toList.length = d'.text.toList.length := by
      rw [String.length_toList, String.length_toList, d.length_eq, d'.length_eq]
    rw [saltChars_companion, saltChars_companion, List.map_append, List.map_append,
      ← List.append_assoc, ← List.append_assoc] at h
    obtain ⟨hxs, htext⟩ := List.append_inj' h (by simpa using hlength)
    refine ⟨List.append_cancel_right hxs, congrArg some (Hex.ext ?_)⟩
    rw [← Text.ofBytes_toBytes d.isOctets, ← Text.ofBytes_toBytes d'.isOctets, Text.ofBytes,
      Text.ofBytes, toList_eq_data_toList, toList_eq_data_toList, Text.data_toBytes,
      Text.data_toBytes, htext]

/-- **A salt without a zero byte can be told from the end of the bytes.** -/
theorem append_salt_inj {xs xs' : List UInt8} {s s' : String} (hs : Text.IsOctets s)
    (hs' : Text.IsOctets s') (hzero : '\x00' ∉ s.toList) (hzero' : '\x00' ∉ s'.toList)
    (h : xs ++ (saltChars s).map Text.byteOf = xs' ++ (saltChars s').map Text.byteOf) :
    xs = xs' ∧ s = s' := by
  have hnotMem : ∀ {s : String}, Text.IsOctets s → '\x00' ∉ s.toList →
      Text.byteOf '\x00' ∉ (Decimal.chars s.length ++ ':' :: s.toList).map Text.byteOf := by
    intro s hs hzero hmem
    obtain ⟨c, hc, heq⟩ := List.mem_map.mp hmem
    rcases List.mem_append.mp hc with hc | hc
    · have hnum := Decimal.toNat_of_mem_chars hc
      obtain rfl := Text.byteOf_injOn (by omega) (by decide) heq
      exact absurd hnum (by decide)
    rcases List.mem_cons.mp hc with rfl | hc
    · exact absurd heq (by decide)
    · obtain rfl := Text.byteOf_injOn (hs c hc) (by decide) heq
      exact hzero hc
  obtain ⟨hxs, htail⟩ := append_cons_inj_last (hnotMem hs hzero) (hnotMem hs' hzero') h
  refine ⟨hxs, ?_⟩
  have hcolon : ∀ n : Int, Text.byteOf ':' ∉ (Decimal.chars n).map Text.byteOf := by
    intro n hmem
    obtain ⟨c, hc, heq⟩ := List.mem_map.mp hmem
    have hnum := Decimal.toNat_of_mem_chars hc
    obtain rfl := Text.byteOf_injOn (by omega) (by decide) heq
    exact absurd hnum (by decide)
  rw [List.map_append, List.map_append, List.map_cons, List.map_cons] at htail
  have hbytes := (append_cons_inj (hcolon _) (hcolon _) htail).2
  rw [← Text.ofBytes_toBytes hs, ← Text.ofBytes_toBytes hs', Text.ofBytes, Text.ofBytes,
    toList_eq_data_toList, toList_eq_data_toList, Text.data_toBytes, Text.data_toBytes, hbytes]

end Digest

namespace Batch

/-! ### Fingerprints -/

/-- What stands between the spaces of a fingerprint. -/
def fingerprintWords (o : PipelineOptions) : List (List Char) :=
  [ "enc=".toList ++ Decimal.chars o.encoding,
    "edge-implies-nodes=".toList ++ (truthText o.edgeImpliesNodes).toList,
    "no-summaries=".toList ++ (truthText o.noSummaries).toList,
    "recursive-cuts=".toList ++ (truthText o.recursiveCuts).toList,
    "timeout=".toList ++ Decimal.chars o.timeout.toInt,
    "produce-models=".toList ++ (truthText o.produceModels).toList ]

theorem toList_fingerprint (o : PipelineOptions) :
    (fingerprint o).toList = [' '].intercalate (fingerprintWords o) := by
  have hedges : " edge-implies-nodes=" = " " ++ "edge-implies-nodes=" := by decide
  have hsummaries : " no-summaries=" = " " ++ "no-summaries=" := by decide
  have hrecursive : " recursive-cuts=" = " " ++ "recursive-cuts=" := by decide
  have htimeout : " timeout=" = " " ++ "timeout=" := by decide
  have hmodels : " produce-models=" = " " ++ "produce-models=" := by decide
  have hspace : " ".toList = [' '] := by decide
  unfold fingerprint
  rw [hedges, hsummaries, hrecursive, htimeout, hmodels]
  simp only [String.toList_append, Decimal.toList_text, hspace, fingerprintWords,
    List.intercalate, List.intersperse, List.flatten_cons, List.flatten_nil, List.append_assoc,
    List.append_nil]

/-- The words of a fingerprint hold printable characters only. -/
theorem forall_mem_fingerprintWords (o : PipelineOptions) :
    ∀ w ∈ fingerprintWords o, ∀ c ∈ w, 32 < c.toNat ∧ c.toNat < 127 := by
  have hchars : ∀ n : Int, ∀ c ∈ Decimal.chars n, 32 < c.toNat ∧ c.toNat < 127 := by
    intro n c h
    have hnum := Decimal.toNat_of_mem_chars h
    omega
  have htruth : ∀ b : Bool, ∀ c ∈ (truthText b).toList, 32 < c.toNat ∧ c.toNat < 127 := by
    decide
  simp only [fingerprintWords, List.forall_mem_cons, List.forall_mem_append]
  exact ⟨⟨by decide, hchars _⟩, ⟨by decide, htruth _⟩, ⟨by decide, htruth _⟩,
    ⟨by decide, htruth _⟩, ⟨by decide, hchars _⟩, ⟨by decide, htruth _⟩, by simp⟩

theorem mem_fingerprint {o : PipelineOptions} {c : Char} (h : c ∈ (fingerprint o).toList) :
    32 ≤ c.toNat ∧ c.toNat < 127 := by
  rw [toList_fingerprint] at h
  rcases Text.mem_intercalate h with rfl | ⟨w, hw, hc⟩
  · decide
  · have := forall_mem_fingerprintWords o w hw c hc
    omega

/-- **A fingerprint tells the options that a problem depends on.** -/
theorem fingerprint_inj {o o' : PipelineOptions} (h : fingerprint o = fingerprint o') :
    o.encoding = o'.encoding ∧ o.edgeImpliesNodes = o'.edgeImpliesNodes ∧
      o.noSummaries = o'.noSummaries ∧ o.recursiveCuts = o'.recursiveCuts ∧
      o.timeout = o'.timeout ∧ o.produceModels = o'.produceModels := by
  have hspace : ∀ o : PipelineOptions, ∀ w ∈ fingerprintWords o, ' ' ∉ w := fun o w hw hc =>
    absurd (forall_mem_fingerprintWords o w hw ' ' hc).1 (by decide)
  have hwords : fingerprintWords o = fingerprintWords o' := by
    rw [← List.splitOn_intercalate ' ' (hspace o) (List.cons_ne_nil _ _), ← toList_fingerprint, h,
      toList_fingerprint, List.splitOn_intercalate ' ' (hspace o') (List.cons_ne_nil _ _)]
  have htruth : ∀ b b' : Bool, (truthText b).toList = (truthText b').toList → b = b' := by
    decide
  simp only [fingerprintWords, List.cons.injEq, List.append_cancel_left_eq, and_true] at hwords
  obtain ⟨hencoding, hedges, hsummaries, hrecursive, htimeout, hmodels⟩ := hwords
  exact ⟨Decimal.chars_injective hencoding, htruth _ _ hedges, htruth _ _ hsummaries,
    htruth _ _ hrecursive, Int64.toInt_inj.mp (Decimal.chars_injective htimeout),
    htruth _ _ hmodels⟩

theorem isOctets_fingerprint (o : PipelineOptions) : Text.IsOctets (fingerprint o) := fun _ hc =>
  Nat.lt_trans (mem_fingerprint hc).2 (by decide)

theorem zero_notMem_fingerprint (o : PipelineOptions) : '\x00' ∉ (fingerprint o).toList := fun h =>
  absurd (mem_fingerprint h).1 (by decide)

/-! ### What is hashed for an input -/

/-- What the digest of an input is made of. -/
structure Fed where
  contents : ByteArray
  options : PipelineOptions
  /-- The digest of the matching file, if there is one. -/
  matching : Option Digest.Hex
  /-- The digest of the cuts file, if there is one. -/
  cuts : Option Digest.Hex

namespace Fed

/-- The bytes that are hashed. -/
def bytes (f : Fed) : ByteArray :=
  Digest.salted f.contents
    (salts f.options (Digest.companionSalt f.matching) (Digest.companionSalt f.cuts))

theorem data_bytes (f : Fed) :
    f.bytes.data.toList =
      f.contents.data.toList ++ (Digest.saltChars (fingerprint f.options)).map Text.byteOf ++
        (Digest.saltChars (Digest.companionSalt f.matching)).map Text.byteOf ++
        (Digest.saltChars (Digest.companionSalt f.cuts)).map Text.byteOf := by
  simp [bytes, salts, Digest.data_salted]

/-- What is hashed can be taken apart. -/
theorem eq_of_bytes {f f' : Fed} (h : f.bytes = f'.bytes) :
    f.contents = f'.contents ∧ fingerprint f.options = fingerprint f'.options ∧
      f.matching = f'.matching ∧ f.cuts = f'.cuts := by
  have hdata := congrArg (fun b => b.data.toList) h
  simp only [data_bytes] at hdata
  obtain ⟨hdata, hcuts⟩ := Digest.append_companion_inj hdata
  obtain ⟨hdata, hmatching⟩ := Digest.append_companion_inj hdata
  obtain ⟨hcontents, hfingerprint⟩ :=
    Digest.append_salt_inj (isOctets_fingerprint _) (isOctets_fingerprint _)
      (zero_notMem_fingerprint _) (zero_notMem_fingerprint _) hdata
  exact ⟨ByteArray.ext (Array.toList_inj.mp hcontents), hfingerprint, hmatching, hcuts⟩

end Fed

end Batch

end WorstCase
