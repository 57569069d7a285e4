import WorstCase.Proofs.Batch.DigestInput
import WorstCase.Proofs.Batch.Turn
import WorstCase.Proofs.Graph.Listing

/-!
# What problems are made from

The **material** of an input is all that its problem is made from, apart from the options: its
contents, and those of its companions, as far as there are any (`Batch.Material.Of`). The digest of
an input is the hash of bytes that are made from its material and the options
(`Batch.Material.exists_of_digestFrom`), and those bytes determine everything that goes into them
(`Batch.Fed.bytes_eq_iff`).

The material settles what is generated (`Batch.Material.Of.generatedFrom_eq_ok_iff`), and its digest
tells the material and the options, as long as what is hashed has different hashes
(`Batch.Material.digest_inj`).
-/

namespace WorstCase

/-! ### Digests as texts -/

namespace Text

theorem hexDigit_inj : ∀ m < 16, ∀ n < 16, hexDigit m = hexDigit n → m = n := by decide

theorem isHexDigit_hexDigit : ∀ n < 16, Digest.isHexDigit (hexDigit n) = true := by decide

theorem hexDigits_two (b : UInt8) :
    hexDigits 2 b.toNat = [hexDigit (b.toNat / 16), hexDigit (b.toNat % 16)] := by
  have hb : b.toNat / 16 % 16 = b.toNat / 16 := Nat.mod_eq_of_lt (by have := b.toNat_lt; omega)
  simp [hexDigits, List.range_succ, hb]

end Text

namespace Digest

theorem toList_hex (bytes : List UInt8) :
    (hex bytes).toList =
      bytes.flatMap fun b => [Text.hexDigit (b.toNat / 16), Text.hexDigit (b.toNat % 16)] := by
  rw [hex, String.toList_ofList]
  exact congrArg (bytes.flatMap ·) (funext Text.hexDigits_two)

theorem hex_injective {bytes bytes' : List UInt8} (h : hex bytes = hex bytes') : bytes = bytes' := by
  replace h := congrArg String.toList h
  rw [toList_hex, toList_hex] at h
  induction bytes generalizing bytes' with
  | nil =>
    cases bytes' with
    | nil => rfl
    | cons b bytes' => exact absurd h (by simp)
  | cons b bytes ih =>
    cases bytes' with
    | nil => exact absurd h (by simp)
    | cons b' bytes' =>
      simp only [List.flatMap_cons, List.cons_append, List.nil_append, List.cons.injEq] at h
      obtain ⟨hhigh, hlow, hrest⟩ := h
      have hb := b.toNat_lt
      have hb' := b'.toNat_lt
      have hhigh := Text.hexDigit_inj _ (by omega) _ (by omega) hhigh
      have hlow := Text.hexDigit_inj _ (by omega) _ (by omega) hlow
      rw [ih hrest, UInt8.toNat_inj.mp (show b.toNat = b'.toNat by omega)]

theorem length_hash (data : ByteArray) : (Blake3.hash data).length = 32 := by
  simp [Blake3.hash, Blake3.rootChain, Blake3.Input.compress, Blake3.wordBytes, List.range_succ]

/-- The digest of a file. -/
def ofContents (contents : ByteArray) : Hex where
  text := of contents []
  length_eq := by
    have hlength := length_hash (salted contents [])
    rw [← String.length_toList, of, toList_hex, List.length_flatMap]
    simp [hlength]
  digits c hc := by
    rw [of, toList_hex, List.mem_flatMap] at hc
    obtain ⟨b, -, hc⟩ := hc
    have hb := b.toNat_lt
    rcases List.mem_pair.mp hc with rfl | rfl <;>
      exact Text.isHexDigit_hexDigit _ (by omega)

end Digest

namespace Batch

open Scan (Found)

variable {files files' : String → Except FileError ByteArray} {o o' : PipelineOptions} {f f' : Found}

/-! ### Materials -/

/-- What the problem of an input is made from. -/
structure Material where
  contents : ByteArray
  /-- The contents of the matching file, if there is one. -/
  matching : Option ByteArray
  /-- The contents of the cuts file, if there is one. -/
  cuts : Option ByteArray

/-- What a file that may accompany an input holds. -/
def Accompanies (files : String → Except FileError ByteArray) (path : String) :
    Option ByteArray → Prop
  | none => path = ""
  | some bytes => path ≠ "" ∧ files path = .ok bytes

theorem sameFile_of_accompanies {path path' : String} {c : Option ByteArray}
    (h : Accompanies files path c) (h' : Accompanies files' path' c) :
    Pipeline.SameFile files files' path path' := by
  cases c with
  | none => exact .inl ⟨h, h'⟩
  | some bytes => exact .inr ⟨h.1, h'.1, bytes, h.2, h'.2⟩

theorem fromFile_eq_ok {path d : String} {salts : List String}
    (h : Digest.fromFile files path salts = .ok d) :
    ∃ bytes, files path = .ok bytes ∧ d = Digest.of bytes salts := by
  rw [Digest.fromFile] at h
  split at h
  · rename_i bytes hbytes
    exact ⟨bytes, hbytes, (Except.ok.inj h).symm⟩
  · simp at h

theorem companionFrom_eq_ok {path d : String} (h : companionFrom files path = .ok d) :
    ∃ c, Accompanies files path c ∧ d = Digest.companionSalt (c.map Digest.ofContents) := by
  rw [companionFrom] at h
  split at h
  · exact ⟨none, ‹path = ""›, (Except.ok.inj h).symm⟩
  · rename_i hpath
    obtain ⟨bytes, hbytes, rfl⟩ := fromFile_eq_ok h
    exact ⟨some bytes, ⟨hpath, hbytes⟩, rfl⟩

namespace Material

/-- The material of an input, by the contents of files. -/
structure Of (files : String → Except FileError ByteArray) (f : Found) (m : Material) : Prop where
  contents : files f.full = .ok m.contents
  matching : Accompanies files f.matching m.matching
  cuts : Accompanies files f.cuts m.cuts

/-- What the digest of a material is made of. -/
def fed (m : Material) (o : PipelineOptions) : Fed where
  contents := m.contents
  options := o
  matching := m.matching.map Digest.ofContents
  cuts := m.cuts.map Digest.ofContents

/-- The digest of a material. -/
def digest (m : Material) (o : PipelineOptions) : String := Digest.hex (Blake3.hash (m.fed o).bytes)

/-- What is hashed for a material. -/
def hashed (m : Material) (o : PipelineOptions) : Set ByteArray :=
  {b | b = (m.fed o).bytes ∨ b ∈ m.matching ∨ b ∈ m.cuts}

/-- **The digest of an input is that of its material**: what is hashed are the bytes of `fed`. -/
theorem exists_of_digestFrom {d : String} (h : digestFrom files o f = .ok d) :
    ∃ m : Material, Of files f m ∧ d = m.digest o := by
  obtain ⟨dm, hmatching, h⟩ := bind_eq_ok_iff.mp h
  obtain ⟨dc, hcuts, h⟩ := bind_eq_ok_iff.mp h
  obtain ⟨matching, hm, rfl⟩ := companionFrom_eq_ok hmatching
  obtain ⟨cuts, hc, rfl⟩ := companionFrom_eq_ok hcuts
  obtain ⟨bytes, hbytes, rfl⟩ := fromFile_eq_ok h
  exact ⟨⟨bytes, matching, cuts⟩, ⟨hbytes, hm, hc⟩, rfl⟩

end Material

namespace Fed

/-- **What is hashed determines all that a problem depends on**: the contents of the input, the six
options, and which companions there are with which digests. Nothing else goes into it. -/
theorem bytes_eq_iff (f f' : Fed) :
    f.bytes = f'.bytes ↔
      f.contents = f'.contents ∧
      f.options.encoding = f'.options.encoding ∧
      f.options.edgeImpliesNodes = f'.options.edgeImpliesNodes ∧
      f.options.noSummaries = f'.options.noSummaries ∧
      f.options.recursiveCuts = f'.options.recursiveCuts ∧
      f.options.timeout = f'.options.timeout ∧
      f.options.produceModels = f'.options.produceModels ∧
      f.matching = f'.matching ∧ f.cuts = f'.cuts := by
  constructor
  · intro h
    obtain ⟨hcontents, hfingerprint, hmatching, hcuts⟩ := eq_of_bytes h
    obtain ⟨hencoding, hedges, hsummaries, hrecursive, htimeout, hmodels⟩ :=
      fingerprint_inj hfingerprint
    exact ⟨hcontents, hencoding, hedges, hsummaries, hrecursive, htimeout, hmodels, hmatching,
      hcuts⟩
  · rintro ⟨hcontents, hencoding, hedges, hsummaries, hrecursive, htimeout, hmodels, hmatching,
      hcuts⟩
    have hfingerprint : fingerprint f.options = fingerprint f'.options := by
      unfold fingerprint
      rw [hencoding, hedges, hsummaries, hrecursive, htimeout, hmodels]
    rw [bytes, bytes, salts, salts, hcontents, hfingerprint, hmatching, hcuts]

/-- An input without companions. -/
def lone : Fed where
  contents := ⟨#[0x41, 0x0A]⟩
  options := {}
  matching := none
  cuts := none

/-- An input whose contents end like salts: they are all that is hashed for `lone`. -/
def saltLike : Fed :=
  { lone with contents := lone.bytes }

theorem bytes_eq_iff_saltLike : saltLike.bytes ≠ lone.bytes := by
  intro h
  have hcontents : lone.bytes = lone.contents := ((bytes_eq_iff saltLike lone).mp h).1
  exact absurd (congrArg ByteArray.size hcontents) (by decide +kernel)

end Fed

namespace Material

/-- **What is generated** depends on the material of an input and the options. -/
theorem Of.generatedFrom_eq_ok_iff {m : Material} (h : Of files f m) (h' : Of files' f' m)
    (ho : Pipeline.SameOptions o o') (canceled : Bool) (g : Generated) :
    Pipeline.generatedFrom files (jobOptions o f) canceled f.full = .ok g ↔
      Pipeline.generatedFrom files' (jobOptions o' f') canceled f'.full = .ok g := by
  have hoptions : Pipeline.SameOptions (jobOptions o f) (jobOptions o' f') :=
    ⟨ho.encoding, ho.edgeImpliesNodes, ho.noSummaries, ho.recursiveCuts, ho.timeout,
      ho.produceModels⟩
  have heq := Pipeline.generatedFrom_congr hoptions h.contents h'.contents
    (sameFile_of_accompanies h.matching h'.matching) (sameFile_of_accompanies h.cuts h'.cuts) canceled
  refine ⟨fun hg => ok_of_toOption_eq_some ?_, fun hg => ok_of_toOption_eq_some ?_⟩
  · rw [← heq, hg]
    rfl
  · rw [heq, hg]
    rfl

/-- **The digest tells the material and the options**, unless two texts have the same hash. -/
theorem digest_inj {H : Set ByteArray} (hH : Set.InjOn Blake3.hash H) {m m' : Material}
    (hm : m.hashed o ⊆ H) (hm' : m'.hashed o' ⊆ H) (h : m.digest o = m'.digest o') :
    m = m' ∧ Pipeline.SameOptions o o' := by
  have hcompanion : ∀ {c c' : Option ByteArray}, (∀ b ∈ c, b ∈ H) → (∀ b ∈ c', b ∈ H) →
      c.map Digest.ofContents = c'.map Digest.ofContents → c = c' := by
    intro c c' hc hc' heq
    cases c with
    | none => exact (Option.map_eq_none_iff.mp heq.symm).symm
    | some b =>
      obtain ⟨b', rfl, htext⟩ := Option.map_eq_some_iff.mp heq.symm
      have htext := Digest.hex_injective (congrArg Digest.Hex.text htext)
      exact congrArg some (hH (hc b rfl) (hc' b' rfl) htext.symm)
  obtain ⟨hcontents, hfingerprint, hmatching, hcuts⟩ :=
    Fed.eq_of_bytes (hH (hm (.inl rfl)) (hm' (.inl rfl)) (Digest.hex_injective h))
  have hmatching := hcompanion (fun b hb => hm (.inr (.inl hb)))
    (fun b hb => hm' (.inr (.inl hb))) hmatching
  have hcuts := hcompanion (fun b hb => hm (.inr (.inr hb)))
    (fun b hb => hm' (.inr (.inr hb))) hcuts
  obtain ⟨hencoding, hedges, hsummaries, hrecursive, htimeout, hmodels⟩ :=
    fingerprint_inj hfingerprint
  refine ⟨?_, hencoding, hedges, hsummaries, hrecursive, htimeout, hmodels⟩
  obtain ⟨contents, matching, cuts⟩ := m
  obtain rfl : contents = m'.contents := hcontents
  obtain rfl : matching = m'.matching := hmatching
  obtain rfl : cuts = m'.cuts := hcuts
  rfl

end Material

end Batch

end WorstCase
