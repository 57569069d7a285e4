import WorstCase.Archive.Inflate
import WorstCase.Text.Decimal

/-!
# Gzip files

A gzip file is a sequence of members. A member has a header of ten bytes and optional fields, a
deflate stream, and a trailer with the checksum and the size of the contents. The contents of the
file are those of its members, one after the other.

The checksum is a cyclic redundancy check, as a left fold over the bytes. Its register starts and
ends complemented.
-/

namespace WorstCase.Archive

/-! ### Checksums -/

/-- The register after so many bits. -/
def crcBits : Nat → UInt32 → UInt32
  | 0, r => r
  | n + 1, r => crcBits n (if r &&& 1 = 1 then (r >>> 1) ^^^ 0xEDB88320 else r >>> 1)

/-- The register after one more byte. -/
def crcByte (r : UInt32) (b : UInt8) : UInt32 :=
  crcBits 8 (r ^^^ b.toUInt32)

/-- The checksum of bytes. -/
def crc32 (bytes : ByteArray) : UInt32 :=
  bytes.foldl crcByte 0xFFFFFFFF ^^^ 0xFFFFFFFF

/-! ### Errors -/

/-- Why a gzip file cannot be read. -/
inductive GzipError where
  /-- The file ends too early. -/
  | truncated
  /-- The file ends inside of a name or a comment. -/
  | ended
  /-- A member does not begin with a header. -/
  | header
  /-- The contents of a member do not have the checksum or the size that the trailer gives. -/
  | checksum
  /-- A deflate stream is corrupt before an offset. -/
  | corrupt (offset : Nat)
  /-- A deflate stream has a symbol where no symbol of its kind is allowed. -/
  | lengthSymbol
deriving DecidableEq, Repr

/-- The wording of an error. -/
def GzipError.message : GzipError → String
  | .truncated => "unexpected EOF"
  | .ended => "EOF"
  | .header => "gzip: invalid header"
  | .checksum => "gzip: invalid checksum"
  | .corrupt offset => "flate: corrupt input before offset " ++ Decimal.text offset
  | .lengthSymbol => "flate: internal error: unexpected length code"

/-! ### Members -/

/-- The number that bytes stand for, least significant byte first. -/
def littleEndian (bytes : ByteArray) : Nat :=
  bytes.toList.foldr (fun b n => b.toNat + 256 * n) 0

/-- The `n` bytes from a place on. -/
def bytesAt (data : ByteArray) (start n : Nat) : Except GzipError ByteArray :=
  if data.size < start + n then .error .truncated else .ok (data.extract start (start + n))

/-- The place after the text that starts here and ends with a zero byte. Longer texts than `fuel`
are not allowed. -/
def endOfText (data : ByteArray) (start : Nat) : (fuel : Nat) → Except GzipError Nat
  | 0 => .error .header
  | fuel + 1 =>
    match data[start]? with
    | none => .error .ended
    | some b => if b = 0 then .ok (start + 1) else endOfText data (start + 1) fuel

/-- The place after the header that starts here. Three of the flags are reserved. -/
def gzipHeader (data : ByteArray) (start : Nat) : Except GzipError Nat := do
  let fixed ← bytesAt data start 10
  if fixed.toList.take 3 ≠ [0x1F, 0x8B, 8] then .error .header
  else
    let flags := littleEndian (fixed.extract 3 4)
    let has (bit : Nat) : Bool := flags.testBit bit
    let place := start + 10
    let place ← (if has 2 then do
        let size ← bytesAt data place 2
        let n := littleEndian size
        let _ ← bytesAt data (place + 2) n
        return place + 2 + n
      else return place)
    let place ← if has 3 then endOfText data place 512 else .ok place
    let place ← if has 4 then endOfText data place 512 else .ok place
    let place ← (if has 1 then do
        let sum ← bytesAt data place 2
        if littleEndian sum = (crc32 (data.extract start place)).toNat % 0x10000 then
          return place + 2
        else .error .header
      else return place)
    if 32 ≤ flags then .error .header else return place

/-- The contents of the members from a place after a header on; `out` holds those before, and
`codes` are the codes that they leave. A file may end inside of the name or the comment of a later
member. -/
def gzipMembers (data : ByteArray) :
    (fuel : Nat) → (out : ByteArray) → (codes : Codes) → (start : Nat) →
    Except GzipError ByteArray
  | 0, _, _, _ => .error .truncated
  | fuel + 1, out, codes, start =>
    match inflate data start codes with
    | .error .truncated => .error .truncated
    | .error (.corrupt offset) => .error (.corrupt offset)
    | .error .lengthSymbol => .error .lengthSymbol
    | .ok (contents, place, codes) => do
      let trailer ← bytesAt data place 8
      if littleEndian (trailer.extract 0 4) ≠ (crc32 contents).toNat ||
          littleEndian (trailer.extract 4 8) ≠ contents.size % 0x100000000 then .error .checksum
      else
        let out := out ++ contents
        if place + 8 = data.size then return out
        else
          match gzipHeader data (place + 8) with
          | .error .ended => return out
          | .error e => .error e
          | .ok start => gzipMembers data fuel out codes start

end WorstCase.Archive
