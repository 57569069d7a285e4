import WorstCase.Archive.Gzip

/-!
# Zstandard files

A Zstandard file is a sequence of frames. A frame holds blocks of bytes that are stored as they
are or that repeat a single byte; blocks in which bytes are coded otherwise are not supported.
Frames of another kind carry something else and are skipped.

A frame may say how many bytes it holds, and it has a **window**: how far back its blocks may
look. No block is larger than the window or than `maxBlock`, and after each block the frame holds
no more than it says.
-/

namespace WorstCase.Archive

/-- Why a Zstandard file cannot be read. -/
inductive ZstdError where
  /-- The file ends too early. -/
  | truncated
  /-- What follows is no frame. -/
  | magic
  /-- The header of a frame has a flag that has no meaning. -/
  | reservedFlag
  /-- A frame builds on a dictionary, which is not at hand. -/
  | dictionary
  /-- The window of a frame or a block of it is too large. -/
  | window
  /-- A frame that is a window of its own is too large. -/
  | tooLarge
  /-- A block is of a kind that has no meaning. -/
  | reservedBlock
  /-- A coded block is too large. -/
  | blockTooLarge
  /-- A coded block is too small to hold its parts. -/
  | blockTooSmall
  /-- A block is coded in a way that is not supported. -/
  | unsupported
  /-- A frame holds more than it says. -/
  | tooLong
  /-- A frame holds less than it says. -/
  | tooShort
deriving DecidableEq, Repr

/-- The wording of an error. -/
def ZstdError.message : ZstdError → String
  | .truncated => "unexpected EOF"
  | .magic => "invalid input: magic number mismatch"
  | .reservedFlag => "reserved bit set on frame header"
  | .dictionary => "unknown dictionary"
  | .window => "window size exceeded"
  | .tooLarge => "decompressed size exceeds configured limit"
  | .reservedBlock => "invalid input: reserved block type encountered"
  | .blockTooLarge => "invalid input: compressed size too big"
  | .blockTooSmall => "block too small"
  | .unsupported => "invalid input: unsupported block"
  | .tooLong => "frame size exceeded"
  | .tooShort => "frame size does not match size on stream"

/-- The number made of the `n` bytes from a place on. -/
def numberAt (data : ByteArray) (start n : Nat) : Except ZstdError Nat :=
  if data.size < start + n then .error .truncated
  else .ok (littleEndian (data.extract start (start + n)))

/-- The largest block. -/
def maxBlock : Nat := 0x20000

/-- The smallest window. -/
def minWindow : Nat := 0x400

/-- The largest window. -/
def maxWindow : Nat := 0x20000000

/-- What the header of a frame says: the size of the contents, if it is given, the window, whether
a checksum follows the blocks, and the place after the header. -/
structure FrameHead where
  size : Option Nat
  window : Nat
  checksum : Bool
  place : Nat

/-- The window that a byte describes: a power of two in its upper five bits, and eighths of it in
the lower three. -/
def describedWindow (b : Nat) : Nat :=
  let base := minWindow <<< (b / 8)
  base + base / 8 * (b % 8)

/-- Reads the header of a frame, after its magic number. A frame without a window of its own is the
window itself. -/
def frameHead (data : ByteArray) (start : Nat) : Except ZstdError FrameHead := do
  let flags ← numberAt data start 1
  let single := flags.testBit 5
  if flags.testBit 3 then throw .reservedFlag
  let place := start + 1
  let described ← numberAt data place (if single then 0 else 1)
  let place := place + if single then 0 else 1
  let width := #[0, 1, 2, 4].getD (flags % 4) 0
  let dictionary ← numberAt data place width
  let place := place + width
  let width := match flags / 64 with
    | 0 => if single then 1 else 0
    | 1 => 2
    | 2 => 4
    | _ => 8
  let n ← numberAt data place width
  let n := if width = 2 then n + 256 else n
  let window := if single then max n minWindow else describedWindow described
  if !single && maxWindow < window then throw .window
  if dictionary ≠ 0 then throw .dictionary
  if maxWindow < window then throw .tooLarge
  return {
    size := if width = 0 then none else some n
    window
    checksum := flags.testBit 2
    place := place + width }

/-- Reads the blocks of a frame; `out` holds the contents of those before. -/
def frameBlocks (data : ByteArray) (frame : FrameHead) :
    (fuel : Nat) → (out : ByteArray) → (start : Nat) → Except ZstdError (ByteArray × Nat)
  | 0, _, _ => .error .truncated
  | fuel + 1, out, start => do
    let head ← numberAt data start 3
    let size := head / 8
    let fits := decide (size ≤ maxBlock ∧ size ≤ frame.window)
    let place := start + 3
    let (out, place) ← (match head / 2 % 4 with
      | 0 =>
        if !fits then .error .window
        else if data.size < place + size then .error .truncated
        else .ok (out ++ data.extract place (place + size), place + size)
      | 1 => do
        if !fits then throw .window
        let b ← numberAt data place 1
        return (out ++ ⟨Array.replicate size (UInt8.ofNat b)⟩, place + 1)
      | 2 =>
        if !fits then .error .blockTooLarge
        else if size < 2 then .error .blockTooSmall
        else .error .unsupported
      | _ => .error .reservedBlock)
    if frame.size.any (· < out.size) then throw .tooLong
    if head % 2 = 0 then frameBlocks data frame fuel out place
    else if frame.size.any (out.size < ·) then .error .tooShort
    else return (out, place)

/-- Reads the frames from a place on; `out` holds the contents of those before. -/
def frames (data : ByteArray) :
    (fuel : Nat) → (out : ByteArray) → (start : Nat) → Except ZstdError ByteArray
  | 0, _, _ => .error .truncated
  | fuel + 1, out, start =>
    if start = data.size then .ok out
    else do
      let magic ← numberAt data start 4
      if magic / 16 = 0x184D2A5 then
        let size ← numberAt data (start + 4) 4
        if data.size < start + 8 + size then .error .truncated
        else frames data fuel out (start + 8 + size)
      else if magic = 0xFD2FB528 then
        let head ← frameHead data (start + 4)
        let (contents, place) ← frameBlocks data head (data.size + 1) ByteArray.empty head.place
        let place := place + if head.checksum then 4 else 0
        if data.size < place then .error .truncated
        else frames data fuel (out ++ contents) place
      else .error .magic

/-- The contents of a Zstandard file. -/
def unzstd (data : ByteArray) : Except ZstdError ByteArray :=
  frames data (data.size + 1) ByteArray.empty 0

end WorstCase.Archive
