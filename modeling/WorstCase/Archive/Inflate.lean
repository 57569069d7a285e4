/-!
# Deflated data

Decompression of deflate streams. A stream is a sequence of blocks of bits, least significant
bit of a byte first: bytes that are stored as they are, or symbols in a fixed or in a given
prefix code. A symbol is a byte, the end of the block, or a length, which is followed by a
distance: so many bytes are repeated from so far back.

The prefix codes are canonical, so a code is given by the lengths of its words. Reading a symbol
goes through the lengths in order and needs, of the words of each length, only their number.

Bytes are taken from the data when their bits are needed. The number of bytes that were taken is
the **offset** that errors show, so what is needed when matters: a code asks for as many bits as
its shortest word has before it looks at any.
-/

namespace WorstCase.Archive

/-- Why data cannot be decompressed. -/
inductive InflateError where
  /-- The data ends too early. -/
  | truncated
  /-- The data up to a byte is no deflate stream. -/
  | corrupt (offset : Nat)
  /-- A symbol that is no length stands among the lengths of words. -/
  | lengthSymbol
deriving DecidableEq, Repr

/-! ### Bits -/

/-- A place in a stream of bits. -/
structure Bits where
  data : ByteArray
  /-- The number of bits before the place. -/
  position : Nat
  /-- The number of bytes that have been taken from the data. -/
  taken : Nat
  /-- The number of bytes that errors show. -/
  offset : Nat := 0

namespace Bits

/-- The same place, after bytes are taken until `n` bits are at hand. -/
def need (b : Bits) (n : Nat) : Except InflateError Bits :=
  let wanted := (b.position + n + 7) / 8
  if wanted ≤ b.taken then .ok b
  else if wanted ≤ b.data.size then
    .ok { b with taken := wanted, offset := b.offset + (wanted - b.taken) }
  else .error .truncated

/-- The bit at a position. -/
def bitAt (b : Bits) (position : Nat) : Nat :=
  match b.data[position / 8]? with
  | some byte => byte.toNat / Nat.pow 2 (position % 8) % 2
  | none => 0

/-- The next bit. -/
def bit (b : Bits) : Except InflateError (Nat × Bits) := do
  let b ← b.need 1
  return (b.bitAt b.position, { b with position := b.position + 1 })

/-- The next `n` bits as a number, the least significant one first. -/
def number (b : Bits) (n : Nat) : Except InflateError (Nat × Bits) := do
  let b ← b.need n
  return ((List.range n).foldr (fun i high => b.bitAt (b.position + i) + 2 * high) 0,
    { b with position := b.position + n })

/-- An error at this place. -/
def corrupt {α : Type} (b : Bits) : Except InflateError α :=
  .error (.corrupt b.offset)

end Bits

/-! ### Prefix codes -/

/-- A canonical prefix code. -/
structure PrefixCode where
  /-- The number of words of each length, from one bit on to the longest word. -/
  counts : List Nat
  /-- The symbols in the order of their words. -/
  symbols : Array Nat
  /-- The number of bits that must be at hand before a word is read. -/
  ahead : Nat

namespace PrefixCode

/-- The code without words. -/
def empty : PrefixCode := ⟨[], #[], 0⟩

/-- Whether a code has no words. -/
def isEmpty (c : PrefixCode) : Bool := c.symbols.size = 0

/-- The code in which the symbols `0`, `1`, … have words of these lengths; a symbol of length
zero has no word. -/
def ofLengths (lengths : List Nat) : PrefixCode :=
  let sizes := (List.range (lengths.foldl max 0)).map (· + 1)
  let indexed := lengths.zipIdx
  { counts := sizes.map fun n => lengths.count n
    symbols := (sizes.flatMap fun n => (indexed.filter (·.1 = n)).map (·.2)).toArray
    ahead := (sizes.find? lengths.contains).getD 0 }

/-- Whether the words of a code fill the space of words. A code with one word of one bit, or
without any word, counts too. -/
def isComplete (c : PrefixCode) : Bool :=
  let filled := c.counts.zipIdx.foldl
    (fun sum (n, i) => sum + n * Nat.pow 2 (c.counts.length - 1 - i)) 0
  filled = Nat.pow 2 c.counts.length || c.isEmpty || c.counts == [1]

/-- The code that is in force after a new one is given. A code without words leaves the one before
in force. -/
def after (old new : PrefixCode) : PrefixCode :=
  if new.isEmpty then { old with ahead := 0 } else new

/-- Reads a symbol by going through the lengths of words. `word` holds the bits so far, `first`
is the first word of this length, and `index` is its place in the order of words. -/
def readFrom (c : PrefixCode) (word first index : Nat) :
    List Nat → Bits → Except InflateError (Nat × Bits)
  | [], b => b.corrupt
  | count :: counts, b => do
    let (bit, b) ← b.bit
    let word := 2 * word + bit
    if word < first + count then
      match c.symbols[index + (word - first)]? with
      | some s => return (s, b)
      | none => b.corrupt
    else readFrom c word (2 * (first + count)) (index + count) counts b

/-- Reads a symbol. -/
def read (c : PrefixCode) (b : Bits) : Except InflateError (Nat × Bits) := do
  c.readFrom 0 0 0 c.counts (← b.need c.ahead)

end PrefixCode

/-! ### Symbols -/

/-- The least length for each length symbol, and the number of bits that are added to it. -/
def lengthSymbols : Array (Nat × Nat) := #[
  (3, 0), (4, 0), (5, 0), (6, 0), (7, 0), (8, 0), (9, 0), (10, 0), (11, 1), (13, 1), (15, 1),
  (17, 1), (19, 2), (23, 2), (27, 2), (31, 2), (35, 3), (43, 3), (51, 3), (59, 3), (67, 4),
  (83, 4), (99, 4), (115, 4), (131, 5), (163, 5), (195, 5), (227, 5), (258, 0)]

/-- The least distance for each distance symbol, and the number of bits that are added to it. -/
def distanceSymbols : Array (Nat × Nat) := #[
  (1, 0), (2, 0), (3, 0), (4, 0), (5, 1), (7, 1), (9, 2), (13, 2), (17, 3), (25, 3), (33, 4),
  (49, 4), (65, 5), (97, 5), (129, 6), (193, 6), (257, 7), (385, 7), (513, 8), (769, 8),
  (1025, 9), (1537, 9), (2049, 10), (3073, 10), (4097, 11), (6145, 11), (8193, 12), (12289, 12),
  (16385, 13), (24577, 13)]

/-- A number that is given by a symbol and the bits after it. -/
def extended (table : Array (Nat × Nat)) (symbol : Nat) (b : Bits) :
    Except InflateError (Nat × Bits) :=
  match table[symbol]? with
  | none => b.corrupt
  | some (least, more) => do
    let (n, b) ← b.number more
    return (least + n, b)

/-- Bytes with `n` more, each a copy of the one `distance` before it. -/
def repeated (distance : Nat) : Nat → ByteArray → ByteArray
  | 0, out => out
  | n + 1, out =>
    repeated distance n (match out[out.size - distance]? with
      | some x => out.push x
      | none => out)

/-! ### Blocks -/

/-- Reads the symbols of a block. -/
def symbolsFrom (lengths distances : PrefixCode) :
    (fuel : Nat) → ByteArray → Bits → Except InflateError (ByteArray × Bits)
  | 0, _, _ => .error .truncated
  | fuel + 1, out, b => do
    let (s, b) ← lengths.read b
    if s < 256 then symbolsFrom lengths distances fuel (out.push (UInt8.ofNat s)) b
    else if s = 256 then return (out, b)
    else
      let (length, b) ← extended lengthSymbols (s - 257) b
      let (d, b) ← distances.read b
      let (distance, b) ← extended distanceSymbols d b
      if out.size < distance then b.corrupt
      else symbolsFrom lengths distances fuel (repeated distance length out) b

/-- The code of bytes and lengths that is fixed. -/
def fixedLengths : PrefixCode :=
  .ofLengths (List.replicate 144 8 ++ List.replicate 112 9 ++ List.replicate 24 7 ++
    List.replicate 8 8)

/-- The code of distances that is fixed. -/
def fixedDistances : PrefixCode :=
  .ofLengths (List.replicate 32 5)

/-- Reads `n` numbers of three bits. -/
def smallNumbers : Nat → Bits → Except InflateError (List Nat × Bits)
  | 0, b => .ok ([], b)
  | n + 1, b => do
    let (x, b) ← b.number 3
    let (xs, b) ← smallNumbers n b
    return (x :: xs, b)

/-- The order in which the lengths of the code for lengths are given. -/
def lengthOrder : List Nat :=
  [16, 17, 18, 0, 8, 7, 9, 6, 10, 5, 11, 4, 12, 3, 13, 2, 14, 1, 15]

/-- What a symbol that repeats a length stands for: the length, and the least number of times with
the number of bits that are added to it. `last` is the length before. -/
def repetition (last : Option Nat) : Nat → Option (Option Nat × Nat × Nat)
  | 16 => some (last, 3, 2)
  | 17 => some (some 0, 3, 3)
  | 18 => some (some 0, 11, 7)
  | _ => none

/-- Reads lengths of words until there are `total`; `lengths` holds those before, last first. -/
def wordLengths (code : PrefixCode) (total : Nat) :
    (fuel : Nat) → (lengths : List Nat) → Bits → Except InflateError (List Nat × Bits)
  | 0, _, _ => .error .truncated
  | fuel + 1, lengths, b =>
    if total ≤ lengths.length then .ok (lengths.reverse, b)
    else do
      let (s, b) ← code.read b
      if s < 16 then wordLengths code total fuel (s :: lengths) b
      else
        match repetition lengths.head? s with
        | none => .error .lengthSymbol
        | some (none, _) => b.corrupt
        | some (some x, least, bits) =>
          let (more, b) ← b.number bits
          if total < lengths.length + least + more then b.corrupt
          else wordLengths code total fuel (List.replicate (least + more) x ++ lengths) b

/-- The two codes in force. The first one is that of bytes and lengths, and before it is known, that
of the lengths of words. -/
structure Codes where
  lengths : PrefixCode := .empty
  distances : PrefixCode := .empty

/-- Reads the two codes of a block that gives its own. Every block ends with a symbol, and another
block has ten bits at least, so that many bits must be at hand. -/
def Codes.read (codes : Codes) (last : Bool) (b : Bits) : Except InflateError (Codes × Bits) := do
  let (n, b) ← b.number 14
  let lits := n % 32 + 257
  let dists := n / 32 % 32 + 1
  if 286 < lits || 30 < dists then b.corrupt
  else
    let (sizes, b) ← smallNumbers (n / 1024 + 4) b
    let pairs := lengthOrder.zip sizes
    let code := PrefixCode.ofLengths ((List.range 19).map fun i => (pairs.lookup i).getD 0)
    if !code.isComplete then b.corrupt
    else
      let code := codes.lengths.after code
      let (sizes, b) ← wordLengths code (lits + dists) (lits + dists + 1) [] b
      let lengths := PrefixCode.ofLengths (sizes.take lits)
      let distances := PrefixCode.ofLengths (sizes.drop lits)
      if lengths.isComplete && distances.isComplete then
        let lengths := code.after lengths
        let ahead := max lengths.ahead (sizes[256]?.getD 0) + if last then 0 else 10
        return (⟨{ lengths with ahead }, codes.distances.after distances⟩, b)
      else b.corrupt

/-- Reads a block of bytes that are stored as they are. Bytes of which bits are at hand already
count twice in the offset. -/
def storedBlock (out : ByteArray) (b : Bits) : Except InflateError (ByteArray × Bits) := do
  let start := (b.position + 7) / 8
  let b := { b with position := 8 * start, offset := b.offset + (b.taken - start) }
  let (sizes, b) ← b.number 32
  let n := sizes % 0x10000
  if n + sizes / 0x10000 ≠ 0xFFFF then b.corrupt
  else
    let start := start + 4
    let stop := start + n
    if b.data.size < stop then .error .truncated
    else
      return (out ++ b.data.extract start stop,
        { b with position := 8 * stop, taken := stop, offset := b.offset + n })

/-- What is known between two blocks. -/
structure Inflation where
  out : ByteArray := ByteArray.empty
  codes : Codes := {}
  bits : Bits

/-- Reads one block: whether it is the last one, and what is known after it. -/
def Inflation.block (i : Inflation) : Except InflateError (Bool × Inflation) := do
  let (n, b) ← i.bits.number 3
  let last := n % 2 == 1
  let fuel := 8 * b.data.size + 1
  match n / 2 with
  | 0 =>
    let (out, bits) ← storedBlock i.out b
    return (last, { i with out, bits })
  | 1 =>
    let (out, bits) ← symbolsFrom fixedLengths fixedDistances fuel i.out b
    return (last, { i with out, bits })
  | 2 =>
    let (codes, b) ← i.codes.read last b
    let (out, bits) ← symbolsFrom codes.lengths codes.distances fuel i.out b
    return (last, { out, codes, bits })
  | _ => b.corrupt

/-- Reads blocks to the last one. -/
def Inflation.blocks : (fuel : Nat) → Inflation → Except InflateError Inflation
  | 0, _ => .error .truncated
  | fuel + 1, i => do
    let (last, i) ← i.block
    if last then return i else Inflation.blocks fuel i

/-- The contents of the deflate stream that starts at a byte, the byte after the stream, and the
codes that are in force, given those that are at the start. -/
def inflate (data : ByteArray) (start : Nat) (codes : Codes) :
    Except InflateError (ByteArray × Nat × Codes) := do
  let bits : Bits := { data, position := 8 * start, taken := start }
  let i ← Inflation.blocks (8 * data.size + 1) { codes, bits }
  return (i.out, i.bits.taken, i.codes)

end WorstCase.Archive
