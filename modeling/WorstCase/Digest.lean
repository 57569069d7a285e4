import WorstCase.Files.Script
import WorstCase.Text.Decimal
import WorstCase.Text.Quoted

/-!
# Digests

A **digest** is the hash of some contents in hexadecimal. Contents may be followed by **salts**:
each salt is preceded by a zero byte, its length and a colon, so that different lists of salts
give different bytes.

The hash function is BLAKE3 in its plain mode with 256 bits of output. Input is cut into chunks of
1024 bytes, a chunk into blocks of 64 bytes, and every block is compressed into a chaining
value of eight words. The chunks are the leaves of a binary tree whose left subtrees are
complete; a parent compresses the chaining values of its children, and the root is marked.
-/

/-! ### The hash function -/

namespace WorstCase.Blake3

/-- A block of sixteen words. -/
abbrev Words := Vector UInt32 16

/-- A chaining value, as a list of eight words. -/
abbrev Chain := List UInt32

/-- The initial chaining value. -/
def initial : Chain :=
  [0x6A09E667, 0xBB67AE85, 0x3C6EF372, 0xA54FF53A, 0x510E527F, 0x9B05688C, 0x1F83D9AB, 0x5BE0CD19]

/-- Marks the first block of a chunk. -/
def chunkStart : UInt32 := 1

/-- Marks the last block of a chunk. -/
def chunkEnd : UInt32 := 2

/-- Marks a parent. -/
def parent : UInt32 := 4

/-- Marks the root. -/
def root : UInt32 := 8

/-- Sixteen words from a list, with zeros after its end. -/
def wordsOf (ws : List UInt32) : Words :=
  let padded := ws.toArray
  Vector.ofFn fun i => padded.getD i.val 0

/-- A word turned right. -/
def rotate (w : UInt32) (n : UInt32) : UInt32 :=
  (w >>> n) ||| (w <<< (32 - n))

/-- Mixes two message words into four words of the state. -/
def mix (v : Words) (a b c d : Fin 16) (x y : UInt32) : Words :=
  let v := v.set a (v[a] + v[b] + x)
  let v := v.set d (rotate (v[d] ^^^ v[a]) 16)
  let v := v.set c (v[c] + v[d])
  let v := v.set b (rotate (v[b] ^^^ v[c]) 12)
  let v := v.set a (v[a] + v[b] + y)
  let v := v.set d (rotate (v[d] ^^^ v[a]) 8)
  let v := v.set c (v[c] + v[d])
  v.set b (rotate (v[b] ^^^ v[c]) 7)

/-- One round: the columns of the state, then its diagonals. -/
def round (m v : Words) : Words :=
  let v := mix v 0 4 8 12 m[0] m[1]
  let v := mix v 1 5 9 13 m[2] m[3]
  let v := mix v 2 6 10 14 m[4] m[5]
  let v := mix v 3 7 11 15 m[6] m[7]
  let v := mix v 0 5 10 15 m[8] m[9]
  let v := mix v 1 6 11 12 m[10] m[11]
  let v := mix v 2 7 8 13 m[12] m[13]
  mix v 3 4 9 14 m[14] m[15]

/-- Where the words of a message go between two rounds. -/
def permute (m : Words) : Words :=
  #v[m[2], m[6], m[3], m[10], m[7], m[0], m[4], m[13], m[1], m[11], m[12], m[5], m[9], m[14],
    m[15], m[8]]

/-- Several rounds, with the message permuted in between. -/
def rounds : Nat → Words → Words → Words
  | 0, _, v => v
  | n + 1, m, v => rounds n (permute m) (round m v)

/-- What a compression works on. -/
structure Input where
  chain : Chain
  block : List UInt32
  counter : Nat := 0
  length : Nat := 64
  flags : UInt32

/-- Compresses a block into a chaining value. -/
def Input.compress (i : Input) : Chain :=
  let state := wordsOf (i.chain ++ initial.take 4 ++
    [UInt32.ofNat i.counter, UInt32.ofNat (i.counter / 0x100000000), UInt32.ofNat i.length,
      i.flags])
  let v := rounds 7 (wordsOf i.block) state
  (List.range 8).map fun k => v.toArray.getD k 0 ^^^ v.toArray.getD (k + 8) 0

/-- The byte at a position, or zero past the end. -/
def byteAt (data : ByteArray) (i : Nat) : UInt32 :=
  if h : i < data.size then data[i].toUInt32 else 0

/-- The little-endian word at a position. -/
def wordAt (data : ByteArray) (i : Nat) : UInt32 :=
  byteAt data i ||| (byteAt data (i + 1) <<< 8) ||| (byteAt data (i + 2) <<< 16) |||
    (byteAt data (i + 3) <<< 24)

/-- The words of the block at a position, which may end early. -/
def blockAt (data : ByteArray) (start : Nat) : List UInt32 :=
  (List.range 16).map fun k => wordAt data (start + 4 * k)

/-- Runs through the blocks of a chunk that begin at `start`, and stops before the last one. -/
def chunkFrom (data : ByteArray) (counter stop : Nat) :
    (blocks start : Nat) → (flags : UInt32) → Chain → Input
  | 0, start, flags, chain =>
    { chain, block := blockAt data start, counter, length := stop - start
      flags := flags ||| chunkEnd }
  | blocks + 1, start, flags, chain =>
    let next : Input := { chain, block := blockAt data start, counter, flags }
    chunkFrom data counter stop blocks (start + 64) 0 next.compress

/-- The last compression of chunk number `counter`. -/
def chunk (data : ByteArray) (counter : Nat) : Input :=
  let start := 1024 * counter
  let stop := min data.size (start + 1024)
  chunkFrom data counter stop ((stop - start - 1) / 64) start chunkStart initial

/-- The largest power of two below `n`, if `n` is at least two. -/
def leftSize (n : Nat) : Nat :=
  Nat.pow 2 (Nat.log2 (n - 1))

/-- The last compression of the tree over `count` chunks from chunk number `first` on. -/
def tree (data : ByteArray) : (depth first count : Nat) → Input
  | 0, first, _ => chunk data first
  | depth + 1, first, count =>
    if count ≤ 1 then chunk data first
    else
      let left := leftSize count
      { chain := initial
        block := (tree data depth first left).compress ++
          (tree data depth (first + left) (count - left)).compress
        flags := parent }

/-- The chaining value of the root. -/
def rootChain (data : ByteArray) : Chain :=
  let count := (data.size + 1023) / 1024
  let top := tree data (Nat.log2 count + 2) 0 count
  ({ top with counter := 0, flags := top.flags ||| root } : Input).compress

/-- The bytes of a word, lowest first. -/
def wordBytes (w : UInt32) : List UInt8 :=
  [w.toUInt8, (w >>> 8).toUInt8, (w >>> 16).toUInt8, (w >>> 24).toUInt8]

/-- The 32 bytes of the hash of some bytes. -/
def hash (data : ByteArray) : List UInt8 :=
  (rootChain data).flatMap wordBytes

end WorstCase.Blake3

/-! ### Contents and salts -/

namespace WorstCase.Digest

/-- The bytes of a salt with its length in front. -/
def saltBytes (salt : String) : ByteArray :=
  Text.toBytes ("\x00" ++ Decimal.text salt.length ++ ":" ++ salt)

/-- Contents followed by salts. -/
def salted (contents : ByteArray) (salts : List String) : ByteArray :=
  salts.foldl (fun bytes salt => bytes ++ saltBytes salt) contents

/-- Bytes in hexadecimal. -/
def hex (bytes : List UInt8) : String :=
  String.ofList (bytes.flatMap fun b => Text.hexDigits 2 b.toNat)

/-- The digest of contents and salts. -/
def of (contents : ByteArray) (salts : List String) : String :=
  hex (Blake3.hash (salted contents salts))

end WorstCase.Digest

/-! ### Digests of files -/

namespace WorstCase

/-- Why a file has no digest. -/
inductive DigestError where
  | openFile (path : String) (cause : FileError)
  | read (cause : FileError)
deriving DecidableEq, Repr

/-- The wording of an error. -/
def DigestError.message : DigestError → String
  | openFile path cause => "failed to open file " ++ path ++ ": " ++ cause.message
  | read cause => "hashing input: " ++ cause.message

/-- The digest of a file and salts. -/
def Digest.ofFile {σ : Type} (path : String) (salts : List String) :
    Script σ (Except DigestError String) := do
  match ← Script.readFile path with
  | .ok bytes => return .ok (Digest.of bytes salts)
  | .error e => return .error (if e.operation = .openFile then .openFile path e else .read e)

end WorstCase
