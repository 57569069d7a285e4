import WorstCase.Data.Tree
import WorstCase.Text.Octets

/-!
# MessagePack

The binary format MessagePack: its values, their bytes, and a reader. Integers have several
forms; `Msg.int` is written in the shortest one and `Msg.int64` always with eight bytes. The
reader accepts every form of every value.
-/

namespace WorstCase

/-- A MessagePack value. Texts are kept as bytes. -/
inductive Msg where
  | nil
  | bool (value : Bool)
  /-- An integer in its shortest form. -/
  | int (value : Int)
  /-- An integer in eight bytes. -/
  | int64 (value : Int64)
  /-- A float by its bytes. -/
  | float (bytes : List UInt8)
  | text (bytes : List UInt8)
  | binary (bytes : List UInt8)
  | extension (bytes : List UInt8)
  | array (items : List Msg)
  | map (entries : List (Msg × Msg))
deriving Repr, Inhabited

namespace Msg

/-! ### Writing -/

/-- The last `width` bytes of a number, highest first. -/
def bigEndian (width n : Nat) : List UInt8 :=
  (List.range width).map fun i => UInt8.ofNat (n / Nat.pow 256 (width - 1 - i))

/-- A code followed by a number of the given width. -/
def coded (code : UInt8) (width n : Nat) : List UInt8 :=
  code :: bigEndian width n

/-- The bits of an integer in two's complement. -/
def bits (width : Nat) (n : Int) : Nat :=
  (n % (Nat.pow 256 width : Nat)).toNat

/-- The shortest form of an integer. -/
def intBytes (n : Int) : List UInt8 :=
  if 0 ≤ n then
    if n < 128 then [UInt8.ofNat n.toNat]
    else if n < 256 then coded 0xCC 1 n.toNat
    else if n < 65536 then coded 0xCD 2 n.toNat
    else if n < 4294967296 then coded 0xCE 4 n.toNat
    else coded 0xCF 8 n.toNat
  else if -32 ≤ n then [UInt8.ofNat (bits 1 n)]
  else if -128 ≤ n then coded 0xD0 1 (bits 1 n)
  else if -32768 ≤ n then coded 0xD1 2 (bits 2 n)
  else if -2147483648 ≤ n then coded 0xD2 4 (bits 4 n)
  else coded 0xD3 8 (bits 8 n)

/-- What stands before the bytes of a text of length `n`. -/
def textHead (n : Nat) : List UInt8 :=
  if n < 32 then [UInt8.ofNat (0xA0 + n)]
  else if n < 256 then coded 0xD9 1 n
  else if n < 65536 then coded 0xDA 2 n
  else coded 0xDB 4 n

/-- What stands before the bytes of a binary of length `n`. -/
def binaryHead (n : Nat) : List UInt8 :=
  if n < 256 then coded 0xC4 1 n
  else if n < 65536 then coded 0xC5 2 n
  else coded 0xC6 4 n

/-- What stands before the items of an array of length `n`. -/
def arrayHead (n : Nat) : List UInt8 :=
  if n < 16 then [UInt8.ofNat (0x90 + n)]
  else if n < 65536 then coded 0xDC 2 n
  else coded 0xDD 4 n

/-- What stands before the entries of a map of length `n`. -/
def mapHead (n : Nat) : List UInt8 :=
  if n < 16 then [UInt8.ofNat (0x80 + n)]
  else if n < 65536 then coded 0xDE 2 n
  else coded 0xDF 4 n

/-- The bytes of a float, by their number. -/
def floatBytes (bytes : List UInt8) : List UInt8 :=
  if bytes.length = 4 then 0xCA :: bytes else 0xCB :: bytes

/-- The bytes of an extension, whose first byte is its type. -/
def extensionBytes (bytes : List UInt8) : List UInt8 :=
  coded 0xC9 4 (bytes.length - 1) ++ bytes

mutual

/-- The bytes of a value. -/
def encode : Msg → List UInt8
  | .nil => [0xC0]
  | .bool b => if b then [0xC3] else [0xC2]
  | .int n => intBytes n
  | .int64 n => coded 0xD3 8 (bits 8 n.toInt)
  | .float bytes => floatBytes bytes
  | .text bytes => textHead bytes.length ++ bytes
  | .binary bytes => binaryHead bytes.length ++ bytes
  | .extension bytes => extensionBytes bytes
  | .array items => arrayHead items.length ++ encodeItems items
  | .map entries => mapHead entries.length ++ encodeEntries entries

/-- The bytes of items in a row. -/
def encodeItems : List Msg → List UInt8
  | [] => []
  | x :: xs => encode x ++ encodeItems xs

/-- The bytes of entries in a row. -/
def encodeEntries : List (Msg × Msg) → List UInt8
  | [] => []
  | (k, x) :: xs => encode k ++ encode x ++ encodeEntries xs

end

/-! ### Reading -/

/-- A number of the given bytes, highest first. -/
def natOf (bytes : List UInt8) : Nat :=
  bytes.foldl (fun n b => 256 * n + b.toNat) 0

/-- A number of the given bytes in two's complement. -/
def intOf (bytes : List UInt8) : Int :=
  let n := natOf bytes
  let size := Nat.pow 256 bytes.length
  if 2 * n < size then n else (n : Int) - size

/-- The first `n` bytes and the rest, if there are as many. -/
def takeBytes (n : Nat) (bytes : List UInt8) : Option (List UInt8 × List UInt8) :=
  let (front, rest) := bytes.splitAt n
  if front.length = n then some (front, rest) else none

/-- A length of `width` bytes and the rest. -/
def readLength (width : Nat) (bytes : List UInt8) : Option (Nat × List UInt8) :=
  (takeBytes width bytes).map fun (front, rest) => (natOf front, rest)

/-- What the first byte of a value says is to come. -/
inductive Head where
  | done (value : Msg)
  /-- A number of so many bytes. -/
  | unsigned (width : Nat)
  | signed (width : Nat)
  | float (width : Nat)
  /-- So many bytes, or a length of so many bytes and then the bytes. -/
  | text (length : Nat)
  | longText (width : Nat)
  | longBinary (width : Nat)
  | extension (length : Nat)
  | longExtension (width : Nat)
  | array (length : Nat)
  | longArray (width : Nat)
  | map (length : Nat)
  | longMap (width : Nat)

/-- The meaning of a first byte. -/
def head? (code : UInt8) : Option Head :=
  let n := code.toNat
  if n < 0x80 then some (.done (.int n))
  else if n < 0x90 then some (.map (n - 0x80))
  else if n < 0xA0 then some (.array (n - 0x90))
  else if n < 0xC0 then some (.text (n - 0xA0))
  else if 0xE0 ≤ n then some (.done (.int ((n : Int) - 256)))
  else
    match n with
    | 0xC0 => some (.done .nil)
    | 0xC2 => some (.done (.bool false))
    | 0xC3 => some (.done (.bool true))
    | 0xC4 => some (.longBinary 1)
    | 0xC5 => some (.longBinary 2)
    | 0xC6 => some (.longBinary 4)
    | 0xC7 => some (.longExtension 1)
    | 0xC8 => some (.longExtension 2)
    | 0xC9 => some (.longExtension 4)
    | 0xCA => some (.float 4)
    | 0xCB => some (.float 8)
    | 0xCC => some (.unsigned 1)
    | 0xCD => some (.unsigned 2)
    | 0xCE => some (.unsigned 4)
    | 0xCF => some (.unsigned 8)
    | 0xD0 => some (.signed 1)
    | 0xD1 => some (.signed 2)
    | 0xD2 => some (.signed 4)
    | 0xD3 => some (.signed 8)
    | 0xD4 => some (.extension 1)
    | 0xD5 => some (.extension 2)
    | 0xD6 => some (.extension 4)
    | 0xD7 => some (.extension 8)
    | 0xD8 => some (.extension 16)
    | 0xD9 => some (.longText 1)
    | 0xDA => some (.longText 2)
    | 0xDB => some (.longText 4)
    | 0xDC => some (.longArray 2)
    | 0xDD => some (.longArray 4)
    | 0xDE => some (.longMap 2)
    | 0xDF => some (.longMap 4)
    | _ => none

/-- Items in a row as the entries of a map. -/
def pairUp : List Msg → List (Msg × Msg)
  | k :: x :: rest => (k, x) :: pairUp rest
  | _ => []

mutual

/-- Reads a value. `fuel` bounds the steps; twice the number of bytes is enough. -/
def decodeFrom : (fuel : Nat) → List UInt8 → Option (Msg × List UInt8)
  | 0, _ => none
  | _ + 1, [] => none
  | fuel + 1, code :: rest => do
    match ← head? code with
    | .done value => return (value, rest)
    | .unsigned width =>
      let (bytes, rest) ← takeBytes width rest
      return (.int (natOf bytes), rest)
    | .signed width =>
      let (bytes, rest) ← takeBytes width rest
      if width = 8 then return (.int64 (Int64.ofInt (intOf bytes)), rest)
      else return (.int (intOf bytes), rest)
    | .float width =>
      let (bytes, rest) ← takeBytes width rest
      return (.float bytes, rest)
    | .text length =>
      let (bytes, rest) ← takeBytes length rest
      return (.text bytes, rest)
    | .longText width =>
      let (length, rest) ← readLength width rest
      let (bytes, rest) ← takeBytes length rest
      return (.text bytes, rest)
    | .longBinary width =>
      let (length, rest) ← readLength width rest
      let (bytes, rest) ← takeBytes length rest
      return (.binary bytes, rest)
    | .extension length =>
      let (bytes, rest) ← takeBytes (length + 1) rest
      return (.extension bytes, rest)
    | .longExtension width =>
      let (length, rest) ← readLength width rest
      let (bytes, rest) ← takeBytes (length + 1) rest
      return (.extension bytes, rest)
    | .array length =>
      let (items, rest) ← decodeMany fuel length rest
      return (.array items, rest)
    | .longArray width =>
      let (length, rest) ← readLength width rest
      let (items, rest) ← decodeMany fuel length rest
      return (.array items, rest)
    | .map length =>
      let (items, rest) ← decodeMany fuel (2 * length) rest
      return (.map (pairUp items), rest)
    | .longMap width =>
      let (length, rest) ← readLength width rest
      let (items, rest) ← decodeMany fuel (2 * length) rest
      return (.map (pairUp items), rest)

/-- Reads so many values in a row. -/
def decodeMany : (fuel count : Nat) → List UInt8 → Option (List Msg × List UInt8)
  | _, 0, bytes => some ([], bytes)
  | 0, _ + 1, _ => none
  | fuel + 1, count + 1, bytes => do
    let (x, rest) ← decodeFrom fuel bytes
    let (xs, rest) ← decodeMany fuel count rest
    return (x :: xs, rest)

end

/-- Reads the value that the bytes begin with. -/
def decode? (bytes : List UInt8) : Option Msg :=
  (decodeFrom (2 * bytes.length + 2) bytes).map (·.1)

/-! ### Values as data -/

/-- The value of a text. -/
def ofText (s : String) : Msg := .text (Text.toBytes s).toList

/-- A value as a text; nothing is the empty text. -/
def asText? : Msg → Option String
  | .nil => some ""
  | .text bytes | .binary bytes => some (Text.ofBytes ⟨bytes.toArray⟩)
  | _ => none

/-- A value as an integer; nothing is zero. -/
def asInt? : Msg → Option Int64
  | .nil => some 0
  | .int n => some (Int64.ofInt n)
  | .int64 n => some n
  | _ => none

/-- A value as a list of texts that replaces another one; nothing leaves that. -/
def overTexts (old : Option (List String)) : Msg → Option (Option (List String))
  | .nil => some old
  | .array items => (items.mapM asText?).map some
  | _ => none

/-- A value as a list whose items are read into those of another one; nothing removes that. -/
def overShelf {α : Type} (blank : α) (merge : α → Msg → Option α) (old : Shelf α) :
    Msg → Option (Shelf α)
  | .nil => some {}
  | .array items => old.layOver blank merge items
  | _ => none

/-- A value as a record with the given field names, read into another one: a map by names, or an
array by position. Nothing and an empty array stand for a blank record. -/
def overRecord {α : Type} (names : List String) (blank : α) (put : α → String × Msg → Option α)
    (old : α) : Msg → Option α
  | .nil | .array [] => some blank
  | .map entries => do
    let fields ← entries.mapM fun (k, x) => (asText? k).map (·, x)
    fields.foldlM put old
  | .array items =>
    if items.length = names.length then (names.zip items).foldlM put old else none
  | _ => none

end Msg

end WorstCase
