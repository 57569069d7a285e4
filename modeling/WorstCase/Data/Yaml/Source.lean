import WorstCase.Data.Yaml.Character
import WorstCase.Text.Octets

/-!
# The characters of a YAML stream

A stream spells its characters in UTF-8, or in UTF-16 if it begins with the mark for that. Octets
are decoded in **portions**, when the reader asks for characters that it does not have yet. A
portion with an octet or a character that may not stand in a stream is an error, but only for a
reader who gets that far: what follows the first document may be anything.
-/

namespace WorstCase.Yaml

/-! ### Spellings -/

/-- How a stream spells its characters. -/
inductive Spelling where
  | utf8
  /-- In units of two octets, of which the lower one comes first or last. -/
  | utf16 (lowFirst : Bool)
deriving DecidableEq, Repr

/-- What octets begin with. -/
inductive Piece where
  | char (c : Char) (size : Nat)
  /-- The octets end inside of a character. -/
  | cut
  | bad

/-- The number of octets that a first octet announces, or zero if it begins no character. -/
def announcedSize (o : Char) : Nat :=
  let n := o.toNat
  if n < 0x80 then 1 else if n < 0xC0 then 0 else if n < 0xE0 then 2 else if n < 0xF0 then 3
  else if n < 0xF8 then 4 else 0

/-- The first character in UTF-8. -/
def utf8Piece (s : List Char) : Piece :=
  let size := (s.head?.map announcedSize).getD 0
  if size = 0 then .bad
  else if s.length < size then .cut
  else
    match Text.leading? s with
    | some c => .char c size
    | none => .bad

/-- The unit of two octets. -/
def unitOf (lowFirst : Bool) (a b : Char) : Nat :=
  if lowFirst then a.toNat + 0x100 * b.toNat else b.toNat + 0x100 * a.toNat

/-- The first character in UTF-16. -/
def utf16Piece (lowFirst : Bool) : List Char → Piece
  | a :: b :: rest =>
    let n := unitOf lowFirst a b
    if n / 0x400 = 0x37 then .bad
    else if n / 0x400 = 0x36 then
      match rest with
      | c :: d :: _ =>
        let m := unitOf lowFirst c d
        if m / 0x400 = 0x37 then
          .char (Char.ofNat (0x10000 + n % 0x400 * 0x400 + m % 0x400)) 4
        else .bad
      | _ => .cut
    else .char (Char.ofNat n) 2
  | _ => .cut

/-- The first character in a spelling. -/
def Spelling.piece : Spelling → List Char → Piece
  | utf8 => utf8Piece
  | utf16 lowFirst => utf16Piece lowFirst

/-- The spelling of a stream, and the number of octets of the mark that tells it. -/
def Spelling.detect (s : List Char) : Spelling × Nat :=
  match s.take 3 |>.map Char.toNat with
  | 0xFF :: 0xFE :: _ => (.utf16 true, 2)
  | 0xFE :: 0xFF :: _ => (.utf16 false, 2)
  | [0xEF, 0xBB, 0xBF] => (.utf8, 3)
  | _ => (.utf8, 0)

/-! ### Portions -/

/-- The number of octets in a portion. -/
def portionSize : Nat := 512

/-- The characters that the next `room` octets spell, and the octets after them. A character that
does not fit is left for the next portion. -/
def portion (next : List Char → Piece) : (fuel room : Nat) → (chars : List Char) → List Char →
    Option (List Char × List Char)
  | 0, _, chars, s => some (chars.reverse, s)
  | fuel + 1, room, chars, s =>
    if s.isEmpty || room = 0 then some (chars.reverse, s)
    else
      match next (s.take (min 4 room)) with
      | .char c size =>
        if isAllowed c then portion next fuel (room - size) (c :: chars) (s.drop size) else none
      | .cut => some (chars.reverse, s)
      | .bad => none

/-- The portions of a stream up to the first one that is bad, and whether there is such a one. -/
def portions (next : List Char → Piece) : (fuel room : Nat) → List Char → List (List Char) × Bool
  | 0, _, _ => ([], false)
  | fuel + 1, room, s =>
    if s.isEmpty then ([], false)
    else
      match portion next room room [] s with
      | none | some ([], _) => ([], true)
      | some (chars, rest) =>
        let (more, broken) := portions next fuel portionSize rest
        (chars :: more, broken)

/-! ### Sources -/

/-- What is left of a stream. -/
structure Source where
  /-- The characters of all good portions. -/
  rest : List Char := []
  /-- How many of them have been decoded. -/
  ready : Nat := 0
  /-- The sizes of the portions to come. -/
  later : List Nat := []
  /-- Whether a bad portion follows. -/
  broken : Bool := false
  /-- Whether the characters began with a mark when they were last decoded. -/
  marked : Bool := false
  /-- The number of characters of all good portions, also of those that have been read. -/
  size : Nat := 0

namespace Source

/-- The source of a text. -/
def ofText (s : String) : Source :=
  let octets := s.toList
  let (spelling, size) := Spelling.detect octets
  let (parts, broken) :=
    portions spelling.piece (octets.length + 1) (portionSize - size) (octets.drop size)
  let chars := parts.flatten
  { rest := chars, later := parts.map List.length, broken, size := chars.length }

/-- Decodes portions until there are `n` characters or no portions. -/
def decode (n ready : Nat) : List Nat → Nat × List Nat
  | [] => (ready, [])
  | k :: later => if n ≤ ready + k then (ready + k, later) else decode n (ready + k) later

/-- A source after a reader asks for `n` characters. The end of the stream counts as one. -/
def need (s : Source) (n : Nat) : Option Source :=
  if n ≤ s.ready then some s
  else
    let (ready, later) := decode n s.ready s.later
    let s := { s with ready, later, marked := s.rest.head? == some byteOrderMark }
    if n ≤ ready then some s
    else if s.broken then none
    else some { s with ready := ready + 1 }

/-- A source after `n` characters are read. -/
def drop (s : Source) (n : Nat) : Source :=
  { s with rest := s.rest.drop n, ready := s.ready - n }

end Source

end WorstCase.Yaml
