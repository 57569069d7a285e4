/-!
# Texts as octets

Files, arguments and names hold octets, and most of them spell characters in UTF-8, but none has
to. So every text of this library is a string of **octets**: each of its characters is below
U+0100 and stands for the octet of that number. Cutting, comparing and measuring texts needs
nothing else, and no octet is ever lost.

Where characters matter, a text is taken apart into **symbols**: the characters that its octets
spell, and the octets between them that spell none.

* **`symbols`** loses nothing: the octets of the symbols are the octets of the text.
* **`readable`** puts the replacement character in the place of each stray octet.
* **`spelled`** goes the other way, from characters to octets.
-/

namespace WorstCase.Text

/-! ### Bytes -/

/-- The character that stands for an octet. -/
def octet (b : UInt8) : Char := Char.ofNat b.toNat

/-- The text with these octets. -/
def ofBytes (bytes : ByteArray) : String :=
  String.ofList (bytes.toList.map octet)

/-- The octets of a text. -/
def toBytes (s : String) : ByteArray :=
  ⟨(s.toList.map fun c => UInt8.ofNat c.toNat).toArray⟩

/-! ### Spelling -/

/-- The octets that spell a character. -/
def utf8 (c : Char) : List Char :=
  (String.utf8EncodeChar c).map octet

/-- The octets that spell characters. -/
def spell (s : List Char) : List Char :=
  s.flatMap utf8

/-- The text that spells a string of characters. -/
def spelled (s : String) : String :=
  String.ofList (spell s.toList)

/-! ### Symbols -/

/-- The character that stands for what is none. -/
def replacement : Char := Char.ofNat 0xFFFD

/-- A part of a text. -/
inductive Symbol where
  /-- A character that is spelled out. -/
  | char (c : Char)
  /-- An octet that belongs to no character. -/
  | stray (octet : Char)
deriving DecidableEq, Repr

/-- The octets of a symbol. -/
def Symbol.octets : Symbol → List Char
  | .char c => utf8 c
  | .stray o => [o]

/-- The character of a symbol, or the replacement for it. -/
def Symbol.shown : Symbol → Char
  | .char c => c
  | .stray _ => replacement

/-- The character of a symbol. -/
def Symbol.char? : Symbol → Option Char
  | .char c => some c
  | .stray _ => none

/-- Whether a symbol is a character of a class. -/
def Symbol.isIn (p : Char → Bool) : Symbol → Bool
  | .char c => p c
  | .stray _ => false

/-- The only character that octets may begin with, judging by the first of them: the bits of the
first octet that its size leaves, followed by six bits of each other one. -/
def candidate : List Char → Char
  | [] => replacement
  | o :: rest =>
    let n := o.toNat
    let (size, bits) :=
      if n < 0x80 then (0, n)
      else if n < 0xE0 then (1, n % 0x20)
      else if n < 0xF0 then (2, n % 0x10)
      else (3, n % 0x08)
    Char.ofNat ((rest.take size).foldl (fun v c => 0x40 * v + c.toNat % 0x40) bits)

/-- The character that octets begin with. -/
def leading? (s : List Char) : Option Char :=
  let c := candidate s
  if (utf8 c).isPrefixOf s then some c else none

/-- The symbols of a text, once `skip` octets of the last one are passed over. -/
def symbolsFrom (skip : Nat) : List Char → List Symbol
  | [] => []
  | o :: s =>
    match skip with
    | k + 1 => symbolsFrom k s
    | 0 =>
      match leading? (o :: s) with
      | some c => .char c :: symbolsFrom ((utf8 c).length - 1) s
      | none => .stray o :: symbolsFrom 0 s

/-- The symbols of a text. -/
def symbols (s : List Char) : List Symbol :=
  symbolsFrom 0 s

/-- A text without the characters of a class that it begins with, once `skip` octets of the last one
are passed over. -/
def dropCharsFrom (p : Char → Bool) (skip : Nat) : List Char → List Char
  | [] => []
  | o :: s =>
    match skip with
    | k + 1 => dropCharsFrom p k s
    | 0 =>
      match leading? (o :: s) with
      | some c => if p c then dropCharsFrom p ((utf8 c).length - 1) s else o :: s
      | none => o :: s

/-- A text without the characters of a class that it begins with. -/
def dropChars (p : Char → Bool) (s : List Char) : List Char :=
  dropCharsFrom p 0 s

/-- The octets of symbols. -/
def ofSymbols (symbols : List Symbol) : List Char :=
  symbols.flatMap Symbol.octets

/-- The characters of a text, with a replacement for each stray octet. -/
def readable (s : List Char) : List Char :=
  (symbols s).map Symbol.shown

/-- The characters of a text that has no stray octet. -/
def chars? (s : List Char) : Option (List Char) :=
  (symbols s).mapM Symbol.char?

end WorstCase.Text
