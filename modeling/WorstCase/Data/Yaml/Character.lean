/-!
# Characters of YAML

The classes of characters that reading and writing YAML share. Five characters end a line: line
feed, carriage return, next line, line separator and paragraph separator.
-/

namespace WorstCase.Yaml

/-- The mark that a stream may begin with. -/
def byteOrderMark : Char := Char.ofNat 0xFEFF

/-- Whether a character is written as it is. -/
def isPlainChar (c : Char) : Bool :=
  let n := c.toNat
  n == 0x0A || (0x20 ≤ n && n ≤ 0x7E) || (0xA0 ≤ n && n ≤ 0xFFFD && n != 0xFEFF)

/-- Whether a character ends a line. -/
def isBreak (c : Char) : Bool :=
  let n := c.toNat
  n == 0x0A || n == 0x0D || n == 0x85 || n == 0x2028 || n == 0x2029

/-- Whether a character is a space or a tab. -/
def isBlank (c : Char) : Bool := c == ' ' || c == '\t'

/-- Whether a character is a space or ends a line or a text. -/
def isGap (c : Char) : Bool := isBlank c || isBreak c || c.toNat == 0

/-- Whether a text is at its end or goes on with a gap. -/
def atGap : List Char → Bool
  | [] => true
  | c :: _ => isGap c

/-- Whether a text is at its end or at the end of a line. -/
def atLineEnd : List Char → Bool
  | [] => true
  | c :: _ => isBreak c

/-- The characters that mean something at the beginning of a plain scalar. -/
def isIndicator (c : Char) : Bool :=
  "#,[]\x7b\x7d&*!|>'\"%@\x60".toList.contains c

/-- Whether a character may stand in a name. -/
def isNameChar (c : Char) : Bool :=
  c.isAlphanum || c == '_' || c == '-'

/-- Whether a character may stand in a document. -/
def isAllowed (c : Char) : Bool :=
  let n := c.toNat
  n == 0x09 || n == 0x0A || n == 0x0D || n == 0x85 || (0x20 ≤ n && n ≤ 0x7E) ||
    (0xA0 ≤ n && n ≤ 0xFFFD) || 0x10000 ≤ n

/-- The value of a hexadecimal digit. -/
def hexValue? (c : Char) : Option Nat :=
  if '0' ≤ c ∧ c ≤ '9' then some (c.toNat - '0'.toNat)
  else if 'a' ≤ c ∧ c ≤ 'f' then some (c.toNat - 'a'.toNat + 10)
  else if 'A' ≤ c ∧ c ≤ 'F' then some (c.toNat - 'A'.toNat + 10)
  else none

end WorstCase.Yaml
