import WorstCase.Text.Octets
import WorstCase.Text.Printable

/-!
# Quoted texts

Messages show a piece of input between double quotes, or a single character between single
ones. Printable characters stand for themselves, the quotation mark and the backslash are escaped,
seven control characters have an escape letter, and every other character is written by its code
point in hexadecimal. An octet that belongs to no character is written by its number.
-/

namespace WorstCase.Text

/-- The lower-case hexadecimal digit of a number below sixteen. -/
def hexDigit (n : Nat) : Char :=
  if n < 10 then Char.ofNat ('0'.toNat + n) else Char.ofNat ('a'.toNat + (n - 10))

/-- The last `width` hexadecimal digits of a number. -/
def hexDigits (width n : Nat) : List Char :=
  (List.range width).map fun i => hexDigit (n / Nat.pow 16 (width - 1 - i) % 16)

/-- The escape letter of a control character. -/
def escapeLetter? (c : Char) : Option Char :=
  match c.toNat with
  | 0x07 => some 'a'
  | 0x08 => some 'b'
  | 0x0C => some 'f'
  | 0x0A => some 'n'
  | 0x0D => some 'r'
  | 0x09 => some 't'
  | 0x0B => some 'v'
  | _ => none

/-- A character between quotation marks. -/
def quotedChar (mark c : Char) : List Char :=
  if c = mark ∨ c = '\\' then ['\\', c]
  else if isPrintable c then utf8 c
  else
    match escapeLetter? c with
    | some letter => ['\\', letter]
    | none =>
      if c.toNat < 0x80 then '\\' :: 'x' :: hexDigits 2 c.toNat
      else if c.toNat < 0x10000 then '\\' :: 'u' :: hexDigits 4 c.toNat
      else '\\' :: 'U' :: hexDigits 8 c.toNat

/-- A symbol between quotation marks. -/
def quotedSymbol (mark : Char) : Symbol → List Char
  | .char c => quotedChar mark c
  | .stray o => '\\' :: 'x' :: hexDigits 2 o.toNat

/-- A text between double quotes. -/
def quoted (s : String) : String :=
  String.ofList ('"' :: (symbols s.toList).flatMap (quotedSymbol '"') ++ ['"'])

/-- The single quote. -/
def singleQuote : Char := Char.ofNat 0x27

/-- A character between single quotes. -/
def quotedAlone (c : Char) : String :=
  String.ofList (singleQuote :: quotedChar singleQuote c ++ [singleQuote])

end WorstCase.Text
