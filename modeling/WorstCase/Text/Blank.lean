import WorstCase.Text.Octets

/-!
# White space

This module fixes which characters are **blank** (the Unicode property `White_Space`) and the
three operations on texts that depend on it: trimming both ends of a text, asking whether a text
is blank throughout, and splitting a text into its words. A text is looked at symbol by symbol, so
that no octet of another character is taken for a blank.
-/

namespace WorstCase.Text

/-- The characters with the Unicode property `White_Space`. -/
def isBlank (c : Char) : Bool :=
  let n := c.toNat
  (9 ≤ n && n ≤ 13) || n == 0x20 || n == 0x85 || n == 0xA0 || n == 0x1680 ||
    (0x2000 ≤ n && n ≤ 0x200A) || n == 0x2028 || n == 0x2029 || n == 0x202F || n == 0x205F ||
    n == 0x3000

/-- Whether a symbol is a blank. -/
def Symbol.isBlank : Symbol → Bool :=
  Symbol.isIn Text.isBlank

/-! ### Trimming -/

/-- Symbols without leading blanks. -/
def trimStart (s : List Symbol) : List Symbol :=
  s.dropWhile Symbol.isBlank

/-- Symbols without trailing blanks. -/
def trimEnd (s : List Symbol) : List Symbol :=
  (s.reverse.dropWhile Symbol.isBlank).reverse

/-- A text without leading and trailing blanks. -/
def trim (s : List Char) : List Char :=
  ofSymbols (trimEnd (trimStart (symbols s)))

/-- A text without leading and trailing blanks. -/
def trimmed (s : String) : String :=
  String.ofList (trim s.toList)

/-- Whether nothing is left of a text once it is trimmed. -/
def isBlankText (s : List Char) : Bool :=
  (symbols s).all Symbol.isBlank

/-! ### Words -/

/-- The words among symbols, where `word` holds the symbols (last first) of the word that is
being read. -/
def wordsFrom (word : List Symbol) : List Symbol → List (List Symbol)
  | [] => if word.isEmpty then [] else [word.reverse]
  | x :: s =>
    if x.isBlank then
      if word.isEmpty then wordsFrom [] s else word.reverse :: wordsFrom [] s
    else wordsFrom (x :: word) s

/-- The maximal runs without a blank, in order. -/
def words (s : List Char) : List (List Char) :=
  (wordsFrom [] (symbols s)).map ofSymbols

@[simp] theorem words_nil : words [] = [] := rfl

end WorstCase.Text
