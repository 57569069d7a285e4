import WorstCase.Data.Tree
import WorstCase.Text.Decimal
import WorstCase.Text.Octets

/-!
# Reading JSON

A reader for JSON values that gives back the value and the text after it. Duplicate fields of a
record are all kept, in order. An integer is read as such; any other number is kept by its text.
The reader looks at characters, so octets that belong to none are replaced, and the strings that
it finds are spelled again. Lists and records may be nested up to a fixed depth.
-/

namespace WorstCase.Json

/-- The blanks that may stand between the parts of a JSON text. -/
def isSpace (c : Char) : Bool :=
  c == ' ' || c == '\t' || c == '\r' || c == '\n'

/-- A text without leading blanks. -/
def skipSpace (s : List Char) : List Char :=
  s.dropWhile isSpace

/-! ### Strings -/

/-- The value of a hexadecimal digit. -/
def hexValue? (c : Char) : Option Nat :=
  if '0' ≤ c ∧ c ≤ '9' then some (c.toNat - '0'.toNat)
  else if 'a' ≤ c ∧ c ≤ 'f' then some (c.toNat - 'a'.toNat + 10)
  else if 'A' ≤ c ∧ c ≤ 'F' then some (c.toNat - 'A'.toNat + 10)
  else none

/-- The value of four hexadecimal digits. -/
def hex4? (a b c d : Char) : Option Nat := do
  return ((← hexValue? a) * 16 + (← hexValue? b)) * 256 +
    ((← hexValue? c) * 16 + (← hexValue? d))

/-- The character that a one-letter escape stands for. -/
def unescape? : Char → Option Char
  | '"' => some '"'
  | '\\' => some '\\'
  | '/' => some '/'
  | 'b' => some (Char.ofNat 8)
  | 'f' => some (Char.ofNat 12)
  | 'n' => some '\n'
  | 'r' => some '\r'
  | 't' => some '\t'
  | _ => none

/-- Whether a code unit is the first half of a pair. -/
def isHighHalf (n : Nat) : Bool := 0xD800 ≤ n && n < 0xDC00

/-- Whether a code unit is the second half of a pair. -/
def isLowHalf (n : Nat) : Bool := 0xDC00 ≤ n && n < 0xE000

/-- The character of a code unit that is not half of a pair. -/
def unitChar (n : Nat) : Char :=
  if isHighHalf n || isLowHalf n then Text.replacement else Char.ofNat n

/-- The character of a pair. -/
def pairChar (high low : Nat) : Char :=
  Char.ofNat (0x10000 + (high - 0xD800) * 0x400 + (low - 0xDC00))

/-- Characters, last first, after a first half that found no second one. -/
def settle (high : Option Nat) (acc : List Char) : List Char :=
  if high.isSome then Text.replacement :: acc else acc

/-- Characters, last first, after a code unit, and the first half that is now waiting. -/
def addUnit (high : Option Nat) (acc : List Char) (n : Nat) : Option Nat × List Char :=
  match high with
  | some h =>
    if isLowHalf n then (none, pairChar h n :: acc)
    else if isHighHalf n then (some n, Text.replacement :: acc)
    else (none, Char.ofNat n :: Text.replacement :: acc)
  | none => if isHighHalf n then (some n, acc) else (none, unitChar n :: acc)

/-- Reads a string to its closing quote. `acc` holds the characters so far, last first, and
`high` the first half of a pair that waits for the second. A half that stands alone becomes the
replacement character. -/
def readStringFrom (high : Option Nat) (acc : List Char) :
    List Char → Option (List Char × List Char)
  | [] => none
  | '"' :: rest => some ((settle high acc).reverse, rest)
  | '\\' :: 'u' :: a :: b :: c :: d :: rest =>
    match hex4? a b c d with
    | none => none
    | some n =>
      let next := addUnit high acc n
      readStringFrom next.1 next.2 rest
  | '\\' :: c :: rest =>
    match unescape? c with
    | none => none
    | some x => readStringFrom none (x :: settle high acc) rest
  | c :: rest =>
    if c.toNat < 0x20 || c = '\\' then none else readStringFrom none (c :: settle high acc) rest

/-- Reads a string to its closing quote. -/
def readString (s : List Char) : Option (List Char × List Char) :=
  readStringFrom none [] s

/-! ### Numbers -/

/-- A non-empty run of digits and the rest. -/
def digitRun? (s : List Char) : Option (List Char × List Char) :=
  let run := s.takeWhile Char.isDigit
  if run.isEmpty then none else some (run, s.drop run.length)

/-- The fraction of a number, which may be missing. -/
def fraction? : List Char → Option (List Char × List Char)
  | '.' :: s => (digitRun? s).map fun (run, rest) => ('.' :: run, rest)
  | s => some ([], s)

/-- The exponent of a number, which may be missing. -/
def exponent? : List Char → Option (List Char × List Char)
  | e :: s =>
    if e = 'e' ∨ e = 'E' then
      match s with
      | '+' :: s => (digitRun? s).map fun (run, rest) => (e :: '+' :: run, rest)
      | '-' :: s => (digitRun? s).map fun (run, rest) => (e :: '-' :: run, rest)
      | s => (digitRun? s).map fun (run, rest) => (e :: run, rest)
    else some ([], e :: s)
  | [] => some ([], [])

/-- The digits before the fraction: a zero, or digits that do not start with one. -/
def whole? : List Char → Option (List Char × List Char)
  | '0' :: s => some (['0'], s)
  | s => digitRun? s

/-- Reads a number. -/
def readNumber (s : List Char) : Option (Datum × List Char) := do
  let (sign, body) : List Char × List Char :=
    match s with
    | '-' :: s => (['-'], s)
    | s => ([], s)
  let (whole, rest) ← whole? body
  let (frac, rest) ← fraction? rest
  let (exp, rest) ← exponent? rest
  if frac.isEmpty && exp.isEmpty then
    return (.int ((Decimal.readInt? (sign ++ whole)).getD 0), rest)
  else return (.number (String.ofList (sign ++ whole ++ frac ++ exp)), rest)

/-! ### Values -/

/-- The rest after a given word. -/
def expect? (word s : List Char) : Option (List Char) :=
  if word.isPrefixOf s then some (s.drop word.length) else none

/-- A string as a text. -/
def spelledText (cs : List Char) : String := String.ofList (Text.spell cs)

/-- The number of levels that lists and records may have. -/
def maxDepth : Nat := 10000

mutual

/-- Reads a value that begins after blanks. `fuel` bounds the steps; twice the length of the text
is enough. `levels` is how many more levels may be opened. -/
def readValue : (fuel levels : Nat) → List Char → Option (Datum × List Char)
  | 0, _, _ => none
  | fuel + 1, levels, s =>
    match skipSpace s with
    | '\x7b' :: rest =>
      match levels with
      | 0 => none
      | levels + 1 =>
        match skipSpace rest with
        | '\x7d' :: rest => some (.record [], rest)
        | rest => (readFields fuel levels rest).map fun (fields, rest) => (.record fields, rest)
    | '[' :: rest =>
      match levels with
      | 0 => none
      | levels + 1 =>
        match skipSpace rest with
        | ']' :: rest => some (.list [], rest)
        | rest => (readItems fuel levels rest).map fun (items, rest) => (.list items, rest)
    | '"' :: rest => (readString rest).map fun (cs, rest) => (.text (spelledText cs), rest)
    | 't' :: rest => (expect? "rue".toList rest).map fun rest => (.bool true, rest)
    | 'f' :: rest => (expect? "alse".toList rest).map fun rest => (.bool false, rest)
    | 'n' :: rest => (expect? "ull".toList rest).map fun rest => (.null, rest)
    | rest => readNumber rest

/-- Reads the items of a list up to its closing bracket. -/
def readItems : (fuel levels : Nat) → List Char → Option (List Datum × List Char)
  | 0, _, _ => none
  | fuel + 1, levels, s => do
    let (x, rest) ← readValue fuel levels s
    match skipSpace rest with
    | ',' :: rest => (readItems fuel levels rest).map fun (xs, rest) => (x :: xs, rest)
    | ']' :: rest => some ([x], rest)
    | _ => none

/-- Reads the fields of a record up to its closing brace. -/
def readFields : (fuel levels : Nat) → List Char → Option (List (String × Datum) × List Char)
  | 0, _, _ => none
  | fuel + 1, levels, s =>
    match skipSpace s with
    | '"' :: rest => do
      let (key, rest) ← readString rest
      match skipSpace rest with
      | ':' :: rest => do
        let (x, rest) ← readValue fuel levels rest
        let field := (spelledText key, x)
        match skipSpace rest with
        | ',' :: rest => (readFields fuel levels rest).map fun (xs, rest) => (field :: xs, rest)
        | '\x7d' :: rest => some ([field], rest)
        | _ => none
      | _ => none
    | _ => none

end

/-- Reads the value at the beginning of a text. -/
def read? (text : String) : Option Datum :=
  let s := Text.readable text.toList
  (readValue (2 * s.length + 2) maxDepth s).map (·.1)

end WorstCase.Json
