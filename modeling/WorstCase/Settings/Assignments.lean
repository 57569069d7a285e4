import WorstCase.Text.Blank
import WorstCase.Text.Pieces

/-!
# Assignment files

A file of assignments gives values to environment variables, one after the other:

* `NAME=value` or `NAME: value`, with `export` in front or not;
* a value goes to the end of the line, without blanks around it and without a comment, which
  begins at the last `#` after a blank;
* a value between single quotes is taken as it is, and one between double quotes after escapes
  are replaced; both may go over several lines;
* `$NAME` and `${NAME}` stand for the value of a variable of the same file, unless the value is
  between single quotes or the dollar sign is escaped.

Lines that begin with `#` say nothing.
-/

namespace WorstCase.Assignments

/-- Whether a character is a blank that does not end a line. -/
def isInnerBlank (c : Char) : Bool :=
  let n := c.toNat
  n == 0x09 || n == 0x0B || n == 0x0C || n == 0x0D || n == 0x20 || n == 0x85 || n == 0xA0

/-- Whether an octet may stand in a name, read as a character of its own: letters, digits and
other numbers, `_`, `.` and blanks. -/
def isNameOctet (c : Char) : Bool :=
  let n := c.toNat
  isInnerBlank c || (0x30 ≤ n && n ≤ 0x39) || (0x41 ≤ n && n ≤ 0x5A) ||
    (0x61 ≤ n && n ≤ 0x7A) || n == 0x5F || n == 0x2E || n == 0xAA || n == 0xB5 || n == 0xBA ||
    (0xC0 ≤ n && n != 0xD7 && n != 0xF7) || n == 0xB2 || n == 0xB3 || n == 0xB9 ||
    (0xBC ≤ n && n ≤ 0xBE)

/-! ### Statements -/

/-- A text whose lines end in line feeds where they ended in carriage returns and line feeds. -/
def unifyBreaks : List Char → List Char
  | [] => []
  | '\r' :: '\n' :: rest => '\n' :: unifyBreaks rest
  | c :: rest => c :: unifyBreaks rest

/-- The text from the next statement on, once `skip` octets are passed over; comments are passed
over too. `comment` tells whether the text begins inside of one. -/
def statementStart (comment : Bool) (skip : Nat) : List Char → List Char
  | [] => []
  | o :: rest =>
    match skip with
    | k + 1 => statementStart comment k rest
    | 0 =>
      if comment then statementStart (o != '\n') 0 rest
      else
        match Text.leading? (o :: rest) with
        | none => o :: rest
        | some c =>
          if Text.isBlank c then statementStart false ((Text.utf8 c).length - 1) rest
          else if c = '#' then statementStart true 0 rest
          else o :: rest

/-- A statement without `export` and the blanks after it. -/
def dropExport (s : List Char) : List Char :=
  let word := "export".toList
  let rest := s.drop word.length
  if word.isPrefixOf s && (Text.leading? rest).any isInnerBlank then
    Text.dropChars isInnerBlank rest
  else s

/-- The name of a statement and what follows the sign after it. A text without the sign is all
value and has no name; there must be some text. -/
def nameOf? (s : List Char) : Option (String × List Char) :=
  let isSign (c : Char) : Bool := c = '=' || c = ':'
  let name := s.takeWhile fun c => !isSign c && isNameOctet c
  match s.drop name.length with
  | [] => if s.isEmpty then none else some ("", Text.dropChars isInnerBlank s)
  | c :: rest =>
    if isSign c then
      some (String.ofList (Text.ofSymbols (Text.trimEnd (Text.symbols name))),
        Text.dropChars isInnerBlank rest)
    else none

/-! ### Values -/

/-- The value of a variable, or nothing. -/
def valueOf (vars : List (String × String)) (name : String) : String :=
  (vars.lookup name).getD ""

/-- Whether a character may stand in the name of a variable that is referred to. -/
def isReferenceChar (c : Char) : Bool :=
  c.isDigit || ('A' ≤ c && c ≤ 'Z') || c = '_'

/-- A reference that begins after its dollar sign: the text that stands before its name, its name,
and what stands after it, which may be a closing brace. -/
def reference (s : List Char) : List Char × List Char × List Char × List Char :=
  let (opening, s) := match s with
    | '(' :: '\x7b' :: s => (['(', '\x7b'], s)
    | '(' :: s => (['('], s)
    | '\x7b' :: s => (['\x7b'], s)
    | s => ([], s)
  let name := s.takeWhile isReferenceChar
  let s := s.drop name.length
  match s with
  | '\x7d' :: s => (opening, name, ['\x7d'], s)
  | s => (opening, name, [], s)

/-- A value with its references replaced. An escaped reference stays, without the backslash, and
so does one without a name. -/
def expand (vars : List (String × String)) : (fuel : Nat) → List Char → List Char
  | 0, s => s
  | fuel + 1, s =>
    match s with
    | [] => []
    | '\\' :: '$' :: rest =>
      let (opening, name, closing, rest) := reference rest
      '$' :: opening ++ name ++ closing ++ expand vars fuel rest
    | '$' :: rest =>
      let (opening, name, closing, rest) := reference rest
      (if name.isEmpty then '$' :: opening ++ closing
        else (valueOf vars (String.ofList name)).toList) ++ expand vars fuel rest
    | c :: rest => c :: expand vars fuel rest

/-- A value with `\n` and `\r` replaced; other escapes stay. -/
def lineEscapes : List Char → List Char
  | [] => []
  | '\\' :: c :: rest =>
    if c = 'n' then '\n' :: lineEscapes rest
    else if c = 'r' then '\r' :: lineEscapes rest
    else if c = '\n' then '\\' :: '\n' :: lineEscapes rest
    else '\\' :: c :: lineEscapes rest
  | c :: rest => c :: lineEscapes rest

/-- A value without the backslashes that escape something else than a dollar sign. -/
def dropEscapes : List Char → List Char
  | [] => []
  | '\\' :: c :: rest => if c = '$' then '\\' :: '$' :: dropEscapes rest else c :: dropEscapes rest
  | c :: rest => c :: dropEscapes rest

/-- A text without the given characters at both ends. -/
def trimChar (c : Char) (s : List Char) : List Char :=
  ((s.dropWhile (· = c)).reverse.dropWhile (· = c)).reverse

/-- A value between quotes, from the opening one on, and what follows the closing one, which is not
escaped. `before` holds what has been read, last character first. -/
def quotedValue? (mark : Char) (before : List Char) : List Char → Option (List Char × List Char)
  | [] => none
  | c :: rest =>
    if c = mark && !before.isEmpty && before.head? != some '\\' then
      some (trimChar mark before.reverse, rest)
    else quotedValue? mark (c :: before) rest

/-- The part of a line before its last comment, given the character before it. -/
def beforeComment? (previous : Option Char) : List Char → Option (List Char)
  | [] => none
  | c :: rest =>
    match beforeComment? (some c) rest with
    | some part => some (c :: part)
    | none => if c = '#' && previous.any isInnerBlank then some [] else none

/-- A value without quotes: to the end of its line or to its last comment, without blanks around
it. -/
def bareValue (line : List Char) : List Char :=
  let cs := Text.readable line
  let part := (beforeComment? none cs).getD cs
  Text.spell (((part.dropWhile isInnerBlank).reverse).dropWhile isInnerBlank).reverse

/-- The value of a statement, and what follows it. -/
def value? (vars : List (String × String)) (s : List Char) : Option (String × List Char) :=
  let expanded (v : List Char) : String := String.ofList (expand vars (v.length + 1) v)
  match s with
  | '"' :: _ =>
    (quotedValue? '"' [] s).map fun (v, rest) => (expanded (dropEscapes (lineEscapes v)), rest)
  | '\'' :: _ => (quotedValue? '\'' [] s).map fun (v, rest) => (String.ofList v, rest)
  | s =>
    let line := s.takeWhile fun c => c != '\n' && c != '\r'
    some (expanded (bareValue line), s.drop line.length)

/-! ### Files -/

/-- The variables of a file after those before, which stand last first. -/
def parseFrom : (fuel : Nat) → (vars : List (String × String)) → List Char →
    Option (List (String × String))
  | 0, vars, _ => some vars
  | fuel + 1, vars, s =>
    match statementStart false 0 s with
    | [] => some vars
    | s => do
      let (name, rest) ← nameOf? (dropExport s)
      let (value, rest) ← value? vars rest
      parseFrom fuel ((name, value) :: vars) rest

/-- The variables of a file of assignments; of several values for one variable, the first in the
list counts. -/
def parse? (text : String) : Option (List (String × String)) :=
  parseFrom (text.length + 1) [] (unifyBreaks text.toList)

end WorstCase.Assignments
