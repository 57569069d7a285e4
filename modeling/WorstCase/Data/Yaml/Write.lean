import WorstCase.Data.Tree
import WorstCase.Data.Yaml.Character
import WorstCase.Data.Yaml.Scalar
import WorstCase.Text.Octets

/-!
# Writing YAML

Data trees as YAML in block style. A text is written

* as a **literal** block if it has several lines and nothing speaks against it;
* **plain** if no reader takes it for something else and no character has a meaning there;
* between **double quotes** if it would be taken for something else, or if it has characters
  that must be escaped;
* between **single quotes** otherwise.

A text with octets that spell no character is written in Base64 under a tag, in lines of seventy
digits if it needs more than one. A text that begins with a byte order mark has all its characters
escaped.

Records inside lists begin on the line of the dash, and lists stand below their key, indented by
the width that the caller chooses.
-/

namespace WorstCase.Yaml

/-! ### What speaks against a style -/

/-- What was noticed in a text. -/
structure Traits where
  /-- A character has a meaning in a plain scalar. -/
  indicators : Bool := false
  lineBreaks : Bool := false
  /-- Some character must be escaped. -/
  special : Bool := false
  tabs : Bool := false
  /-- A space follows a line break. -/
  breakSpace : Bool := false
  /-- A line break follows a space. -/
  spaceBreak : Bool := false
deriving Repr

/-- Looks through the characters of a text after `previous`, the one before them. -/
def traitsFrom (t : Traits) (previous : Option Char) : List Char → Traits
  | [] => t
  | c :: rest =>
    let beforeGap := match rest with
      | [] => true
      | d :: _ => isBlank d
    let indicator :=
      match previous with
      | none => isIndicator c || ((c == '?' || c == ':' || c == '-') && beforeGap)
      | some p => (c == ':' && beforeGap) || (c == '#' && isGap p)
    let t : Traits :=
      { indicators := t.indicators || indicator
        lineBreaks := t.lineBreaks || isBreak c
        special := t.special || (c != '\t' && !isPlainChar c)
        tabs := t.tabs || c == '\t'
        breakSpace := t.breakSpace || (c == ' ' && previous.any isBreak)
        spaceBreak := t.spaceBreak || (isBreak c && previous == some ' ') }
    traitsFrom t (some c) rest

/-- What there is to notice in a text. -/
def traits (s : List Char) : Traits :=
  let marker := "---".toList.isPrefixOf s || "...".toList.isPrefixOf s
  traitsFrom { indicators := marker } none s

/-- Whether a text has a space or a line break at one of its ends. -/
def hasLooseEnd (s : List Char) : Bool :=
  let loose (c : Char) : Bool := c == ' ' || isBreak c
  s.head?.any loose || s.getLast?.any loose

/-- The styles of a scalar. -/
inductive Style where
  | plain
  | single
  | double
  | literal
deriving DecidableEq, Repr

/-- The style of a text, given whether it stands for itself where it is plain. -/
def styleOf (standsForItself : Bool) (cs : List Char) : Style :=
  let t := traits cs
  if cs.contains '\n' then
    if t.spaceBreak || t.special || cs.getLast? == some ' ' then .double else .literal
  else if !standsForItself then .double
  else if t.breakSpace || t.spaceBreak || t.tabs || t.special then .double
  else if t.indicators || t.lineBreaks || hasLooseEnd cs then .single
  else .plain

/-! ### Scalars -/

/-- So many spaces. -/
def spaces (n : Nat) : List Char := List.replicate n ' '

/-- An upper-case hexadecimal digit. -/
def hexDigit (n : Nat) : Char :=
  if n < 10 then Char.ofNat ('0'.toNat + n) else Char.ofNat ('A'.toNat + (n - 10))

/-- The last `width` hexadecimal digits of a number. -/
def hexDigits (width n : Nat) : List Char :=
  (List.range width).map fun i => hexDigit (n / Nat.pow 16 (width - 1 - i) % 16)

/-- The escape of a character. -/
def escape (c : Char) : List Char :=
  match c.toNat with
  | 0x00 => ['0']
  | 0x07 => ['a']
  | 0x08 => ['b']
  | 0x09 => ['t']
  | 0x0A => ['n']
  | 0x0B => ['v']
  | 0x0C => ['f']
  | 0x0D => ['r']
  | 0x1B => ['e']
  | 0x22 => ['"']
  | 0x5C => ['\\']
  | 0x85 => ['N']
  | 0xA0 => ['_']
  | 0x2028 => ['L']
  | 0x2029 => ['P']
  | n =>
    if n ≤ 0xFF then 'x' :: hexDigits 2 n
    else if n ≤ 0xFFFF then 'u' :: hexDigits 4 n
    else 'U' :: hexDigits 8 n

/-- A text between double quotes. -/
def doubleQuoted (s : List Char) : List Char :=
  let marked := s.head? == some byteOrderMark
  let char (c : Char) : List Char :=
    if marked || !isPlainChar c || isBreak c || c == '"' || c == '\\' then '\\' :: escape c
    else [c]
  '"' :: s.flatMap char ++ ['"']

/-- Characters with an indent before each one that follows a line break. -/
def indentAfterBreaks (indent : Nat) (afterBreak : Bool) (char : Char → List Char) :
    List Char → List Char
  | [] => []
  | c :: rest =>
    if isBreak c then c :: indentAfterBreaks indent true char rest
    else
      (if afterBreak then spaces indent else []) ++ char c ++
        indentAfterBreaks indent false char rest

/-- A text between single quotes. -/
def singleQuoted (indent : Nat) (s : List Char) : List Char :=
  '\'' :: indentAfterBreaks indent false (fun c => if c == '\'' then [c, c] else [c]) s ++ ['\'']

/-- How a literal block treats the line breaks at its end. -/
def chomping (s : List Char) : List Char :=
  match s.reverse with
  | [] => ['-']
  | c :: rest =>
    if !isBreak c then ['-']
    else
      match rest with
      | [] => ['+']
      | d :: _ => if isBreak d then ['+'] else []

/-- A text as a literal block. `width` is shown where the text begins with a space or a line
break. The break before the first line is the one that the text begins with, if it begins with
one. -/
def literal (width indent : Nat) (s : List Char) : List Char :=
  let hint : List Char :=
    match s.head? with
    | some c => if c == ' ' || isBreak c then [Char.ofNat ('0'.toNat + width)] else []
    | none => []
  let start : List Char :=
    match s.head? with
    | some c => if isBreak c then [] else ['\n']
    | none => []
  '|' :: hint ++ chomping s ++ start ++ indentAfterBreaks indent true (fun c => [c]) s

/-- Characters in a style. -/
def styled (width indent : Nat) (s : List Char) : Style → List Char
  | .plain => s
  | .single => singleQuoted indent s
  | .double => doubleQuoted s
  | .literal => literal width indent s

/-- Characters in lines of `length + 1`, each of which ends with a break; `left` more than one fit
the current line. -/
def inLines (length left : Nat) : List Char → List Char
  | [] => []
  | [c] => [c, '\n']
  | c :: rest =>
    match left with
    | 0 => c :: '\n' :: inLines length length rest
    | k + 1 => c :: inLines length k rest

/-- The digits of octets in Base64, in lines of seventy unless there are fewer. -/
def base64Lines (s : List Char) : List Char :=
  let digits := Base64.encode s
  if digits.length < 70 then digits else inLines 69 69 digits

/-- A text in its style. -/
def scalar (width indent : Nat) (s : String) : List Char :=
  match Text.chars? s.toList with
  | some cs => styled width indent cs (styleOf (isPlainText s) cs)
  | none =>
    let digits := base64Lines s.toList
    "!!binary ".toList ++ styled width indent digits (styleOf true digits)

/-! ### Trees -/

/-- The next indent at or after which values of a block stand. -/
def nextIndent (width indent : Nat) : Nat :=
  width * ((indent + width) / width)

/-- A line break, unless the text before ends with one. -/
def endLine (s : List Char) : List Char :=
  if s.getLast?.any isBreak then s else s ++ ['\n']

mutual

/-- The entries of a record whose keys stand at `indent`. The first one continues the current
line. -/
def entries (width indent : Nat) : List (String × Datum) → List Char
  | [] => []
  | [(k, x)] => scalar width indent k ++ ':' :: value width indent x
  | (k, x) :: rest =>
    scalar width indent k ++ ':' :: value width indent x ++ spaces indent ++
      entries width indent rest

/-- The value after a key that stands at `indent`, to the end of its lines. -/
def value (width indent : Nat) : Datum → List Char
  | .null => " null\n".toList
  | .bool b => if b then " true\n".toList else " false\n".toList
  | .int n => ' ' :: Decimal.chars n ++ ['\n']
  | .number literal => ' ' :: literal.toList ++ ['\n']
  | .text s => ' ' :: endLine (scalar width (nextIndent width indent) s)
  | .list items =>
    if items.isEmpty then " []\n".toList
    else '\n' :: itemLines width (nextIndent width indent) items
  | .record fields =>
    if fields.isEmpty then " \x7b\x7d\n".toList
    else
      let inner := nextIndent width indent
      '\n' :: spaces inner ++ entries width inner fields

/-- The items of a list whose dashes stand at `indent`. -/
def itemLines (width indent : Nat) : List Datum → List Char
  | [] => []
  | x :: rest => spaces indent ++ '-' :: item width indent x ++ itemLines width indent rest

/-- An item after its dash at `indent`, to the end of its lines. -/
def item (width indent : Nat) : Datum → List Char
  | .null => " null\n".toList
  | .bool b => if b then " true\n".toList else " false\n".toList
  | .int n => ' ' :: Decimal.chars n ++ ['\n']
  | .number literal => ' ' :: literal.toList ++ ['\n']
  | .text s => ' ' :: endLine (scalar width (indent + 2) s)
  | .list items =>
    if items.isEmpty then " []\n".toList
    else
      match items with
      | [] => []
      | x :: rest => ' ' :: '-' :: item width (indent + 2) x ++ itemLines width (indent + 2) rest
  | .record fields =>
    if fields.isEmpty then " \x7b\x7d\n".toList
    else ' ' :: entries width (indent + 2) fields

end

/-- A record as a YAML document. -/
def write (width : Nat) (fields : List (String × Datum)) : String :=
  String.ofList (Text.spell (entries width 0 fields))

end WorstCase.Yaml
