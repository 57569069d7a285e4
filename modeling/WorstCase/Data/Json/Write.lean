import WorstCase.Data.Tree
import WorstCase.Text.Decimal
import WorstCase.Text.Quoted

/-!
# Writing JSON

Data trees as JSON, on one line or indented by two spaces a level. Inside strings the quote, the
backslash and control characters are escaped, and so are the three characters that HTML gives a
meaning and the two line separators, so that the text can be put into a page or a script. Octets
that belong to no character are replaced.
-/

namespace WorstCase.Json

/-- A character inside a JSON string. -/
def escapedChar (c : Char) : List Char :=
  match c with
  | '"' => ['\\', '"']
  | '\\' => ['\\', '\\']
  | '\n' => ['\\', 'n']
  | '\r' => ['\\', 'r']
  | '\t' => ['\\', 't']
  | c =>
    let n := c.toNat
    if n = 0x08 then ['\\', 'b']
    else if n = 0x0C then ['\\', 'f']
    else if n < 0x20 || c = '<' || c = '>' || c = '&' || n = 0x2028 || n = 0x2029 then
      '\\' :: 'u' :: Text.hexDigits 4 n
    else Text.utf8 c

/-- A JSON string. -/
def string (s : String) : String :=
  String.ofList ('"' :: (Text.readable s.toList).flatMap escapedChar ++ ['"'])

/-- The text between two items: a comma, and a line break with spaces if there is an indent. -/
def lineBreak : Option Nat → String
  | none => ""
  | some depth => "\n" ++ String.ofList (List.replicate (2 * depth) ' ')

/-- One level deeper. -/
def deeper : Option Nat → Option Nat :=
  Option.map (· + 1)

mutual

/-- A data tree as JSON. `depth` counts the levels around it, if the text is indented. -/
def write (depth : Option Nat) : Datum → String
  | .null => "null"
  | .bool b => if b then "true" else "false"
  | .int n => Decimal.text n
  | .number literal => literal
  | .text s => string s
  | .list items =>
    if items.isEmpty then "[]"
    else "[" ++ writeItems (deeper depth) items ++ lineBreak depth ++ "]"
  | .record fields =>
    if fields.isEmpty then "\x7b\x7d"
    else "\x7b" ++ writeFields (deeper depth) fields ++ lineBreak depth ++ "\x7d"

/-- The items of a list, each on a line of its own if the text is indented. -/
def writeItems (depth : Option Nat) : List Datum → String
  | [] => ""
  | [x] => lineBreak depth ++ write depth x
  | x :: xs => lineBreak depth ++ write depth x ++ "," ++ writeItems depth xs

/-- The fields of a record, each on a line of its own if the text is indented. -/
def writeFields (depth : Option Nat) : List (String × Datum) → String
  | [] => ""
  | [(k, x)] => lineBreak depth ++ string k ++ colon depth ++ write depth x
  | (k, x) :: xs =>
    lineBreak depth ++ string k ++ colon depth ++ write depth x ++ "," ++ writeFields depth xs

/-- What stands between a key and its value. -/
def colon : Option Nat → String
  | none => ":"
  | some _ => ": "

end

/-- JSON on one line. -/
def compact (d : Datum) : String := write none d

/-- JSON indented by two spaces a level. -/
def indented (d : Datum) : String := write (some 0) d

end WorstCase.Json
