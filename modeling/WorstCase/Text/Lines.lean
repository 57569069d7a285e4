/-!
# Line-oriented reading

A text is read line by line: a line ends at a line feed or at the end of the text, and one
carriage return before that end does not belong to it. A reader has room for fewer than
`Lines.room` octets of one line; at a longer line it stops, and the lines before it stand.
-/

namespace WorstCase.Text

/-- What a line reader made of a text. -/
structure Lines where
  /-- The lines in order, up to the first one that is too long. -/
  lines : List (List Char)
  /-- Whether a line too long stopped the reader. -/
  tooLong : Bool
deriving Repr, DecidableEq

namespace Lines

/-- The number of octets that no line may reach. -/
def room : Nat := 65536

/-- The message for a line that is too long. -/
def tooLongMessage : String := "bufio.Scanner: token too long"

/-- A line without the carriage return at its end. -/
def dropReturn (reversed : List Char) : List Char :=
  match reversed with
  | '\r' :: rest => rest.reverse
  | _ => reversed.reverse

/-- Reads on, where `line` holds the octets (last first) and `size` their number for the line
that is being read. -/
def readFrom (size : Nat) (line : List Char) : List Char → Lines
  | [] =>
    if line.isEmpty then ⟨[], false⟩
    else if room ≤ size then ⟨[], true⟩
    else ⟨[dropReturn line], false⟩
  | c :: s =>
    if c = '\n' then
      if room ≤ size then ⟨[], true⟩
      else
        let rest := readFrom 0 [] s
        ⟨dropReturn line :: rest.lines, rest.tooLong⟩
    else readFrom (size + 1) (c :: line) s

/-- The lines of a text. -/
def read (s : List Char) : Lines :=
  readFrom 0 [] s

end Lines

end WorstCase.Text
