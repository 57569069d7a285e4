import WorstCase.Formula.Problem
import WorstCase.Text.Blank
import WorstCase.Text.Quoted

/-!
# Formula headers

A header is the formula that a toolchain hands over with a graph: declarations, one a line,
followed by exactly one assertion. Among the declarations blank lines and comment lines
(starting with `//` or `;`) are skipped; inside the assertion blank lines are dropped. A header
that fails leaves the declarations before the offending line in the problem.
-/

namespace WorstCase

/-- Why a header is not supported. -/
inductive HeaderError where
  /-- The header holds this many assertions instead of one. -/
  | assertions (count : Nat)
  /-- A line that is neither a declaration nor a comment. -/
  | declaration (line : String)
deriving DecidableEq, Repr

/-- The wording of a `HeaderError`. -/
def HeaderError.message (e : HeaderError) : String :=
  "unsupported formula header: " ++
    match e with
    | .assertions count => "expected exactly one assert, found " ++ Decimal.text count
    | .declaration line => "unsupported declaration " ++ Text.quoted line

namespace Problem

/-- Adds the declarations on the lines of a header, up to the first line that is none. -/
def loadDeclarations (p : Problem) : List (List Char) → Problem × Option HeaderError
  | [] => (p, none)
  | l :: ls =>
    let line := Text.trim l
    if line.isEmpty || "//".toList.isPrefixOf line || ";".toList.isPrefixOf line then
      p.loadDeclarations ls
    else if Text.occursIn "declare-fun".toList line then
      (p.declareText (String.ofList line)).loadDeclarations ls
    else (p, some (.declaration (String.ofList line)))

/-- The lines of a text that are not blank. -/
def filledLines (s : List Char) : List (List Char) :=
  (Text.pieces ['\n'] s).filter fun l => !Text.isBlankText l

/-- Loads a header, and says what is wrong with it if it is not supported. -/
def loadHeader (p : Problem) (text : String) : Problem × Option HeaderError :=
  match Text.pieces "(assert".toList text.toList with
  | [declarations, assertion] =>
    match p.loadDeclarations (Text.pieces ['\n'] (Text.trim declarations)) with
    | (p, some e) => (p, some e)
    | (p, none) =>
      let lines := (filledLines ("(assert".toList ++ assertion)).map String.ofList
      (p.assertText (Text.joinWith "\n" lines), none)
  | parts => (p, some (.assertions (parts.length - 1)))

end Problem

end WorstCase
