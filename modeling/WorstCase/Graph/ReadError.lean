import WorstCase.Graph.Basic
import WorstCase.Text.Lines

/-!
# Errors in textual input

Four kinds of text describe a graph or add to it: listings, matching files, cuts files and
label maps. A `ReadError` names the kind of text, the line where that helps, the offending
fragment and the cause.
-/

namespace WorstCase

/-- The kinds of text that are read. -/
inductive TextKind where
  | listing
  | matching
  | cuts
  | labels
deriving DecidableEq, Repr

/-- How a message names a kind of text. -/
def TextKind.name : TextKind → String
  | .listing => "cfg"
  | .matching => "matching"
  | .cuts => "cuts"
  | .labels => "labels"

/-- What is wrong with a malformed record. -/
inductive Malformation where
  | missingColon
  | missingLabel
  | duplicateLabel
  | duplicateBlock
  | dominantBlocks (count : Nat)
  | missingCost
  | badCost
  | missingDominator
  | build (error : BuildError)
  | matchingShape
  | tooManyLabels
  | missingSource
  | badMatchingCost (text : String)
  | noEdge (src dst : String)
  | cutShape
  | labelMapShape
  | uidTaken (uid : Int) (label : String)
deriving DecidableEq, Repr

/-- The wording of a `Malformation`. -/
def Malformation.message : Malformation → String
  | .missingColon => "missing ':' after block variable"
  | .missingLabel => "missing block label"
  | .duplicateLabel => "duplicate label"
  | .duplicateBlock => "duplicate block"
  | .dominantBlocks count =>
    "expected a start and an end block, found " ++ Decimal.text count ++ " dominant blocks"
  | .missingCost => "missing cost"
  | .badCost => "bad cost"
  | .missingDominator => "missing \"Dominator =\""
  | .build error => error.message
  | .matchingShape => "expected (src[, dst]) cost"
  | .tooManyLabels => "too many labels"
  | .missingSource => "missing source label"
  | .badMatchingCost text => "bad cost " ++ Text.quoted text
  | .noEdge src dst => "no edge " ++ src ++ " -> " ++ dst
  | .cutShape => "expected head,tail"
  | .labelMapShape => "expected block_var,label"
  | .uidTaken uid label =>
    "uid " ++ Decimal.text uid ++ " already bound to " ++ Text.quoted label

/-- Why a text cannot be read. -/
inductive ReadCause where
  | malformed (what : Malformation)
  | unknownLabel
  | unknownBlock
  /-- A variable from which no uid can be read. -/
  | badVariable (name : String)
deriving DecidableEq, Repr

/-- The wording of a `ReadCause`. -/
def ReadCause.message : ReadCause → String
  | .malformed what => "malformed record: " ++ what.message
  | .unknownLabel => "unknown label"
  | .unknownBlock => "unknown block variable"
  | .badVariable name => "unknown block variable: " ++ Text.quoted name

/-- An error in a text, with `line = 0` where lines do not count. -/
structure ReadError where
  kind : TextKind
  line : Nat := 0
  fragment : String
  cause : ReadCause
deriving DecidableEq, Repr

/-- The wording of a `ReadError`. -/
def ReadError.message (e : ReadError) : String :=
  "parse " ++ e.kind.name ++ (if e.line = 0 then "" else " line " ++ Decimal.text e.line) ++
    ": " ++ e.cause.message ++ ": " ++ Text.quoted e.fragment

/-- An error in a text that is read line by line. -/
inductive LineError where
  | read (error : ReadError)
  /-- A line too long for the reader. -/
  | tooLong (kind : TextKind)
deriving DecidableEq, Repr

/-- The wording of a `LineError`. -/
def LineError.message : LineError → String
  | .read error => error.message
  | .tooLong kind =>
    "reading " ++
      (match kind with
        | .listing => "cfg"
        | .matching => "matching file"
        | .cuts => "cuts file"
        | .labels => "label map") ++
      ": " ++ Text.Lines.tooLongMessage

/-- The uid in a block variable such as `bd_0` or `b_12`: the number between the first and the
second underscore. -/
def uidOfVariable? (name : List Char) : Option Int :=
  match name.dropWhile (· ≠ '_') with
  | [] => none
  | _ :: rest => Decimal.readInt64? (rest.takeWhile (· ≠ '_'))

end WorstCase
