import WorstCase.Graph.ReadError
import WorstCase.Text.Blank
import WorstCase.Text.Pieces

/-!
# Label maps

A label map has one line `variable,label` per block, by ascending uid, with the variables as
the listing writes them. Reading one gives back the labels with their uids.
-/

namespace WorstCase

namespace Graph

/-- The label map of a graph. -/
def labelMap (g : Graph) : String :=
  String.join (g.sortedBlocks.map fun b => b.written ++ "," ++ b.label ++ "\n")

end Graph

namespace LabelMap

/-- Reads line `n`; `known` holds the entries before it. -/
def readLine (known : List (String × Int)) (n : Nat) (line : List Char) :
    Except ReadError (String × Int) :=
  let fail (fragment : List Char) (cause : ReadCause) : Except ReadError (String × Int) :=
    .error { kind := .labels, line := n, fragment := String.ofList fragment, cause }
  match Text.cut? [','] line with
  | none => fail line (.malformed .labelMapShape)
  | some (name, label) =>
    if label.isEmpty then fail line (.malformed .labelMapShape)
    else
      match uidOfVariable? name with
      | none => fail name (.badVariable (String.ofList name))
      | some uid =>
        if known.any (·.1 = String.ofList label) then fail label (.malformed .duplicateLabel)
        else
          match known.find? (·.2 = uid) with
          | some (other, _) => fail line (.malformed (.uidTaken uid other))
          | none => .ok (String.ofList label, uid)

/-- Reads lines that are numbered from `n`; `known` holds the entries before them. -/
def readLines (known : List (String × Int)) (n : Nat) :
    List (List Char) → Except ReadError (List (String × Int))
  | [] => .ok known
  | raw :: rest =>
    let line := Text.trim raw
    if line.isEmpty then readLines known (n + 1) rest
    else do
      let entry ← readLine known n line
      readLines (known ++ [entry]) (n + 1) rest

/-- Reads a label map: labels with uids, in the order of the lines. -/
def read (text : String) : Except LineError (List (String × Int)) :=
  let scan := Text.Lines.read text.toList
  match readLines [] 1 scan.lines with
  | .error e => .error (.read e)
  | .ok entries => if scan.tooLong then .error (.tooLong .labels) else .ok entries

end LabelMap

end WorstCase
