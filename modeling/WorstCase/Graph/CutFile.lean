import WorstCase.Graph.Cut
import WorstCase.Graph.ReadError
import WorstCase.Text.Octets
import WorstCase.Text.Pieces

/-!
# Cuts files

A cuts file names candidates for cuts by labels, one `head,tail` a line. A line with a `#`
starts a new generation. Percent signs and blanks inside a line do not count, and lines with
nothing else are skipped. Lines are read as characters: a replacement stands for each stray octet.
-/

namespace WorstCase

namespace Graph

/-- The characters of a cuts file that do not count. -/
def isFiller (c : Char) : Bool :=
  c == '%' || c == ' ' || c == '\t' || c == '\r' || c == '\n'

/-- The part of a line that counts. -/
def significant (raw : List Char) : List Char :=
  Text.spell ((Text.readable raw).filter fun c => !isFiller c)

/-- The candidate on line `n`, whose characters that count are `line`. -/
def readCandidate (g : Graph) (n : Nat) (raw line : List Char) : Except ReadError CutId :=
  let fail (fragment : List Char) (cause : ReadCause) : Except ReadError CutId :=
    .error { kind := .cuts, line := n, fragment := String.ofList fragment, cause }
  match Text.cut? [','] line with
  | none => fail raw (.malformed .cutShape)
  | some (head, tail) =>
    if tail.contains ',' then fail raw (.malformed .cutShape)
    else
      match g.uid? (String.ofList head) with
      | none => fail head .unknownLabel
      | some h =>
        match g.uid? (String.ofList tail) with
        | none => fail tail .unknownLabel
        | some t => .ok ⟨h, t⟩

/-- Puts a candidate in front of the first generation. -/
def consCandidate (id : CutId) : List Generation → List Generation
  | [] => [[id]]
  | gen :: gens => (id :: gen) :: gens

/-- The generations on lines that are numbered from `n`. -/
def readGenerations (g : Graph) (n : Nat) : List (List Char) → Except ReadError (List Generation)
  | [] => .ok [[]]
  | raw :: rest =>
    if raw.contains '#' then do return [] :: (← g.readGenerations (n + 1) rest)
    else
      let line := significant raw
      if line.isEmpty then g.readGenerations (n + 1) rest
      else do
        let id ← g.readCandidate n raw line
        return consCandidate id (← g.readGenerations (n + 1) rest)

/-- Reads a cuts file. -/
def readCuts (g : Graph) (text : String) : Except LineError (List Generation) :=
  let scan := Text.Lines.read text.toList
  match g.readGenerations 1 scan.lines with
  | .error e => .error (.read e)
  | .ok gens => if scan.tooLong then .error (.tooLong .cuts) else .ok gens

end Graph

end WorstCase
