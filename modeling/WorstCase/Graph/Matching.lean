import WorstCase.Graph.ReadError
import WorstCase.Text.Blank
import WorstCase.Text.Pieces

/-!
# Matching files

A matching file sets costs by labels: `(src) cost` for a block, `(src, dst) cost` for an edge.
Percent signs do not count, and a comma may stand before the cost. Lines take effect one after
the other. Once all lines have, every block that no line names alone costs nothing; edges that
no line names keep their cost.
-/

namespace WorstCase

/-- A line of a matching file; `dst` is empty where the line is about a block. -/
structure MatchingLine where
  src : String
  dst : String
  cost : Int64
deriving DecidableEq, Repr

namespace MatchingLine

/-- Reads a line. -/
def read (raw : List Char) : Except Malformation MatchingLine :=
  let line := raw.filter (· ≠ '%')
  match Text.position? ['('] line, Text.position? [')'] line with
  | some first, some last =>
    if last < first then .error .matchingShape
    else
      let labels := (Text.pieces [','] ((line.take last).drop (first + 1))).map Text.trim
      if 2 < labels.length then .error .tooManyLabels
      else
        let src := labels.head?.getD []
        let dst := (labels.drop 1).head?.getD []
        if src.isEmpty then .error .missingSource
        else
          let rest := Text.trim (Text.dropPrefix [','] (Text.trim (line.drop (last + 1))))
          match Decimal.readInt64? rest with
          | none => .error (.badMatchingCost (String.ofList rest))
          | some cost =>
            .ok { src := String.ofList src, dst := String.ofList dst, cost := Int64.ofInt cost }
  | _, _ => .error .matchingShape

end MatchingLine

namespace Graph

/-- A graph with the cost of one block changed. -/
def setBlockCost (g : Graph) (uid : Int) (cost : Int64) : Graph :=
  { g with blocks := g.blocks.map fun b => if b.uid = uid then { b with cost } else b }

/-- A graph with the cost of one edge changed. -/
def setEdgeCost (g : Graph) (id : EdgeId) (cost : Int64) : Graph :=
  { g with edges := g.edges.map fun e => if e.id = id then { e with cost } else e }

/-- Applies line `n` of a matching file. The uid is that of the block that the line names
alone. -/
def applyLine (g : Graph) (n : Nat) (raw : List Char) : Except ReadError (Graph × Option Int) :=
  let fail (fragment : String) (cause : ReadCause) : Except ReadError (Graph × Option Int) :=
    .error { kind := .matching, line := n, fragment, cause }
  match MatchingLine.read raw with
  | .error what => fail (String.ofList raw) (.malformed what)
  | .ok line =>
    match g.uid? line.src with
    | none => fail line.src .unknownLabel
    | some src =>
      if line.dst = "" then .ok (g.setBlockCost src line.cost, some src)
      else
        match g.uid? line.dst with
        | none => fail line.dst .unknownLabel
        | some dst =>
          match g.edge? src dst with
          | none => fail (String.ofList raw) (.malformed (.noEdge line.src line.dst))
          | some e => .ok (g.setEdgeCost e.id line.cost, none)

/-- Applies lines that are numbered from `n`; `named` holds the blocks named so far. -/
def applyLines (g : Graph) (named : List Int) (n : Nat) :
    List (List Char) → Graph × List Int × Option ReadError
  | [] => (g, named, none)
  | raw :: rest =>
    if Text.isBlankText raw then g.applyLines named (n + 1) rest
    else
      match g.applyLine n raw with
      | .error e => (g, named, some e)
      | .ok (g, uid) => g.applyLines (uid.toList ++ named) (n + 1) rest

/-- A graph in which the blocks that are not named cost nothing. -/
def clearOthers (g : Graph) (named : List Int) : Graph :=
  { g with
    blocks := g.blocks.map fun b => if named.contains b.uid then b else { b with cost := 0 } }

/-- Applies a matching file. If it fails, the lines before the failure have taken effect. -/
def applyMatching (g : Graph) (text : String) : Graph × Option LineError :=
  let scan := Text.Lines.read text.toList
  match g.applyLines [] 1 scan.lines with
  | (g, _, some e) => (g, some (.read e))
  | (g, named, none) =>
    if scan.tooLong then (g, some (.tooLong .matching)) else (g.clearOthers named, none)

end Graph

end WorstCase
