import WorstCase.Encoding.Basic
import WorstCase.Formula.Problem
import WorstCase.Graph.Summary

/-!
# Emitting problems

`Graph.emit` states a graph as an optimization problem: the constraints of its blocks and edges
in the chosen encoding, those of its cuts, the selection of the start and the end, and an
objective that is bounded by the longest syntactic path. Statistics are appended as comments.

Blocks, edges and cuts are gone through in ascending order, so the problem does not depend on
the order in which the graph was built.
-/

namespace WorstCase

/-- What is known of an emitted problem. -/
structure EmitStats where
  encoding : Encoding
  paths : Nat
  cuts : Nat
  longest : Int64
deriving DecidableEq, Repr

/-- Why a graph cannot be emitted. -/
inductive EmitError where
  | unknownEncoding (code : Int)
  | start (violation : Violation)
  | stop (violation : Violation)
  | summary (error : SummaryError)
deriving DecidableEq, Repr

/-- The wording of an `EmitError`. -/
def EmitError.message : EmitError → String
  | .unknownEncoding code => "unknown encoding " ++ Decimal.text code
  | .start violation => "start node: " ++ violation.message
  | .stop violation => "end node: " ++ violation.message
  | .summary error => error.message

/-- The violation that stands behind an `EmitError`, if one does. -/
def EmitError.violation? : EmitError → Option Violation
  | .unknownEncoding _ => none
  | .start v | .stop v => some v
  | .summary e => some e.violation

namespace Encoding

/-- The name of the objective where it is a variable of its own. -/
def objectiveName : String := "cost"

/-! ### If-then-else costs -/

namespace Ite

/-- The cost of something that is chosen or not. -/
def chosenCost (chosen : Term) (cost : Int64) : Term :=
  .ite chosen (.int cost) (.int 0)

/-- Defines the cost of a block. A block without dominator is always executed. -/
def block (p : Problem) (b : Block) : Problem :=
  let value : Term := if b.isStart || b.cost == 0 then .int b.cost else chosenCost b.chosen b.cost
  (p.declare b.costName .int).assert (.equal b.costTerm value)

/-- Defines the cost of an edge. -/
def edge (p : Problem) (e : Edge) : Problem :=
  let value : Term := if e.cost == 0 then .int 0 else chosenCost e.chosen e.cost
  (p.declare e.costName .int).assert (.equal e.costTerm value)

/-- The cost variables of the blocks that cost something. -/
def blockCosts (bs : List Block) : List Term :=
  (bs.filter (·.cost ≠ 0)).map Block.costTerm

/-- The cost variables of the edges that cost something. -/
def edgeCosts (es : List Edge) : List Term :=
  (es.filter (·.cost ≠ 0)).map Edge.costTerm

/-- Bounds the sum of the costs that a cut encloses. -/
def cut (g : Graph) (p : Problem) (c : Cut) : Problem :=
  let blocks := c.blocks.filterMap g.block?
  let edges := c.edges.filterMap fun id => g.edge? id.src id.dst
  let v : Term := .var c.costName
  (((p.declare c.costName .int).assert
    (.equal v (.sum (blockCosts blocks ++ edgeCosts edges)))).assert
    (.le v (.int c.cost)))

/-- States all blocks and edges, and the objective as their sum. -/
def entities (g : Graph) (p : Problem) : Problem × Term :=
  let objective : Term := .var objectiveName
  let p := p.declare objectiveName .int
  let p := g.sortedBlocks.foldl block p
  let p := g.sortedEdges.foldl edge p
  (p.assert (.equal objective (.sum (blockCosts g.sortedBlocks ++ edgeCosts g.sortedEdges))),
    objective)

end Ite

/-! ### Soft assertions -/

namespace Soft

/-- Choosing a block that costs something adds its cost to the penalty of a group. -/
def block (group : String) (p : Problem) (b : Block) : Problem :=
  if b.cost > 0 then p.assertSoft { term := .not b.chosen, weight := b.cost, group } else p

/-- Taking an edge that costs something adds its cost to the penalty of a group. -/
def edge (group : String) (p : Problem) (e : Edge) : Problem :=
  if e.cost > 0 then p.assertSoft { term := .not e.chosen, weight := e.cost, group } else p

/-- Bounds the penalty of a group of its own for what a cut encloses. -/
def cut (g : Graph) (p : Problem) (c : Cut) : Problem :=
  let p := p.declare c.costName .real
  let p := (c.blocks.filterMap g.block?).foldl (block c.costName) p
  let p := (c.edges.filterMap fun id => g.edge? id.src id.dst).foldl (edge c.costName) p
  p.assert (.le (.var c.costName) (.int c.cost))

/-- States all blocks and edges in the group of the objective. -/
def entities (g : Graph) (p : Problem) : Problem × Term :=
  let p := p.declare objectiveName .real
  let p := g.sortedBlocks.foldl (block objectiveName) p
  (g.sortedEdges.foldl (edge objectiveName) p, .var objectiveName)

end Soft

/-! ### Difference logic -/

namespace Difference

/-- Bounds how much the cost variable of a block may exceed that of one of its predecessors. -/
def bound (g : Graph) (b : Block) (uid : Int) : Option Term :=
  (g.block? uid).map fun pred =>
    let edgeCost := ((g.edge? uid b.uid).map (·.cost)).getD 0
    .le (.diff b.costTerm pred.costTerm) (.int (b.cost + edgeCost))

/-- An executed block is within the bound of one of its predecessors; a block without
predecessors costs what it costs. -/
def block (g : Graph) (p : Problem) (b : Block) : Problem :=
  let p := p.declare b.costName .int
  match (g.preds b.uid).filterMap (bound g b) with
  | [] => p.assert (.le b.costTerm (.int b.cost))
  | bounds => p.assert (.imply b.chosen (.disj bounds))

/-- A taken edge bounds the difference of its ends; if asked for, it also implies both. -/
def edge (impliesEnds : Bool) (g : Graph) (p : Problem) (e : Edge) : Problem :=
  let p := p.declare e.costName .int
  match g.block? e.id.src, g.block? e.id.dst with
  | some src, some dst =>
    let p := p.assert
      (.imply e.chosen (.le (.diff dst.costTerm src.costTerm) (.int (e.cost + dst.cost))))
    if impliesEnds then
      p.assert (.conj [.imply e.chosen src.chosen, .imply e.chosen dst.chosen])
    else p
  | _, _ => p

/-- Bounds the difference of the ends of a cut. -/
def cut (g : Graph) (p : Problem) (c : Cut) : Problem :=
  match g.block? c.id.head, g.block? c.id.tail with
  | some head, some tail =>
    p.assert (.le (.diff tail.costTerm head.costTerm) (.int (c.cost + tail.cost)))
  | _, _ => p

/-- States all blocks and edges; the objective is the cost variable of the end. -/
def entities (impliesEnds : Bool) (g : Graph) (stop : Block) (p : Problem) : Problem × Term :=
  let p := g.sortedBlocks.foldl (block g) p
  (g.sortedEdges.foldl (edge impliesEnds g) p, stop.costTerm)

end Difference

/-! ### The three encodings side by side -/

/-- States one block. -/
def emitBlock (enc : Encoding) (g : Graph) (p : Problem) (b : Block) : Problem :=
  match enc with
  | .iteCosts => Ite.block p b
  | .assertSoft => Soft.block objectiveName p b
  | .differenceLogic => Difference.block g p b

/-- States one edge. -/
def emitEdge (enc : Encoding) (impliesEnds : Bool) (g : Graph) (p : Problem) (e : Edge) :
    Problem :=
  match enc with
  | .iteCosts => Ite.edge p e
  | .assertSoft => Soft.edge objectiveName p e
  | .differenceLogic => Difference.edge impliesEnds g p e

/-- States one cut. -/
def emitCut (enc : Encoding) (g : Graph) (p : Problem) (c : Cut) : Problem :=
  match enc with
  | .iteCosts => Ite.cut g p c
  | .assertSoft => Soft.cut g p c
  | .differenceLogic => Difference.cut g p c

/-- States all blocks and edges, and returns the objective. -/
def emitEntities (enc : Encoding) (impliesEnds : Bool) (g : Graph) (stop : Block) (p : Problem) :
    Problem × Term :=
  match enc with
  | .iteCosts => Ite.entities g p
  | .assertSoft => Soft.entities g p
  | .differenceLogic => Difference.entities impliesEnds g stop p

end Encoding

/-- The comments that sum a problem up. -/
def EmitStats.comments (s : EmitStats) : List String :=
  let paths := Decimal.text s.paths
  [ "ENCODING = " ++ Decimal.text s.encoding.code
  , "NB_PATHS = " ++ paths
  , "NB_PATHS_DIGITS = " ++ Decimal.text paths.length
  , "NB_CUTS = " ++ Decimal.text s.cuts
  , "LONGEST_PATH = " ++ Decimal.text s.longest.toInt ]

namespace Graph

/-- The constraints of a graph and its cuts, and the objective. -/
def constraints (g : Graph) (enc : Encoding) (impliesEnds : Bool) (start stop : Block)
    (p : Problem) : Problem × Term :=
  let (p, objective) := enc.emitEntities impliesEnds g stop p
  let p := g.sortedCuts.foldl (enc.emitCut g) p
  (p.assert (.conj [start.chosen, stop.chosen]), objective)

/-- Bounds and states the objective, and appends the statistics. -/
def conclude (stats : EmitStats) (objective : Term) (p : Problem) : Problem :=
  let p := p.assert
    (.conj [.le (.int 0) objective, .le objective (.int stats.longest)])
  let p := p.addObjective
    { goal := .maximize, term := objective, lower := some 0, upper := some stats.longest }
  stats.comments.foldl Problem.addComment p

/-- States a graph as an optimization problem. If that fails, the constraints stated before
stay in the problem. -/
def emit (g : Graph) (p : Problem) (code : Int) (impliesEnds : Bool) :
    Problem × Except EmitError EmitStats :=
  match Encoding.ofCode? code with
  | none => (p, .error (.unknownEncoding code))
  | some encoding =>
    match g.blockOrFail g.start with
    | .error v => (p, .error (.start v))
    | .ok start =>
      match g.blockOrFail g.stop with
      | .error v => (p, .error (.stop v))
      | .ok stop =>
        let (p, objective) := g.constraints encoding impliesEnds start stop p
        match g.summary with
        | .error e => (p, .error (.summary e))
        | .ok { longest, paths } =>
          let stats : EmitStats :=
            { encoding, paths, cuts := g.cuts.length, longest := longest.cost }
          (conclude stats objective p, .ok stats)

end Graph

end WorstCase
