import WorstCase.Graph.LongestPath

/-!
# Cuts

A cut from a head to a tail states the largest cost of a path between the two. This module
computes cuts and proposes where to cut:

* **dominator cuts**, from the declared dominator of every block with several predecessors;
* **semantic cuts**, given as *generations* of candidates;
* **recursive cuts**, which pair the merge points of the graph (the dominator chain of the end)
  at strides 2, 4, 8, ….

Cuts are registered once and never change. A run that meets a violation stops there, and the
cuts registered before stay.
-/

namespace WorstCase

/-- A group of candidates for cuts. -/
abbrev Generation := List CutId

/-- What a cut was added for. -/
inductive CutOrigin where
  | dominator
  | semantic
deriving DecidableEq, Repr

/-- A candidate that cannot be cut. -/
structure CutFailure where
  origin : CutOrigin
  id : CutId
  violation : Violation
deriving DecidableEq, Repr

/-- The wording of a `CutFailure`. -/
def CutFailure.message (f : CutFailure) : String :=
  (match f.origin with
    | .dominator => "dominator cut "
    | .semantic => "semantic cut ") ++
    f.id.text ++ ": " ++ f.violation.message

/-- What a run over candidates did: the graph with the cuts it added, their number, and the
candidate it stopped at. -/
structure CutRun where
  graph : Graph
  added : Nat := 0
  failure : Option CutFailure := none
deriving DecidableEq, Repr

/-- The cut that a longest path gives. -/
def Cut.ofLongestPath (id : CutId) (r : LongestPath) : Except Violation Cut :=
  if !(r.blocks.contains id.head && r.blocks.contains id.tail) then
    .error (.cutWithoutEndpoints id)
  else if r.edges.isEmpty then .error (.cutWithoutEdge id)
  else .ok { id, cost := r.cost, blocks := r.blocks, edges := r.edges }

namespace Graph

/-! ### Registering -/

/-- Registers the cut of a longest path, unless it is there. -/
def register (g : Graph) (id : CutId) (r : LongestPath) : Except Violation Graph :=
  if (g.cut? id.head id.tail).isSome then .ok g
  else do return { g with cuts := g.cuts ++ [← Cut.ofLongestPath id r] }

/-- Adds a cut, and says whether it is new. -/
def addCut (g : Graph) (id : CutId) : Except Violation (Graph × Bool) :=
  if (g.cut? id.head id.tail).isSome then .ok (g, false)
  else do
    let r ← g.longestPath id.head id.tail
    return (← g.register id r, true)

/-- Adds candidates in order, up to the first that cannot be cut. -/
def addCuts (origin : CutOrigin) (run : CutRun) : List CutId → CutRun
  | [] => run
  | id :: ids =>
    match run.graph.addCut id with
    | .error violation => { run with failure := some { origin, id, violation } }
    | .ok (graph, new) =>
      addCuts origin { run with graph, added := run.added + if new then 1 else 0 } ids

/-- The candidates for dominator cuts, by ascending tail. -/
def dominatorCandidates (g : Graph) : List CutId :=
  (g.sortedBlocks.filter fun b => 1 < (g.preds b.uid).length).map fun b => ⟨b.dominator, b.uid⟩

/-- Adds the dominator cuts. -/
def addDominatorCuts (g : Graph) : CutRun :=
  addCuts .dominator { graph := g } g.dominatorCandidates

/-- Adds the candidates of all generations. -/
def addSemanticCuts (g : Graph) (generations : List Generation) : CutRun :=
  addCuts .semantic { graph := g } generations.flatten

/-- The longest path from the start to the end. -/
def longestSyntacticPath (g : Graph) : Except Violation LongestPath :=
  g.longestPath g.start g.stop

/-- Registers the longest path from the start to the end as a cut. -/
def addGlobalCut (g : Graph) : Except Violation (Graph × LongestPath) := do
  let r ← g.longestSyntacticPath
  return (← g.register ⟨g.start, g.stop⟩ r, r)

/-! ### Merge points -/

/-- The chain of declared dominators from `cur` to the start. -/
def mergePointsFrom (g : Graph) : (bound : Nat) → (cur : Int) → Except Violation (List Int)
  | bound, cur =>
    if cur = g.start then .ok [cur]
    else
      match bound with
      | 0 => .error (.cyclicChain g.stop)
      | bound + 1 => do
        let b ← g.blockOrFail cur
        if b.dominator = noDominator then throw (.chainMissesStart g.stop g.start)
        return cur :: (← g.mergePointsFrom bound b.dominator)

/-- The merge points: the chain of declared dominators from the end to the start. A chain that
is longer than the number of blocks is cyclic. -/
def mergePoints (g : Graph) : Except Violation (List Int) :=
  g.mergePointsFrom g.blocks.length g.stop

/-- The pairs of points that are `stride` apart, the last of them closed on `last`. -/
def pairsApart (stride : Nat) (last : Int) : (bound : Nat) → List Int → List CutId
  | 0, _ => []
  | _, [] => []
  | bound + 1, tail :: rest =>
    let pair (head : Int) : List CutId := if head = tail then [] else [⟨head, tail⟩]
    match (tail :: rest).drop stride with
    | [] => pair last
    | head :: more => pair head ++ pairsApart stride last bound (head :: more)

/-- The powers of two from 2 on that are below `n`. -/
def strides (n : Nat) : List Nat :=
  ((List.range n).map fun k => Nat.pow 2 (k + 1)).takeWhile (· < n)

/-- The pairs of points at strides 2, 4, 8, …. -/
def recursivePairs (points : List Int) : List CutId :=
  (strides points.length).flatMap fun stride =>
    pairsApart stride (points.getLast?.getD noDominator) points.length points

/-- The candidates that the merge points give, each a generation of its own. -/
def recursiveCuts (g : Graph) : Except Violation (List Generation) := do
  return (recursivePairs (← g.mergePoints)).map ([·])

end Graph

end WorstCase
