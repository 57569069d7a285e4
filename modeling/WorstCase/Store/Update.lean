import WorstCase.Graph.Cut
import WorstCase.Graph.Matching
import WorstCase.Store.Search

/-!
# Costs and cuts in stores

Matching files and cuts as they change a store. A matching file sets the costs of nodes and edges
that it finds through the label table and the indexes, and what its lines have done before one of
them fails stays done. Cuts are registered from what a search of the store returns; runs over
candidates look at the store again before each of them.
-/

namespace WorstCase

namespace Store

/-! ### Matching files -/

/-- Changes the entry of a row that an index finds for a key. -/
def modifyAt {κ α : Type} [BEq κ] (index : List (κ × Nat)) (k : κ) (f : α → α) (rows : List α) :
    List α :=
  match index.lookup k with
  | none => rows
  | some i => rows.modify i f

/-- Changes the cost of one node. -/
def setNodeCost (uid : Int) (cost : Int64) (s : Store) : Store :=
  { s with nodes := modifyAt s.nodeIndex uid (fun n => { n with cost }) s.nodes }

/-- Changes the cost of one edge. -/
def setEdgeCost (id : EdgeId) (cost : Int64) (s : Store) : Store :=
  { s with edges := modifyAt s.edgeIndex id (fun e => { e with cost }) s.edges }

/-- Applies line `n` of a matching file. The uid is that of the node that the line names alone. -/
def applyLine (n : Nat) (raw : List Char) : Edit ReadError (Option Int) := do
  let fail (fragment : String) (cause : ReadCause) : Edit ReadError (Option Int) :=
    throw { kind := .matching, line := n, fragment, cause }
  match MatchingLine.read raw with
  | .error what => fail (String.ofList raw) (.malformed what)
  | .ok line =>
    let s ← get
    match s.uid? line.src with
    | none => fail line.src .unknownLabel
    | some src =>
      if line.dst = "" then
        modify (setNodeCost src line.cost)
        return some src
      else
        match s.uid? line.dst with
        | none => fail line.dst .unknownLabel
        | some dst =>
          match s.edge? src dst with
          | none => fail (String.ofList raw) (.malformed (.noEdge line.src line.dst))
          | some _ =>
            modify (setEdgeCost ⟨src, dst⟩ line.cost)
            return none

/-- Applies lines that are numbered from `n`; `named` holds the nodes named so far. -/
def applyLines (named : List Int) (n : Nat) : List (List Char) → Edit ReadError (List Int)
  | [] => return named
  | raw :: rest =>
    if Text.isBlankText raw then applyLines named (n + 1) rest
    else do
      let uid ← applyLine n raw
      applyLines (uid.toList ++ named) (n + 1) rest

/-- Clears the costs of the nodes that are not named. -/
def clearOthers (named : List Int) (s : Store) : Store :=
  { s with
    nodes := s.nodes.map fun n => if named.contains n.uid then n else { n with cost := 0 } }

/-- Applies a matching file. -/
def applyMatching (text : String) : Edit LineError Unit := do
  let scan := Text.Lines.read text.toList
  let named ← (applyLines [] 1 scan.lines).adapt LineError.read
  if scan.tooLong then throw (.tooLong .matching)
  modify (clearOthers named)

/-! ### Cuts -/

/-- Registers the cut of a longest path, unless it is there. -/
def register (id : CutId) (r : LongestPath) : Edit Violation Unit := do
  let s ← get
  if (s.cutIndex.lookup id).isNone then
    match Cut.ofLongestPath id r with
    | .error v => throw v
    | .ok c =>
      modify fun s => { s with cutIndex := (id, s.cuts.length) :: s.cutIndex }
      modify fun s => { s with cuts := s.cuts ++ [c] }

/-- Adds a cut. The flag says that a path was found for a cut that was not there. -/
def addCut (id : CutId) : StateM Store (Bool × Option Violation) := do
  let s ← get
  if (s.cutIndex.lookup id).isSome then return (false, none)
  match s.longestPath id.head id.tail with
  | .error v => return (false, some v)
  | .ok r =>
    match ← (register id r).run with
    | .error v => return (true, some v)
    | .ok () => return (true, none)

/-- Adds candidates in order, up to the first that cannot be cut. -/
def addCuts (origin : CutOrigin) (added : Nat) :
    List CutId → StateM Store (Nat × Option CutFailure)
  | [] => return (added, none)
  | id :: rest => do
    match ← addCut id with
    | (_, some violation) => return (added, some { origin, id, violation })
    | (new, none) => addCuts origin (added + if new then 1 else 0) rest

/-- Adds the candidates of all generations. -/
def addSemanticCuts (generations : List Generation) : StateM Store (Nat × Option CutFailure) :=
  addCuts .semantic 0 generations.flatten

/-- Adds the cuts from the declared dominators of those of the given blocks that have several
predecessors. -/
def addDominatorCutsOf (added : Nat) : List Int → StateM Store (Nat × Option CutFailure)
  | [] => return (added, none)
  | uid :: rest => do
    let s ← get
    match s.node? uid with
    | none => addDominatorCutsOf added rest
    | some n =>
      if n.preds.length ≤ 1 then addDominatorCutsOf added rest
      else
        let id : CutId := ⟨n.dominator, uid⟩
        match ← addCut id with
        | (_, some violation) => return (added, some { origin := .dominator, id, violation })
        | (new, none) => addDominatorCutsOf (added + if new then 1 else 0) rest

/-- Adds the dominator cuts. -/
def addDominatorCuts : StateM Store (Nat × Option CutFailure) := do
  let s ← get
  addDominatorCutsOf 0 s.uids

/-- The longest path from the start to the end, registered as a cut on demand. -/
def longestSyntacticPath (registers : Bool) : Edit Violation LongestPath := do
  let s ← get
  match s.longestPath s.start s.stop with
  | .error v => throw v
  | .ok r =>
    if registers then register ⟨s.start, s.stop⟩ r
    return r

end Store

end WorstCase
