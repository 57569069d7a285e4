import WorstCase.Graph.LongestPath
import WorstCase.Store.Basic

/-!
# Longest paths in stores

The search for a longest path as a store carries it out: blocks are found through the index, and
a block says itself where its edges come from and where they go. What a step contributes to the
costs is the same as for a graph (`Graph.Step.relax`).

On a store whose copies agree the search finds what it finds on the graph that is kept, see
`WorstCase.Proofs.Store.Search`.
-/

namespace WorstCase

namespace Store

/-- The node with a uid, or the violation that there is none. -/
def nodeOrFail (s : Store) (uid : Int) : Except Violation Node :=
  match s.node? uid with
  | some n => .ok n
  | none => .error (.unknownBlock uid)

/-- Climbs the chain of declared dominators from `cur`, looking for `src`. `dst` is where the
chain started. -/
def climb (s : Store) (src dst : Int) : (bound : Nat) → (cur : Int) → Except Violation Unit
  | 0, _ => .error (.cyclicChain dst)
  | bound + 1, cur =>
    if cur = src then .ok ()
    else
      match s.node? cur with
      | none => .error (.notDominating src dst)
      | some n =>
        if n.dominator = noDominator then .error (.notDominating src dst)
        else s.climb src dst bound n.dominator

/-- Checks that `src` is on the chain of declared dominators of `dst`. -/
def checkDominates (s : Store) (src dst : Int) : Except Violation Unit :=
  s.climb src dst (s.nodes.length + 1) dst

/-- The sources of the edges into a block, as its node has them. -/
def preds (s : Store) (uid : Int) : List Int :=
  match s.node? uid with
  | none => []
  | some n => n.preds

/-- The blocks from which `dst` can be reached, `dst` included. -/
def reaching (s : Store) (dst : Int) : List Int :=
  closure s.preds (s.nodes.length + 1) dst

/-- The first block of a worklist that is ready, with its node. -/
def firstReady (s : Store) (reaching visited : List Int) :
    List Int → Except Violation (Option (Int × Node))
  | [] => .ok none
  | uid :: rest => do
    if visited.contains uid then throw (.loopAt uid)
    let n ← s.nodeOrFail uid
    if n.succs.all fun v => !reaching.contains v || visited.contains v then return some (uid, n)
    s.firstReady reaching visited rest

/-- The edges into the block `uid`, whose node is `n`, by predecessor. -/
def incoming (s : Store) (uid : Int) (n : Node) : Except Violation (List (Block × Edge)) :=
  n.preds.mapM fun p => do
    let pred ← s.nodeOrFail p
    match s.edge? p uid with
    | some e => return (s.blockOf pred, e)
    | none => throw (.missingEdge ⟨p, uid⟩)

/-- Runs a sweep on. -/
def sweepFrom (s : Store) (src dst : Int) (reaching : List Int) :
    (rounds : Nat) → (worklist visited : List Int) → Except Violation Graph.Visits
  | _, [], _ => .ok {}
  | 0, _ :: _, _ => .error (.noReadyBlock src dst)
  | rounds + 1, worklist, visited => do
    match ← s.firstReady reaching visited worklist with
    | none => throw (.noReadyBlock src dst)
    | some (uid, n) =>
      let edges ← s.incoming uid n
      let fresh := n.preds.filter fun p =>
        p ≠ src && !visited.contains p && !worklist.contains p
      let rest ← s.sweepFrom src dst reaching rounds (worklist.erase uid ++ fresh) (uid :: visited)
      return { blocks := uid :: rest.blocks
               steps := edges.map (fun (pred, edge) => { pred, edge, uid }) ++ rest.steps }

/-- The sweep from `dst` back to `src`. -/
def sweep (s : Store) (src dst : Int) : Except Violation Graph.Visits := do
  if src = dst then throw (.sameEndpoints src)
  let _ ← s.nodeOrFail src
  s.checkDominates src dst
  s.sweepFrom src dst (s.reaching dst) s.nodes.length [dst] []

/-- The longest path from `src` to `dst`. -/
def longestPath (s : Store) (src dst : Int) : Except Violation LongestPath := do
  let last ← s.nodeOrFail dst
  let visits ← s.sweep src dst
  let known := visits.steps.foldl Graph.Step.relax [(dst, { cost := last.cost, next := none })]
  match known.lookup src with
  | none => throw (.notReaching src dst)
  | some outlook =>
    let path ← Graph.followFrom known src dst (s.nodes.length + 1) src [src]
    return { cost := outlook.cost
             path
             blocks := sortBy (fun a b => decide (a ≤ b)) (src :: visits.blocks)
             edges := sortBy EdgeId.le (visits.steps.map (·.edge.id)) }

end Store

end WorstCase
