import WorstCase.Graph.Basic

/-!
# Sweeps

A **sweep** visits the blocks between `src` and `dst` backwards from `dst`, in an order in which
a block comes after all of its successors that can still reach `dst`. Successors that never
reach `dst` are dead ends and do not hold a block up. `src` itself is not visited.

A sweep keeps a worklist. Each step takes the first block of the worklist that is **ready**,
meaning that its relevant successors have been visited, and queues its predecessors. If no
block is ready there is a loop, or a way around `src`.

Before it starts a sweep checks that `src` lies on the chain of declared dominators of `dst`, and
finds the blocks that reach `dst`. They are a **closure**: what can be reached by following arrows,
as a list without repetitions in the order of a breadth-first search. `bound` limits the number of
points that are looked at, so any bound on the number of reachable points gives the whole closure.

Every query on a flow graph rests on two assumptions: the part of the graph it looks at is
acyclic, and the head of a region dominates its tail. A `Violation` says where one of them fails.
-/

/-! ### Violated assumptions -/

namespace WorstCase

/-- A failed assumption on a graph. -/
inductive Violation where
  | unknownBlock (uid : Int)
  | sameEndpoints (uid : Int)
  | notDominating (src dst : Int)
  | cyclicChain (uid : Int)
  | chainMissesStart (stop start : Int)
  | noReadyBlock (src dst : Int)
  | loopAt (uid : Int)
  | missingEdge (id : EdgeId)
  | notReaching (src dst : Int)
  | brokenPath (src dst : Int)
  | cutWithoutEndpoints (id : CutId)
  | cutWithoutEdge (id : CutId)
deriving DecidableEq, Repr

/-- The wording of a `Violation`. -/
def Violation.message (v : Violation) : String :=
  let node (uid : Int) : String := "node " ++ Decimal.text uid
  "invalid input graph: " ++
    match v with
    | .unknownBlock uid => "unknown " ++ node uid
    | .sameEndpoints uid => "head and tail coincide at " ++ node uid
    | .notDominating src dst => node src ++ " does not dominate " ++ node dst
    | .cyclicChain uid => "dominator chain of " ++ node uid ++ " is cyclic"
    | .chainMissesStart stop start =>
      "dominator chain of " ++ node stop ++ " misses start " ++ node start
    | .noReadyBlock src dst =>
      "no ready node between " ++ Decimal.text src ++ " and " ++ Decimal.text dst ++
        ", loop detected"
    | .loopAt uid => "loop detected at " ++ node uid
    | .missingEdge id => "missing edge " ++ id.text
    | .notReaching src dst => node src ++ " does not reach " ++ node dst
    | .brokenPath src dst =>
      "broken longest path from " ++ Decimal.text src ++ " to " ++ Decimal.text dst
    | .cutWithoutEndpoints id => "cut " ++ id.text ++ " does not enclose its endpoints"
    | .cutWithoutEdge id => "cut " ++ id.text ++ " encloses no edge"

/-! ### Closures -/

/-- The elements of a list that are not in `seen`, each once. -/
def freshIn {α : Type} [DecidableEq α] (seen : List α) : List α → List α
  | [] => []
  | x :: xs => if x ∈ seen then freshIn seen xs else x :: freshIn (x :: seen) xs

/-- Extends `seen` by what can be reached from the points of `queue`, which it holds. -/
def closureFrom {α : Type} [DecidableEq α] (arrows : α → List α) :
    (bound : Nat) → (queue seen : List α) → List α
  | 0, _, seen => seen
  | _ + 1, [], seen => seen
  | bound + 1, x :: queue, seen =>
    let fresh := freshIn seen (arrows x)
    closureFrom arrows bound (queue ++ fresh) (seen ++ fresh)

/-- What can be reached from `root`, which comes first. -/
def closure {α : Type} [DecidableEq α] (arrows : α → List α) (bound : Nat) (root : α) : List α :=
  closureFrom arrows bound [root] [root]

/-! ### The sweep -/

namespace Graph

/-- The block with a uid, or the violation that there is none. -/
def blockOrFail (g : Graph) (uid : Int) : Except Violation Block :=
  match g.block? uid with
  | some b => .ok b
  | none => .error (.unknownBlock uid)

/-- Climbs the chain of declared dominators from `cur`, looking for `src`. `dst` is where the
chain started. -/
def climb (g : Graph) (src dst : Int) : (bound : Nat) → (cur : Int) → Except Violation Unit
  | 0, _ => .error (.cyclicChain dst)
  | bound + 1, cur =>
    if cur = src then .ok ()
    else
      match g.block? cur with
      | none => .error (.notDominating src dst)
      | some b =>
        if b.dominator = noDominator then .error (.notDominating src dst)
        else g.climb src dst bound b.dominator

/-- Checks that `src` is on the chain of declared dominators of `dst`. A chain that is longer
than the number of blocks is cyclic. -/
def checkDominates (g : Graph) (src dst : Int) : Except Violation Unit :=
  g.climb src dst (g.blocks.length + 1) dst

/-- The blocks from which `dst` can be reached, `dst` included. -/
def reaching (g : Graph) (dst : Int) : List Int :=
  closure g.preds (g.blocks.length + 1) dst

/-- Whether every successor of a block that reaches the destination has been visited. -/
def isReady (g : Graph) (reaching visited : List Int) (uid : Int) : Bool :=
  (g.succs uid).all fun s => !reaching.contains s || visited.contains s

/-- The first block of a worklist that is ready. -/
def firstReady (g : Graph) (reaching visited : List Int) :
    List Int → Except Violation (Option Int)
  | [] => .ok none
  | uid :: rest => do
    if visited.contains uid then throw (.loopAt uid)
    let _ ← g.blockOrFail uid
    if g.isReady reaching visited uid then return some uid
    g.firstReady reaching visited rest

/-- The edges into a block, by predecessor. -/
def incoming (g : Graph) (uid : Int) : Except Violation (List (Block × Edge)) :=
  (g.preds uid).mapM fun p => do
    let pred ← g.blockOrFail p
    match g.edge? p uid with
    | some e => return (pred, e)
    | none => throw (.missingEdge ⟨p, uid⟩)

/-- One relaxation step of a sweep: control may pass from `pred` along `edge` to the block
`uid`, whose own value is settled. -/
structure Step where
  pred : Block
  edge : Edge
  uid : Int

/-- What a sweep went through: the blocks in the order of their visits, and the steps. -/
structure Visits where
  blocks : List Int := []
  steps : List Step := []

/-- Runs a sweep on. Every round visits another block, so as many rounds as there are blocks
suffice. -/
def sweepFrom (g : Graph) (src dst : Int) (reaching : List Int) :
    (rounds : Nat) → (worklist visited : List Int) → Except Violation Visits
  | _, [], _ => .ok {}
  | 0, _ :: _, _ => .error (.noReadyBlock src dst)
  | rounds + 1, worklist, visited => do
    match ← g.firstReady reaching visited worklist with
    | none => throw (.noReadyBlock src dst)
    | some uid =>
      let edges ← g.incoming uid
      let fresh := (g.preds uid).filter fun p =>
        p ≠ src && !visited.contains p && !worklist.contains p
      let rest ← g.sweepFrom src dst reaching rounds (worklist.erase uid ++ fresh) (uid :: visited)
      return { blocks := uid :: rest.blocks
               steps := edges.map (fun (pred, edge) => { pred, edge, uid }) ++ rest.steps }

/-- The sweep from `dst` back to `src`. -/
def sweep (g : Graph) (src dst : Int) : Except Violation Visits := do
  if src = dst then throw (.sameEndpoints src)
  let _ ← g.blockOrFail src
  g.checkDominates src dst
  g.sweepFrom src dst (g.reaching dst) g.blocks.length [dst] []

end Graph

end WorstCase
