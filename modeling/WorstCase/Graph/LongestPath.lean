import WorstCase.Graph.Sweep

/-!
# Longest paths and path counts

For a block `src` that dominates `dst`, `Graph.longestPath` finds a path from `src` to `dst` of
the largest cost, counting blocks and edges, together with the part of the graph that lies
between the two. `Graph.countPaths` counts the paths. Both fold the steps of one sweep: when a
step is taken the value of its block is settled.

Costs are 64-bit integers and wrap around.
-/

namespace WorstCase

/-- The outcome of a longest-path query. -/
structure LongestPath where
  /-- The cost of the path, blocks and edges included. -/
  cost : Int64
  /-- The uids along one path of that cost, head first. -/
  path : List Int
  /-- The uids of the blocks in between, ends included, ascending. -/
  blocks : List Int
  /-- The edges in between, ascending. -/
  edges : List EdgeId
deriving DecidableEq, Repr

/-- What is known of a block on the way: the largest cost from it to the destination, and where
a path of that cost goes next. -/
structure Outlook where
  cost : Int64
  next : Option Int
deriving DecidableEq, Repr

/-- Outlooks by uid; the entry in front is the one that counts. -/
abbrev Outlooks := List (Int × Outlook)

namespace Graph

/-- The candidate that a step offers to its predecessor replaces what is known there if it
costs more. -/
def Step.relax (known : Outlooks) (s : Step) : Outlooks :=
  match known.lookup s.uid with
  | none => known
  | some ahead =>
    let cost := ahead.cost + s.edge.cost + s.pred.cost
    match known.lookup s.pred.uid with
    | some old =>
      if cost > old.cost then (s.pred.uid, { cost, next := some s.uid }) :: known else known
    | none => (s.pred.uid, { cost, next := some s.uid }) :: known

/-- Follows the outlooks from `cur` to `dst`; `path` holds the uids so far, last first. -/
def followFrom (known : Outlooks) (src dst : Int) :
    (bound : Nat) → (cur : Int) → (path : List Int) → Except Violation (List Int)
  | 0, cur, _ => .error (.loopAt cur)
  | bound + 1, cur, path =>
    if cur = dst then .ok path.reverse
    else
      match (known.lookup cur).bind (·.next) with
      | none => .error (.brokenPath src dst)
      | some next =>
        if path.contains next then .error (.loopAt next)
        else followFrom known src dst bound next (next :: path)

/-- The longest path from `src` to `dst`. -/
def longestPath (g : Graph) (src dst : Int) : Except Violation LongestPath := do
  let last ← g.blockOrFail dst
  let visits ← g.sweep src dst
  let known := visits.steps.foldl Step.relax [(dst, { cost := last.cost, next := none })]
  match known.lookup src with
  | none => throw (.notReaching src dst)
  | some outlook =>
    let path ← followFrom known src dst (g.blocks.length + 1) src [src]
    return { cost := outlook.cost
             path
             blocks := sortBy (fun a b => decide (a ≤ b)) (src :: visits.blocks)
             edges := sortBy EdgeId.le (visits.steps.map (·.edge.id)) }

/-- The paths through the block of a step are also paths from its predecessor. -/
def Step.count (counts : List (Int × Nat)) (s : Step) : List (Int × Nat) :=
  let ahead := (counts.lookup s.uid).getD 0
  (s.pred.uid, (counts.lookup s.pred.uid).getD 0 + ahead) :: counts

/-- The number of paths from `src` to `dst`. -/
def countPaths (g : Graph) (src dst : Int) : Except Violation Nat := do
  let visits ← g.sweep src dst
  match (visits.steps.foldl Step.count [(dst, 1)]).lookup src with
  | none => throw (.notReaching src dst)
  | some n => return n

end Graph

end WorstCase
