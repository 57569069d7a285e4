import WorstCase.Graph.Basic
import WorstCase.Graph.Sweep

/-!
# The structure of a graph

What can be said about a graph without trusting the dominators that it declares: which blocks
are reachable, which lie on loops, and which block really is the immediate dominator of which.
A block **strictly dominates** another if it is a different block and on every way from the start
to the other. Such blocks are found by taking them away: then the other cannot be reached.
-/

namespace WorstCase

namespace Graph

/-- The blocks that can be reached from `root`, which comes first. -/
def reachableFrom (g : Graph) (root : Int) : List Int :=
  closure g.succs (g.blocks.length + 1) root

/-- The blocks from which `root` can be reached, `root` first. -/
def coreachableFrom (g : Graph) (root : Int) : List Int :=
  closure g.preds (g.blocks.length + 1) root

/-- The blocks that can be reached from `uid` and from which `uid` can be reached, ascending. -/
def component (g : Graph) (uid : Int) : List Int :=
  let ahead := g.reachableFrom uid
  let behind := g.coreachableFrom uid
  g.uids.filter fun v => ahead.contains v && behind.contains v

/-- The sets of several blocks that reach each other, each ascending. -/
def loops (g : Graph) : List (List Int) :=
  g.uids.filterMap fun uid =>
    match g.component uid with
    | first :: second :: more => if first = uid then some (first :: second :: more) else none
    | _ => none

/-- The blocks that can be reached from the start without passing through `uid`. -/
def reachableAvoiding (g : Graph) (uid : Int) : List Int :=
  if uid = g.start then []
  else closure (fun v => (g.succs v).filter (· ≠ uid)) (g.blocks.length + 1) g.start

/-- For each block that can be reached from the start, what can be reached without it. -/
def detours (g : Graph) : List (Int × List Int) :=
  (g.reachableFrom g.start).map fun uid => (uid, g.reachableAvoiding uid)

/-- The detours around the strict dominators of a reachable block: those that do not come to it. -/
def detoursPast (detours : List (Int × List Int)) (uid : Int) : List (Int × List Int) :=
  detours.filter fun (d, others) => d ≠ uid && !others.contains uid

/-- The strict dominator that all other strict dominators dominate. Blocks that are reached late
are the likely ones. -/
def immediateDominator? (detours : List (Int × List Int)) (uid : Int) : Option Int :=
  let doms := detoursPast detours uid
  (doms.reverse.find? fun (d, _) =>
    doms.all fun (other, reached) => other = d || !reached.contains d).map (·.1)

/-- The blocks that have an immediate dominator, each with it. -/
def immediateDominators (g : Graph) : List (Int × Int) :=
  let detours := g.detours
  detours.filterMap fun (uid, _) => (immediateDominator? detours uid).map (uid, ·)

end Graph

end WorstCase
