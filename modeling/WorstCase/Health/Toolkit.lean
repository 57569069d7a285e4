import WorstCase.Health.Structure

/-!
# Mirrors of a graph

Checks look at **mirrors** of a flow graph: directed graphs of another kind, which can be sorted,
walked through and asked for dominators. A `Toolkit` is such a kind of directed graphs. The checks
work with any of them; `Toolkit.standard` takes flow graphs without costs.

Directed graphs of a toolkit have no edges from a node to itself, so blocks that are their own
successors are kept apart. Edges run forward in one mirror and backward in the other, where a walk
from the end visits what reaches it.
-/

namespace WorstCase.Health

/-- Why the nodes of a directed graph cannot be sorted. -/
inductive SortError where
  /-- The nodes of each component reach each other. -/
  | unorderable (components : List (List Int))
  | other (message : String)
deriving DecidableEq, Repr

/-- A kind of directed graphs, whose nodes are integers, and searches in them. -/
structure Toolkit where
  Digraph : Type
  empty : Digraph
  addNode : Digraph → Int → Digraph
  setEdge : Digraph → (src dst : Int) → Digraph
  /-- What stops a topological sort, if anything does. The order itself is of no interest. -/
  sortError? : Digraph → Option SortError
  /-- The nodes that a walk from `root` visits. -/
  walk : Digraph → (root : Int) → List Int
  DominatorTree : Type
  dominators : (root : Int) → Digraph → DominatorTree
  /-- The immediate dominator of a node, unless the node is the root or cannot be reached. -/
  dominatorOf? : DominatorTree → Int → Option Int

/-- Flow graphs without costs as directed graphs. -/
def Toolkit.standard : Toolkit where
  Digraph := Graph
  empty := {}
  addNode g uid := { g with blocks := g.blocks ++ [{ uid }] }
  setEdge g src dst := { g with edges := g.edges ++ [{ id := ⟨src, dst⟩ }] }
  sortError? g :=
    match g.loops with
    | [] => none
    | components => some (.unorderable components)
  walk := Graph.reachableFrom
  DominatorTree := List (Int × Int)
  dominators root g := { g with start := root }.immediateDominators
  dominatorOf? tree uid := tree.lookup uid

/-- A graph in directed graphs of a toolkit. -/
structure Mirror (t : Toolkit) where
  forward : t.Digraph := t.empty
  backward : t.Digraph := t.empty
  /-- The blocks that are their own successors. -/
  selfLoops : List Int := []

namespace Mirror

variable {t : Toolkit}

/-- A mirror with one more block. -/
def addBlock (m : Mirror t) (uid : Int) : Mirror t :=
  { m with forward := t.addNode m.forward uid, backward := t.addNode m.backward uid }

/-- A mirror with one more edge. -/
def addEdge (m : Mirror t) (id : EdgeId) : Mirror t :=
  if id.src = id.dst then { m with selfLoops := m.selfLoops ++ [id.src] }
  else
    { m with
      forward := t.setEdge m.forward id.src id.dst
      backward := t.setEdge m.backward id.dst id.src }

/-- The mirror of a graph. -/
def ofGraph (t : Toolkit) (g : Graph) : Mirror t :=
  g.edgeIds.foldl addEdge (g.uids.foldl addBlock {})

end Mirror

/-- Whether `a` is met on the way up a dominator tree from `b`. `bound` limits the number of steps;
the number of nodes is never exceeded. -/
def climbs {t : Toolkit} (tree : t.DominatorTree) (a : Int) : (bound : Nat) → (b : Int) → Bool
  | 0, _ => false
  | bound + 1, b =>
    match t.dominatorOf? tree b with
    | none => false
    | some d => d = a || climbs tree a bound d

end WorstCase.Health
