import WorstCase.Ascending
import WorstCase.Formula.Term
import WorstCase.Text.Quoted

/-!
# Flow graphs

A **flow graph** is a loop-free piece of code: blocks with costs and declared dominators, edges
with costs between them, a start and an end, and the cuts that summarize parts of it. Blocks
are known by their uid, edges and cuts by a pair of uids.

A graph lists blocks, edges and cuts in the order in which they were added. Everything else
(predecessors, successors, the block of a label, ascending identifiers) is read off these
lists, so there is a single copy of each fact. A `Store` keeps the copies as well.
-/

namespace WorstCase

/-! ### Identifiers -/

/-- The dominator of a block that has none. -/
def noDominator : Int := -1

/-- An edge is known by the uids of its source and its destination. -/
structure EdgeId where
  src : Int
  dst : Int
deriving DecidableEq, Repr

/-- A cut is known by the uids of its head and its tail. -/
structure CutId where
  head : Int
  tail : Int
deriving DecidableEq, Repr

/-- The text of a pair of uids. -/
def pairText (a b : Int) : String :=
  Decimal.text a ++ "_" ++ Decimal.text b

/-- The text of an edge identifier. -/
def EdgeId.text (id : EdgeId) : String := pairText id.src id.dst

/-- The text of a cut identifier. -/
def CutId.text (id : CutId) : String := pairText id.head id.tail

/-- Edges are ordered by source, then by destination. -/
def EdgeId.le (a b : EdgeId) : Bool :=
  decide (a.src < b.src) || (a.src == b.src && decide (a.dst ≤ b.dst))

/-- Cuts are ordered by head, then by tail. -/
def CutId.le (a b : CutId) : Bool :=
  decide (a.head < b.head) || (a.head == b.head && decide (a.tail ≤ b.tail))

/-! ### Blocks, edges and cuts -/

/-- A basic block. -/
structure Block where
  uid : Int
  /-- The label of the block, empty if it has none. -/
  label : String := ""
  /-- The Boolean variable that is true iff the block is executed. -/
  selector : String := ""
  /-- The variable of the block as the listing writes it. -/
  written : String := ""
  cost : Int64 := 0
  /-- The uid of the declared immediate dominator, or `noDominator`. -/
  dominator : Int := noDominator
deriving DecidableEq, Repr

namespace Block

/-- Whether the block declares no dominator. -/
def isStart (b : Block) : Bool := decide (b.dominator < 0)

/-- The term that says that the block is executed. -/
def chosen (b : Block) : Term := .var b.selector

/-- The variable that holds the cost of the block. -/
def costName (b : Block) : String := "c" ++ Decimal.text b.uid

/-- The cost variable as a term. -/
def costTerm (b : Block) : Term := .var b.costName

/-- A block with its variables filled in: the selector is `bs_` or `b_` and the uid unless it
is given, and the written variable is the selector unless it is given. -/
def named (b : Block) : Block :=
  let selector :=
    if b.selector = "" then (if b.isStart then "bs_" else "b_") ++ Decimal.text b.uid
    else b.selector
  { b with selector, written := if b.written = "" then selector else b.written }

end Block

/-- A possible transfer of control between two blocks. -/
structure Edge where
  id : EdgeId
  cost : Int64 := 0
deriving DecidableEq, Repr

namespace Edge

/-- The Boolean variable that is true iff the edge is taken. -/
def selector (e : Edge) : String := "t_" ++ e.id.text

/-- The term that says that the edge is taken. -/
def chosen (e : Edge) : Term := .var e.selector

/-- The variable that holds the cost of the edge. -/
def costName (e : Edge) : String := "c_" ++ e.id.text

/-- The cost variable as a term. -/
def costTerm (e : Edge) : Term := .var e.costName

end Edge

/-- A cut summarizes every path from its head to its tail by the largest cost of one. `blocks`
and `edges` list, in ascending order, the part of the graph that such paths run through. -/
structure Cut where
  id : CutId
  cost : Int64
  blocks : List Int
  edges : List EdgeId
deriving DecidableEq, Repr

/-- The variable that holds the cost of the cut. -/
def Cut.costName (c : Cut) : String := "cut_" ++ c.id.text

/-- A flow graph. -/
structure Graph where
  blocks : List Block := []
  edges : List Edge := []
  cuts : List Cut := []
  /-- The uid of the start block, or `noDominator` before it is known. -/
  start : Int := noDominator
  /-- The uid of the end block, or `noDominator` before it is known. -/
  stop : Int := noDominator
deriving DecidableEq, Repr

namespace Graph

/-! ### Looking up -/

/-- The block with a uid. -/
def block? (g : Graph) (uid : Int) : Option Block :=
  g.blocks.find? (·.uid = uid)

/-- The edge between two blocks. -/
def edge? (g : Graph) (src dst : Int) : Option Edge :=
  g.edges.find? (·.id = ⟨src, dst⟩)

/-- The cut between two blocks. -/
def cut? (g : Graph) (head tail : Int) : Option Cut :=
  g.cuts.find? (·.id = ⟨head, tail⟩)

/-- The uid of the block with a non-empty label. -/
def uid? (g : Graph) (label : String) : Option Int :=
  (g.blocks.find? fun b => b.label ≠ "" ∧ b.label = label).map (·.uid)

/-- The label of a block, or its uid if there is no such block. -/
def labelOf (g : Graph) (uid : Int) : String :=
  match g.block? uid with
  | some b => b.label
  | none => Decimal.text uid

/-- The non-empty labels with the uids of their blocks. -/
def labels (g : Graph) : List (String × Int) :=
  (g.blocks.filter (·.label ≠ "")).map fun b => (b.label, b.uid)

/-- The sources of the edges into a block, in the order in which the edges were added. -/
def preds (g : Graph) (uid : Int) : List Int :=
  (g.edges.filter (·.id.dst = uid)).map (·.id.src)

/-- The destinations of the edges out of a block, in the order in which the edges were added. -/
def succs (g : Graph) (uid : Int) : List Int :=
  (g.edges.filter (·.id.src = uid)).map (·.id.dst)

/-! ### Ascending views -/

/-- The uids of all blocks, ascending. -/
def uids (g : Graph) : List Int :=
  sortBy (fun a b => decide (a ≤ b)) (g.blocks.map (·.uid))

/-- The identifiers of all edges, ascending. -/
def edgeIds (g : Graph) : List EdgeId :=
  sortBy EdgeId.le (g.edges.map (·.id))

/-- The identifiers of all cuts, ascending. -/
def cutIds (g : Graph) : List CutId :=
  sortBy CutId.le (g.cuts.map (·.id))

/-- The blocks by ascending uid. -/
def sortedBlocks (g : Graph) : List Block :=
  g.uids.filterMap g.block?

/-- The edges by ascending identifier. -/
def sortedEdges (g : Graph) : List Edge :=
  g.edgeIds.filterMap fun id => g.edge? id.src id.dst

/-- The cuts by ascending identifier. -/
def sortedCuts (g : Graph) : List Cut :=
  g.cutIds.filterMap fun id => g.cut? id.head id.tail

end Graph

/-! ### Building -/

/-- Why a graph cannot be extended. -/
inductive BuildError where
  | duplicateBlock (uid : Int)
  | duplicateLabel (label : String)
  | unknownSource (id : EdgeId)
  | unknownDestination (id : EdgeId)
  | unknownStart (uid : Int)
  | unknownEnd (uid : Int)
deriving DecidableEq, Repr

/-- The wording of a `BuildError`. -/
def BuildError.message : BuildError → String
  | .duplicateBlock uid => "duplicate node " ++ Decimal.text uid
  | .duplicateLabel label => "duplicate label " ++ Text.quoted label
  | .unknownSource id => "edge " ++ id.text ++ ": unknown source node"
  | .unknownDestination id => "edge " ++ id.text ++ ": unknown destination node"
  | .unknownStart uid => "unknown start node " ++ Decimal.text uid
  | .unknownEnd uid => "unknown end node " ++ Decimal.text uid

namespace Graph

/-- Adds a block with a new uid and, unless it is empty, a new label. -/
def addBlock (g : Graph) (b : Block) : Except BuildError Graph :=
  if (g.block? b.uid).isSome then .error (.duplicateBlock b.uid)
  else if (g.uid? b.label).isSome then .error (.duplicateLabel b.label)
  else .ok { g with blocks := g.blocks ++ [b.named] }

/-- Adds an edge between known blocks. An edge that is there stays as it is. -/
def addEdge (g : Graph) (e : Edge) : Except BuildError Graph :=
  if (g.edge? e.id.src e.id.dst).isSome then .ok g
  else if (g.block? e.id.src).isNone then .error (.unknownSource e.id)
  else if (g.block? e.id.dst).isNone then .error (.unknownDestination e.id)
  else .ok { g with edges := g.edges ++ [e] }

/-- Names the start and the end. -/
def setEndpoints (g : Graph) (start stop : Int) : Except BuildError Graph :=
  if (g.block? start).isNone then .error (.unknownStart start)
  else if (g.block? stop).isNone then .error (.unknownEnd stop)
  else .ok { g with start, stop }

end Graph

end WorstCase
