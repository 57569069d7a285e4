import WorstCase.Graph.Basic

/-!
# Stores

A `Store` keeps a flow graph the way a program works on it, with every fact wherever it is needed:
blocks, edges and cuts stand in rows, and indexes say at which position one is found; a block knows
its neighbours; labels, uids and variables are looked up in tables. The copies must agree, and each
operation updates them one after the other.

An `Edit` is such a computation. What it has done before it fails stays done, so whether a refused
operation leaves a store alone depends on the order of its checks and its updates.

A `Graph` keeps a single copy of each fact. Calls on a store behave as they do on its graph, see
`WorstCase.Proofs.Store.Calls`.
-/

namespace WorstCase

/-- A block as it is stored, together with its neighbours. -/
structure Node where
  uid : Int
  label : String := ""
  selector : String := ""
  cost : Int64 := 0
  dominator : Int := noDominator
  preds : List Int := []
  succs : List Int := []
deriving DecidableEq, Repr

namespace Node

/-- The block of a node, given how the listing writes its variable. -/
def block (n : Node) (written : String) : Block where
  uid := n.uid
  label := n.label
  selector := n.selector
  written
  cost := n.cost
  dominator := n.dominator

/-- A node as it is added: it has a selector and no neighbours yet. -/
def fresh (n : Node) : Node :=
  { n with
    selector :=
      if n.selector = "" then (if n.dominator < 0 then "bs_" else "b_") ++ Decimal.text n.uid
      else n.selector
    preds := []
    succs := [] }

end Node

/-- A graph as it is stored. In tables, the entry in front counts. -/
structure Store where
  nodes : List Node := []
  /-- The positions of nodes by uid. -/
  nodeIndex : List (Int × Nat) := []
  edges : List Edge := []
  edgeIndex : List (EdgeId × Nat) := []
  cuts : List Cut := []
  cutIndex : List (CutId × Nat) := []
  /-- The uids of blocks by label. -/
  uidOf : List (String × Int) := []
  /-- The variables of blocks by label, as the listing writes them. -/
  nameOf : List (String × String) := []
  /-- The labels of blocks by variable. -/
  labelAt : List (String × String) := []
  start : Int := noDominator
  stop : Int := noDominator
deriving DecidableEq, Repr

namespace Store

/-! ### Looking up -/

/-- The node with a uid. -/
def node? (s : Store) (uid : Int) : Option Node :=
  (s.nodeIndex.lookup uid).bind (s.nodes[·]?)

/-- The edge between two blocks. -/
def edge? (s : Store) (src dst : Int) : Option Edge :=
  (s.edgeIndex.lookup ⟨src, dst⟩).bind (s.edges[·]?)

/-- The cut between two blocks. -/
def cut? (s : Store) (head tail : Int) : Option Cut :=
  (s.cutIndex.lookup ⟨head, tail⟩).bind (s.cuts[·]?)

/-- The uid of the block with a label. -/
def uid? (s : Store) (label : String) : Option Int :=
  s.uidOf.lookup label

/-- The uids of all blocks, ascending. -/
def uids (s : Store) : List Int :=
  sortBy (fun a b => decide (a ≤ b)) (s.nodes.map (·.uid))

/-- The identifiers of all edges, ascending. -/
def edgeIds (s : Store) : List EdgeId :=
  sortBy EdgeId.le (s.edges.map (·.id))

/-- The identifiers of all cuts, ascending. -/
def cutIds (s : Store) : List CutId :=
  sortBy CutId.le (s.cuts.map (·.id))

/-- The variable of a node as the listing writes it, or its selector. -/
def written (s : Store) (n : Node) : String :=
  (s.nameOf.lookup n.label).getD n.selector

/-- The block of a node. -/
def blockOf (s : Store) (n : Node) : Block :=
  n.block (s.written n)

/-- The graph that a store keeps. -/
def graph (s : Store) : Graph where
  blocks := s.nodes.map s.blockOf
  edges := s.edges
  cuts := s.cuts
  start := s.start
  stop := s.stop

end Store

/-! ### Building -/

/-- A computation on a store that can fail. -/
abbrev Edit (ε : Type) := ExceptT ε (StateM Store)

/-- What an edit returns for a store, and the store after it. -/
def Edit.on {ε α : Type} (x : Edit ε α) (s : Store) : Except ε α × Store :=
  x.run.run s

namespace Store

/-- Adds a node with a new uid and, unless it is empty, a new label. -/
def addNode (n : Node) : Edit BuildError Unit := do
  let s ← get
  if (s.nodeIndex.lookup n.uid).isSome then throw (.duplicateBlock n.uid)
  if (s.uidOf.lookup n.label).isSome && n.label ≠ "" then throw (.duplicateLabel n.label)
  let n := n.fresh
  modify fun s => { s with nodeIndex := (n.uid, s.nodes.length) :: s.nodeIndex }
  modify fun s => { s with nodes := s.nodes ++ [n] }
  if n.label ≠ "" then
    modify fun s => { s with uidOf := (n.label, n.uid) :: s.uidOf }
    let s ← get
    if (s.nameOf.lookup n.label).isNone then
      modify fun s => { s with nameOf := (n.label, n.selector) :: s.nameOf }
      modify fun s => { s with labelAt := (n.selector, n.label) :: s.labelAt }

/-- Adds an edge between known blocks and links both. An edge that is there stays as it is. -/
def addEdge (id : EdgeId) (cost : Int64) : Edit BuildError Unit := do
  let s ← get
  if (s.edgeIndex.lookup id).isNone then
    let some src := s.nodeIndex.lookup id.src | throw (.unknownSource id)
    let some dst := s.nodeIndex.lookup id.dst | throw (.unknownDestination id)
    modify fun s => { s with edgeIndex := (id, s.edges.length) :: s.edgeIndex }
    modify fun s => { s with edges := s.edges ++ [{ id, cost }] }
    -- for an edge from a block to itself both changes are made to the same node
    modify fun s =>
      { s with nodes := s.nodes.modify src fun n => { n with succs := n.succs ++ [id.dst] } }
    modify fun s =>
      { s with nodes := s.nodes.modify dst fun n => { n with preds := n.preds ++ [id.src] } }

/-- Names the start and the end. -/
def setEndpoints (start stop : Int) : Edit BuildError Unit := do
  let s ← get
  if (s.nodeIndex.lookup start).isNone then throw (.unknownStart start)
  if (s.nodeIndex.lookup stop).isNone then throw (.unknownEnd stop)
  modify fun s => { s with start, stop }

end Store

end WorstCase
