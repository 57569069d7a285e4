import WorstCase.Proofs.Graph.Coherence
import WorstCase.Proofs.Store.Index

/-!
# Linked stores

A store is **linked** when its copies of each fact agree (`Store.Linked`): the indexes locate what
the rows hold, a node names the neighbours that the edges give it, the tables hold the labels of
the nodes, and the graph that is kept is coherent. What is looked up in a linked store is what is
looked up in its graph.

An edit **carries out** a step on the graph (`Store.CarriesOut`) when it fails where the step
fails, with the store exactly as it was, and else leads to a linked store of the new graph. The
three edits that build a store carry out the three steps that build a graph.
-/

namespace WorstCase

@[simp]
theorem Node.uid_fresh (n : Node) : n.fresh.uid = n.uid := rfl

@[simp]
theorem Node.label_fresh (n : Node) : n.fresh.label = n.label := rfl

namespace Store

variable {s : Store}

/-- The nodes that have a label. -/
def labelled (s : Store) : List Node :=
  s.nodes.filter (·.label ≠ "")

/-- The index and the tables say of the nodes what the nodes say themselves. -/
structure Named (s : Store) : Prop where
  nodes : Locates s.nodeIndex (s.nodes.map (·.uid))
  uidOf : s.uidOf = (s.labelled.map fun n => (n.label, n.uid)).reverse
  nameOf : s.nameOf = (s.labelled.map fun n => (n.label, n.selector)).reverse
  labelAt : s.labelAt = (s.labelled.map fun n => (n.selector, n.label)).reverse

/-- A store is **linked** when its copies of each fact agree. -/
structure Linked (s : Store) : Prop where
  coherent : s.graph.Coherent
  named : s.Named
  edges : Locates s.edgeIndex (s.edges.map (·.id))
  cuts : Locates s.cutIndex (s.cuts.map (·.id))
  preds : ∀ n ∈ s.nodes, n.preds = s.graph.preds n.uid
  succs : ∀ n ∈ s.nodes, n.succs = s.graph.succs n.uid

theorem linked_empty : ({} : Store).Linked where
  coherent := Graph.coherent_empty
  named := ⟨locates_nil, rfl, rfl, rfl⟩
  edges := locates_nil
  cuts := locates_nil
  preds _ hn := absurd hn List.not_mem_nil
  succs _ hn := absurd hn List.not_mem_nil

/-! ### The graph that is kept -/

@[simp]
theorem uid_blockOf (s : Store) (n : Node) : (s.blockOf n).uid = n.uid := rfl

@[simp]
theorem dominator_blockOf (s : Store) (n : Node) : (s.blockOf n).dominator = n.dominator := rfl

theorem map_uid_graph (s : Store) : s.graph.blocks.map (·.uid) = s.nodes.map (·.uid) := by
  rw [graph, List.map_map]
  rfl

theorem labels_graph (s : Store) :
    s.graph.labels = s.labelled.map fun n => (n.label, n.uid) := by
  simp only [Graph.labels, graph, labelled, List.filter_map, List.map_map]
  rfl

/-- Nodes may change, but for their uids, labels and selectors. -/
theorem Named.mapNodes (hs : s.Named) {f : Node → Node}
    (hf : ∀ n, (f n).uid = n.uid ∧ (f n).label = n.label ∧ (f n).selector = n.selector) :
    ({ s with nodes := s.nodes.map f } : Store).Named := by
  have huids : (s.nodes.map f).map (·.uid) = s.nodes.map (·.uid) := by
    rw [List.map_map]
    exact List.map_congr_left fun n _ => (hf n).1
  have hlabelled : ({ s with nodes := s.nodes.map f } : Store).labelled = s.labelled.map f := by
    simp only [labelled, List.filter_map, Function.comp_def, hf]
  refine ⟨huids.symm ▸ hs.nodes, ?_, ?_, ?_⟩ <;>
    simp only [hlabelled, List.map_map, Function.comp_def, hf]
  · exact hs.uidOf
  · exact hs.nameOf
  · exact hs.labelAt

/-- Edges, cuts and endpoints are not named. -/
theorem Named.rest (hs : s.Named) (edges : List Edge) (edgeIndex : List (EdgeId × Nat))
    (cuts : List Cut) (cutIndex : List (CutId × Nat)) (start stop : Int) :
    ({ s with edges, edgeIndex, cuts, cutIndex, start, stop } : Store).Named :=
  ⟨hs.nodes, hs.uidOf, hs.nameOf, hs.labelAt⟩

theorem mem_labelled {n : Node} : n ∈ s.labelled ↔ n ∈ s.nodes ∧ n.label ≠ "" := by
  rw [labelled, List.mem_filter, decide_eq_true_eq]

/-- What stands in a table by label. -/
theorem mem_table {β : Type} {f : Node → β} {table : List (String × β)}
    (h : table = (s.labelled.map fun n => (n.label, f n)).reverse) {l : String} {b : β} :
    (l, b) ∈ table ↔ l ≠ "" ∧ ∃ n ∈ s.nodes, n.label = l ∧ f n = b := by
  simp only [h, List.mem_reverse, List.mem_map, mem_labelled, Prod.mk.injEq]
  constructor
  · rintro ⟨n, ⟨hn, hl⟩, rfl, rfl⟩
    exact ⟨hl, n, hn, rfl, rfl⟩
  · rintro ⟨hl, n, hn, rfl, rfl⟩
    exact ⟨n, ⟨hn, hl⟩, rfl, rfl⟩

/-- Where labels do not repeat, they do not in the tables. -/
theorem Named.nodup_keys (hs : s.Named) (hl : (s.labelled.map (·.label)).Nodup) :
    (s.uidOf.map (·.1)).Nodup ∧ (s.nameOf.map (·.1)).Nodup := by
  rw [hs.uidOf, hs.nameOf, List.map_reverse, List.map_reverse, List.nodup_reverse,
    List.nodup_reverse, List.map_map, List.map_map]
  exact ⟨hl, hl⟩

/-- The listing writes the selector of a node for its variable. -/
theorem Named.written_eq (hs : s.Named) (hl : (s.labelled.map (·.label)).Nodup) {n : Node}
    (hn : n ∈ s.nodes) : s.written n = n.selector := by
  rw [written]
  rcases h : s.nameOf.lookup n.label with _ | name
  · rfl
  · rw [lookup_eq_some_iff_mem (hs.nodup_keys hl).2, mem_table hs.nameOf] at h
    obtain ⟨hlabel, m, hm, heq, rfl⟩ := h
    -- labels do not repeat, so the entry is that of the node itself
    obtain rfl := List.inj_on_of_nodup_map hl (mem_labelled.mpr ⟨hm, heq ▸ hlabel⟩)
      (mem_labelled.mpr ⟨hn, hlabel⟩) heq
    rfl

theorem Named.blocks_graph (hs : s.Named) (hl : (s.labelled.map (·.label)).Nodup) :
    s.graph.blocks = s.nodes.map fun n => n.block n.selector :=
  List.map_congr_left fun n hn => by rw [blockOf, hs.written_eq hl hn]

namespace Linked

theorem labels_nodup (hs : s.Linked) : (s.labelled.map (·.label)).Nodup := by
  have h := hs.coherent.labels_nodup
  rwa [labels_graph, List.map_map] at h

theorem node?_eq (hs : s.Linked) (uid : Int) : s.node? uid = s.nodes.find? (·.uid = uid) :=
  hs.named.nodes.bind_eq_find? uid

theorem edge?_eq (hs : s.Linked) (src dst : Int) : s.edge? src dst = s.graph.edge? src dst :=
  hs.edges.bind_eq_find? ⟨src, dst⟩

theorem cut?_eq (hs : s.Linked) (head tail : Int) : s.cut? head tail = s.graph.cut? head tail :=
  hs.cuts.bind_eq_find? ⟨head, tail⟩

/-- The graph has the block of each node. -/
theorem block?_graph (hs : s.Linked) (uid : Int) :
    s.graph.block? uid = (s.node? uid).map s.blockOf := by
  rw [hs.node?_eq, Graph.block?, graph, List.find?_map]
  rfl

theorem mem_of_node? (hs : s.Linked) {uid : Int} {n : Node} (h : s.node? uid = some n) :
    n ∈ s.nodes ∧ n.uid = uid := by
  rw [hs.node?_eq] at h
  exact ⟨List.mem_of_find?_eq_some h, by simpa using List.find?_some h⟩

theorem isSome_nodeIndex (hs : s.Linked) (uid : Int) :
    (s.nodeIndex.lookup uid).isSome = (s.graph.block? uid).isSome := by
  rw [Bool.eq_iff_iff, hs.named.nodes.isSome_iff, Graph.block?_isSome_iff, map_uid_graph]

theorem isSome_edgeIndex (hs : s.Linked) (id : EdgeId) :
    (s.edgeIndex.lookup id).isSome = (s.graph.edge? id.src id.dst).isSome := by
  rw [Bool.eq_iff_iff, hs.edges.isSome_iff, Graph.edge?_isSome_iff]
  rfl

theorem isSome_cutIndex (hs : s.Linked) (id : CutId) :
    (s.cutIndex.lookup id).isSome = (s.graph.cut? id.head id.tail).isSome := by
  rw [Bool.eq_iff_iff, hs.cuts.isSome_iff]
  exact find?_key_isSome_iff.symm

/-- The label table finds the block with a label. -/
theorem uid?_eq (hs : s.Linked) (l : String) : s.uid? l = s.graph.uid? l := by
  ext uid
  rw [uid?, lookup_eq_some_iff_mem (hs.named.nodup_keys hs.labels_nodup).1, hs.coherent.uid?_iff,
    hs.named.uidOf, List.mem_reverse, labels_graph]

end Linked

/-! ### Steps that are carried out -/

/-- An edit **carries out** a step on the graph. -/
def CarriesOut {ε α : Type} (s : Store) (x : Edit ε α) : Except ε (Graph × α) → Prop
  | .error e => x.on s = (.error e, s)
  | .ok (g, a) => ∃ s', x.on s = (.ok a, s') ∧ s'.Linked ∧ s'.graph = g

/-! ### Adding nodes -/

/-- A store with one more node. -/
def withNode (s : Store) (n : Node) : Store :=
  let s' := { s with
    nodeIndex := (n.uid, s.nodes.length) :: s.nodeIndex
    nodes := s.nodes ++ [n] }
  if n.label = "" then s'
  else { s' with
    uidOf := (n.label, n.uid) :: s.uidOf
    nameOf := (n.label, n.selector) :: s.nameOf
    labelAt := (n.selector, n.label) :: s.labelAt }

theorem nodes_withNode (s : Store) (n : Node) : (s.withNode n).nodes = s.nodes ++ [n] := by
  rw [withNode]
  split <;> rfl

theorem labelled_withNode (s : Store) (n : Node) :
    (s.withNode n).labelled = s.labelled ++ if n.label = "" then [] else [n] := by
  rw [labelled, nodes_withNode, List.filter_append, labelled]
  split <;> simp_all

/-- What a new node changes besides its row and its tables. -/
theorem rest_withNode (s : Store) (n : Node) :
    (s.withNode n).edges = s.edges ∧ (s.withNode n).edgeIndex = s.edgeIndex ∧
      (s.withNode n).cuts = s.cuts ∧ (s.withNode n).cutIndex = s.cutIndex ∧
      (s.withNode n).start = s.start ∧ (s.withNode n).stop = s.stop := by
  rw [withNode]
  split <;> exact ⟨rfl, rfl, rfl, rfl, rfl, rfl⟩

theorem Named.withNode (hs : s.Named) {n : Node} (hn : n.uid ∉ s.nodes.map (·.uid)) :
    (s.withNode n).Named := by
  have hnodes : Locates ((n.uid, s.nodes.length) :: s.nodeIndex)
      ((s.nodes ++ [n]).map (·.uid)) := by
    rw [List.map_append, List.map_singleton, ← List.length_map (·.uid)]
    exact hs.nodes.push hn
  have hlabelled := labelled_withNode s n
  by_cases hl : n.label = ""
  · rw [if_pos hl, List.append_nil] at hlabelled
    rw [Store.withNode, if_pos hl] at hlabelled ⊢
    constructor <;> simp only [hlabelled]
    exacts [hnodes, hs.uidOf, hs.nameOf, hs.labelAt]
  · rw [if_neg hl] at hlabelled
    rw [Store.withNode, if_neg hl] at hlabelled ⊢
    constructor <;>
      simp only [hlabelled, List.map_append, List.map_singleton, List.reverse_append,
        List.reverse_singleton, List.singleton_append]
    · rw [← List.map_singleton, ← List.map_append]
      exact hnodes
    · rw [hs.uidOf]
    · rw [hs.nameOf]
    · rw [hs.labelAt]

theorem block_fresh (n : Node) : n.fresh.block n.fresh.selector = (n.block "").named := by
  by_cases h : n.dominator < 0 <;> simp [Node.fresh, Node.block, Block.named, Block.isStart, h]

/-- Edges join blocks that are there, so an unknown block has no neighbours. -/
theorem neighbours_eq_nil {g : Graph} (hg : g.Valid) {uid : Int}
    (h : uid ∉ g.blocks.map (·.uid)) : g.preds uid = [] ∧ g.succs uid = [] := by
  simp only [List.eq_nil_iff_forall_not_mem]
  exact ⟨fun p hp => h (hg.ends_known _ (Graph.mem_preds_iff.mp hp)).2,
    fun p hp => h (hg.ends_known _ (Graph.mem_succs_iff.mp hp)).1⟩

/-- The tables have the same labels. -/
theorem Named.lookup_nameOf_eq_none (hs : s.Named) (l : String) (hl : s.uidOf.lookup l = none) :
    s.nameOf.lookup l = none := by
  rw [List.lookup_eq_none_iff, hs.uidOf] at hl
  rw [List.lookup_eq_none_iff, hs.nameOf]
  intro p hp
  obtain ⟨n, hn, rfl⟩ := List.mem_map.mp (List.mem_reverse.mp hp)
  exact hl (n.label, n.uid) (List.mem_reverse.mpr (List.mem_map.mpr ⟨n, hn, rfl⟩))

theorem Linked.withNode (hs : s.Linked) {n : Node} {g : Graph}
    (h : s.graph.addBlock (n.block "") = .ok g) :
    (s.withNode n.fresh).Linked ∧ (s.withNode n.fresh).graph = g := by
  have hcoherent := hs.coherent.addBlock h
  have hlabel : n.label ∉ s.graph.labels.map (·.1) := Graph.label_fresh_of_addBlock h
  obtain ⟨huid, rfl⟩ := Graph.addBlock_eq_ok h
  change n.uid ∉ s.graph.blocks.map (·.uid) at huid
  have hnamed : (s.withNode n.fresh).Named :=
    hs.named.withNode (by rw [← map_uid_graph]; exact huid)
  have hlabels : ((s.withNode n.fresh).labelled.map (·.label)).Nodup := by
    rw [labels_graph, List.map_map] at hlabel
    rw [labelled_withNode, List.map_append]
    split
    · rw [List.map_nil, List.append_nil]
      exact hs.labels_nodup
    · refine List.nodup_append.mpr ⟨hs.labels_nodup, List.nodup_singleton _, ?_⟩
      intro l hl l' hl' heq
      rw [List.map_singleton, List.mem_singleton] at hl'
      exact hlabel (hl' ▸ heq ▸ hl)
  obtain ⟨hedges, hedgeIndex, hcuts, hcutIndex, hstart, hstop⟩ := rest_withNode s n.fresh
  have hgraph : (s.withNode n.fresh).graph =
      { s.graph with blocks := s.graph.blocks ++ [(n.block "").named] } := by
    have hblocks := hnamed.blocks_graph hlabels
    rw [nodes_withNode, List.map_append, List.map_singleton,
      ← hs.named.blocks_graph hs.labels_nodup, block_fresh] at hblocks
    rw [← hblocks]
    simp only [graph, hedges, hcuts, hstart, hstop]
  refine ⟨⟨hgraph ▸ hcoherent, hnamed, ?_, ?_, fun m hm => ?_, fun m hm => ?_⟩, hgraph⟩
  · rw [hedges, hedgeIndex]
    exact hs.edges
  · rw [hcuts, hcutIndex]
    exact hs.cuts
  -- no edge leads to the new node or away from it, as edges join blocks that are there
  all_goals
    rw [nodes_withNode, List.mem_append, List.mem_singleton] at hm
    rw [hgraph]
  · obtain hm | rfl := hm
    · exact hs.preds m hm
    · exact (neighbours_eq_nil hs.coherent.valid huid).1.symm
  · obtain hm | rfl := hm
    · exact hs.succs m hm
    · exact (neighbours_eq_nil hs.coherent.valid huid).2.symm

/-- What adding a node does: both checks come before the first change. -/
theorem on_addNode (hname : ∀ l, s.uidOf.lookup l = none → s.nameOf.lookup l = none) (n : Node) :
    (addNode n).on s =
      if (s.nodeIndex.lookup n.uid).isSome then (.error (.duplicateBlock n.uid), s)
      else if (s.uidOf.lookup n.label).isSome && n.label ≠ "" then
        (.error (.duplicateLabel n.label), s)
      else (.ok (), s.withNode n.fresh) := by
  simp only [addNode, Edit.on_bind, Edit.on_get, Edit.on_ite, Edit.on_throw, Edit.on_pure,
    Edit.on_modify]
  by_cases hempty : n.label = ""
  · have hfresh : n.fresh.label = "" := hempty
    simp only [withNode, hfresh, hempty, ne_eq, not_true_eq_false, ↓reduceIte]
  · -- a new label has no variable yet
    rcases hl : s.uidOf.lookup n.label with _ | uid
    · have hnone : s.nameOf.lookup n.label = none := hname _ hl
      simp [withNode, hempty, hnone]
    · simp [hempty]

/-- **Adding a node carries out adding its block.** -/
theorem Linked.addNode (hs : s.Linked) (n : Node) :
    s.CarriesOut (addNode n) ((·, ()) <$> s.graph.addBlock (n.block "")) := by
  have hlabel : ((s.uidOf.lookup n.label).isSome && decide (n.label ≠ "")) =
      (s.graph.uid? n.label).isSome := by
    rw [← hs.uid?_eq]
    by_cases hempty : n.label = ""
    · have hnone : s.uid? n.label = none := by
        rw [hs.uid?_eq, hempty, Graph.uid?_eq_none_iff, List.mem_map]
        rintro ⟨⟨l, uid⟩, hmem, rfl⟩
        exact (Graph.mem_labels.mp hmem).1 rfl
      rw [hnone]
      simp [hempty]
    · simp [hempty, uid?]
  have hgraph : s.graph.addBlock (n.block "") =
      if (s.nodeIndex.lookup n.uid).isSome then .error (.duplicateBlock n.uid)
      else if (s.uidOf.lookup n.label).isSome && n.label ≠ "" then .error (.duplicateLabel n.label)
      else .ok { s.graph with blocks := s.graph.blocks ++ [(n.block "").named] } := by
    rw [hlabel, hs.isSome_nodeIndex]
    rfl
  have hon := on_addNode hs.named.lookup_nameOf_eq_none n
  by_cases huid : (s.nodeIndex.lookup n.uid).isSome
  · rw [if_pos huid] at hgraph hon
    rw [hgraph]
    exact hon
  by_cases htaken : (s.uidOf.lookup n.label).isSome && n.label ≠ ""
  · rw [if_neg huid, if_pos htaken] at hgraph hon
    rw [hgraph]
    exact hon
  · rw [if_neg huid, if_neg htaken] at hgraph hon
    obtain ⟨hlinked, hkept⟩ := hs.withNode hgraph
    rw [hgraph]
    exact ⟨s.withNode n.fresh, hon, hlinked, hkept⟩

/-! ### Adding edges -/

/-- A node with the edge `id` among those out of it and those into it, where it is one. -/
def linkedBy (id : EdgeId) (n : Node) : Node :=
  { n with
    succs := if n.uid = id.src then n.succs ++ [id.dst] else n.succs
    preds := if n.uid = id.dst then n.preds ++ [id.src] else n.preds }

/-- A store with one more edge. -/
def withEdge (s : Store) (e : Edge) : Store :=
  { s with
    edgeIndex := (e.id, s.edges.length) :: s.edgeIndex
    edges := s.edges ++ [e]
    nodes := s.nodes.map (linkedBy e.id) }

theorem graph_withEdge (s : Store) (e : Edge) :
    (s.withEdge e).graph = { s.graph with edges := s.graph.edges ++ [e] } := by
  simp only [graph, withEdge, List.map_map]
  rfl

/-- The neighbours that one more edge gives a block. -/
theorem neighbours_withEdge (s : Store) (e : Edge) (uid : Int) :
    (s.withEdge e).graph.preds uid =
        s.graph.preds uid ++ (if uid = e.id.dst then [e.id.src] else []) ∧
      (s.withEdge e).graph.succs uid =
        s.graph.succs uid ++ (if uid = e.id.src then [e.id.dst] else []) := by
  simp only [graph_withEdge, Graph.preds, Graph.succs, List.filter_append, List.map_append,
    List.filter_singleton]
  constructor
  · by_cases h : uid = e.id.dst
    · simp [h]
    · simp [h, Ne.symm h]
  · by_cases h : uid = e.id.src
    · simp [h]
    · simp [h, Ne.symm h]

theorem Linked.withEdge (hs : s.Linked) {e : Edge} (he : e.id ∉ s.edges.map (·.id))
    (hcoherent : (s.withEdge e).graph.Coherent) : (s.withEdge e).Linked := by
  refine ⟨hcoherent, ?_, ?_, hs.cuts, fun m hm => ?_, fun m hm => ?_⟩
  · exact (hs.named.mapNodes (f := linkedBy e.id) fun n => ⟨rfl, rfl, rfl⟩).rest ..
  · show Locates ((e.id, s.edges.length) :: s.edgeIndex) ((s.edges ++ [e]).map (·.id))
    rw [List.map_append, List.map_singleton, ← List.length_map (·.id)]
    exact hs.edges.push he
  all_goals
    obtain ⟨n, hn, rfl⟩ := List.mem_map.mp hm
    simp only [neighbours_withEdge, linkedBy]
  · rw [hs.preds n hn]
    split_ifs <;> simp
  · rw [hs.succs n hn]
    split_ifs <;> simp

/-- The two changes that link an edge are made to the nodes at its ends, which may be the same. -/
theorem Named.modify_modify (hs : s.Named) {id : EdgeId} {i j : Nat}
    (hi : s.nodeIndex.lookup id.src = some i) (hj : s.nodeIndex.lookup id.dst = some j) :
    ((s.nodes.modify i fun n => { n with succs := n.succs ++ [id.dst] }).modify j
      fun n => { n with preds := n.preds ++ [id.src] }) = s.nodes.map (linkedBy id) := by
  rw [hs.nodes.modify_eq hi]
  -- the first change keeps the uids, so the index still finds the node for the second one
  have hnodes := (hs.mapNodes (f := fun n =>
    if n.uid = id.src then { n with succs := n.succs ++ [id.dst] } else n) fun n => by
      split <;> exact ⟨rfl, rfl, rfl⟩).nodes
  rw [hnodes.modify_eq hj, List.map_map]
  refine List.map_congr_left fun n _ => ?_
  simp only [Function.comp_apply, linkedBy]
  split_ifs <;> simp_all

/-- **Adding an edge carries out adding it to the graph.** -/
theorem Linked.addEdge (hs : s.Linked) (e : Edge) :
    s.CarriesOut (addEdge e.id e.cost) ((·, ()) <$> s.graph.addEdge e) := by
  have hgraph : s.graph.addEdge e =
      if (s.edgeIndex.lookup e.id).isSome then .ok s.graph
      else if (s.nodeIndex.lookup e.id.src).isNone then .error (.unknownSource e.id)
      else if (s.nodeIndex.lookup e.id.dst).isNone then .error (.unknownDestination e.id)
      else .ok (s.withEdge e).graph := by
    simp only [Graph.addEdge, graph_withEdge, ← Option.not_isSome, hs.isSome_edgeIndex,
      hs.isSome_nodeIndex]
  rcases hid : s.edgeIndex.lookup e.id with _ | k
  · rcases hsrc : s.nodeIndex.lookup e.id.src with _ | i
    · simp [hgraph, CarriesOut, Store.addEdge, hid, hsrc]
    · rcases hdst : s.nodeIndex.lookup e.id.dst with _ | j
      · simp [hgraph, CarriesOut, Store.addEdge, hid, hsrc, hdst]
      · have hadd : s.graph.addEdge e = .ok (s.withEdge e).graph := by
          simp [hgraph, hid, hsrc, hdst]
        rw [hadd]
        refine ⟨s.withEdge e, ?_, hs.withEdge ?_ (hs.coherent.addEdge hadd), rfl⟩
        · simp [Store.addEdge, hid, hsrc, hdst, Store.withEdge, hs.named.modify_modify hsrc hdst]
        · rw [← hs.edges.isSome_iff, hid]
          exact Bool.false_ne_true
  · rw [hgraph, hid]
    exact ⟨s, by simp [Store.addEdge, hid], hs, rfl⟩

/-! ### Naming the endpoints -/

/-- **Naming the endpoints carries out naming those of the graph.** -/
theorem Linked.setEndpoints (hs : s.Linked) (start stop : Int) :
    s.CarriesOut (setEndpoints start stop) ((·, ()) <$> s.graph.setEndpoints start stop) := by
  have hgraph : s.graph.setEndpoints start stop =
      if (s.nodeIndex.lookup start).isNone then .error (.unknownStart start)
      else if (s.nodeIndex.lookup stop).isNone then .error (.unknownEnd stop)
      else .ok ({ s with start, stop } : Store).graph := by
    simp only [Graph.setEndpoints, ← Option.not_isSome, hs.isSome_nodeIndex]
    rfl
  rcases hstart : s.nodeIndex.lookup start with _ | i
  · simp [hgraph, CarriesOut, Store.setEndpoints, hstart]
  · rcases hstop : s.nodeIndex.lookup stop with _ | j
    · simp [hgraph, CarriesOut, Store.setEndpoints, hstart, hstop]
    · have hset : s.graph.setEndpoints start stop = .ok ({ s with start, stop } : Store).graph := by
        simp [hgraph, hstart, hstop]
      rw [hset]
      refine ⟨{ s with start, stop }, ?_, ?_, rfl⟩
      · simp [Store.setEndpoints, hstart, hstop]
      · exact ⟨hs.coherent.setEndpoints hset, hs.named.rest .., hs.edges, hs.cuts, hs.preds,
          hs.succs⟩

end Store

end WorstCase
