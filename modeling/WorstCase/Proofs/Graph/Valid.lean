import WorstCase.Graph.Cut
import WorstCase.Graph.Listing
import WorstCase.Graph.Matching
import WorstCase.Proofs.Outcome
import Mathlib.Data.List.Nodup

/-!
# Valid graphs

A graph is **valid** when its uids and its edge identifiers are pairwise different and every edge
joins blocks of the graph. In a valid graph looking up a block or an edge finds exactly the
entries of the lists.

`Graph.Built` describes the graphs that can arise: from the empty graph, or from a listing, by
adding blocks and edges, by matching files, and by annotating. An **annotation** registers cuts or
names the endpoints; it leaves blocks, edges and costs alone. Runs over candidates for cuts count
as annotations also where they stop at a violation.

* `Graph.Built.valid`: every graph that can arise is valid.
* `Graph.Annotates.blocks_eq`, `Graph.Annotates.edges_eq`: annotations keep blocks and edges.
-/

namespace WorstCase

/-! ### Lists with a key -/

/-- In a list whose keys differ, a search by key finds exactly the element with that key. -/
theorem find?_key_eq_some_iff {α κ : Type} [DecidableEq κ] {key : α → κ} {l : List α}
    (hl : (l.map key).Nodup) {k : κ} {a : α} :
    l.find? (key · = k) = some a ↔ a ∈ l ∧ key a = k := by
  induction l with
  | nil => simp
  | cons x l ih =>
    rw [List.map_cons, List.nodup_cons] at hl
    by_cases hx : key x = k
    · rw [List.find?_cons_of_pos (by simpa using hx), Option.some_inj, List.mem_cons]
      refine ⟨fun h => ⟨.inl h.symm, h ▸ hx⟩, fun ⟨ha, hk⟩ => ?_⟩
      rcases ha with rfl | ha
      · rfl
      · exact absurd (List.mem_map.mpr ⟨a, ha, hk.trans hx.symm⟩) hl.1
    · rw [List.find?_cons_of_neg (by simpa using hx), ih hl.2, List.mem_cons]
      refine and_congr_left fun hk => ⟨.inr, fun ha => ha.resolve_left ?_⟩
      rintro rfl
      exact hx hk

theorem find?_key_isSome_iff {α κ : Type} [DecidableEq κ] {key : α → κ} {l : List α} {k : κ} :
    (l.find? (key · = k)).isSome ↔ k ∈ l.map key := by
  rw [List.find?_isSome, List.mem_map]
  simp

namespace Graph

/-! ### Validity -/

/-- A graph is **valid** when uids and edge identifiers do not repeat and edges join blocks. -/
structure Valid (g : Graph) : Prop where
  uids_nodup : (g.blocks.map (·.uid)).Nodup
  ids_nodup : (g.edges.map (·.id)).Nodup
  ends_known : ∀ id ∈ g.edges.map (·.id),
    id.src ∈ g.blocks.map (·.uid) ∧ id.dst ∈ g.blocks.map (·.uid)

/-- Validity looks at the uids and the edge identifiers only. -/
theorem Valid.congr {g g' : Graph} (hg : g.Valid)
    (hb : g'.blocks.map (·.uid) = g.blocks.map (·.uid))
    (he : g'.edges.map (·.id) = g.edges.map (·.id)) : g'.Valid where
  uids_nodup := hb ▸ hg.uids_nodup
  ids_nodup := he ▸ hg.ids_nodup
  ends_known := by
    rw [hb, he]
    exact hg.ends_known

theorem block?_isSome_iff {g : Graph} {uid : Int} :
    (g.block? uid).isSome ↔ uid ∈ g.blocks.map (·.uid) :=
  find?_key_isSome_iff

theorem exists_block?_iff {g : Graph} {uid : Int} :
    (∃ b, g.block? uid = some b) ↔ uid ∈ g.blocks.map (·.uid) := by
  rw [← Option.isSome_iff_exists, block?_isSome_iff]

theorem known_of_block? {g : Graph} {uid : Int} {b : Block} (h : g.block? uid = some b) :
    uid ∈ g.blocks.map (·.uid) :=
  exists_block?_iff.mp ⟨b, h⟩

theorem edge?_isSome_iff {g : Graph} {src dst : Int} :
    (g.edge? src dst).isSome ↔ (⟨src, dst⟩ : EdgeId) ∈ g.edges.map (·.id) :=
  find?_key_isSome_iff

theorem Valid.block?_eq_some_iff {g : Graph} (hg : g.Valid) {uid : Int} {b : Block} :
    g.block? uid = some b ↔ b ∈ g.blocks ∧ b.uid = uid :=
  find?_key_eq_some_iff hg.uids_nodup

theorem Valid.edge?_eq_some_iff {g : Graph} (hg : g.Valid) {src dst : Int} {e : Edge} :
    g.edge? src dst = some e ↔ e ∈ g.edges ∧ e.id = ⟨src, dst⟩ :=
  find?_key_eq_some_iff hg.ids_nodup

theorem Valid.exists_block_src {g : Graph} (hg : g.Valid) {e : Edge} (he : e ∈ g.edges) :
    ∃ b, g.block? e.id.src = some b :=
  exists_block?_iff.mpr (hg.ends_known _ (List.mem_map_of_mem he)).1

theorem Valid.exists_block_dst {g : Graph} (hg : g.Valid) {e : Edge} (he : e ∈ g.edges) :
    ∃ b, g.block? e.id.dst = some b :=
  exists_block?_iff.mpr (hg.ends_known _ (List.mem_map_of_mem he)).2

/-- Lookups never report a block under another uid. -/
theorem uid_of_block? {g : Graph} {uid : Int} {b : Block} (h : g.block? uid = some b) :
    b.uid = uid := by
  simpa using List.find?_some h

theorem mem_of_block? {g : Graph} {uid : Int} {b : Block} (h : g.block? uid = some b) :
    b ∈ g.blocks :=
  List.mem_of_find?_eq_some h

theorem id_of_edge? {g : Graph} {src dst : Int} {e : Edge} (h : g.edge? src dst = some e) :
    e.id = ⟨src, dst⟩ := by
  simpa using List.find?_some h

theorem mem_of_edge? {g : Graph} {src dst : Int} {e : Edge} (h : g.edge? src dst = some e) :
    e ∈ g.edges :=
  List.mem_of_find?_eq_some h

/-! ### Adding blocks and edges -/

theorem valid_empty : ({} : Graph).Valid where
  uids_nodup := List.nodup_nil
  ids_nodup := List.nodup_nil
  ends_known := by simp

theorem addBlock_eq_ok {g g' : Graph} {b : Block} (h : g.addBlock b = .ok g') :
    b.uid ∉ g.blocks.map (·.uid) ∧ g' = { g with blocks := g.blocks ++ [b.named] } := by
  unfold addBlock at h
  split_ifs at h with hu hl
  exact ⟨fun hm => hu (block?_isSome_iff.mpr hm), (Except.ok.inj h).symm⟩

theorem Valid.addBlock {g g' : Graph} {b : Block} (hg : g.Valid) (h : g.addBlock b = .ok g') :
    g'.Valid := by
  obtain ⟨hb, rfl⟩ := addBlock_eq_ok h
  refine ⟨?_, hg.ids_nodup, fun id hid => ?_⟩
  · rw [List.map_append, List.nodup_append]
    refine ⟨hg.uids_nodup, by simp, fun u hu v hv => ?_⟩
    obtain rfl : v = b.uid := by simpa [Block.named] using hv
    exact fun heq => hb (heq ▸ hu)
  · obtain ⟨hs, hd⟩ := hg.ends_known id hid
    rw [List.map_append]
    exact ⟨List.mem_append_left _ hs, List.mem_append_left _ hd⟩

theorem addEdge_eq_ok {g g' : Graph} {e : Edge} (h : g.addEdge e = .ok g') :
    g' = g ∨ (e.id ∉ g.edges.map (·.id) ∧ e.id.src ∈ g.blocks.map (·.uid) ∧
      e.id.dst ∈ g.blocks.map (·.uid) ∧ g' = { g with edges := g.edges ++ [e] }) := by
  unfold addEdge at h
  split_ifs at h with he hs hd
  · exact .inl (Except.ok.inj h).symm
  · refine .inr ⟨fun hm => he (edge?_isSome_iff.mpr hm), ?_, ?_, (Except.ok.inj h).symm⟩
    · exact block?_isSome_iff.mp (by simpa [Option.isSome_iff_ne_none] using hs)
    · exact block?_isSome_iff.mp (by simpa [Option.isSome_iff_ne_none] using hd)

theorem Valid.addEdge {g g' : Graph} {e : Edge} (hg : g.Valid) (h : g.addEdge e = .ok g') :
    g'.Valid := by
  obtain rfl | ⟨he, hs, hd, rfl⟩ := addEdge_eq_ok h
  · exact hg
  refine ⟨hg.uids_nodup, ?_, fun id hid => ?_⟩
  · rw [List.map_append, List.nodup_append]
    refine ⟨hg.ids_nodup, by simp, fun i hi j hj => ?_⟩
    obtain rfl : j = e.id := by simpa using hj
    exact fun heq => he (heq ▸ hi)
  · rw [List.map_append, List.mem_append] at hid
    rcases hid with hid | hid
    · exact hg.ends_known id hid
    · obtain rfl : id = e.id := by simpa using hid
      exact ⟨hs, hd⟩

theorem setEndpoints_eq_ok {g g' : Graph} {start stop : Int}
    (h : g.setEndpoints start stop = .ok g') : g' = { g with start, stop } := by
  unfold setEndpoints at h
  split_ifs at h
  exact (Except.ok.inj h).symm

/-! ### Listings -/

theorem addRecords_cons_eq_ok_iff {records : List Record} {start r : Record} {rs : List Record}
    {g g' : Graph} {ids : List EdgeId} :
    addRecords records start g (r :: rs) = .ok (g', ids) ↔
      ∃ block dsts g₁ edges, r.block records start = .ok (block, dsts) ∧
        g.addBlock block = .ok g₁ ∧ addRecords records start g₁ rs = .ok (g', edges) ∧
        ids = dsts.map (fun dst => ⟨block.uid, dst⟩) ++ edges := by
  rw [addRecords, bind_eq_ok_iff]
  constructor
  · rintro ⟨⟨block, dsts⟩, hblock, h⟩
    dsimp only at h
    split at h
    · simp at h
    · rename_i g₁ hadd
      obtain ⟨⟨g₂, edges⟩, hrest, h⟩ := bind_eq_ok_iff.mp h
      obtain ⟨rfl, rfl⟩ := Prod.mk.inj (pure_eq_ok_iff.mp h)
      exact ⟨block, dsts, g₁, edges, hblock, hadd, hrest, rfl⟩
  · rintro ⟨block, dsts, g₁, edges, hblock, hadd, hrest, rfl⟩
    refine ⟨(block, dsts), hblock, ?_⟩
    simp only [hadd, hrest]
    rfl

theorem addPlainEdges_cons_eq_ok_iff {g g' : Graph} {id : EdgeId} {ids : List EdgeId} :
    g.addPlainEdges (id :: ids) = .ok g' ↔
      ∃ g₁, g.addEdge { id } = .ok g₁ ∧ g₁.addPlainEdges ids = .ok g' := by
  rw [addPlainEdges]
  cases g.addEdge { id } <;> simp

/-- **The stages of reading a listing.** -/
theorem ofListing_eq_ok_iff {text : String} {g : Graph} :
    ofListing text = .ok g ↔ ∃ records start stop g₁ ids g₂,
      Record.readAll text.toList = .ok records ∧ Record.repetition? [] records = none ∧
        Record.endpoints records = .ok (start, stop) ∧
        addRecords records start {} records = .ok (g₁, ids) ∧
        g₁.addPlainEdges ids = .ok g₂ ∧ g₂.setEndpoints start.uid stop.uid = .ok g := by
  constructor
  · intro h
    obtain ⟨records, hrecords, h⟩ := bind_eq_ok_iff.mp h
    dsimp only at h
    split at h
    · exact absurd h throw_ne_ok
    rename_i hfresh
    obtain ⟨⟨start, stop⟩, hends, h⟩ := bind_eq_ok_iff.mp h
    obtain ⟨⟨g₁, ids⟩, hadd, h⟩ := bind_eq_ok_iff.mp h
    obtain ⟨g₂, hedges, h⟩ := bind_eq_ok_iff.mp h
    dsimp only at h
    split at h
    · rename_i hset
      obtain rfl := pure_eq_ok_iff.mp h
      exact ⟨records, start, stop, g₁, ids, g₂, hrecords,
        Option.eq_none_iff_forall_ne_some.mpr hfresh, hends, hadd, hedges, hset⟩
    · exact absurd h throw_ne_ok
  · rintro ⟨records, start, stop, g₁, ids, g₂, hrecords, hfresh, hends, hadd, hedges, hset⟩
    simp only [ofListing, hrecords, hfresh, hends, hadd, hedges, hset, bind, Except.bind]
    rfl

section Reading

variable {P : Graph → Prop}
  (hblock : ∀ {g g' : Graph} {b : Block}, P g → g.addBlock b = .ok g' → P g')
  (hedge : ∀ {g g' : Graph} {e : Edge}, P g → g.addEdge e = .ok g' → P g')

include hblock in
theorem addRecords_preserves {records : List Record} {start : Record} {rs : List Record}
    {g g' : Graph} {ids : List EdgeId} (hg : P g)
    (h : addRecords records start g rs = .ok (g', ids)) : P g' := by
  induction rs generalizing g ids with
  | nil =>
    obtain ⟨rfl, -⟩ := Prod.mk.inj (Except.ok.inj h)
    exact hg
  | cons r rs ih =>
    obtain ⟨_, _, _, _, -, hadd, hrest, -⟩ := addRecords_cons_eq_ok_iff.mp h
    exact ih (hblock hg hadd) hrest

include hedge in
theorem addPlainEdges_preserves {ids : List EdgeId} {g g' : Graph} (hg : P g)
    (h : g.addPlainEdges ids = .ok g') : P g' := by
  induction ids generalizing g with
  | nil => exact Except.ok.inj h ▸ hg
  | cons id ids ih =>
    obtain ⟨_, hadd, hrest⟩ := addPlainEdges_cons_eq_ok_iff.mp h
    exact ih (hedge hg hadd) hrest

include hblock hedge in
/-- What adding blocks and edges and naming the endpoints preserve, reading a listing gives. -/
theorem ofListing_preserves
    (hends : ∀ {g g' : Graph} {start stop : Int}, P g → g.setEndpoints start stop = .ok g' → P g')
    (hempty : P {}) {text : String} {g : Graph} (h : ofListing text = .ok g) : P g := by
  obtain ⟨_, _, _, _, _, _, -, -, -, hadd, hedges, hset⟩ := ofListing_eq_ok_iff.mp h
  have hadded := addRecords_preserves hblock hempty hadd
  exact hends (addPlainEdges_preserves hedge hadded hedges) hset

end Reading

theorem Valid.setEndpoints {g g' : Graph} {start stop : Int} (hg : g.Valid)
    (h : g.setEndpoints start stop = .ok g') : g'.Valid := by
  rw [setEndpoints_eq_ok h]
  exact hg.congr rfl rfl

theorem valid_of_ofListing {text : String} {g : Graph} (h : ofListing text = .ok g) :
    g.Valid :=
  ofListing_preserves Valid.addBlock Valid.addEdge Valid.setEndpoints valid_empty h

/-! ### Matching files -/

@[simp]
theorem setBlockCost_uids (g : Graph) (uid : Int) (cost : Int64) :
    (g.setBlockCost uid cost).blocks.map (·.uid) = g.blocks.map (·.uid) := by
  rw [setBlockCost, List.map_map]
  refine List.map_congr_left fun b _ => ?_
  simp only [Function.comp]
  split <;> rfl

@[simp]
theorem setEdgeCost_ids (g : Graph) (id : EdgeId) (cost : Int64) :
    (g.setEdgeCost id cost).edges.map (·.id) = g.edges.map (·.id) := by
  rw [setEdgeCost, List.map_map]
  refine List.map_congr_left fun e _ => ?_
  simp only [Function.comp]
  split <;> rfl

theorem Valid.setBlockCost {g : Graph} (hg : g.Valid) (uid : Int) (cost : Int64) :
    (g.setBlockCost uid cost).Valid :=
  hg.congr (by simp) rfl

theorem Valid.setEdgeCost {g : Graph} (hg : g.Valid) (id : EdgeId) (cost : Int64) :
    (g.setEdgeCost id cost).Valid :=
  hg.congr rfl (by simp)

theorem Valid.clearOthers {g : Graph} (hg : g.Valid) (named : List Int) :
    (g.clearOthers named).Valid := by
  refine hg.congr ?_ rfl
  rw [Graph.clearOthers, List.map_map]
  refine List.map_congr_left fun b _ => ?_
  simp only [Function.comp]
  split <;> rfl

theorem Valid.applyLine {g g' : Graph} {n : Nat} {raw : List Char} {uid : Option Int}
    (hg : g.Valid) (h : g.applyLine n raw = .ok (g', uid)) : g'.Valid := by
  simp only [Graph.applyLine] at h
  -- the two lines that take effect: one names a block, one an edge
  split at h
  · simp at h
  split at h
  · simp at h
  split at h
  · obtain ⟨rfl, -⟩ := Prod.mk.inj (Except.ok.inj h)
    exact hg.setBlockCost _ _
  split at h
  · simp at h
  split at h
  · simp at h
  · obtain ⟨rfl, -⟩ := Prod.mk.inj (Except.ok.inj h)
    exact hg.setEdgeCost _ _

theorem Valid.applyLines {lines : List (List Char)} {g : Graph} (hg : g.Valid)
    (named : List Int) (n : Nat) : (g.applyLines named n lines).1.Valid := by
  induction lines generalizing g named n with
  | nil => exact hg
  | cons raw lines ih =>
    rw [Graph.applyLines]
    split
    · exact ih hg _ _
    · split
      · exact hg
      · rename_i g₁ uid hline
        exact ih (hg.applyLine hline) _ _

theorem Valid.applyMatching {g : Graph} (hg : g.Valid) (text : String) :
    (g.applyMatching text).1.Valid := by
  have hlines : (g.applyLines [] 1 (Text.Lines.read text.toList).lines).1.Valid :=
    hg.applyLines [] 1
  simp only [Graph.applyMatching]
  split
  · rename_i g₁ named e heq
    rwa [heq] at hlines
  · rename_i g₁ named heq
    rw [heq] at hlines
    split
    · exact hlines
    · exact hlines.clearOthers _

/-! ### Annotations -/

/-- One **annotation** of a graph: cuts are registered, or the endpoints are named. -/
inductive Annotates : Graph → Graph → Prop
  | cut {g g' : Graph} {id : CutId} {new : Bool} (h : g.addCut id = .ok (g', new)) :
      Annotates g g'
  | dominatorCuts (g : Graph) : Annotates g g.addDominatorCuts.graph
  | semanticCuts (g : Graph) (generations : List Generation) :
      Annotates g (g.addSemanticCuts generations).graph
  | globalCut {g g' : Graph} {r : LongestPath} (h : g.addGlobalCut = .ok (g', r)) :
      Annotates g g'
  | endpoints {g g' : Graph} {start stop : Int} (h : g.setEndpoints start stop = .ok g') :
      Annotates g g'

/-- The graphs that can arise. -/
inductive Built : Graph → Prop
  | empty : Built {}
  | listing {text : String} {g : Graph} (h : ofListing text = .ok g) : Built g
  | block {g g' : Graph} {b : Block} (hg : Built g) (h : g.addBlock b = .ok g') : Built g'
  | edge {g g' : Graph} {e : Edge} (hg : Built g) (h : g.addEdge e = .ok g') : Built g'
  | matching {g : Graph} (hg : Built g) (text : String) : Built (g.applyMatching text).1
  | annotate {g g' : Graph} (hg : Built g) (h : g.Annotates g') : Built g'

/-- The graph with the cut that a longest path gives. -/
def withCut (g : Graph) (id : CutId) (r : LongestPath) : Graph :=
  { g with cuts := g.cuts ++ [⟨id, r.cost, r.blocks, r.edges⟩] }

theorem ofLongestPath_eq_ok {id : CutId} {r : LongestPath} {c : Cut}
    (h : Cut.ofLongestPath id r = .ok c) : c = ⟨id, r.cost, r.blocks, r.edges⟩ := by
  unfold Cut.ofLongestPath at h
  split_ifs at h
  exact (Except.ok.inj h).symm

/-- What registering does: nothing, or it adds a cut that is not there. -/
theorem register_eq_ok {g g' : Graph} {id : CutId} {r : LongestPath}
    (h : g.register id r = .ok g') :
    g' = g ∨ g.cut? id.head id.tail = none ∧ g' = g.withCut id r := by
  unfold register at h
  split at h
  · exact .inl (Except.ok.inj h).symm
  · rename_i hnone
    rw [Bool.not_eq_true, Option.isSome_eq_false_iff, Option.isNone_iff_eq_none] at hnone
    obtain ⟨c, hc, hg'⟩ := bind_eq_ok_iff.mp h
    rw [ofLongestPath_eq_ok hc] at hg'
    exact .inr ⟨hnone, (pure_eq_ok_iff.mp hg').symm⟩

/-- What adding a cut does: nothing, or it adds the cut of the longest path. -/
theorem addCut_eq_ok {g g' : Graph} {id : CutId} {new : Bool}
    (h : g.addCut id = .ok (g', new)) :
    g' = g ∨ ∃ r, g.longestPath id.head id.tail = .ok r ∧ g.cut? id.head id.tail = none ∧
      g' = g.withCut id r := by
  unfold addCut at h
  split at h
  · exact .inl (Prod.mk.inj (Except.ok.inj h)).1.symm
  · obtain ⟨r, hr, h⟩ := bind_eq_ok_iff.mp h
    obtain ⟨g₁, hs, h⟩ := bind_eq_ok_iff.mp h
    obtain ⟨rfl, -⟩ := Prod.mk.inj (pure_eq_ok_iff.mp h)
    exact (register_eq_ok hs).imp_right fun hg₁ => ⟨r, hr, hg₁⟩

theorem addGlobalCut_eq_ok {g g' : Graph} {r : LongestPath} (h : g.addGlobalCut = .ok (g', r)) :
    g.longestPath g.start g.stop = .ok r ∧
      (g' = g ∨ g.cut? g.start g.stop = none ∧ g' = g.withCut ⟨g.start, g.stop⟩ r) := by
  obtain ⟨r₁, hr, h⟩ := bind_eq_ok_iff.mp h
  obtain ⟨g₁, hs, h⟩ := bind_eq_ok_iff.mp h
  obtain ⟨rfl, rfl⟩ := Prod.mk.inj (pure_eq_ok_iff.mp h)
  exact ⟨hr, register_eq_ok hs⟩

section Invariant

variable {P : Graph → Prop}

/-- What adding the cut of a longest path preserves, a run over candidates preserves, whether or
not it gets to its end. -/
theorem addCuts_preserves
    (hcut : ∀ {g id r}, P g → g.longestPath id.head id.tail = .ok r →
      g.cut? id.head id.tail = none → P (g.withCut id r))
    {origin : CutOrigin} {ids : List CutId} {run : CutRun} (h : P run.graph) :
    P (addCuts origin run ids).graph := by
  induction ids generalizing run with
  | nil => exact h
  | cons id ids ih =>
    rw [addCuts]
    split
    · exact h
    · rename_i g₁ new hadd
      refine ih ?_
      rcases addCut_eq_ok hadd with rfl | ⟨r, hr, hnone, rfl⟩
      · exact h
      · exact hcut h hr hnone

/-- Every annotation comes down to two moves: adding the cut of a longest path where there is none
yet, and naming the endpoints. What both preserve, all annotations preserve. -/
theorem Annotates.preserves
    (hcut : ∀ {g id r}, P g → g.longestPath id.head id.tail = .ok r →
      g.cut? id.head id.tail = none → P (g.withCut id r))
    (hends : ∀ {g start stop}, P g → P { g with start, stop })
    {g g' : Graph} (h : g.Annotates g') (hg : P g) : P g' := by
  cases h with
  | cut h =>
    rcases addCut_eq_ok h with rfl | ⟨r, hr, hnone, rfl⟩
    · exact hg
    · exact hcut hg hr hnone
  | dominatorCuts => exact addCuts_preserves hcut hg
  | semanticCuts => exact addCuts_preserves hcut hg
  | globalCut h =>
    obtain ⟨hr, rfl | ⟨hnone, rfl⟩⟩ := addGlobalCut_eq_ok h
    · exact hg
    · exact hcut hg hr hnone
  | endpoints h =>
    rw [setEndpoints_eq_ok h]
    exact hends hg

end Invariant

theorem Annotates.blocks_eq {g g' : Graph} (h : g.Annotates g') : g'.blocks = g.blocks :=
  h.preserves (P := fun g₁ => g₁.blocks = g.blocks) (fun h₁ _ _ => h₁) (fun h₁ => h₁) rfl

theorem Annotates.edges_eq {g g' : Graph} (h : g.Annotates g') : g'.edges = g.edges :=
  h.preserves (P := fun g₁ => g₁.edges = g.edges) (fun h₁ _ _ => h₁) (fun h₁ => h₁) rfl

/-- **Every graph that can arise is valid.** -/
theorem Built.valid {g : Graph} (hg : g.Built) : g.Valid := by
  induction hg with
  | empty => exact valid_empty
  | listing h => exact valid_of_ofListing h
  | block _ h ih => exact ih.addBlock h
  | edge _ h ih => exact ih.addEdge h
  | matching _ text ih => exact ih.applyMatching text
  | annotate _ h ih => exact ih.congr (by rw [h.blocks_eq]) (by rw [h.edges_eq])

/-- Blocks may be added in any sequence. -/
theorem Built.foldlM_addBlock {g g' : Graph} {blocks : List Block} (hg : g.Built)
    (h : blocks.foldlM addBlock g = .ok g') : g'.Built :=
  foldlM_preserves .block hg h

/-- So may edges. -/
theorem Built.foldlM_addEdge {g g' : Graph} {edges : List Edge} (hg : g.Built)
    (h : edges.foldlM addEdge g = .ok g') : g'.Built :=
  foldlM_preserves .edge hg h

end Graph

end WorstCase
