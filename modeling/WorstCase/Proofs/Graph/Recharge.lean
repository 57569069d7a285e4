import WorstCase.Proofs.Graph.Settle

/-!
# Matching files one after the other

Two graphs that differ in costs only are the same once everything is free. Such graphs accept the
same matching files, and an accepted file gives their blocks the same costs, whatever these were
before. The same goes for the edges that the file names. But an edge that it does not name keeps its
cost, so an earlier file may still show there (`applyMatching_stale`).

Hence a file is the only source of costs **exactly if the edges that it does not name cost the same
before** (`Built.applyMatching_recharged`). This is about any two graphs that differ in costs only,
and so also about a graph before and after another file was applied.
-/

namespace WorstCase

/-- Lists with the same keys have the same images under functions that agree where keys do. -/
theorem map_eq_map_of_keys {α β κ : Type} {key : α → κ} {f : α → β} {l l' : List α}
    (hkeys : l'.map key = l.map key)
    (hf : ∀ a' ∈ l', ∀ a ∈ l, key a' = key a → f a' = f a) : l'.map f = l.map f := by
  induction l generalizing l' with
  | nil => rw [List.map_eq_nil_iff.mp hkeys]
  | cons a l ih =>
    obtain ⟨a', l', rfl, hkey, hrest⟩ := List.map_eq_cons_iff.mp hkeys
    rw [List.map_cons, List.map_cons, hf a' List.mem_cons_self a List.mem_cons_self hkey,
      ih hrest fun b' hb' b hb => hf b' (List.mem_cons_of_mem _ hb') b (List.mem_cons_of_mem _ hb)]

open MatchingLine

namespace Graph

variable {g g' : Graph} {text : String} {ls : List MatchingLine}

/-! ### Graphs that differ in costs only -/

@[simp]
theorem free_settle (g : Graph) (ls : List MatchingLine) : (g.settle ls).free = g.free := by
  simp [settle, free]

theorem Coherent.applyMatching_free (hg : g.Coherent) (text : String) :
    (g.applyMatching text).1.free = g.free := by
  rcases h : (g.applyMatching text).2 with _ | e
  · obtain ⟨-, ls, -, -, hgraph⟩ := hg.applyMatching_eq_none h
    rw [hgraph, free_settle]
  · obtain ⟨before, row, rest, ls, -, -, happlied, -⟩ := hg.applyMatching_eq_some h
    rw [happlied.graph_eq, free_charge]

section Same

variable (h : g'.free = g.free)

include h

theorem uids_of_free_eq : g'.blocks.map (·.uid) = g.blocks.map (·.uid) :=
  free_congr (f := fun g => g.blocks.map (·.uid)) (fun g => by simp [free]) h

theorem Coherent.of_free_eq (hg : g.Coherent) : g'.Coherent := by
  have hlabels : g'.labels = g.labels :=
    free_congr (f := labels) (fun g => by simp [labels, free, List.filter_map, Function.comp_def]) h
  have hcuts : g'.cuts = g.cuts := free_congr (f := Graph.cuts) (fun _ => rfl) h
  have hstart : g'.start = g.start := free_congr (f := Graph.start) (fun _ => rfl) h
  have hstop : g'.stop = g.stop := free_congr (f := Graph.stop) (fun _ => rfl) h
  refine ⟨hg.valid.congr (uids_of_free_eq h) (ids_of_free_eq h), ?_, ?_, ?_⟩
  · rw [hlabels]
    exact hg.labels_nodup
  · rw [hcuts]
    exact hg.cutIds_nodup
  · rw [hstart, hstop, Known, Known, uids_of_free_eq h]
    exact hg.endpoints

/-- **Files are accepted whatever the costs are.** -/
theorem Coherent.applyMatching_eq_none_of_free_eq (hg : g.Coherent)
    (haccepted : (g.applyMatching text).2 = none) : (g'.applyMatching text).2 = none := by
  rw [hg.applyMatching_eq_none_iff] at haccepted
  rw [(hg.of_free_eq h).applyMatching_eq_none_iff]
  obtain ⟨hroom, ls, hsays, hresolves⟩ := haccepted
  exact ⟨hroom, ls, hsays, fun l hl => (resolves_of_free_eq h l).mpr (hresolves l hl)⟩

/-! ### What a file settles -/

/-- The costs of all blocks are settled. -/
theorem settle_blocks_of_free_eq (ls : List MatchingLine) :
    (g'.settle ls).blocks = (g.settle ls).blocks :=
  free_congr (f := fun g => (g.settle ls).blocks) (fun g => by simp [settle, free, namesBlock]) h

end Same

/-- The cost of an edge that is named is settled. -/
theorem chargeEdge_of_named {e e' : Edge} (hid : e'.id = e.id) {l : MatchingLine} (hl : l ∈ ls)
    (hnames : g.namesEdge l e) : g.chargeEdge ls e' = g.chargeEdge ls e := by
  have hsame : (g.namesEdge · e') = (g.namesEdge · e) := by
    funext l
    simp only [namesEdge, hid]
  obtain ⟨cost, hcost⟩ : ∃ cost, lastCost (g.namesEdge · e) ls = some cost :=
    exists_lastCost hl hnames
  rw [chargeEdge, chargeEdge, hsame, hcost, hid]
  rfl

theorem chargeEdge_of_free_eq (h : g'.free = g.free) : g'.chargeEdge = g.chargeEdge := by
  funext ls e
  rw [chargeEdge, namesEdge_of_free_eq h, chargeEdge]

/-- An edge that is not named keeps its cost. -/
theorem mem_edges_settle_of_unnamed {e : Edge} (hnames : ∀ l ∈ ls, g.namesEdge l e = false) :
    e ∈ (g.settle ls).edges ↔ e ∈ g.edges := by
  constructor
  · intro he
    obtain ⟨e₀, he₀, rfl⟩ := List.mem_map.mp he
    have hsame : ∀ l ∈ ls, g.namesEdge l e₀ = false := hnames
    rwa [chargeEdge_of_unnamed hsame]
  · intro he
    rw [← chargeEdge_of_unnamed hnames]
    exact List.mem_map_of_mem he

/-- The costs of the edges that are named are settled. -/
theorem mem_edges_settle_of_named (h : g'.free = g.free) {e : Edge} (he : e ∈ (g.settle ls).edges)
    {l : MatchingLine} (hl : l ∈ ls) (hnames : g.namesEdge l e) : e ∈ (g'.settle ls).edges := by
  obtain ⟨e₀, he₀, rfl⟩ := List.mem_map.mp he
  have hid : e₀.id ∈ g'.edges.map (·.id) := by
    rw [ids_of_free_eq h]
    exact List.mem_map_of_mem he₀
  obtain ⟨e₁, he₁, hid₁⟩ := List.mem_map.mp hid
  rw [← chargeEdge_of_named hid₁ hl hnames, ← chargeEdge_of_free_eq h]
  exact List.mem_map_of_mem he₁

/-- A file leaves an edge as it is exactly if it does not say otherwise. -/
theorem Valid.mem_edges_settle_iff (hg : g.Valid) {e : Edge} (he : e ∈ g.edges) :
    e ∈ (g.settle ls).edges ↔ (lastCost (g.namesEdge · e) ls).getD e.cost = e.cost := by
  constructor
  · intro hmem
    obtain ⟨e₀, he₀, heq⟩ := List.mem_map.mp hmem
    have hid : e₀.id = e.id := by rw [← heq, chargeEdge_id]
    obtain rfl := List.inj_on_of_nodup_map hg.ids_nodup he₀ he hid
    exact congrArg Edge.cost heq
  · intro hcost
    refine List.mem_map.mpr ⟨e, he, ?_⟩
    rw [chargeEdge, hcost]

/-- **Everything is settled** exactly if the edges that are not named cost the same before. -/
theorem settle_eq_iff (hg : g'.Valid) (h : g'.free = g.free) :
    g'.settle ls = g.settle ls ↔
      ∀ e ∈ g.edges, (∀ l ∈ ls, g.namesEdge l e = false) → e ∈ g'.edges := by
  constructor
  · intro heq e he hnames
    have hmem := (mem_edges_settle_of_unnamed hnames).mpr he
    rw [← heq] at hmem
    rw [← namesEdge_of_free_eq h] at hnames
    exact (mem_edges_settle_of_unnamed hnames).mp hmem
  · intro hsame
    have hedges : g'.edges.map (g.chargeEdge ls) = g.edges.map (g.chargeEdge ls) := by
      refine map_eq_map_of_keys (ids_of_free_eq h) fun e' he' e he hid => ?_
      by_cases hnamed : ∃ l ∈ ls, g.namesEdge l e
      · obtain ⟨l, hl, hnames⟩ := hnamed
        exact chargeEdge_of_named hid hl hnames
      · -- then `e` is an edge of both graphs, and so is `e'`, with the same ends
        have hmem := hsame e he (by simpa using hnamed)
        rw [List.inj_on_of_nodup_map hg.ids_nodup he' hmem hid]
    have hsettle : ∀ g : Graph, g.settle ls =
        { g.free with blocks := (g.settle ls).blocks, edges := g.edges.map (g.chargeEdge ls) } :=
      fun _ => rfl
    rw [hsettle g', hsettle g, h, settle_blocks_of_free_eq h, chargeEdge_of_free_eq h, hedges]

/-! ### What a file determines -/

/-- **A matching file determines the costs** of all blocks and of the edges that it names, and all
costs exactly if the edges that it does not name cost the same before: for graphs that differ in
costs only, and for a graph to which another file is applied first or not. -/
theorem Built.applyMatching_recharged (hg : g.Built) :
    (∀ (g' : Graph) (text : String), g'.free = g.free → (g.applyMatching text).2 = none →
      (g'.applyMatching text).2 = none ∧
        (g'.applyMatching text).1.blocks = (g.applyMatching text).1.blocks ∧
        ∃ ls, Says text ls ∧
          (∀ e ∈ (g.applyMatching text).1.edges, ∀ l ∈ ls, g.namesEdge l e →
            e ∈ (g'.applyMatching text).1.edges) ∧
          ((g'.applyMatching text).1 = (g.applyMatching text).1 ↔
            ∀ e ∈ g.edges, (∀ l ∈ ls, g.namesEdge l e = false) → e ∈ g'.edges)) ∧
    ∀ first second, (g.applyMatching first).2 = none →
      ((g.applyMatching first).1.applyMatching second).2 = none →
        (g.applyMatching second).2 = none ∧
        ((g.applyMatching first).1.applyMatching second).1.blocks =
          (g.applyMatching second).1.blocks ∧
        ∃ ls ls', Says first ls ∧ Says second ls' ∧
          (((g.applyMatching first).1.applyMatching second).1 = (g.applyMatching second).1 ↔
            ∀ e ∈ g.edges, (∀ l ∈ ls', g.namesEdge l e = false) →
              (lastCost (g.namesEdge · e) ls).getD e.cost = e.cost) := by
  have hgeneral : ∀ {g' : Graph} {text : String}, g'.free = g.free →
      (g.applyMatching text).2 = none → (g'.applyMatching text).2 = none ∧
        ∃ ls, Says text ls ∧ (g.applyMatching text).1 = g.settle ls ∧
          (g'.applyMatching text).1 = g'.settle ls := by
    intro g' text h haccepted
    have haccepted' := hg.coherent.applyMatching_eq_none_of_free_eq h haccepted
    obtain ⟨-, ls, hsays, -, hgraph⟩ := hg.coherent.applyMatching_eq_none haccepted
    obtain ⟨-, ls', hsays', -, hgraph'⟩ :=
      (hg.coherent.of_free_eq h).applyMatching_eq_none haccepted'
    obtain rfl := hsays'.unique hsays
    exact ⟨haccepted', ls', hsays, hgraph, hgraph'⟩
  constructor
  · intro g' text h haccepted
    obtain ⟨haccepted', ls, hsays, hgraph, hgraph'⟩ := hgeneral h haccepted
    rw [hgraph, hgraph']
    exact ⟨haccepted', settle_blocks_of_free_eq h ls, ls, hsays,
      fun e he l hl hnames => mem_edges_settle_of_named h he hl hnames,
      settle_eq_iff (hg.coherent.of_free_eq h).valid h⟩
  · intro first second hfirst hsecond
    have h := hg.coherent.applyMatching_free first
    have haccepted := (hg.matching first).coherent.applyMatching_eq_none_of_free_eq h.symm hsecond
    obtain ⟨-, ls', hsays', hgraph, hgraph'⟩ := hgeneral h haccepted
    obtain ⟨-, ls, hsays, -, hgraph₁⟩ := hg.coherent.applyMatching_eq_none hfirst
    rw [hgraph, hgraph']
    refine ⟨haccepted, settle_blocks_of_free_eq h ls', ls, ls', hsays, hsays', ?_⟩
    rw [settle_eq_iff (hg.matching first).valid h]
    refine forall₂_congr fun e he => imp_congr_right fun _ => ?_
    rw [hgraph₁, hg.valid.mem_edges_settle_iff he]

/-- A file that names the edge only. -/
def edgeCosts : String := "(A, B) 5\n"

/-- A file that names a block only. -/
def blockCosts : String := "(B) 1\n"

theorem applyMatching_recharged_pair :
    (∃ ls, Says acceptedCosts ls ∧
      ∀ e ∈ pair.edges, (∀ l ∈ ls, pair.namesEdge l e = false) →
        e ∈ (pair.applyMatching edgeCosts).1.edges) ∧
    ∃ ls ls', Says edgeCosts ls ∧ Says blockCosts ls' ∧
      ¬ ∀ e ∈ pair.edges, (∀ l ∈ ls', pair.namesEdge l e = false) →
        (lastCost (pair.namesEdge · e) ls).getD e.cost = e.cost := by
  obtain ⟨hsame, hfirst⟩ := (Built.listing ofListing_pairText).applyMatching_recharged
  constructor
  · obtain ⟨-, -, ls, hsays, -, hiff⟩ := hsame (pair.applyMatching edgeCosts).1 acceptedCosts
      ((Built.listing ofListing_pairText).coherent.applyMatching_free edgeCosts) (by decide)
    exact ⟨ls, hsays, hiff.mp (by decide)⟩
  · obtain ⟨-, -, ls, ls', hsays, hsays', hiff⟩ :=
      hfirst edgeCosts blockCosts (by decide) (by decide)
    exact ⟨ls, ls', hsays, hsays', hiff.not.mp (by decide)⟩

/-- **An earlier file may still show.** The edge costs what the first file says, although the second
one was applied after it and does not name the edge; without the first file it is free. -/
theorem applyMatching_stale :
    ofListing pairText = .ok pair ∧
      (pair.applyMatching edgeCosts).2 = none ∧
      ((pair.applyMatching edgeCosts).1.applyMatching blockCosts).2 = none ∧
      ((pair.applyMatching edgeCosts).1.applyMatching blockCosts).1.edges = [⟨⟨0, 1⟩, 5⟩] ∧
      (pair.applyMatching blockCosts).1.edges = [⟨⟨0, 1⟩, 0⟩] :=
  ⟨ofListing_pairText, by decide, by decide, by decide, by decide⟩

end Graph

end WorstCase
