import WorstCase.Encoding.Emit
import WorstCase.Proofs.Graph.Current
import WorstCase.Proofs.Graph.Listing

/-!
# When cuts can be added

Adding a cut asks for the longest path from its head to its tail, and needs nothing else: a path
that is found always gives a cut, since both ends and an edge lie in its region
(`Graph.Valid.ofLongestPath_eq_ok`). Cuts do not change what later queries see (`Graph.SameFlow`),
so a run over candidates gets to its end if the graph it starts with has a longest path for each of
them (`Graph.Valid.addCuts_failure_eq_none`), and only then
(`Graph.CutsCurrent.longestPath_of_addCuts`). The same holds for the cut from the start to the end,
and for emitting.

No graph that can arise has two cuts with the same ends (`Graph.Built.cutIds_nodup`), also where
costs have changed since they were registered.
-/

namespace WorstCase

namespace Graph

variable {g g' : Graph}

/-! ### Graphs that differ in their cuts -/

/-- Two graphs with the same blocks, edges and endpoints. -/
structure SameFlow (g g' : Graph) : Prop where
  blocks : g'.blocks = g.blocks
  edges : g'.edges = g.edges
  start : g'.start = g.start
  stop : g'.stop = g.stop

namespace SameFlow

theorem refl (g : Graph) : SameFlow g g := ⟨rfl, rfl, rfl, rfl⟩

theorem trans {g'' : Graph} (h : SameFlow g g') (h' : SameFlow g' g'') : SameFlow g g'' :=
  ⟨h'.blocks.trans h.blocks, h'.edges.trans h.edges, h'.start.trans h.start,
    h'.stop.trans h.stop⟩

theorem withCut (h : SameFlow g g') (id : CutId) (r : LongestPath) :
    SameFlow g (g'.withCut id r) :=
  ⟨h.blocks, h.edges, h.start, h.stop⟩

theorem valid (h : SameFlow g g') (hg : g.Valid) : g'.Valid :=
  hg.congr (by rw [h.blocks]) (by rw [h.edges])

theorem arc_eq (h : SameFlow g g') : g'.Arc = g.Arc := by
  funext a b
  rw [Arc, h.edges, Arc]

theorem walk_iff (h : SameFlow g g') {a c : Int} {p : List Int} :
    g'.Walk a p c ↔ g.Walk a p c := by
  constructor
  · intro hp
    induction hp with
    | single a => exact .single a
    | step hab _ ih => exact .step (h.arc_eq ▸ hab) ih
  · intro hp
    induction hp with
    | single a => exact .single a
    | step hab _ ih => exact .step (h.arc_eq ▸ hab) ih

theorem nonneg (h : SameFlow g g') (hn : g.Nonneg) : g'.Nonneg :=
  ⟨h.blocks ▸ hn.block, h.edges ▸ hn.edge⟩

theorem costMass_eq (h : SameFlow g g') : g'.costMass = g.costMass := by
  rw [costMass, h.blocks, h.edges, costMass]

theorem pathCost_eq (h : SameFlow g g') (p : List Int) : g'.pathCost p = g.pathCost p := by
  have hblock : g'.blockCost = g.blockCost := by
    funext uid
    rw [blockCost, block?_congr h.blocks, blockCost]
  have hedge : g'.edgeCost = g.edgeCost := by
    funext id
    rw [edgeCost, edge?_congr h.edges, edgeCost]
  rw [pathCost, hblock, hedge, pathCost]

theorem longestPath_eq (h : SameFlow g g') (src dst : Int) :
    g'.longestPath src dst = g.longestPath src dst :=
  longestPath_congr h.blocks h.edges src dst

theorem countPaths_eq (h : SameFlow g g') (src dst : Int) :
    g'.countPaths src dst = g.countPaths src dst := by
  simp only [countPaths, sweep_congr h.blocks h.edges]

theorem mergePointsFrom_eq (h : SameFlow g g') (bound : Nat) (cur : Int) :
    g'.mergePointsFrom bound cur = g.mergePointsFrom bound cur := by
  induction bound generalizing cur with
  | zero => rw [mergePointsFrom, mergePointsFrom, h.start, h.stop]
  | succ bound ih =>
    rw [mergePointsFrom, mergePointsFrom, h.start, h.stop, blockOrFail_congr h.blocks]
    simp only [ih]

theorem mergePoints_eq (h : SameFlow g g') : g'.mergePoints = g.mergePoints := by
  rw [mergePoints, h.mergePointsFrom_eq, h.blocks, h.stop, mergePoints]

end SameFlow

theorem addCut_sameFlow {id : CutId} {new : Bool} (h : g.addCut id = .ok (g', new)) :
    SameFlow g g' := by
  rcases addCut_eq_ok h with rfl | ⟨r, -, -, rfl⟩
  · exact .refl g'
  · exact (SameFlow.refl g).withCut id r

theorem addCuts_sameFlow {origin : CutOrigin} {run : CutRun} {ids : List CutId}
    (h : SameFlow g run.graph) : SameFlow g (addCuts origin run ids).graph :=
  addCuts_preserves (P := SameFlow g) (fun h _ _ => h.withCut _ _) h

theorem addGlobalCut_sameFlow {r : LongestPath} (h : g.addGlobalCut = .ok (g', r)) :
    SameFlow g g' := by
  obtain ⟨-, rfl | ⟨-, rfl⟩⟩ := addGlobalCut_eq_ok h
  · exact .refl g'
  · exact (SameFlow.refl g).withCut _ r

/-! ### Adding cuts -/

/-- **A longest path gives a cut**: both ends and an edge lie in its region. -/
theorem Valid.ofLongestPath_eq_ok (hg : g.Valid) {id : CutId} {r : LongestPath}
    (h : g.longestPath id.head id.tail = .ok r) :
    Cut.ofLongestPath id r = .ok ⟨id, r.cost, r.blocks, r.edges⟩ ∧
      id.head ∈ r.blocks ∧ id.tail ∈ r.blocks ∧ r.edges ≠ [] := by
  obtain ⟨v, hr, -, -⟩ := hg.isRegion h
  have hhead : id.head ∈ r.blocks := (hr.mem_blocks _).mpr (.inl rfl)
  have htail : id.tail ∈ r.blocks := (hr.mem_blocks _).mpr (.inr hr.swept.dst_mem)
  have hedges : r.edges ≠ [] := by
    obtain ⟨n, hn, harc⟩ := hr.enters
    have hmem : (⟨id.head, n⟩ : EdgeId) ∈ r.edges := (hr.mem_edges _).mpr ⟨harc, hn⟩
    exact List.ne_nil_of_mem hmem
  exact ⟨by simp [Cut.ofLongestPath, hhead, htail, hedges], hhead, htail, hedges⟩

theorem Valid.exists_register (hg : g.Valid) {id : CutId} {r : LongestPath}
    (h : g.longestPath id.head id.tail = .ok r) : ∃ g', g.register id r = .ok g' := by
  unfold register
  split
  · exact ⟨g, rfl⟩
  · rw [(hg.ofLongestPath_eq_ok h).1]
    exact ⟨_, rfl⟩

theorem Valid.exists_addCut (hg : g.Valid) {id : CutId} {r : LongestPath}
    (h : g.longestPath id.head id.tail = .ok r) : ∃ g' new, g.addCut id = .ok (g', new) := by
  unfold addCut
  split
  · exact ⟨g, false, rfl⟩
  · obtain ⟨g', hg'⟩ := hg.exists_register h
    exact ⟨g', true, by simp [h, hg', bind, Except.bind, pure, Except.pure]⟩

/-- A candidate that is added has a longest path, as it had when it was cut before. -/
theorem CutsCurrent.exists_longestPath (hc : g.CutsCurrent) {id : CutId} {new : Bool}
    (h : g.addCut id = .ok (g', new)) : ∃ r, g.longestPath id.head id.tail = .ok r := by
  unfold addCut at h
  split at h
  · rename_i hsome
    obtain ⟨c, hfind⟩ := Option.isSome_iff_exists.mp hsome
    obtain ⟨r, hr, -⟩ := hc.query c (List.mem_of_find?_eq_some hfind)
    have hid : c.id = ⟨id.head, id.tail⟩ := by
      simpa using List.find?_some hfind
    exact ⟨r, by rw [← hr, hid]⟩
  · obtain ⟨r, hr, -⟩ := bind_eq_ok_iff.mp h
    exact ⟨r, hr⟩

theorem CutsCurrent.addCut (hc : g.CutsCurrent) {id : CutId} {new : Bool}
    (h : g.addCut id = .ok (g', new)) : g'.CutsCurrent := by
  rcases addCut_eq_ok h with rfl | ⟨r, hr, hnone, rfl⟩
  · exact hc
  · exact hc.withCut hr hnone

/-- **A run over candidates gets to its end if each has a longest path.** -/
theorem Valid.addCuts_failure_eq_none {origin : CutOrigin} {ids : List CutId} {run : CutRun}
    (hg : run.graph.Valid) (hrun : run.failure = none)
    (h : ∀ id ∈ ids, ∃ r, run.graph.longestPath id.head id.tail = .ok r) :
    (addCuts origin run ids).failure = none := by
  induction ids generalizing run with
  | nil => exact hrun
  | cons id ids ih =>
    obtain ⟨r, hr⟩ := h id List.mem_cons_self
    obtain ⟨g', new, hadd⟩ := hg.exists_addCut hr
    have hsame := addCut_sameFlow hadd
    rw [addCuts, hadd]
    refine ih (hsame.valid hg) hrun fun id' hid' => ?_
    rw [hsame.longestPath_eq]
    exact h id' (List.mem_cons_of_mem _ hid')

theorem Valid.addSemanticCuts_failure_eq_none (hg : g.Valid) {generations : List Generation}
    (h : ∀ id ∈ generations.flatten, ∃ r, g.longestPath id.head id.tail = .ok r) :
    (g.addSemanticCuts generations).failure = none :=
  Valid.addCuts_failure_eq_none hg rfl h

/-- Conversely, a run that gets to its end found a longest path for each candidate. -/
theorem CutsCurrent.longestPath_of_addCuts {origin : CutOrigin} {ids : List CutId} {run : CutRun}
    (hc : run.graph.CutsCurrent) (h : (addCuts origin run ids).failure = none) :
    ∀ id ∈ ids, ∃ r, run.graph.longestPath id.head id.tail = .ok r := by
  induction ids generalizing run with
  | nil => simp
  | cons id ids ih =>
    rw [addCuts] at h
    rcases hadd : run.graph.addCut id with _ | ⟨g', new⟩
    · simp [hadd] at h
    · simp only [hadd] at h
      have hrest := ih (hc.addCut hadd) h
      intro id' hid'
      rcases List.mem_cons.mp hid' with rfl | hid'
      · exact hc.exists_longestPath hadd
      · rw [← (addCut_sameFlow hadd).longestPath_eq]
        exact hrest id' hid'

theorem Valid.exists_addGlobalCut (hg : g.Valid) {r : LongestPath}
    (h : g.longestPath g.start g.stop = .ok r) : ∃ g', g.addGlobalCut = .ok (g', r) := by
  obtain ⟨g', hg'⟩ : ∃ g', g.register ⟨g.start, g.stop⟩ r = .ok g' := hg.exists_register h
  refine ⟨g', ?_⟩
  simp only [addGlobalCut, longestSyntacticPath, bind, Except.bind, h]
  rw [hg']
  rfl

/-! ### Cuts of the graphs that can arise -/

section Matching

variable {P : Graph → Prop} (hblock : ∀ {g uid cost}, P g → P (g.setBlockCost uid cost))
  (hedge : ∀ {g id cost}, P g → P (g.setEdgeCost id cost))

include hblock hedge

theorem applyLines_preserves {lines : List (List Char)} {g : Graph} (hg : P g) (named : List Int)
    (n : Nat) : P (g.applyLines named n lines).1 := by
  induction lines generalizing g named n with
  | nil => exact hg
  | cons raw lines ih =>
    rw [applyLines]
    split
    · exact ih hg _ _
    · split
      · exact hg
      · rename_i g₁ uid hline
        refine ih ?_ _ _
        simp only [applyLine] at hline
        -- the two lines that take effect: one names a block, one an edge
        split at hline
        · simp at hline
        split at hline
        · simp at hline
        split at hline
        · obtain ⟨rfl, -⟩ := Prod.mk.inj (Except.ok.inj hline)
          exact hblock hg
        split at hline
        · simp at hline
        split at hline
        · simp at hline
        · obtain ⟨rfl, -⟩ := Prod.mk.inj (Except.ok.inj hline)
          exact hedge hg

/-- What setting costs preserves, a matching file preserves. -/
theorem applyMatching_preserves (hclear : ∀ {g named}, P g → P (g.clearOthers named)) {g : Graph}
    (hg : P g) (text : String) : P (g.applyMatching text).1 := by
  have hlines : P (g.applyLines [] 1 (Text.Lines.read text.toList).lines).1 :=
    applyLines_preserves hblock hedge hg [] 1
  simp only [applyMatching]
  split
  · rename_i g₁ named e heq
    rwa [heq] at hlines
  · rename_i g₁ named heq
    rw [heq] at hlines
    split
    · exact hlines
    · exact hclear hlines

end Matching

/-- **No two cuts have the same ends.** -/
theorem Built.cutIds_nodup (hg : g.Built) : (g.cuts.map (·.id)).Nodup := by
  induction hg with
  | empty => exact List.nodup_nil
  | listing h =>
    obtain ⟨records, start, stop, entries, -, hl⟩ := lists_of_ofListing h
    simp [hl.cuts]
  | block _ h ih =>
    obtain ⟨-, rfl⟩ := addBlock_eq_ok h
    exact ih
  | edge _ h ih =>
    obtain rfl | ⟨-, -, -, rfl⟩ := addEdge_eq_ok h
    · exact ih
    · exact ih
  | matching _ text ih =>
    exact applyMatching_preserves (P := fun g : Graph => (g.cuts.map Cut.id).Nodup)
      (fun h => h) (fun h => h) (fun h => h) ih text
  | annotate _ h ih =>
    refine h.preserves (P := fun g : Graph => (g.cuts.map Cut.id).Nodup)
      (fun {g id r} h _ hnone => ?_) (fun h => h) ih
    rw [withCut, List.map_append, List.map_singleton, List.nodup_append_comm,
      List.singleton_append, List.nodup_cons]
    refine ⟨fun hmem => ?_, h⟩
    have hsome : (g.cut? id.head id.tail).isSome := find?_key_isSome_iff.mpr hmem
    rw [hnone] at hsome
    exact Bool.false_ne_true hsome

/-! ### Emitting -/

/-- A graph with a longest path from its start to its end can be emitted. -/
theorem Valid.exists_emit (hg : g.Valid) {r : LongestPath}
    (h : g.longestPath g.start g.stop = .ok r) (p : Problem) (enc : Encoding)
    (impliesEnds : Bool) : ∃ stats, (g.emit p enc.code impliesEnds).2 = .ok stats := by
  obtain ⟨-, ⟨start, hstart⟩, stop, hstop⟩ := blocks_of_longestPath h
  obtain ⟨n, hn⟩ := hg.countPaths_isOk_iff.mpr (hg.connects_of_longestPath h)
  simp only [emit, Encoding.ofCode?_code, blockOrFail, hstart, hstop, summary,
    longestSyntacticPath, h, hn]
  exact ⟨_, rfl⟩

end Graph

end WorstCase
