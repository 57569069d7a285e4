import WorstCase.Proofs.Encoding.Emission
import WorstCase.Proofs.Graph.Cutting

/-!
# Generation

**Generation** makes the dominator cuts and the cut from the start to the end, and emits the graph
with these cuts by if-then-else costs. All its stages come down to queries on the graph itself: for
the declared dominator of every block with several predecessors, and for the start and the end
(`Graph.cutCandidates`). Generation succeeds iff all of them do (`Graph.Valid.generates_iff`), the
cuts are one for each (`Graph.Generates.mem_cuts_iff`), and the statistics are what the queries from
the start to the end return.
-/

namespace WorstCase

namespace Graph

variable {g g' : Graph} {impliesEnds : Bool}

/-- The cuts that generation makes. -/
def cutCandidates (g : Graph) : List CutId :=
  g.dominatorCandidates ++ [⟨g.start, g.stop⟩]

/-- Generation from `g` succeeds: it makes the cuts of `cut` and emits `q`, with statistics. -/
structure Generates (g : Graph) (impliesEnds : Bool) (cut : Graph) (q : Problem)
    (stats : EmitStats) : Prop where
  dominatorCuts : g.addDominatorCuts.failure = none
  globalCut : ∃ r, g.addDominatorCuts.graph.addGlobalCut = .ok (cut, r)
  emitted : cut.emit {} Encoding.iteCosts.code impliesEnds = (q, .ok stats)

/-- The blocks with several predecessors are cut from their declared dominators. -/
theorem Valid.mem_dominatorCandidates_iff (hg : g.Valid) {c : CutId} :
    c ∈ g.dominatorCandidates ↔
      ∃ b ∈ g.blocks, 1 < (g.preds b.uid).length ∧ c = ⟨b.dominator, b.uid⟩ := by
  simp only [dominatorCandidates, List.mem_map, List.mem_filter, hg.mem_sortedBlocks,
    decide_eq_true_eq, and_assoc]
  exact exists_congr fun b => and_congr_right fun _ => and_congr_right fun _ => eq_comm

/-! ### Which cuts are there -/

/-- A cut that is there need not be registered. -/
theorem mem_ids_of_cut?_isSome {id : CutId} (h : (g.cut? id.head id.tail).isSome) {c : CutId} :
    c ∈ g.cuts.map (·.id) ↔ c ∈ g.cuts.map (·.id) ∨ c = id := by
  have hmem : id ∈ g.cuts.map (·.id) := find?_key_isSome_iff.mp h
  constructor
  · exact .inl
  · rintro (h | rfl)
    · exact h
    · exact hmem

theorem register_ids {id : CutId} {r : LongestPath} (h : g.register id r = .ok g') {c : CutId} :
    c ∈ g'.cuts.map (·.id) ↔ c ∈ g.cuts.map (·.id) ∨ c = id := by
  unfold register at h
  split at h
  · rename_i hsome
    obtain rfl := Except.ok.inj h
    exact mem_ids_of_cut?_isSome hsome
  · obtain ⟨d, hd, h⟩ := bind_eq_ok_iff.mp h
    obtain rfl := pure_eq_ok_iff.mp h
    simp only [ofLongestPath_eq_ok hd, List.map_append, List.map_singleton, List.mem_append,
      List.mem_singleton]

theorem addCut_ids {id : CutId} {new : Bool} (h : g.addCut id = .ok (g', new)) {c : CutId} :
    c ∈ g'.cuts.map (·.id) ↔ c ∈ g.cuts.map (·.id) ∨ c = id := by
  unfold addCut at h
  split at h
  · rename_i hsome
    obtain ⟨rfl, -⟩ := Prod.mk.inj (Except.ok.inj h)
    exact mem_ids_of_cut?_isSome hsome
  · obtain ⟨r, -, h⟩ := bind_eq_ok_iff.mp h
    obtain ⟨g₁, hs, h⟩ := bind_eq_ok_iff.mp h
    obtain ⟨rfl, -⟩ := Prod.mk.inj (pure_eq_ok_iff.mp h)
    exact register_ids hs

/-- **A run that gets to its end has cut all candidates.** -/
theorem addCuts_ids {origin : CutOrigin} {ids : List CutId} {run : CutRun}
    (h : (addCuts origin run ids).failure = none) {c : CutId} :
    c ∈ (addCuts origin run ids).graph.cuts.map (·.id) ↔
      c ∈ run.graph.cuts.map (·.id) ∨ c ∈ ids := by
  induction ids generalizing run with
  | nil => simp [addCuts]
  | cons id ids ih =>
    rw [addCuts] at h ⊢
    rcases hadd : run.graph.addCut id with _ | ⟨g₁, new⟩
    · simp [hadd] at h
    · simp only [hadd] at h ⊢
      rw [ih h, addCut_ids hadd, List.mem_cons, or_assoc]

/-! ### When generation succeeds -/

theorem addGlobalCut_ids {r : LongestPath} (h : g.addGlobalCut = .ok (g', r)) {c : CutId} :
    c ∈ g'.cuts.map (·.id) ↔ c ∈ g.cuts.map (·.id) ∨ c = ⟨g.start, g.stop⟩ := by
  obtain ⟨r₁, -, h⟩ := bind_eq_ok_iff.mp h
  obtain ⟨g₁, hs, h⟩ := bind_eq_ok_iff.mp h
  obtain ⟨rfl, -⟩ := Prod.mk.inj (pure_eq_ok_iff.mp h)
  exact register_ids hs

/-- **Generation succeeds iff all of its queries do.** -/
theorem Valid.generates_iff (hg : g.Valid) (hcuts : g.cuts = []) :
    (∃ cut q stats, g.Generates impliesEnds cut q stats) ↔
      ∀ c ∈ g.cutCandidates, g.Connects c.head c.tail := by
  have hsame : SameFlow g g.addDominatorCuts.graph := addCuts_sameFlow (.refl g)
  simp only [cutCandidates, List.forall_mem_append, List.forall_mem_singleton]
  constructor
  · rintro ⟨cut, q, stats, hdom, ⟨r, hglobal⟩, -⟩
    constructor
    · intro c hc
      obtain ⟨r₁, hr₁⟩ := (cutsCurrent_of_cuts_eq_nil hcuts).longestPath_of_addCuts hdom c hc
      exact hg.connects_of_longestPath hr₁
    · have hr := (addGlobalCut_eq_ok hglobal).1
      rw [hsame.longestPath_eq, hsame.start, hsame.stop] at hr
      exact hg.connects_of_longestPath hr
  · rintro ⟨hdom, hglobal⟩
    have hcut : g.addDominatorCuts.failure = none :=
      hg.addCuts_failure_eq_none rfl fun c hc => hg.longestPath_of_connects (hdom c hc)
    obtain ⟨r, hr⟩ := hg.longestPath_of_connects hglobal
    obtain ⟨cut, hcut'⟩ : ∃ cut, g.addDominatorCuts.graph.addGlobalCut = .ok (cut, r) := by
      refine (hsame.valid hg).exists_addGlobalCut ?_
      rw [hsame.longestPath_eq, hsame.start, hsame.stop, hr]
    have hflow := hsame.trans (addGlobalCut_sameFlow hcut')
    obtain ⟨stats, hstats⟩ := (hflow.valid hg).exists_emit
      (by rw [hflow.longestPath_eq, hflow.start, hflow.stop, hr]) {} .iteCosts impliesEnds
    exact ⟨cut, _, stats, hcut, ⟨r, hcut'⟩, Prod.ext rfl hstats⟩

/-! ### What generation makes -/

/-- The statistics count the paths. -/
theorem paths_of_emit {enc : Encoding} {p q : Problem} {stats : EmitStats}
    (h : g.emit p enc.code impliesEnds = (q, .ok stats)) :
    g.countPaths g.start g.stop = .ok stats.paths := by
  simp only [emit, Encoding.ofCode?_code, summary] at h
  rcases hs : g.blockOrFail g.start with _ | start
  · simp [hs] at h
  rcases ht : g.blockOrFail g.stop with _ | stop
  · simp [hs, ht] at h
  rcases hr : g.longestSyntacticPath with _ | r
  · simp [hs, ht, hr] at h
  rcases hn : g.countPaths g.start g.stop with _ | n
  · simp [hs, ht, hr, hn] at h
  simp only [hs, ht, hr, hn] at h
  rw [← Except.ok.inj (Prod.mk.inj h).2]

namespace Generates

variable {cut : Graph} {q : Problem} {stats : EmitStats}

theorem sameFlow (h : g.Generates impliesEnds cut q stats) : SameFlow g cut := by
  obtain ⟨r, hr⟩ := h.globalCut
  exact (addCuts_sameFlow (.refl g)).trans (addGlobalCut_sameFlow hr)

theorem cutsCurrent (h : g.Generates impliesEnds cut q stats) (hcuts : g.cuts = []) :
    cut.CutsCurrent := by
  obtain ⟨r, hr⟩ := h.globalCut
  have hdom : g.addDominatorCuts.graph.CutsCurrent :=
    addCuts_preserves (P := CutsCurrent) (fun hc hr hnone => hc.withCut hr hnone)
      (cutsCurrent_of_cuts_eq_nil hcuts)
  obtain ⟨hquery, rfl | ⟨hnone, rfl⟩⟩ := addGlobalCut_eq_ok hr
  · exact hdom
  · exact hdom.withCut hquery hnone

/-- **There is one cut for each candidate.** -/
theorem mem_cuts_iff (h : g.Generates impliesEnds cut q stats) (hcuts : g.cuts = []) {c : CutId} :
    c ∈ cut.cuts.map (·.id) ↔ c ∈ g.cutCandidates := by
  have hsame : SameFlow g g.addDominatorCuts.graph := addCuts_sameFlow (.refl g)
  obtain ⟨r, hr⟩ := h.globalCut
  have hdom : c ∈ g.addDominatorCuts.graph.cuts.map (·.id) ↔ c ∈ g.dominatorCandidates := by
    rw [addDominatorCuts, addCuts_ids h.dominatorCuts, hcuts]
    simp
  rw [addGlobalCut_ids hr, hdom, hsame.start, hsame.stop, cutCandidates, List.mem_append,
    List.mem_singleton]

/-- The statistics are what the queries from the start to the end return. -/
theorem summary_eq (h : g.Generates impliesEnds cut q stats) :
    (∃ r, g.longestPath g.start g.stop = .ok r ∧ stats.longest = r.cost) ∧
      g.countPaths g.start g.stop = .ok stats.paths := by
  have hflow := h.sameFlow
  obtain ⟨-, -, r, -, -, hr, hlongest, -⟩ := emit_eq_ok h.emitted
  have hpaths := paths_of_emit h.emitted
  rw [hflow.longestPath_eq, hflow.start, hflow.stop] at hr
  rw [hflow.countPaths_eq, hflow.start, hflow.stop] at hpaths
  exact ⟨⟨r, hr, hlongest⟩, hpaths⟩

end Generates

end Graph

end WorstCase
