import WorstCase.Proofs.Graph.Region

/-!
# Current cuts

A cut stores the result of a query at the time when it was registered. Queries look at blocks and
edges only, so as long as these stay as they are the cut is **current**: the query from its head to
its tail would return the same again.

A graph is `Graph.Annotated` when all of its cuts were registered after the last change to blocks,
edges and costs, in any sequence of annotations. Then all of its cuts are current and no two have
the same ends (`Graph.Annotated.cutsCurrent`).
-/

namespace WorstCase

namespace Graph

/-! ### Queries look at blocks and edges only -/

section Congr

variable {g g' : Graph} (hb : g'.blocks = g.blocks) (he : g'.edges = g.edges)

include hb in
theorem block?_congr (uid : Int) : g'.block? uid = g.block? uid := by
  rw [block?, hb, block?]

include he in
theorem edge?_congr (src dst : Int) : g'.edge? src dst = g.edge? src dst := by
  rw [edge?, he, edge?]

include he in
theorem preds_congr : g'.preds = g.preds := by
  funext uid
  rw [preds, he, preds]

include he in
theorem succs_congr : g'.succs = g.succs := by
  funext uid
  rw [succs, he, succs]

include hb in
theorem blockOrFail_congr (uid : Int) : g'.blockOrFail uid = g.blockOrFail uid := by
  rw [blockOrFail, block?_congr hb, blockOrFail]

include hb in
theorem climb_congr (src dst : Int) (bound : Nat) (cur : Int) :
    g'.climb src dst bound cur = g.climb src dst bound cur := by
  induction bound generalizing cur with
  | zero => rfl
  | succ bound ih => simp only [climb, block?_congr hb, ih]

include hb he in
theorem firstReady_congr (reaching visited worklist : List Int) :
    g'.firstReady reaching visited worklist = g.firstReady reaching visited worklist := by
  induction worklist with
  | nil => rfl
  | cons uid rest ih =>
    simp only [firstReady, isReady, succs_congr he, blockOrFail_congr hb, ih]
    rfl

include hb he in
theorem incoming_congr (uid : Int) : g'.incoming uid = g.incoming uid := by
  simp only [incoming, preds_congr he, blockOrFail_congr hb, edge?_congr he]

include hb he in
theorem sweepFrom_congr (src dst : Int) (reaching : List Int) (rounds : Nat)
    (worklist visited : List Int) :
    g'.sweepFrom src dst reaching rounds worklist visited =
      g.sweepFrom src dst reaching rounds worklist visited := by
  induction rounds generalizing worklist visited with
  | zero => cases worklist <;> rfl
  | succ rounds ih =>
    cases worklist with
    | nil => rfl
    | cons uid rest =>
      simp only [sweepFrom, firstReady_congr hb he, incoming_congr hb he, preds_congr he, ih]

include hb he in
theorem sweep_congr (src dst : Int) : g'.sweep src dst = g.sweep src dst := by
  have hreaching : g'.reaching dst = g.reaching dst := by
    rw [reaching, preds_congr he, hb, reaching]
  have hdom : g'.checkDominates src dst = g.checkDominates src dst := by
    rw [checkDominates, climb_congr hb, hb, checkDominates]
  simp only [sweep, blockOrFail_congr hb, hdom, hreaching, hb, sweepFrom_congr hb he]

include hb he in
theorem longestPath_congr (src dst : Int) : g'.longestPath src dst = g.longestPath src dst := by
  simp only [longestPath, blockOrFail_congr hb, sweep_congr hb he, hb]

end Congr

/-! ### Cuts that are up to date -/

/-- No two cuts have the same ends, and each is what its query returns now. -/
structure CutsCurrent (g : Graph) : Prop where
  ids_nodup : (g.cuts.map (·.id)).Nodup
  query : ∀ c ∈ g.cuts, ∃ r, g.longestPath c.id.head c.id.tail = .ok r ∧
    c.cost = r.cost ∧ c.blocks = r.blocks ∧ c.edges = r.edges

theorem cutsCurrent_of_cuts_eq_nil {g : Graph} (h : g.cuts = []) : g.CutsCurrent where
  ids_nodup := by simp [h]
  query := by simp [h]

theorem CutsCurrent.withCut {g : Graph} (hg : g.CutsCurrent) {id : CutId} {r : LongestPath}
    (hr : g.longestPath id.head id.tail = .ok r) (hnone : g.cut? id.head id.tail = none) :
    (g.withCut id r).CutsCurrent where
  ids_nodup := by
    rw [Graph.withCut, List.map_append, List.map_singleton, List.nodup_append_comm,
      List.singleton_append, List.nodup_cons]
    refine ⟨fun hmem => ?_, hg.ids_nodup⟩
    have hsome : (g.cut? id.head id.tail).isSome := find?_key_isSome_iff.mpr hmem
    rw [hnone] at hsome
    exact Bool.false_ne_true hsome
  query c hc := by
    have hsame : (g.withCut id r).longestPath c.id.head c.id.tail =
        g.longestPath c.id.head c.id.tail :=
      longestPath_congr (by rfl) (by rfl) _ _
    rw [hsame]
    rcases List.mem_append.mp hc with hc | hc
    · exact hg.query c hc
    · obtain rfl := List.mem_singleton.mp hc
      exact ⟨r, hr, rfl, rfl, rfl⟩

theorem CutsCurrent.endpoints {g : Graph} (hg : g.CutsCurrent) (start stop : Int) :
    { g with start, stop }.CutsCurrent where
  ids_nodup := hg.ids_nodup
  query c hc := by
    have hsame : { g with start, stop }.longestPath c.id.head c.id.tail =
        g.longestPath c.id.head c.id.tail :=
      longestPath_congr (by rfl) (by rfl) _ _
    rw [hsame]
    exact hg.query c hc

/-- The graphs whose cuts were all registered after the last change to blocks, edges and costs. -/
def Annotated (g : Graph) : Prop :=
  ∃ g₀ : Graph, g₀.Built ∧ g₀.cuts = [] ∧ Relation.ReflTransGen Annotates g₀ g

theorem Annotated.built {g : Graph} (hg : g.Annotated) : g.Built := by
  obtain ⟨g₀, hg₀, -, hsteps⟩ := hg
  induction hsteps with
  | refl => exact hg₀
  | tail _ hstep ih => exact .annotate ih hstep

/-- **Cuts that were registered after the last change are current.** -/
theorem Annotated.cutsCurrent {g : Graph} (hg : g.Annotated) : g.CutsCurrent := by
  obtain ⟨g₀, -, hcuts, hsteps⟩ := hg
  induction hsteps with
  | refl => exact cutsCurrent_of_cuts_eq_nil hcuts
  | tail _ hstep ih =>
    exact hstep.preserves (fun h hr hnone => h.withCut hr hnone)
      (fun h => h.endpoints _ _) ih

end Graph

end WorstCase
