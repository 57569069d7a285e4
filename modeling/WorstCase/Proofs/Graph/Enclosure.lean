import WorstCase.Proofs.Ascending
import WorstCase.Proofs.Graph.Progress
import WorstCase.Proofs.Graph.Region

/-!
# What a query encloses

The region of a query is collected on the way back from `dst`, and nothing on that way asks whether
`src` leads there: a block that nothing leads to gets into the region as well. Where every block can
be reached from the start, no such block is met. The way from the start to a visited block can be
taken on to `dst` without meeting `src` again, but it has to meet `src` somewhere, so `src` leads to
the visited block (`Graph.IsRegion.reaches_of_start`). A simple path from `src` to a visited block
runs through visited blocks, so it stays simple when it is taken on to `dst`
(`Graph.IsRegion.exists_path_through`).

Hence the region consists of the blocks and the edges on simple paths from `src` to `dst`
(`Graph.region_exact`).
-/

namespace WorstCase

namespace Graph

variable {g : Graph} {src dst : Int}

namespace IsRegion

variable {v : Visits} {blocks : List Int} {edges : List EdgeId} {x : Int} {q : List Int}

theorem src_notMem_walk (hr : IsRegion g src dst v blocks edges) (hx : x ∈ v.blocks)
    (hq : g.Walk x q dst) : src ∉ q := by
  intro hsrc
  exact hr.swept.settled.src_notMem
    (hr.swept.settled.walk_mem (List.mem_reverse.mpr hx) hq hsrc)

/-- **What the start leads to, `src` leads to**, as far as it has been visited. -/
theorem reaches_of_start (hr : IsRegion g src dst v blocks edges) (hsrc : g.Reaches g.start src)
    (hx : x ∈ v.blocks) (hstart : g.Reaches g.start x) : g.Reaches src x := by
  obtain ⟨p, hp⟩ := exists_walk_of_reaches hstart
  obtain ⟨q, hq⟩ := exists_walk_of_reaches (hr.reaches_of_mem hx)
  obtain ⟨q, rfl⟩ := hq.exists_cons
  rcases List.mem_append.mp (hr.swept.src_mem_of_walk hr.reaches hsrc (hp.append hq)) with h | h
  · exact (hp.reaches_of_mem h).2
  · exact absurd (List.mem_cons_of_mem _ h) (hr.src_notMem_walk hx hq)

/-- **A walk from a visited block to `dst` is the end of a simple path** from `src`, if `src` leads
to the block. -/
theorem exists_path_through (hr : IsRegion g src dst v blocks edges) (hsrc : g.Reaches src x)
    (hx : x ∈ v.blocks) (hq : g.Walk x q dst) :
    ∃ p, g.Walk src (p ++ q) dst ∧ (p ++ q).Nodup := by
  obtain ⟨w, hw, hnd⟩ := exists_path_of_reaches hsrc
  obtain ⟨q, rfl⟩ := hq.exists_cons
  cases hw with
  | single => exact absurd List.mem_cons_self (hr.src_notMem_walk hx hq)
  | @step _ n _ w harc hw =>
    obtain ⟨w₁, w₂, rfl, hw₁, -⟩ := hw.split hw.last_mem
    have hrest : g.Walk n (w₁ ++ x :: q) dst := by simpa using hw₁.append hq
    -- after the first step the path does not meet `src`, so it runs through visited blocks
    have hn : n ∈ v.blocks := by
      refine hr.swept.mem_of_walk hrest fun hmem => ?_
      rcases List.mem_append.mp hmem with hmem | hmem
      · exact (List.nodup_cons.mp hnd).1 (List.mem_append_left _ hmem)
      · exact hr.src_notMem_walk hx hq hmem
    exact ⟨src :: w₁, .step harc hrest, hr.cons_nodup harc hn hrest⟩

/-- The blocks of a region are those on simple paths. -/
theorem mem_blocks_iff (hr : IsRegion g src dst v blocks edges)
    (hsrc : ∀ x ∈ v.blocks, g.Reaches src x) :
    x ∈ blocks ↔ ∃ p, g.Walk src p dst ∧ p.Nodup ∧ x ∈ p := by
  rw [hr.mem_blocks]
  constructor
  · rintro (rfl | hx)
    · obtain ⟨p, hp, hnd⟩ := hr.exists_walk
      exact ⟨p, hp, hnd, hp.head_mem⟩
    · obtain ⟨q, hq⟩ := exists_walk_of_reaches (hr.reaches_of_mem hx)
      obtain ⟨p, hp, hnd⟩ := hr.exists_path_through (hsrc x hx) hx hq
      exact ⟨p ++ q, hp, hnd, List.mem_append_right _ hq.head_mem⟩
  · rintro ⟨p, hp, hnd, hx⟩
    by_cases hne : x = src
    · exact .inl hne
    · exact .inr (hr.swept.mem_blocks_iff.mpr (hp.reachesWithout hnd hx hne))

/-- The edges of a region are those on simple paths. -/
theorem mem_edges_iff (hr : IsRegion g src dst v blocks edges)
    (hsrc : ∀ x ∈ v.blocks, g.Reaches src x) {id : EdgeId} :
    id ∈ edges ↔ ∃ p, g.Walk src p dst ∧ p.Nodup ∧ id ∈ pathEdges p := by
  rw [hr.mem_edges]
  constructor
  · rintro ⟨harc, hdst⟩
    obtain ⟨q, hq⟩ := exists_walk_of_reaches (hr.reaches_of_mem hdst)
    obtain ⟨q, rfl⟩ := hq.exists_cons
    have hedge : id ∈ pathEdges (id.src :: id.dst :: q) := List.mem_cons_self
    rcases hr.swept.preds id.dst hdst id.src harc with heq | hmem
    · rw [heq] at harc hedge
      exact ⟨_, .step harc hq, hr.cons_nodup harc hdst hq, hedge⟩
    · obtain ⟨p, hp, hnd⟩ := hr.exists_path_through (hsrc _ hmem) hmem (.step harc hq)
      refine ⟨_, hp, hnd, ?_⟩
      rw [pathEdges_append_cons]
      exact List.mem_append_right _ hedge
  · rintro ⟨p, hp, hnd, hid⟩
    refine ⟨hp.arc_of_mem_pathEdges hid, ?_⟩
    obtain ⟨q, rfl⟩ := hp.exists_cons
    have hdst := dst_mem_of_mem_pathEdges hid
    refine hr.swept.mem_blocks_iff.mpr
      (hp.reachesWithout hnd (List.mem_cons_of_mem _ hdst) fun heq => ?_)
    exact (List.nodup_cons.mp hnd).1 (heq ▸ hdst)

end IsRegion

/-- A query lists its blocks and its edges in strict order. -/
theorem Valid.ascending_of_longestPath (hg : g.Valid) {r : LongestPath}
    (h : g.longestPath src dst = .ok r) :
    r.blocks.Pairwise (· < ·) ∧
      r.edges.Pairwise fun a b => a.src < b.src ∨ a.src = b.src ∧ a.dst < b.dst := by
  obtain ⟨-, v, -, -, -, -, -, -, hblocks, hedges⟩ := longestPath_eq_ok h
  obtain ⟨-, -, hnd, hnd'⟩ := hg.isRegion h
  have hsorted := linear_uids.pairwise_sortBy (src :: v.blocks)
  have hsorted' := linear_edgeIds.pairwise_sortBy (v.steps.map (·.edge.id))
  rw [← hblocks] at hsorted
  rw [← hedges] at hsorted'
  constructor
  · refine (hsorted.and hnd).imp ?_
    rintro a b ⟨hle, hne⟩
    have hle : a ≤ b := of_decide_eq_true hle
    omega
  · refine (hsorted'.and hnd').imp ?_
    rintro ⟨s, d⟩ ⟨s', d'⟩ ⟨hle, hne⟩
    rw [EdgeId.le_iff] at hle
    rw [ne_eq, EdgeId.mk.injEq] at hne
    dsimp only at hle ⊢
    omega

/-- **The region of a query is exact** where every block can be reached from the start: in strict
order, the blocks and the edges on simple paths from `src` to `dst`. -/
theorem region_exact {g : Graph} (hg : g.Built)
    (hreach : ∀ x ∈ g.blocks.map (·.uid), g.Reaches g.start x) {src dst : Int} {r : LongestPath}
    (h : g.longestPath src dst = .ok r) :
    (r.blocks.Pairwise (· < ·) ∧
      ∀ x, x ∈ r.blocks ↔ ∃ p, g.Walk src p dst ∧ p.Nodup ∧ x ∈ p) ∧
      (r.edges.Pairwise fun a b => a.src < b.src ∨ a.src = b.src ∧ a.dst < b.dst) ∧
      ∀ id, id ∈ r.edges ↔ ∃ p, g.Walk src p dst ∧ p.Nodup ∧ id ∈ pathEdges p := by
  obtain ⟨v, hr, -, -⟩ := hg.valid.isRegion h
  obtain ⟨hascending, hascending'⟩ := hg.valid.ascending_of_longestPath h
  have hknown := (hg.valid.connects_iff.mp (hg.valid.connects_of_longestPath h)).2.1
  have hsrc : ∀ x ∈ v.blocks, g.Reaches src x := by
    intro x hx
    have hx' : x ∈ g.blocks.map (·.uid) := by
      rcases (hr.reaches_of_mem hx).cases_head with rfl | ⟨y, harc, -⟩
      · exact hg.valid.known_of_reaches hknown hr.reaches
      · exact (hg.valid.arc_known harc).1
    exact hr.reaches_of_start (hreach src hknown) hx (hreach x hx')
  exact ⟨⟨hascending, fun x => hr.mem_blocks_iff hsrc⟩, hascending',
    fun id => hr.mem_edges_iff hsrc⟩

/-- Blocks 1 to 4 are a fork that is closed again. Block 2 also leads to block 5, a dead end, and
block 1 back to the start. -/
def woven : Graph where
  blocks :=
    [ { uid := 0, selector := "bs_0", written := "bs_0", cost := 1 },
      { uid := 1, selector := "b_1", written := "b_1", cost := 4, dominator := 0 },
      { uid := 2, selector := "b_2", written := "b_2", cost := 7, dominator := 1 },
      { uid := 3, selector := "b_3", written := "b_3", cost := 3, dominator := 1 },
      { uid := 4, selector := "b_4", written := "b_4", cost := 2, dominator := 1 },
      { uid := 5, selector := "b_5", written := "b_5", cost := 9, dominator := 2 } ]
  edges :=
    [ ⟨⟨3, 4⟩, 0⟩, ⟨⟨2, 4⟩, 0⟩, ⟨⟨2, 5⟩, 0⟩, ⟨⟨1, 3⟩, 0⟩, ⟨⟨1, 2⟩, 0⟩, ⟨⟨1, 0⟩, 0⟩, ⟨⟨0, 1⟩, 0⟩ ]
  start := 0
  stop := 4

theorem woven_built : woven.Built :=
  .annotate
    ((Built.empty.foldlM_addBlock
      (show woven.blocks.foldlM addBlock {} = .ok { blocks := woven.blocks } by
        decide)).foldlM_addEdge
      (show woven.edges.foldlM addEdge { blocks := woven.blocks } =
          .ok { woven with start := noDominator, stop := noDominator } by
        decide))
    (.endpoints (show Graph.setEndpoints _ 0 4 = .ok woven by decide))

theorem region_exact_woven :
    (∀ x ∈ woven.blocks.map (·.uid), woven.Reaches woven.start x) ∧
      woven.longestPath 1 4 =
        .ok { cost := 13, path := [1, 2, 4], blocks := [1, 2, 3, 4],
              edges := [⟨1, 2⟩, ⟨1, 3⟩, ⟨2, 4⟩, ⟨3, 4⟩] } ∧
      (∀ x, x ∈ [(1 : Int), 2, 3, 4] ↔ ∃ p, woven.Walk 1 p 4 ∧ p.Nodup ∧ x ∈ p) ∧
      ∀ id, id ∈ ([⟨1, 2⟩, ⟨1, 3⟩, ⟨2, 4⟩, ⟨3, 4⟩] : List EdgeId) ↔
        ∃ p, woven.Walk 1 p 4 ∧ p.Nodup ∧ id ∈ pathEdges p := by
  have hreaching : ∀ x ∈ woven.blocks.map (·.uid), 0 ∈ woven.reaching x := by decide
  have hreach : ∀ x ∈ woven.blocks.map (·.uid), woven.Reaches woven.start x := fun x hx =>
    (woven_built.valid.mem_reaching_iff hx).mp (hreaching x hx)
  have hquery : woven.longestPath 1 4 =
      .ok { cost := 13, path := [1, 2, 4], blocks := [1, 2, 3, 4],
            edges := [⟨1, 2⟩, ⟨1, 3⟩, ⟨2, 4⟩, ⟨3, 4⟩] } := by decide
  obtain ⟨⟨-, hblocks⟩, -, hedges⟩ := region_exact woven_built hreach hquery
  exact ⟨hreach, hquery, hblocks, hedges⟩

end Graph

end WorstCase
