import WorstCase.Proofs.Graph.Dominance
import WorstCase.Proofs.Graph.PathCount
import Mathlib.Data.List.ProdSigma

/-!
# Queries split at waypoints

If the ways from a head to a **waypoint** and from there to a tail have both been queried with
success, then the simple paths from the head to the tail are exactly the simple paths to the
waypoint, continued by those from the waypoint (`Graph.Valid.simplePath_waypoint_iff`).

* No path leads around the waypoint: the query from there certifies that it dominates the tail.
* Two parts never share a block but the waypoint: a walk from a shared block to the tail would have
  to meet the waypoint once more.
* A path determines its parts, since it meets the waypoint once.

So the largest costs add up, with the cost of the waypoint counted once, and the numbers of paths
multiply (`Graph.query_factors`). Cuts at different strides of the same chain agree for this reason.
-/

namespace WorstCase

namespace Graph

variable {g : Graph} {src mid dst : Int} {p q : List Int}

/-! ### Joining paths -/

theorem Walk.exists_concat (h : g.Walk src p dst) : ∃ q, p = q ++ [dst] := by
  induction h with
  | single a => exact ⟨[], rfl⟩
  | @step a b c p hab hp ih =>
    obtain ⟨q, rfl⟩ := ih
    exact ⟨a :: q, rfl⟩

/-- What two walks that meet at `mid` look like: the second goes on where the first ends. -/
theorem Walk.exists_join (hp : g.Walk src p mid) (hq : g.Walk mid q dst) :
    ∃ p' q', p = p' ++ [mid] ∧ q = mid :: q' ∧ p ++ q.tail = p' ++ mid :: q' := by
  obtain ⟨p', rfl⟩ := hp.exists_concat
  obtain ⟨q', rfl⟩ := hq.exists_cons
  exact ⟨p', q', rfl, rfl, by simp⟩

theorem Walk.join (hp : g.Walk src p mid) (hq : g.Walk mid q dst) :
    g.Walk src (p ++ q.tail) dst := by
  obtain ⟨q', rfl⟩ := hq.exists_cons
  exact hp.append hq

/-- Costs add up where two walks are joined; the block they share counts once. -/
theorem Walk.pathCost_join (hp : g.Walk src p mid) (hq : g.Walk mid q dst) :
    g.pathCost (p ++ q.tail) = g.pathCost p + g.pathCost q - g.blockCost mid := by
  obtain ⟨p', q', rfl, rfl, hjoin⟩ := hp.exists_join hq
  rw [hjoin, pathCost_append_cons]

/-- A path that meets `mid` once determines its two parts. -/
theorem Walk.join_inj {p' q' : List Int} (hp : g.Walk src p mid) (hq : g.Walk mid q dst)
    (hp' : g.Walk src p' mid) (hq' : g.Walk mid q' dst) (hpnd : p.Nodup) (hqnd : q.Nodup)
    (h : p ++ q.tail = p' ++ q'.tail) : p = p' ∧ q = q' := by
  obtain ⟨p₁, q₁, rfl, rfl, hjoin⟩ := hp.exists_join hq
  obtain ⟨p₂, q₂, rfl, rfl, hjoin'⟩ := hp'.exists_join hq'
  rw [hjoin, hjoin'] at h
  have hmid : mid ∉ p₁ := fun hmem =>
    (List.nodup_append.mp hpnd).2.2 mid hmem mid (List.mem_singleton_self mid) rfl
  obtain ⟨rfl, -, rfl⟩ :=
    (List.append_cons_inj_of_notMem hmid (List.nodup_cons.mp hqnd).1).mp h
  exact ⟨rfl, rfl⟩

/-! ### Paths through a waypoint -/

section Waypoint

variable {r₁ r₂ : LongestPath} (hg : g.Valid) (h₁ : g.longestPath src mid = .ok r₁)
  (h₂ : g.longestPath mid dst = .ok r₂)

include hg h₁

theorem Valid.reaches_of_longestPath : g.Reaches src mid := by
  obtain ⟨v, hv, harc⟩ := hg.connects_of_longestPath h₁
  exact Connects.reaches (hg.swept hv) harc

include h₂

omit h₁ in
/-- **Parts on the two sides of a waypoint share only the waypoint.** -/
theorem Valid.nodup_join (hp : g.Walk src p mid) (hpnd : p.Nodup) (hq : g.Walk mid q dst)
    (hqnd : q.Nodup) : (p ++ q.tail).Nodup := by
  obtain ⟨q', rfl⟩ := hq.exists_cons
  obtain ⟨hmid, hqnd'⟩ := List.nodup_cons.mp hqnd
  refine List.nodup_append.mpr ⟨hpnd, hqnd', fun x hx y hy => ?_⟩
  rintro rfl
  -- the rest of the second part from the shared block on cannot meet the waypoint again
  obtain ⟨q₁, q₂, hsplit, -, hrest⟩ := hq.split (List.mem_cons_of_mem mid hy)
  have hagain : mid ∈ x :: q₂ :=
    hg.src_mem_of_longestPath h₂ (hp.reaches_of_mem hx).2 hrest
  cases q₁ with
  | nil =>
    obtain ⟨rfl, rfl⟩ := List.cons.inj hsplit
    exact hmid hy
  | cons z q₁ =>
    obtain ⟨-, rfl⟩ := List.cons.inj hsplit
    exact hmid (List.mem_append_right q₁ hagain)

/-- **Simple paths split at the waypoint**, and any two parts make a simple path. -/
theorem Valid.simplePath_waypoint_iff :
    (g.Walk src p dst ∧ p.Nodup) ↔
      ∃ p₁ p₂, (g.Walk src p₁ mid ∧ p₁.Nodup) ∧ (g.Walk mid p₂ dst ∧ p₂.Nodup) ∧
        p = p₁ ++ p₂.tail := by
  constructor
  · rintro ⟨hp, hnd⟩
    have hmid : mid ∈ p :=
      hg.src_mem_of_longestPath h₂ (hg.reaches_of_longestPath h₁) hp
    obtain ⟨p₁, p₂, rfl, hp₁, hp₂⟩ := hp.split hmid
    refine ⟨p₁ ++ [mid], mid :: p₂, ⟨hp₁, ?_⟩, ⟨hp₂, ?_⟩, by simp⟩
    · exact hnd.sublist ((List.singleton_sublist.mpr List.mem_cons_self).append_left p₁)
    · exact hnd.sublist (List.sublist_append_right p₁ _)
  · rintro ⟨p₁, p₂, ⟨hp₁, hnd₁⟩, ⟨hp₂, hnd₂⟩, rfl⟩
    exact ⟨hp₁.join hp₂, hg.nodup_join h₂ hp₁ hnd₁ hp₂ hnd₂⟩

/-- **The largest cost splits at the waypoint**, where no sum wraps. -/
theorem Valid.cost_waypoint {r : LongestPath} (h : g.longestPath src dst = .ok r)
    (hfit₁ : g.SumsFit src mid) (hfit₂ : g.SumsFit mid dst) (hfit : g.SumsFit src dst) :
    r.cost.toInt = r₁.cost.toInt + r₂.cost.toInt - g.blockCost mid := by
  obtain ⟨hw₁, hnd₁, hcost₁⟩ := hfit₁.longestPath_walk hg h₁
  obtain ⟨hw₂, hnd₂, hcost₂⟩ := hfit₂.longestPath_walk hg h₂
  obtain ⟨hw, hnd, hcost⟩ := hfit.longestPath_walk hg h
  apply Int.le_antisymm
  · obtain ⟨p₁, p₂, ⟨hp₁, hpnd₁⟩, ⟨hp₂, hpnd₂⟩, hsplit⟩ :=
      (hg.simplePath_waypoint_iff h₁ h₂).mp ⟨hw, hnd⟩
    have hle₁ := hfit₁.pathCost_le_longestPath hg h₁ hp₁ hpnd₁
    have hle₂ := hfit₂.pathCost_le_longestPath hg h₂ hp₂ hpnd₂
    rw [hcost, hsplit, hp₁.pathCost_join hp₂]
    omega
  · have hle := hfit.pathCost_le_longestPath hg h (hw₁.join hw₂)
      (hg.nodup_join h₂ hw₁ hnd₁ hw₂ hnd₂)
    rw [hw₁.pathCost_join hw₂] at hle
    omega

/-- **Paths are counted by their parts.** -/
theorem Valid.countPaths_waypoint {n₁ n₂ n : Nat} (hn₁ : g.countPaths src mid = .ok n₁)
    (hn₂ : g.countPaths mid dst = .ok n₂) (hn : g.countPaths src dst = .ok n) : n = n₁ * n₂ := by
  obtain ⟨l₁, hl₁, rfl⟩ := hg.countPaths_enumerates hn₁
  obtain ⟨l₂, hl₂, rfl⟩ := hg.countPaths_enumerates hn₂
  obtain ⟨l, hl, rfl⟩ := hg.countPaths_enumerates hn
  have hjoined : Enumerates ((l₁ ×ˢ l₂).map fun parts => parts.1 ++ parts.2.tail)
      (fun p => g.Walk src p dst ∧ p.Nodup) := by
    constructor
    · refine (hl₁.nodup.product hl₂.nodup).map_on ?_
      rintro ⟨p₁, p₂⟩ hp ⟨q₁, q₂⟩ hq heq
      obtain ⟨hp₁, hp₂⟩ := List.mem_product.mp hp
      obtain ⟨hq₁, hq₂⟩ := List.mem_product.mp hq
      obtain ⟨hp₁, hnd₁⟩ := (hl₁.mem_iff p₁).mp hp₁
      obtain ⟨hp₂, hnd₂⟩ := (hl₂.mem_iff p₂).mp hp₂
      have hq₁ := ((hl₁.mem_iff q₁).mp hq₁).1
      have hq₂ := ((hl₂.mem_iff q₂).mp hq₂).1
      obtain ⟨rfl, rfl⟩ := hp₁.join_inj hp₂ hq₁ hq₂ hnd₁ hnd₂ heq
      rfl
    · intro p
      rw [hg.simplePath_waypoint_iff h₁ h₂, List.mem_map]
      constructor
      · rintro ⟨⟨p₁, p₂⟩, hp, rfl⟩
        obtain ⟨hp₁, hp₂⟩ := List.mem_product.mp hp
        exact ⟨p₁, p₂, (hl₁.mem_iff p₁).mp hp₁, (hl₂.mem_iff p₂).mp hp₂, rfl⟩
      · rintro ⟨p₁, p₂, hp₁, hp₂, rfl⟩
        have hmem : (p₁, p₂) ∈ l₁ ×ˢ l₂ :=
          List.mem_product.mpr ⟨(hl₁.mem_iff p₁).mpr hp₁, (hl₂.mem_iff p₂).mpr hp₂⟩
        exact ⟨(p₁, p₂), hmem, rfl⟩
  rw [hl.length_eq hjoined, List.length_map, List.length_product]

end Waypoint

/-- **Costs and counts factor through waypoints.** If the longest paths from `head` to `mid`, from
`mid` to `tail` and from `head` to `tail` are all found, then the paths of all three pairs are
counted, and their numbers multiply. If moreover no sum of the three queries wraps, then the two
costs make up the third, with the cost of `mid` counted once. -/
theorem query_factors {g : Graph} (hg : g.Built) {head mid tail : Int} {r₁ r₂ r : LongestPath}
    (h₁ : g.longestPath head mid = .ok r₁) (h₂ : g.longestPath mid tail = .ok r₂)
    (h : g.longestPath head tail = .ok r) :
    (g.SumsFit head mid → g.SumsFit mid tail → g.SumsFit head tail →
      r.cost.toInt = r₁.cost.toInt + r₂.cost.toInt - g.blockCost mid) ∧
    ∃ n₁ n₂, g.countPaths head mid = .ok n₁ ∧ g.countPaths mid tail = .ok n₂ ∧
      g.countPaths head tail = .ok (n₁ * n₂) := by
  refine ⟨hg.valid.cost_waypoint h₁ h₂ h, ?_⟩
  have hcount : ∀ {a c : Int} {r : LongestPath}, g.longestPath a c = .ok r →
      ∃ n, g.countPaths a c = .ok n := fun hr =>
    hg.valid.countPaths_isOk_iff.mpr (hg.valid.connects_of_longestPath hr)
  obtain ⟨n₁, hn₁⟩ := hcount h₁
  obtain ⟨n₂, hn₂⟩ := hcount h₂
  obtain ⟨n, hn⟩ := hcount h
  refine ⟨n₁, n₂, hn₁, hn₂, ?_⟩
  rw [hn, hg.valid.countPaths_waypoint h₁ h₂ hn₁ hn₂ hn]

/-- Two forks in a row, from block 0 to block 3 and from there to block 6. The costs of the
branches are so large that they do not fit 64 bits all together, but along each path they do. -/
def twoForks : Graph where
  blocks :=
    [ { uid := 0, selector := "bs_0", written := "bs_0", cost := 1 },
      { uid := 1, selector := "b_1", written := "b_1", cost := 4611686018427387904,
        dominator := 0 },
      { uid := 2, selector := "b_2", written := "b_2", cost := 4611686018427387000,
        dominator := 0 },
      { uid := 3, selector := "b_3", written := "b_3", cost := 10, dominator := 0 },
      { uid := 4, selector := "b_4", written := "b_4", cost := -4611686018427387904,
        dominator := 3 },
      { uid := 5, selector := "b_5", written := "b_5", cost := -7, dominator := 3 },
      { uid := 6, selector := "b_6", written := "b_6", cost := 5, dominator := 3 } ]
  edges :=
    [ ⟨⟨0, 1⟩, 0⟩, ⟨⟨0, 2⟩, 2⟩, ⟨⟨1, 3⟩, 0⟩, ⟨⟨2, 3⟩, 0⟩, ⟨⟨3, 4⟩, 0⟩, ⟨⟨3, 5⟩, 0⟩, ⟨⟨4, 6⟩, 3⟩,
      ⟨⟨5, 6⟩, 0⟩ ]

theorem twoForks_built : twoForks.Built :=
  (Built.empty.foldlM_addBlock
    (show twoForks.blocks.foldlM addBlock {} = .ok { blocks := twoForks.blocks } by
      decide)).foldlM_addEdge
    (show twoForks.edges.foldlM addEdge { blocks := twoForks.blocks } = .ok twoForks by
      decide)

theorem query_factors_twoForks :
    2 ^ 63 ≤ twoForks.costMass ∧
      (4611686018427387913 : Int64).toInt =
        (4611686018427387915 : Int64).toInt + (8 : Int64).toInt - twoForks.blockCost 3 ∧
      ∃ n₁ n₂, twoForks.countPaths 0 3 = .ok n₁ ∧ twoForks.countPaths 3 6 = .ok n₂ ∧
        twoForks.countPaths 0 6 = .ok (n₁ * n₂) := by
  have h₁ : twoForks.longestPath 0 3 =
      .ok { cost := 4611686018427387915, path := [0, 1, 3], blocks := [0, 1, 2, 3],
            edges := [⟨0, 1⟩, ⟨0, 2⟩, ⟨1, 3⟩, ⟨2, 3⟩] } := by
    decide
  have h₂ : twoForks.longestPath 3 6 =
      .ok { cost := 8, path := [3, 5, 6], blocks := [3, 4, 5, 6],
            edges := [⟨3, 4⟩, ⟨3, 5⟩, ⟨4, 6⟩, ⟨5, 6⟩] } := by
    decide
  have h : twoForks.longestPath 0 6 =
      .ok { cost := 4611686018427387913, path := [0, 1, 3, 5, 6], blocks := [0, 1, 2, 3, 4, 5, 6],
            edges := [⟨0, 1⟩, ⟨0, 2⟩, ⟨1, 3⟩, ⟨2, 3⟩, ⟨3, 4⟩, ⟨3, 5⟩, ⟨4, 6⟩, ⟨5, 6⟩] } := by
    decide
  obtain ⟨hcost, hcount⟩ := query_factors twoForks_built h₁ h₂ h
  exact ⟨by decide,
    hcost (by decide) (by decide) (by decide), hcount⟩

end Graph

end WorstCase
