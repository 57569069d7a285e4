import WorstCase.Proofs.Graph.Dominance
import Mathlib.Algebra.Order.BigOperators.Group.List

/-!
# Regions and the walks that cross them

The **region** of a query from `src` to `dst` consists of the blocks and edges in its result: `src`
and the visited blocks, and the edges into visited blocks. Costs are not negative here.

A walk from the start may enter a region only through `src`, may leave it anywhere, and cannot come
back once it is where `dst` is out of reach. So what it meets of the region is the beginning of a
walk from `src` to `dst`, and costs at most as much as the longest one
(`Graph.Valid.insideCost_le`). This is what makes cuts sound.
-/

namespace WorstCase

namespace Graph

variable {g : Graph} {src dst : Int}

/-! ### What a query returns besides the path -/

theorem Swept.mem_edgeIds_iff {v : Visits} (hg : g.Valid) (hv : Swept g src dst v) {id : EdgeId} :
    id ∈ v.steps.map (·.edge.id) ↔ g.Arc id.src id.dst ∧ id.dst ∈ v.blocks := by
  rw [hv.steps_eq, List.mem_map]
  constructor
  · rintro ⟨s, hs, rfl⟩
    obtain ⟨n, hn, hs⟩ := List.mem_flatMap.mp hs
    rw [id_of_mem_stepsInto hs]
    exact ⟨arc_of_mem_stepsInto hs, hn⟩
  · rintro ⟨harc, hn⟩
    obtain ⟨s, hs, hpred⟩ := hg.exists_step harc
    exact ⟨s, List.mem_flatMap.mpr ⟨id.dst, hn, hs⟩, by rw [id_of_mem_stepsInto hs, hpred]⟩

theorem Valid.stepsInto_ids_nodup (hg : g.Valid) (uid : Int) :
    ((g.stepsInto uid).map (·.edge.id)).Nodup := by
  have hsub : ((g.stepsInto uid).map (·.edge)).Sublist g.edges := by
    have hmap : (g.stepsInto uid).map (·.edge) =
        (g.edges.filter (·.id.dst = uid)).filter fun e => (g.block? e.id.src).isSome := by
      rw [stepsInto, List.map_filterMap]
      induction g.edges.filter (·.id.dst = uid) with
      | nil => rfl
      | cons e es ih =>
        rw [List.filterMap_cons, List.filter_cons, ih]
        rcases g.block? e.id.src with _ | b <;> rfl
    rw [hmap]
    exact List.filter_sublist.trans List.filter_sublist
  have hids : ((g.stepsInto uid).map (·.edge.id)).Sublist (g.edges.map (·.id)) := by
    have := hsub.map (·.id)
    rwa [List.map_map] at this
  exact hg.ids_nodup.sublist hids

theorem Swept.edgeIds_nodup {v : Visits} (hg : g.Valid) (hv : Swept g src dst v) :
    (v.steps.map (·.edge.id)).Nodup := by
  rw [hv.steps_eq, List.map_flatMap, List.nodup_flatMap]
  refine ⟨fun uid _ => hg.stepsInto_ids_nodup uid, ?_⟩
  have hblocks : v.blocks.Nodup := List.nodup_reverse.mp hv.settled.nodup
  refine hblocks.imp fun {x y} hxy => ?_
  -- edges into different blocks differ
  rw [Function.onFun, List.disjoint_left]
  intro id hx hy
  obtain ⟨s, hs, rfl⟩ := List.mem_map.mp hx
  obtain ⟨s', hs', hid⟩ := List.mem_map.mp hy
  obtain ⟨-, -, hsx, -⟩ := mem_stepsInto.mp hs
  obtain ⟨-, -, hsy, -⟩ := mem_stepsInto.mp hs'
  exact hxy (by rw [← hsx, ← hsy, hid])

/-- `blocks` and `edges` are the region that a sweep from `dst` back to `src` goes through. -/
structure IsRegion (g : Graph) (src dst : Int) (v : Visits) (blocks : List Int)
    (edges : List EdgeId) : Prop where
  swept : Swept g src dst v
  enters : ∃ n ∈ v.blocks, g.Arc src n
  mem_blocks : ∀ x, x ∈ blocks ↔ x = src ∨ x ∈ v.blocks
  mem_edges : ∀ id, id ∈ edges ↔ g.Arc id.src id.dst ∧ id.dst ∈ v.blocks

/-- A query returns the region of its sweep, without repetitions. -/
theorem Valid.isRegion (hg : g.Valid) {r : LongestPath} (h : g.longestPath src dst = .ok r) :
    ∃ v, IsRegion g src dst v r.blocks r.edges ∧ r.blocks.Nodup ∧ r.edges.Nodup := by
  obtain ⟨v, hv, harc⟩ := hg.connects_of_longestPath h
  obtain ⟨-, v', -, -, hv', -, -, -, hblocks, hedges⟩ := longestPath_eq_ok h
  obtain rfl : v = v' := Except.ok.inj (hv.symm.trans hv')
  have hswept := hg.swept hv
  refine ⟨v, ⟨hswept, harc, fun x => ?_, fun id => ?_⟩, ?_, ?_⟩
  · rw [hblocks, (sortBy_perm _ _).mem_iff, List.mem_cons]
  · rw [hedges, (sortBy_perm _ _).mem_iff]
    exact hswept.mem_edgeIds_iff hg
  · rw [hblocks, (sortBy_perm _ _).nodup_iff, List.nodup_cons]
    exact ⟨fun hmem => hswept.settled.src_notMem (List.mem_reverse.mpr hmem),
      List.nodup_reverse.mp hswept.settled.nodup⟩
  · rw [hedges, (sortBy_perm _ _).nodup_iff]
    exact hswept.edgeIds_nodup hg

/-! ### Costs that are not negative -/

/-- No block and no edge has a negative cost. -/
structure Nonneg (g : Graph) : Prop where
  block : ∀ b ∈ g.blocks, 0 ≤ b.cost.toInt
  edge : ∀ e ∈ g.edges, 0 ≤ e.cost.toInt

theorem Nonneg.blockCost (hn : g.Nonneg) (x : Int) : 0 ≤ g.blockCost x := by
  unfold Graph.blockCost
  rcases hb : g.block? x with _ | b
  · exact Int.le_refl 0
  · exact hn.block b (mem_of_block? hb)

theorem Nonneg.edgeCost (hn : g.Nonneg) (id : EdgeId) : 0 ≤ g.edgeCost id := by
  unfold Graph.edgeCost
  rcases he : g.edge? id.src id.dst with _ | e
  · exact Int.le_refl 0
  · exact hn.edge e (mem_of_edge? he)

theorem Nonneg.sums (hn : g.Nonneg) (p : List Int) (ids : List EdgeId) :
    0 ≤ (p.map g.blockCost).sum + (ids.map g.edgeCost).sum := by
  refine Int.add_nonneg (List.sum_nonneg fun n hmem => ?_) (List.sum_nonneg fun n hmem => ?_)
  · obtain ⟨x, -, rfl⟩ := List.mem_map.mp hmem
    exact hn.blockCost x
  · obtain ⟨id, -, rfl⟩ := List.mem_map.mp hmem
    exact hn.edgeCost id

theorem Nonneg.pathCost (hn : g.Nonneg) (p : List Int) : 0 ≤ g.pathCost p :=
  hn.sums p (pathEdges p)

theorem Nonneg.blockCost_le_pathCost (hn : g.Nonneg) {a c : Int} {p : List Int}
    (hp : g.Walk a p c) : g.blockCost a ≤ g.pathCost p := by
  induction hp with
  | single a => rw [pathCost_singleton]
  | @step a b c p hab hp ih =>
    obtain ⟨q, rfl⟩ := hp.exists_cons
    rw [pathCost_cons_cons]
    have := hn.edgeCost ⟨a, b⟩
    have := hn.blockCost b
    omega

/-! ### What a walk meets of a region -/

/-- The cost of the blocks and edges of a walk that lie in given lists. -/
def insideCost (g : Graph) (blocks : List Int) (edges : List EdgeId) (p : List Int) : Int :=
  ((p.filter (· ∈ blocks)).map g.blockCost).sum +
    (((pathEdges p).filter (· ∈ edges)).map g.edgeCost).sum

section Inside

variable {blocks : List Int} {edges : List EdgeId}

theorem insideCost_singleton (a : Int) :
    g.insideCost blocks edges [a] = if a ∈ blocks then g.blockCost a else 0 := by
  by_cases ha : a ∈ blocks <;> simp [insideCost, ha]

theorem insideCost_cons_cons (a b : Int) (p : List Int) :
    g.insideCost blocks edges (a :: b :: p) =
      (if a ∈ blocks then g.blockCost a else 0) +
        (if (⟨a, b⟩ : EdgeId) ∈ edges then g.edgeCost ⟨a, b⟩ else 0) +
        g.insideCost blocks edges (b :: p) := by
  have hb : ((List.filter (· ∈ blocks) (a :: b :: p)).map g.blockCost).sum =
      (if a ∈ blocks then g.blockCost a else 0) +
        ((List.filter (· ∈ blocks) (b :: p)).map g.blockCost).sum := by
    rw [List.filter_cons]
    by_cases ha : a ∈ blocks <;> simp [ha]
  have he : (((pathEdges (a :: b :: p)).filter (· ∈ edges)).map g.edgeCost).sum =
      (if (⟨a, b⟩ : EdgeId) ∈ edges then g.edgeCost ⟨a, b⟩ else 0) +
        (((pathEdges (b :: p)).filter (· ∈ edges)).map g.edgeCost).sum := by
    rw [pathEdges_cons_cons, List.filter_cons]
    by_cases ha : (⟨a, b⟩ : EdgeId) ∈ edges <;> simp [ha]
  rw [insideCost, hb, he, insideCost]
  ring

/-- A walk that lies in the lists altogether meets what it costs. -/
theorem insideCost_eq_pathCost {p : List Int} (hb : ∀ x ∈ p, x ∈ blocks)
    (he : ∀ id ∈ pathEdges p, id ∈ edges) : g.insideCost blocks edges p = g.pathCost p := by
  rw [insideCost, pathCost, List.filter_eq_self.mpr (by simpa using hb),
    List.filter_eq_self.mpr (by simpa using he)]

theorem Nonneg.insideCost_nonneg (hn : g.Nonneg) (p : List Int) :
    0 ≤ g.insideCost blocks edges p :=
  hn.sums _ _

theorem Nonneg.insideCost_le_pathCost (hn : g.Nonneg) (p : List Int) :
    g.insideCost blocks edges p ≤ g.pathCost p := by
  refine Int.add_le_add ?_ ?_
  · refine (List.filter_sublist.map g.blockCost).sum_le_sum fun n hmem => ?_
    obtain ⟨x, -, rfl⟩ := List.mem_map.mp hmem
    exact hn.blockCost x
  · refine (List.filter_sublist.map g.edgeCost).sum_le_sum fun n hmem => ?_
    obtain ⟨id, -, rfl⟩ := List.mem_map.mp hmem
    exact hn.edgeCost id

end Inside

namespace IsRegion

variable {v : Visits} {blocks : List Int} {edges : List EdgeId} {a c : Int} {p : List Int}

theorem reaches_of_mem (hr : IsRegion g src dst v blocks edges) {x : Int} (hx : x ∈ v.blocks) :
    g.Reaches x dst :=
  hr.swept.settled.reaches (List.mem_reverse.mpr hx)

theorem reaches (hr : IsRegion g src dst v blocks edges) : g.Reaches src dst := by
  obtain ⟨n, hn, harc⟩ := hr.enters
  exact .head harc (hr.reaches_of_mem hn)

/-- A walk that goes from `src` into the visited blocks and on to `dst` is simple. -/
theorem cons_nodup (hr : IsRegion g src dst v blocks edges) {n : Int} {q : List Int}
    (harc : g.Arc src n) (hn : n ∈ v.blocks) (hq : g.Walk n q dst) : (src :: q).Nodup :=
  hr.swept.settled.cons_nodup harc (List.mem_reverse.mpr hn) hq

theorem exists_walk (hr : IsRegion g src dst v blocks edges) :
    ∃ q, g.Walk src q dst ∧ q.Nodup := by
  obtain ⟨n, hn, harc⟩ := hr.enters
  obtain ⟨q, hq⟩ := exists_walk_of_reaches (hr.reaches_of_mem hn)
  exact ⟨src :: q, .step harc hq, hr.cons_nodup harc hn hq⟩

/-- Outside the visited blocks, and without `src`, a walk meets nothing of the region. -/
theorem insideCost_eq_zero (hr : IsRegion g src dst v blocks edges) (hp : g.Walk a p c)
    (ha : a ∉ v.blocks) (hsrc : src ∉ p) : g.insideCost blocks edges p = 0 := by
  induction hp with
  | single a =>
    rw [List.mem_singleton] at hsrc
    rw [insideCost_singleton, if_neg]
    rw [hr.mem_blocks]
    exact fun h => h.elim (Ne.symm hsrc) ha
  | @step a b c p hab hp ih =>
    rw [List.mem_cons, not_or] at hsrc
    have hb : b ∉ v.blocks := fun hb =>
      (hr.swept.preds b hb a hab).elim (Ne.symm hsrc.1) ha
    have hzero := ih hb hsrc.2
    obtain ⟨q, rfl⟩ := hp.exists_cons
    have ha' : a ∉ blocks := by
      rw [hr.mem_blocks]
      exact fun h => h.elim (Ne.symm hsrc.1) ha
    have hab' : (⟨a, b⟩ : EdgeId) ∉ edges := by
      rw [hr.mem_edges]
      exact fun h => hb h.2
    rw [insideCost_cons_cons, if_neg ha', if_neg hab', hzero]
    rfl

/-- Where `dst` is out of reach, a walk meets nothing of the region. -/
theorem insideCost_eq_zero_of_not_reaches (hr : IsRegion g src dst v blocks edges)
    (hp : g.Walk a p c) (ha : ¬ g.Reaches a dst) : g.insideCost blocks edges p = 0 := by
  refine hr.insideCost_eq_zero hp (fun h => ha (hr.reaches_of_mem h)) fun h => ha ?_
  exact (hp.reaches_of_mem h).1.trans hr.reaches

/-- What a walk from a visited block meets of the region costs no more than some walk to `dst`. -/
theorem exists_walk_of_mem (hn : g.Nonneg) (hr : IsRegion g src dst v blocks edges)
    (hp : g.Walk a p c) (ha : a ∈ v.blocks) :
    ∃ q, g.Walk a q dst ∧ g.insideCost blocks edges p ≤ g.pathCost q := by
  have hmem : ∀ {x}, x ∈ v.blocks → x ∈ blocks := fun hx => (hr.mem_blocks _).mpr (.inr hx)
  induction hp with
  | single a =>
    obtain ⟨q, hq⟩ := exists_walk_of_reaches (hr.reaches_of_mem ha)
    refine ⟨q, hq, ?_⟩
    rw [insideCost_singleton, if_pos (hmem ha)]
    exact hn.blockCost_le_pathCost hq
  | @step a b c p hab hp ih =>
    by_cases hb : b ∈ v.blocks
    · obtain ⟨q, hq, hle⟩ := ih hb
      refine ⟨a :: q, .step hab hq, ?_⟩
      obtain ⟨p, rfl⟩ := hp.exists_cons
      obtain ⟨q, rfl⟩ := hq.exists_cons
      rw [insideCost_cons_cons, if_pos (hmem ha), if_pos ((hr.mem_edges _).mpr ⟨hab, hb⟩),
        pathCost_cons_cons]
      omega
    · -- the walk leaves the region, and cannot reach `dst` any more
      have hbd : ¬ g.Reaches b dst := fun h =>
        hb (List.mem_reverse.mp (hr.swept.settled.succ_mem (List.mem_reverse.mpr ha) hab h))
      have hzero := hr.insideCost_eq_zero_of_not_reaches hp hbd
      obtain ⟨q, hq⟩ := exists_walk_of_reaches (hr.reaches_of_mem ha)
      refine ⟨q, hq, ?_⟩
      obtain ⟨p, rfl⟩ := hp.exists_cons
      have hab' : (⟨a, b⟩ : EdgeId) ∉ edges := by
        rw [hr.mem_edges]
        exact fun h => hb h.2
      rw [insideCost_cons_cons, if_pos (hmem ha), if_neg hab', hzero]
      have := hn.blockCost_le_pathCost hq
      omega

/-- The same holds for a walk from `src` itself that does not come back. -/
theorem exists_walk_of_src (hn : g.Nonneg) (hr : IsRegion g src dst v blocks edges)
    (hp : g.Walk src p c) (hnd : p.Nodup) :
    ∃ q, g.Walk src q dst ∧ q.Nodup ∧ g.insideCost blocks edges p ≤ g.pathCost q := by
  have hsrc : src ∈ blocks := (hr.mem_blocks _).mpr (.inl rfl)
  cases hp with
  | single =>
    obtain ⟨q, hq, hqnd⟩ := hr.exists_walk
    refine ⟨q, hq, hqnd, ?_⟩
    rw [insideCost_singleton, if_pos hsrc]
    exact hn.blockCost_le_pathCost hq
  | @step _ b _ p hab hp =>
    by_cases hb : b ∈ v.blocks
    · obtain ⟨q, hq, hle⟩ := hr.exists_walk_of_mem hn hp hb
      refine ⟨src :: q, .step hab hq, hr.cons_nodup hab hb hq, ?_⟩
      obtain ⟨p, rfl⟩ := hp.exists_cons
      obtain ⟨q, rfl⟩ := hq.exists_cons
      rw [insideCost_cons_cons, if_pos hsrc, if_pos ((hr.mem_edges _).mpr ⟨hab, hb⟩),
        pathCost_cons_cons]
      omega
    · -- the walk leaves at once, and could come back through `src` only
      have hzero := hr.insideCost_eq_zero hp hb (List.nodup_cons.mp hnd).1
      obtain ⟨q, hq, hqnd⟩ := hr.exists_walk
      refine ⟨q, hq, hqnd, ?_⟩
      obtain ⟨p, rfl⟩ := hp.exists_cons
      have hab' : (⟨src, b⟩ : EdgeId) ∉ edges := by
        rw [hr.mem_edges]
        exact fun h => hb h.2
      rw [insideCost_cons_cons, if_pos hsrc, if_neg hab', hzero]
      have := hn.blockCost_le_pathCost hq
      omega

/-- And for a walk from outside, which meets the region from `src` on, if at all. -/
theorem exists_walk_of_notMem (hn : g.Nonneg) (hr : IsRegion g src dst v blocks edges)
    (hp : g.Walk a p c) (hnd : p.Nodup) (ha : a ∉ v.blocks) :
    ∃ q, g.Walk src q dst ∧ q.Nodup ∧ g.insideCost blocks edges p ≤ g.pathCost q := by
  induction hp with
  | single a =>
    by_cases hsrc : a = src
    · subst hsrc
      exact hr.exists_walk_of_src hn (.single a) (List.nodup_singleton a)
    · obtain ⟨q, hq, hqnd⟩ := hr.exists_walk
      refine ⟨q, hq, hqnd, ?_⟩
      rw [insideCost_singleton, if_neg ((hr.mem_blocks a).not.mpr (not_or.mpr ⟨hsrc, ha⟩))]
      exact hn.pathCost q
  | @step a b c p hab hp ih =>
    by_cases hsrc : a = src
    · subst hsrc
      exact hr.exists_walk_of_src hn (.step hab hp) hnd
    · have hb : b ∉ v.blocks := fun hb => (hr.swept.preds b hb a hab).elim hsrc ha
      obtain ⟨q, hq, hqnd, hle⟩ := ih (List.nodup_cons.mp hnd).2 hb
      refine ⟨q, hq, hqnd, ?_⟩
      obtain ⟨p, rfl⟩ := hp.exists_cons
      have ha' : a ∉ blocks := (hr.mem_blocks a).not.mpr (not_or.mpr ⟨hsrc, ha⟩)
      have hab' : (⟨a, b⟩ : EdgeId) ∉ edges := (hr.mem_edges _).not.mpr fun h => hb h.2
      rw [insideCost_cons_cons, if_neg ha', if_neg hab']
      omega

end IsRegion

/-- **What a simple path from the start meets of a region costs at most the longest path** through
it, provided that the head of the region can be reached from the start. -/
theorem Valid.insideCost_le (hg : g.Valid) (hmass : g.costMass < 2 ^ 63) (hn : g.Nonneg)
    {r : LongestPath} (h : g.longestPath src dst = .ok r) (hsrc : g.Reaches g.start src) {c : Int}
    {p : List Int} (hp : g.Walk g.start p c) (hnd : p.Nodup) :
    g.insideCost r.blocks r.edges p ≤ r.cost.toInt := by
  obtain ⟨v, hr, -, -⟩ := hg.isRegion h
  -- were the start visited, so would be `src`, which lies between the start and `dst`
  have hstart : g.start ∉ v.blocks := fun hmem =>
    hr.swept.settled.src_notMem
      (hr.swept.settled.mem_of_reaches (List.mem_reverse.mpr hmem) hsrc hr.reaches)
  obtain ⟨q, hq, hqnd, hle⟩ := hr.exists_walk_of_notMem hn hp hnd hstart
  exact hle.trans (hg.pathCost_le_longestPath hmass h hq hqnd)

end Graph

end WorstCase
