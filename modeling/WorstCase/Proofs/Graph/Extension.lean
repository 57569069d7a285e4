import WorstCase.Proofs.Graph.Agreement

/-!
# A block that nothing leads to

`Graph.Extends g g' x` says that `g'` is `g` with one more block `x` and edges out of it. No edge
leads to `x`, so walks from other blocks are the same in both graphs. Queries are not: they look
backwards, and meet `x` wherever it reaches their destination.

* A sweep in `g'` goes through iff it does in `g`, unless `x` **bypasses** the head: it has a way to
  the head, and another to the tail around the head (`Graph.Extends.clear_iff`).
* If it goes through in both, then the cost of the longest path, the number of paths and the region,
  apart from `x`, are the same (`Graph.Extends.cost_longestPath_eq`,
  `Graph.Extends.countPaths_eq`, `Graph.Extends.insideCost_eq`), since the two graphs agree on all
  blocks but `x` (`Graph.Extends.agreeOn`).
-/

namespace WorstCase

namespace Graph

/-- `g'` has one more block than `g`, and edges out of it; nothing leads to that block. -/
structure Extends (g g' : Graph) (x : Block) : Prop where
  valid : g.Valid
  valid' : g'.Valid
  new : x.uid ∉ g.blocks.map (·.uid)
  mem_blocks : ∀ {b}, b ∈ g'.blocks ↔ b = x ∨ b ∈ g.blocks
  mem_edges : ∀ {e}, e.id.src ≠ x.uid → (e ∈ g'.edges ↔ e ∈ g.edges)
  not_arc : ∀ {a}, ¬ g'.Arc a x.uid
  start_eq : g'.start = g.start
  stop_eq : g'.stop = g.stop

/-- `x` has a way to `head`, and a way to `tail` that does not meet `head`. -/
def Bypasses (g : Graph) (x head tail : Int) : Prop :=
  g.Reaches x head ∧ g.ReachesWithout head x tail

namespace Extends

variable {g g' : Graph} {x : Block}

/-! ### Lookups and walks -/

theorem ne_of_known (hx : g.Extends g' x) {u : Int} (hu : u ∈ g.blocks.map (·.uid)) :
    u ≠ x.uid := by
  rintro rfl
  exact hx.new hu

theorem block?_eq (hx : g.Extends g' x) {u : Int} (hu : u ≠ x.uid) : g'.block? u = g.block? u := by
  refine Option.ext fun b => ?_
  rw [hx.valid'.block?_eq_some_iff, hx.valid.block?_eq_some_iff, hx.mem_blocks]
  refine and_congr_left fun hb => ⟨fun h => h.resolve_left ?_, .inr⟩
  rintro rfl
  exact hu hb.symm

theorem edge?_eq (hx : g.Extends g' x) {a : Int} (ha : a ≠ x.uid) (c : Int) :
    g'.edge? a c = g.edge? a c := by
  refine Option.ext fun e => ?_
  rw [hx.valid'.edge?_eq_some_iff, hx.valid.edge?_eq_some_iff]
  refine and_congr_left fun hid => hx.mem_edges ?_
  rw [hid]
  exact ha

theorem ne_of_arc (hx : g.Extends g' x) {a c : Int} (h : g'.Arc a c) : c ≠ x.uid := by
  rintro rfl
  exact hx.not_arc h

/-- **The graphs agree on all blocks but `x`.** -/
theorem agreeOn (hx : g.Extends g' x) : AgreeOn (· ≠ x.uid) g g' where
  block?_eq := hx.block?_eq
  edge?_eq := hx.edge?_eq
  closed _ harc := hx.ne_of_known (hx.valid.arc_known harc).2

theorem blockCost_eq (hx : g.Extends g' x) {u : Int} (hu : u ≠ x.uid) :
    g'.blockCost u = g.blockCost u :=
  hx.agreeOn.blockCost_eq hu

theorem edgeCost_eq (hx : g.Extends g' x) {id : EdgeId} (hid : id.src ≠ x.uid) :
    g'.edgeCost id = g.edgeCost id :=
  hx.agreeOn.edgeCost_eq hid

theorem walk_iff (hx : g.Extends g' x) {a c : Int} {p : List Int} (ha : a ≠ x.uid) :
    g'.Walk a p c ↔ g.Walk a p c :=
  hx.agreeOn.walk_iff ha

/-- A walk from another block does not meet `x`. -/
theorem notMem_walk (hx : g.Extends g' x) {a c : Int} {p : List Int} (h : g'.Walk a p c)
    (ha : a ≠ x.uid) : x.uid ∉ p := by
  induction h with
  | single a => exact fun hmem => ha (List.mem_singleton.mp hmem).symm
  | step hab _ ih => exact List.not_mem_cons_of_ne_of_not_mem ha.symm (ih (hx.ne_of_arc hab))

/-- In `g` itself, a walk to another block begins at another block. -/
theorem ne_of_walk (hx : g.Extends g' x) {a c : Int} {p : List Int} (h : g.Walk a p c)
    (hc : c ≠ x.uid) : a ≠ x.uid := by
  cases h with
  | single => exact hc
  | step hab _ => exact hx.ne_of_known (hx.valid.arc_known hab).1

theorem reaches_iff (hx : g.Extends g' x) {a c : Int} (ha : a ≠ x.uid) :
    g'.Reaches a c ↔ g.Reaches a c :=
  hx.agreeOn.reaches_iff ha

theorem reachesWithout_iff (hx : g.Extends g' x) {a c : Int} (ha : a ≠ x.uid) (src : Int) :
    g'.ReachesWithout src a c ↔ g.ReachesWithout src a c :=
  hx.agreeOn.reachesWithout_iff ha src

/-! ### Success of queries -/

/-- **A way is clear in both graphs alike, unless `x` bypasses the head.** -/
theorem clear_iff (hx : g.Extends g' x) {src dst : Int} (hsrc : src ≠ x.uid) (hdst : dst ≠ x.uid)
    (hreach : g.Reaches src dst) :
    g'.Clear src dst ↔ g.Clear src dst ∧ ¬ g'.Bypasses x.uid src dst := by
  constructor
  · intro hc
    constructor
    · rintro y ⟨q, hq, hqsrc⟩ p hp
      have hy := hx.ne_of_walk hq hdst
      exact hc y ⟨q, (hx.walk_iff hy).mpr hq, hqsrc⟩ p ((hx.walk_iff hy).mpr hp)
    · rintro ⟨hxs, hxd⟩
      -- the way to the head goes on to the tail
      obtain ⟨p, hp⟩ := exists_walk_of_reaches hxs
      obtain ⟨q, hq⟩ := exists_walk_of_reaches ((hx.reaches_iff hsrc).mpr hreach)
      obtain ⟨q, rfl⟩ := hq.exists_cons
      exact (hc x.uid hxd _ (hp.append hq)).1 (List.mem_append_left _ hp.last_mem)
  · rintro ⟨hc, hbypass⟩ y hy p hp
    by_cases hyx : y = x.uid
    · subst hyx
      cases hp with
      | single => exact absurd rfl hdst
      | @step _ b _ q hxb hq =>
        have hb := hx.ne_of_arc hxb
        have hsrcq : src ∉ q := fun hmem =>
          hbypass ⟨.head hxb (hq.reaches_of_mem hmem).1, hy⟩
        have hq' := (hx.walk_iff hb).mp hq
        refine ⟨List.not_mem_cons_of_ne_of_not_mem hsrc hsrcq, List.nodup_cons.mpr ⟨?_, ?_⟩⟩
        · exact hx.notMem_walk hq hb
        · exact (hc b ⟨q, hq', hsrcq⟩ q hq').2
    · exact hc y ((hx.reachesWithout_iff hyx src).mp hy) p ((hx.walk_iff hyx).mp hp)

theorem length_le (hx : g.Extends g' x) : g.blocks.length ≤ g'.blocks.length := by
  have hsub : g.blocks.map (·.uid) ⊆ g'.blocks.map (·.uid) := by
    intro u hu
    obtain ⟨b, hb, rfl⟩ := List.mem_map.mp hu
    exact List.mem_map_of_mem (hx.mem_blocks.mpr (.inr hb))
  simpa using (List.subperm_of_subset hx.valid.uids_nodup hsub).length_le

/-- A climb that arrives does so in `g'` too, within any larger bound. -/
theorem climb_eq_ok (hx : g.Extends g' x) {src dst : Int} {bound bound' : Nat} {cur : Int}
    (h : g.climb src dst bound cur = .ok ()) (hbound : bound ≤ bound') :
    g'.climb src dst bound' cur = .ok () := by
  induction bound generalizing bound' cur with
  | zero => simp [climb] at h
  | succ bound ih =>
    obtain ⟨bound', rfl⟩ : ∃ n, bound' = n + 1 := ⟨bound' - 1, by omega⟩
    rw [climb] at h ⊢
    split_ifs at h ⊢ with hcur
    · rfl
    · rcases hb : g.block? cur with _ | b
      · simp [hb] at h
      · have hknown : cur ∈ g.blocks.map (·.uid) := known_of_block? hb
        rw [hx.block?_eq (hx.ne_of_known hknown), hb]
        simp only [hb] at h ⊢
        split_ifs at h ⊢ with hnone
        exact ih h (by omega)

/-- **A query that succeeds in `g` succeeds in `g'`, unless `x` bypasses its head.** -/
theorem connects (hx : g.Extends g' x) {src dst : Int} (h : g.Connects src dst)
    (hbypass : ¬ g'.Bypasses x.uid src dst) : g'.Connects src dst := by
  obtain ⟨hne, hsrc, hdom, hclear, hreach⟩ := hx.valid.connects_iff.mp h
  have hs := hx.ne_of_known hsrc
  have hd := hx.ne_of_known (hx.valid.known_of_reaches hsrc hreach)
  refine hx.valid'.connects_iff.mpr ⟨hne, ?_, ?_, ?_, (hx.reaches_iff hs).mpr hreach⟩
  · obtain ⟨b, hb, hbu⟩ := List.mem_map.mp hsrc
    exact hbu ▸ List.mem_map_of_mem (hx.mem_blocks.mpr (.inr hb))
  · exact hx.climb_eq_ok hdom (Nat.add_le_add_right hx.length_le 1)
  · exact (hx.clear_iff hs hd hreach).mpr ⟨hclear, hbypass⟩

end Extends

/-- The way up from a block to its declared dominator is one step. -/
theorem checkDominates_dominator {g : Graph} {b : Block} (hb : g.block? b.uid = some b)
    (hlen : 0 < g.blocks.length) (hne : b.dominator ≠ b.uid) :
    g.checkDominates b.dominator b.uid = .ok () ↔ b.dominator ≠ noDominator := by
  obtain ⟨n, hn⟩ : ∃ n, g.blocks.length = n + 1 := ⟨g.blocks.length - 1, by omega⟩
  rw [checkDominates, hn, climb, if_neg hne.symm, hb]
  simp only
  split_ifs with hnone
  · simp [hnone]
  · simp [climb, hnone]

/-- **Queries from a declared dominator** succeed in `g'` iff they do in `g` and `x` does not bypass
the dominator, provided that all dominators that `g` declares are blocks of `g`. -/
theorem Extends.connects_dominator_iff {g g' : Graph} {x : Block} (hx : g.Extends g' x)
    (hdom : ∀ b ∈ g.blocks, b.dominator ≠ noDominator → b.dominator ∈ g.blocks.map (·.uid))
    {b : Block} (hb : b ∈ g.blocks) :
    g'.Connects b.dominator b.uid ↔
      g.Connects b.dominator b.uid ∧ ¬ g'.Bypasses x.uid b.dominator b.uid := by
  refine ⟨fun h => ?_, fun h => hx.connects h.1 h.2⟩
  obtain ⟨hne, -, hcheck, hclear, hreach⟩ := hx.valid'.connects_iff.mp h
  have hb' : b ∈ g'.blocks := hx.mem_blocks.mpr (.inr hb)
  have hfind : g.block? b.uid = some b := hx.valid.block?_eq_some_iff.mpr ⟨hb, rfl⟩
  have hfind' : g'.block? b.uid = some b := hx.valid'.block?_eq_some_iff.mpr ⟨hb', rfl⟩
  rw [checkDominates_dominator hfind' (List.length_pos_of_mem hb') hne] at hcheck
  have hknown := hdom b hb hcheck
  have hs := hx.ne_of_known hknown
  have hd := hx.ne_of_known (List.mem_map_of_mem hb)
  have hreach' := (hx.reaches_iff hs).mp hreach
  obtain ⟨hclear', hbypass⟩ := (hx.clear_iff hs hd hreach').mp hclear
  refine ⟨hx.valid.connects_iff.mpr ⟨hne, hknown, ?_, hclear', hreach'⟩, hbypass⟩
  exact (checkDominates_dominator hfind (List.length_pos_of_mem hb) hne).mpr hcheck

/-! ### Results of queries -/

namespace Extends

variable {g g' : Graph} {x : Block} {src dst : Int}

section Query

variable {r r' : LongestPath} (hx : g.Extends g' x) (hr : g.longestPath src dst = .ok r)
  (hr' : g'.longestPath src dst = .ok r')

include hx hr

theorem src_ne : src ≠ x.uid := by
  obtain ⟨-, ⟨b, hb⟩, -⟩ := blocks_of_longestPath hr
  exact hx.ne_of_known (known_of_block? hb)

theorem dst_ne : dst ≠ x.uid := by
  obtain ⟨-, -, b, hb⟩ := blocks_of_longestPath hr
  exact hx.ne_of_known (known_of_block? hb)

include hr'

/-- **Longest paths cost the same.** -/
theorem cost_longestPath_eq : r'.cost = r.cost := by
  refine hx.agreeOn.cost_longestPath_eq (fun hreach => ?_) hx.valid hx.valid' hr hr'
  obtain ⟨p, hp⟩ := exists_walk_of_reaches hreach
  exact hx.ne_of_walk hp (hx.dst_ne hr)

/-- Regions agree apart from `x` and the edges out of it. -/
theorem region_eq :
    (∀ u, u ≠ x.uid → (u ∈ r'.blocks ↔ u ∈ r.blocks)) ∧
      ∀ id : EdgeId, id.src ≠ x.uid → (id ∈ r'.edges ↔ id ∈ r.edges) :=
  hx.agreeOn.region_eq hx.valid hx.valid' hr hr'

/-- **A walk that does not meet `x` meets the same of both regions.** -/
theorem insideCost_eq {p : List Int} (hp : x.uid ∉ p) :
    g'.insideCost r'.blocks r'.edges p = g.insideCost r.blocks r.edges p := by
  obtain ⟨hblocks, hedges⟩ := hx.region_eq hr hr'
  have hne : ∀ u ∈ p, u ≠ x.uid := by
    rintro u hu rfl
    exact hp hu
  have hsrc : ∀ id ∈ pathEdges p, id.src ≠ x.uid := fun id hid =>
    hne _ (src_mem_of_mem_pathEdges hid)
  have hb : p.filter (· ∈ r'.blocks) = p.filter (· ∈ r.blocks) := by
    refine List.filter_congr fun u hu => ?_
    rw [decide_eq_decide, hblocks u (hne u hu)]
  have he : (pathEdges p).filter (· ∈ r'.edges) = (pathEdges p).filter (· ∈ r.edges) := by
    refine List.filter_congr fun id hid => ?_
    rw [decide_eq_decide, hedges id (hsrc id hid)]
  rw [insideCost, insideCost, hb, he]
  congr 2
  · exact List.map_congr_left fun u hu => hx.blockCost_eq (hne u (List.mem_of_mem_filter hu))
  · exact List.map_congr_left fun id hid => hx.edgeCost_eq (hsrc id (List.mem_of_mem_filter hid))

end Query

theorem pathCost_eq (hx : g.Extends g' x) {p : List Int} (hp : x.uid ∉ p) :
    g'.pathCost p = g.pathCost p := by
  have hne : ∀ u ∈ p, u ≠ x.uid := by
    rintro u hu rfl
    exact hp hu
  rw [pathCost, pathCost]
  congr 2
  · exact List.map_congr_left fun u hu => hx.blockCost_eq (hne u hu)
  · exact List.map_congr_left fun id hid => hx.edgeCost_eq (hne _ (src_mem_of_mem_pathEdges hid))

/-- **There are as many paths.** -/
theorem countPaths_eq (hx : g.Extends g' x) (hsrc : src ≠ x.uid) {n n' : Nat}
    (hn : g.countPaths src dst = .ok n) (hn' : g'.countPaths src dst = .ok n') : n' = n :=
  hx.agreeOn.countPaths_eq hx.valid hx.valid' hsrc hn hn'

end Extends

end Graph

end WorstCase
