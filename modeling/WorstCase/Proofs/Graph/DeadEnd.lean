import WorstCase.Proofs.Graph.PathCount
import WorstCase.Proofs.Graph.Verdict

/-!
# Dead ends

A graph may **grow**: blocks and edges are added to it (`Graph.Grown`). What has been added is a
**dead end** for `dst` if no block that is new, and no block that an edge that is new leads to,
reaches `dst` (`Graph.DeadEnds`). New edges may leave blocks between `src` and `dst`, so that these
get successors that a sweep has to pass over, and there are more blocks that bound its rounds and
the climb along the declared dominators.

The worklists of the two graphs stay the same from round to round. What reaches `dst`, and what
leads to a block that does, is the same in both graphs, so that the same blocks are ready
(`Graph.Pruned.firstReady_eq`), the same steps are taken (`Graph.Pruned.stepsInto_eq`) and the same
blocks are queued (`Graph.Pruned.requeue_eq`). Hence queries from `src` to `dst` return the same in
both graphs (`Graph.deadEnds_pruned`).
-/

namespace WorstCase

namespace Graph

/-- `g'` is made from `g` by adding blocks and edges. -/
inductive Grown (g : Graph) : Graph → Prop
  | refl : Grown g g
  | block {g₁ g₂ : Graph} {b : Block} (h : Grown g g₁) (hb : g₁.addBlock b = .ok g₂) : Grown g g₂
  | edge {g₁ g₂ : Graph} {e : Edge} (h : Grown g g₁) (he : g₁.addEdge e = .ok g₂) : Grown g g₂

/-- Nothing that `g'` has and `g` has not leads to `dst`. -/
structure DeadEnds (g g' : Graph) (dst : Int) : Prop where
  block : ∀ x ∈ g'.blocks.map (·.uid), x ∉ g.blocks.map (·.uid) → ¬ g'.Reaches x dst
  edge : ∀ id ∈ g'.edges.map (·.id), id ∉ g.edges.map (·.id) → ¬ g'.Reaches id.dst dst

namespace Grown

variable {g g' : Graph}

theorem built (h : g.Grown g') (hg : g.Built) : g'.Built := by
  induction h with
  | refl => exact hg
  | block _ hb ih => exact .block ih hb
  | edge _ he ih => exact .edge ih he

/-- What is added comes after what was there. -/
theorem exists_append (h : g.Grown g') :
    (∃ blocks, g'.blocks = g.blocks ++ blocks) ∧ ∃ edges, g'.edges = g.edges ++ edges := by
  induction h with
  | refl => exact ⟨⟨[], by simp⟩, ⟨[], by simp⟩⟩
  | @block _ _ b _ hb ih =>
    obtain ⟨⟨blocks, hblocks⟩, hedges⟩ := ih
    obtain ⟨-, rfl⟩ := addBlock_eq_ok hb
    refine ⟨⟨blocks ++ [b.named], ?_⟩, hedges⟩
    rw [hblocks, List.append_assoc]
  | @edge _ _ e _ he ih =>
    obtain ⟨hblocks, edges, hedges⟩ := ih
    obtain rfl | ⟨-, -, -, rfl⟩ := addEdge_eq_ok he
    · exact ⟨hblocks, edges, hedges⟩
    · refine ⟨hblocks, edges ++ [e], ?_⟩
      rw [hedges, List.append_assoc]

theorem foldlM_addBlock {g₁ g₂ : Graph} {blocks : List Block} (h : g.Grown g₁)
    (hb : blocks.foldlM addBlock g₁ = .ok g₂) : g.Grown g₂ :=
  foldlM_preserves .block h hb

theorem foldlM_addEdge {g₁ g₂ : Graph} {edges : List Edge} (h : g.Grown g₁)
    (he : edges.foldlM addEdge g₁ = .ok g₂) : g.Grown g₂ :=
  foldlM_preserves .edge h he

end Grown

/-- Dead ends can be read off the blocks that reach `dst`. -/
theorem Valid.deadEnds_iff {g g' : Graph} {dst : Int} (hg : g'.Valid)
    (hdst : dst ∈ g'.blocks.map (·.uid)) :
    DeadEnds g g' dst ↔
      (∀ x ∈ g'.blocks.map (·.uid), x ∉ g.blocks.map (·.uid) → x ∉ g'.reaching dst) ∧
        ∀ id ∈ g'.edges.map (·.id), id ∉ g.edges.map (·.id) → id.dst ∉ g'.reaching dst := by
  simp only [hg.mem_reaching_iff hdst]
  exact ⟨fun h => ⟨h.block, h.edge⟩, fun h => ⟨h.1, h.2⟩⟩

/-- `g` is what is left of `g'` when dead ends of `dst` are taken away. -/
structure Pruned (g g' : Graph) (dst : Int) : Prop where
  valid : g.Valid
  valid' : g'.Valid
  blocks : ∃ blocks, g'.blocks = g.blocks ++ blocks
  edges : ∃ edges, g'.edges = g.edges ++ edges
  dst_known : dst ∈ g.blocks.map (·.uid)
  dominators : ∀ b ∈ g.blocks, b.dominator = noDominator ∨ b.dominator ∈ g.blocks.map (·.uid)
  deadEnds : DeadEnds g g' dst

namespace Pruned

variable {g g' : Graph} {src dst a x : Int} {p : List Int}

/-! ### Lookups -/

theorem block?_eq (h : g.Pruned g' dst) (hx : x ∈ g.blocks.map (·.uid)) :
    g'.block? x = g.block? x := by
  obtain ⟨b, hb⟩ := exists_block?_iff.mpr hx
  obtain ⟨blocks, hblocks⟩ := h.blocks
  rw [hb, block?, hblocks, List.find?_append]
  exact (congrArg (Option.or · _) hb).trans rfl

theorem known (h : g.Pruned g' dst) (hx : x ∈ g.blocks.map (·.uid)) :
    x ∈ g'.blocks.map (·.uid) := by
  rw [← block?_isSome_iff, h.block?_eq hx]
  exact block?_isSome_iff.mpr hx

theorem length_le (h : g.Pruned g' dst) : g.blocks.length ≤ g'.blocks.length := by
  obtain ⟨blocks, hblocks⟩ := h.blocks
  rw [hblocks, List.length_append]
  omega

/-- The edges into a block that reaches `dst` are the same, in the same order. -/
theorem edgesInto_eq (h : g.Pruned g' dst) (hx : g'.Reaches x dst) :
    g'.edges.filter (·.id.dst = x) = g.edges.filter (·.id.dst = x) := by
  obtain ⟨edges, hedges⟩ := h.edges
  have hnone : edges.filter (·.id.dst = x) = [] := by
    rw [List.filter_eq_nil_iff]
    intro e he hdst
    have hids := h.valid'.ids_nodup
    rw [hedges, List.map_append, List.nodup_append] at hids
    have hnew : e.id ∉ g.edges.map (·.id) := fun hmem =>
      hids.2.2 _ hmem _ (List.mem_map_of_mem he) rfl
    have he' : e.id ∈ g'.edges.map (·.id) :=
      List.mem_map_of_mem (hedges ▸ List.mem_append_right _ he)
    have hdst' : e.id.dst = x := by simpa using hdst
    exact h.deadEnds.edge _ he' hnew (hdst' ▸ hx)
  rw [hedges, List.filter_append, hnone, List.append_nil]

theorem preds_eq (h : g.Pruned g' dst) (hx : g'.Reaches x dst) : g'.preds x = g.preds x := by
  rw [preds, preds, h.edgesInto_eq hx]

/-! ### Walks to the destination -/

theorem arc_iff (h : g.Pruned g' dst) (hx : g'.Reaches x dst) : g'.Arc a x ↔ g.Arc a x := by
  rw [← mem_preds_iff, ← mem_preds_iff, h.preds_eq hx]

theorem arc_of_arc (h : g.Pruned g' dst) (harc : g.Arc a x) : g'.Arc a x := by
  obtain ⟨edges, hedges⟩ := h.edges
  unfold Arc at harc ⊢
  rw [hedges, List.map_append]
  exact List.mem_append_left _ harc

/-- **The walks to `dst` are the same.** -/
theorem walk_iff (h : g.Pruned g' dst) : g'.Walk a p dst ↔ g.Walk a p dst := by
  constructor
  · intro hp
    -- `dst` stays the end of the walk throughout the induction
    generalize hend : dst = c at hp
    induction hp with
    | single a => exact .single a
    | step hab hp ih =>
      subst hend
      exact .step ((h.arc_iff hp.reaches).mp hab) (ih rfl)
  · intro hp
    induction hp with
    | single a => exact .single a
    | step hab _ ih => exact .step (h.arc_of_arc hab) (ih h)

theorem reaches_iff (h : g.Pruned g' dst) : g'.Reaches a dst ↔ g.Reaches a dst := by
  constructor
  · intro ha
    obtain ⟨p, hp⟩ := exists_walk_of_reaches ha
    exact (h.walk_iff.mp hp).reaches
  · intro ha
    obtain ⟨p, hp⟩ := exists_walk_of_reaches ha
    exact (h.walk_iff.mpr hp).reaches

theorem reachesWithout_iff (h : g.Pruned g' dst) :
    g'.ReachesWithout src a dst ↔ g.ReachesWithout src a dst :=
  exists_congr fun _ => and_congr_left fun _ => h.walk_iff

theorem clear_iff (h : g.Pruned g' dst) : g'.Clear src dst ↔ g.Clear src dst :=
  forall_congr' fun _ => imp_congr h.reachesWithout_iff
    (forall_congr' fun _ => imp_congr_left h.walk_iff)

/-- What reaches `dst` was there before. -/
theorem known_of_reaches (h : g.Pruned g' dst) (hx : g'.Reaches x dst) :
    x ∈ g.blocks.map (·.uid) := by
  rcases (h.reaches_iff.mp hx).cases_head with rfl | ⟨y, harc, -⟩
  · exact h.dst_known
  · exact (h.valid.arc_known harc).1

/-! ### Declared dominators -/

theorem declares_iff (h : g.Pruned g' dst) (ha : a ∈ g.blocks.map (·.uid)) :
    g'.Declares a x ↔ g.Declares a x := by
  rw [Declares, Declares, h.block?_eq ha]

theorem known_of_declares (h : g.Pruned g' dst) (hd : g.Declares a x) :
    x ∈ g.blocks.map (·.uid) := by
  obtain ⟨b, hb, hne, rfl⟩ := hd
  exact (h.dominators b (mem_of_block? hb)).resolve_left hne

/-- The chain of a block that was there before is the same. -/
theorem onChain_iff (h : g.Pruned g' dst) (ha : a ∈ g.blocks.map (·.uid)) :
    g'.OnChain a x ↔ g.OnChain a x := by
  constructor
  · intro hchain
    induction hchain using Relation.ReflTransGen.head_induction_on with
    | refl => exact .refl
    | head hab _ ih =>
      have hab' := (h.declares_iff ha).mp hab
      exact .head hab' (ih (h.known_of_declares hab'))
  · intro hchain
    induction hchain using Relation.ReflTransGen.head_induction_on with
    | refl => exact .refl
    | head hab _ ih => exact .head ((h.declares_iff ha).mpr hab) (ih (h.known_of_declares hab))

theorem checkDominates_iff (h : g.Pruned g' dst) :
    g'.checkDominates src dst = .ok () ↔ g.checkDominates src dst = .ok () := by
  rw [checkDominates_eq_ok_iff, checkDominates_eq_ok_iff, h.onChain_iff h.dst_known]

/-- **Queries have answers in both graphs alike.** -/
theorem connects_iff (h : g.Pruned g' dst) (hsrc : src ∈ g.blocks.map (·.uid)) :
    g'.Connects src dst ↔ g.Connects src dst := by
  rw [h.valid'.connects_iff, h.valid.connects_iff, h.checkDominates_iff, h.clear_iff, h.reaches_iff,
    iff_true_intro hsrc, iff_true_intro (h.known hsrc)]

/-! ### Sweeps -/

variable {visited worklist : List Int}

theorem isReady_eq (h : g.Pruned g' dst) :
    g'.isReady (g'.reaching dst) visited x = g.isReady (g.reaching dst) visited x := by
  rw [Bool.eq_iff_iff, h.valid'.isReady_iff (h.known h.dst_known), h.valid.isReady_iff h.dst_known]
  constructor
  · intro hready s harc hs
    exact hready s (h.arc_of_arc harc) (h.reaches_iff.mpr hs)
  · intro hready s harc hs
    exact hready s ((h.arc_iff hs).mp harc) (h.reaches_iff.mp hs)

/-- **The same block is ready first.** -/
theorem firstReady_eq (h : g.Pruned g' dst) (hknown : worklist ⊆ g.blocks.map (·.uid)) :
    g'.firstReady (g'.reaching dst) visited worklist =
      g.firstReady (g.reaching dst) visited worklist := by
  induction worklist with
  | nil => rfl
  | cons x worklist ih =>
    obtain ⟨hx, hrest⟩ := List.cons_subset.mp hknown
    rw [firstReady, firstReady, blockOrFail, blockOrFail, h.block?_eq hx, h.isReady_eq, ih hrest]

/-- **The same steps are taken.** -/
theorem stepsInto_eq (h : g.Pruned g' dst) (hx : g'.Reaches x dst) :
    g'.stepsInto x = g.stepsInto x := by
  rw [stepsInto, stepsInto, h.edgesInto_eq hx]
  refine List.filterMap_congr fun e he => ?_
  rw [h.block?_eq (h.valid.ends_known _ (List.mem_map_of_mem (List.mem_filter.mp he).1)).1]

/-- **The same blocks are queued.** -/
theorem requeue_eq (h : g.Pruned g' dst) (hx : g'.Reaches x dst) :
    g'.requeue src x worklist visited = g.requeue src x worklist visited := by
  rw [requeue, requeue, h.preds_eq hx]

/-- A round that succeeds in `g` does the same in `g'`, so that the rest of the sweep finds the same
worklist. -/
theorem sweepFrom_eq_ok (h : g.Pruned g' dst) {rounds rounds' : Nat} (hle : rounds ≤ rounds')
    {v : Visits} (hreach : ∀ x ∈ worklist, g.Reaches x dst)
    (hv : g.sweepFrom src dst (g.reaching dst) rounds worklist visited = .ok v) :
    g'.sweepFrom src dst (g'.reaching dst) rounds' worklist visited = .ok v := by
  induction rounds generalizing rounds' worklist visited v with
  | zero =>
    cases worklist with
    | nil =>
      rw [sweepFrom] at hv ⊢
      exact hv
    | cons w ws => simp [sweepFrom] at hv
  | succ n ih =>
    by_cases hw : worklist = []
    · subst hw
      rw [sweepFrom] at hv ⊢
      exact hv
    obtain ⟨uid, rest, hready, hrest, rfl⟩ := h.valid.sweepFrom_eq_ok hw hv
    obtain ⟨n', rfl⟩ : ∃ n', rounds' = n' + 1 := ⟨rounds' - 1, by omega⟩
    have huid := hreach uid (firstReady_eq_some hready).1
    have huid' := h.reaches_iff.mpr huid
    have hknown : worklist ⊆ g.blocks.map (·.uid) := fun x hx =>
      h.known_of_reaches (h.reaches_iff.mpr (hreach x hx))
    -- what is queued leads to the block that is visited
    have hreach' : ∀ x ∈ g.requeue src uid worklist visited, g.Reaches x dst := by
      intro x hx
      rw [requeue, List.mem_append, List.mem_filter, mem_preds_iff] at hx
      rcases hx with hx | ⟨harc, -⟩
      · exact hreach x (List.mem_of_mem_erase hx)
      · exact .head harc huid
    have hrest' := ih (Nat.le_of_succ_le_succ hle) hreach' hrest
    rw [← h.requeue_eq huid'] at hrest'
    rw [h.valid'.sweepFrom_of_firstReady (h.firstReady_eq hknown ▸ hready), hrest']
    simp only [Except.map, visitFirst, h.stepsInto_eq huid']

/-- **The sweep is the same.** -/
theorem sweep_eq_ok (h : g.Pruned g' dst) {v : Visits} (hv : g.sweep src dst = .ok v) :
    g'.sweep src dst = .ok v := by
  obtain ⟨hne, hsrc, hdom, hrun⟩ := sweep_eq_ok_iff.mp hv
  have hrun' := h.sweepFrom_eq_ok h.length_le (fun x hx => List.mem_singleton.mp hx ▸ .refl) hrun
  exact sweep_eq_ok_iff.mpr ⟨hne, h.known hsrc, h.checkDominates_iff.mpr hdom, hrun'⟩

/-! ### Queries -/

/-- More steps do not change the path that is found. -/
theorem followFrom_of_le {known : Outlooks} {bound bound' : Nat} (hle : bound ≤ bound') {cur : Int}
    {path r : List Int} (h : followFrom known src dst bound cur path = .ok r) :
    followFrom known src dst bound' cur path = .ok r := by
  induction bound generalizing bound' cur path with
  | zero => simp [followFrom] at h
  | succ n ih =>
    obtain ⟨n', rfl⟩ : ∃ n', bound' = n' + 1 := ⟨bound' - 1, by omega⟩
    rw [followFrom] at h ⊢
    split_ifs at h ⊢ with hdst
    · exact h
    · split at h
      · exact h
      · split_ifs at h ⊢ with hseen
        exact ih (by omega) h

theorem longestPath_eq_ok (h : g.Pruned g' dst) {r : LongestPath}
    (hr : g.longestPath src dst = .ok r) : g'.longestPath src dst = .ok r := by
  obtain ⟨last, v, o, hlast, hv, ho, hpath, hcost, hblocks, hedges⟩ := Graph.longestPath_eq_ok hr
  rw [← h.block?_eq h.dst_known] at hlast
  rw [longestPath_of_sweep hlast (h.sweep_eq_ok hv) ho
    (followFrom_of_le (Nat.succ_le_succ h.length_le) hpath), ← hcost, ← hblocks, ← hedges]

theorem countPaths_eq_ok (h : g.Pruned g' dst) {n : Nat} (hn : g.countPaths src dst = .ok n) :
    g'.countPaths src dst = .ok n := by
  obtain ⟨v, hv, hcount⟩ := countPaths_eq_ok_iff.mp hn
  exact countPaths_eq_ok_iff.mpr ⟨v, h.sweep_eq_ok hv, hcount⟩

end Pruned

/-- **Dead ends are pruned.** Suppose the dominators that a graph declares are among its blocks.
However many blocks and edges are added to it, if they are dead ends for `dst`, then the queries
from `src` to `dst` succeed as they did before, with the same results. -/
theorem deadEnds_pruned {g g' : Graph} (hg : g.Built)
    (hdom : ∀ b ∈ g.blocks, b.dominator = noDominator ∨ b.dominator ∈ g.blocks.map (·.uid))
    (hgrown : g.Grown g') {src dst : Int} (hsrc : src ∈ g.blocks.map (·.uid))
    (hdst : dst ∈ g.blocks.map (·.uid)) (hdead : DeadEnds g g' dst) :
    (∀ r, g'.longestPath src dst = .ok r ↔ g.longestPath src dst = .ok r) ∧
      ∀ n, g'.countPaths src dst = .ok n ↔ g.countPaths src dst = .ok n := by
  obtain ⟨hblocks, hedges⟩ := hgrown.exists_append
  have h : g.Pruned g' dst :=
    { valid := hg.valid
      valid' := (hgrown.built hg).valid
      blocks := hblocks
      edges := hedges
      dst_known := hdst
      dominators := hdom
      deadEnds := hdead }
  refine ⟨fun r => ⟨fun hr => ?_, h.longestPath_eq_ok⟩, fun n => ⟨fun hn => ?_, h.countPaths_eq_ok⟩⟩
  · -- the query succeeds in `g`, and then it returns what it returns in `g'`
    have hconnects := (h.connects_iff hsrc).mp (h.valid'.connects_of_longestPath hr)
    obtain ⟨r', hr'⟩ := h.valid.longestPath_isOk_iff.mpr hconnects
    rw [hr', ← h.longestPath_eq_ok hr', hr]
  · have hconnects := (h.connects_iff hsrc).mp (h.valid'.countPaths_isOk_iff.mp ⟨n, hn⟩)
    obtain ⟨n', hn'⟩ := h.valid.countPaths_isOk_iff.mpr hconnects
    rw [hn', ← h.countPaths_eq_ok hn', hn]

/-- `forked` with a loop of two new blocks, which branches and their end lead to, and with another
way to the dead end that is there. -/
def overgrown : Graph :=
  { forked with
    blocks := forked.blocks ++
      [ { uid := 7, selector := "b_7", written := "b_7", cost := 50, dominator := 3 },
        { uid := 8, selector := "b_8", written := "b_8", cost := 60, dominator := 7 } ]
    edges := forked.edges ++
      [ ⟨⟨3, 7⟩, 0⟩, ⟨⟨4, 7⟩, 0⟩, ⟨⟨7, 8⟩, 70⟩, ⟨⟨8, 7⟩, 0⟩, ⟨⟨8, 5⟩, 0⟩, ⟨⟨1, 5⟩, 0⟩ ] }

/-- What has been added is not found, although it costs more than what is there. -/
theorem deadEnds_pruned_overgrown :
    (∀ b ∈ forked.blocks, b.dominator = noDominator ∨ b.dominator ∈ forked.blocks.map (·.uid)) ∧
      forked.Grown overgrown ∧ DeadEnds forked overgrown 4 ∧
      overgrown.longestPath 1 4 =
        .ok { cost := 10, path := [1, 2, 4], blocks := [1, 2, 3, 4, 6],
              edges := [⟨1, 2⟩, ⟨1, 3⟩, ⟨2, 4⟩, ⟨3, 4⟩, ⟨6, 4⟩] } ∧
      overgrown.countPaths 1 4 = .ok 2 := by
  have hdom : ∀ b ∈ forked.blocks,
      b.dominator = noDominator ∨ b.dominator ∈ forked.blocks.map (·.uid) := by decide
  have hgrown : forked.Grown overgrown :=
    (Grown.refl.foldlM_addBlock
      (show (overgrown.blocks.drop 7).foldlM addBlock forked =
          .ok { forked with blocks := overgrown.blocks } by
        decide)).foldlM_addEdge
      (show (overgrown.edges.drop 8).foldlM addEdge { forked with blocks := overgrown.blocks } =
          .ok overgrown by
        decide)
  have hdead : DeadEnds forked overgrown 4 :=
    ((hgrown.built forked_built).valid.deadEnds_iff (by decide)).mpr (by decide)
  obtain ⟨hpath, hcount⟩ :=
    deadEnds_pruned forked_built hdom hgrown (show (1 : Int) ∈ _ by decide) (by decide) hdead
  exact ⟨hdom, hgrown, hdead, (hpath _).mpr (by decide), (hcount _).mpr (by decide)⟩

end Graph

end WorstCase
