import WorstCase.Proofs.Graph.Dominance
import Mathlib.Data.Set.Finite.List
import Mathlib.Order.WellFounded

/-!
# When sweeps go through

A sweep back to `src` looks at the blocks that reach `dst` without `src`, and at nothing else. It
gets stuck when one of them waits for itself, or for `src`, which is never visited. So it goes
through iff the way is **clear** (`Graph.Clear`): every walk to `dst` from such a block is simple
and does not meet `src`.

* `Graph.Valid.sweep_isOk_iff`: besides its checks of the ends, a sweep asks for a clear way only.
  The worklist of a sweep on a clear way always holds a ready block: one from which no other block
  of the worklist can be reached (`Graph.Advancing.exists_ready`).
* `Graph.Valid.connects_iff`: queries succeed under the same conditions, if `src` reaches `dst`.
* `Graph.loop_rejected`: a loop is noticed wherever `dst` can be reached from it without `src`.
  Loops through `src` itself are not noticed (`Graph.loop_accepted_selfLooped`).
-/

namespace WorstCase

namespace Graph

variable {g : Graph} {src dst : Int}

/-! ### Clear ways -/

/-- `x` reaches `dst` along a walk that does not meet `src`. -/
def ReachesWithout (g : Graph) (src x dst : Int) : Prop :=
  ∃ p, g.Walk x p dst ∧ src ∉ p

/-- Nothing on the way back from `dst` to `src` stops a sweep. -/
def Clear (g : Graph) (src dst : Int) : Prop :=
  ∀ x, g.ReachesWithout src x dst → ∀ p, g.Walk x p dst → src ∉ p ∧ p.Nodup

theorem ReachesWithout.ne {x : Int} (h : g.ReachesWithout src x dst) : x ≠ src := by
  rintro rfl
  obtain ⟨p, hp, hsrc⟩ := h
  exact hsrc hp.head_mem

theorem ReachesWithout.cons {x y : Int} (h : g.ReachesWithout src y dst) (harc : g.Arc x y)
    (hx : x ≠ src) : g.ReachesWithout src x dst := by
  obtain ⟨p, hp, hsrc⟩ := h
  exact ⟨x :: p, .step harc hp, List.not_mem_cons_of_ne_of_not_mem hx.symm hsrc⟩

/-- A sweep visits exactly the blocks that reach `dst` without `src`. -/
theorem Swept.mem_blocks_iff {v : Visits} (hv : Swept g src dst v) {x : Int} :
    x ∈ v.blocks ↔ g.ReachesWithout src x dst := by
  constructor
  · intro hx
    have hx' := List.mem_reverse.mpr hx
    obtain ⟨p, hp⟩ := exists_walk_of_reaches (hv.settled.reaches hx')
    exact ⟨p, hp, fun h => hv.settled.src_notMem (hv.settled.walk_mem hx' hp h)⟩
  · rintro ⟨p, hp, hsrc⟩
    exact hv.mem_of_walk hp hsrc

theorem Swept.clear {v : Visits} (hv : Swept g src dst v) : g.Clear src dst := by
  intro x hx p hp
  have hx' := List.mem_reverse.mpr (hv.mem_blocks_iff.mpr hx)
  exact ⟨fun h => hv.settled.src_notMem (hv.settled.walk_mem hx' hp h),
    hv.settled.walk_nodup hx' hp⟩

/-- A block lies on a loop when it can be reached from one of its successors. -/
def OnLoop (g : Graph) (x : Int) : Prop :=
  Relation.TransGen g.Arc x x

/-- From a block on a loop there are walks to `dst` that go round the loop first. -/
theorem OnLoop.exists_walk {x : Int} (h : g.OnLoop x) (hreach : g.Reaches x dst) :
    ∃ p, g.Walk x p dst ∧ ¬ p.Nodup := by
  obtain ⟨y, hxy, hyx⟩ := Relation.TransGen.head'_iff.mp h
  obtain ⟨p, hp⟩ := exists_walk_of_reaches hyx
  obtain ⟨q, hq⟩ := exists_walk_of_reaches hreach
  obtain ⟨q, rfl⟩ := hq.exists_cons
  refine ⟨x :: (p ++ q), .step hxy (hp.append hq), fun hnd => ?_⟩
  exact (List.nodup_cons.mp hnd).1 (List.mem_append_left _ hp.last_mem)

theorem Clear.not_onLoop (hc : g.Clear src dst) {x : Int} (hx : g.ReachesWithout src x dst) :
    ¬ g.OnLoop x := by
  intro hloop
  obtain ⟨p, hp, -⟩ := id hx
  obtain ⟨q, hq, hnd⟩ := hloop.exists_walk hp.reaches
  exact hnd (hc x hx q hq).2

/-! ### There is always a ready block -/

/-- Where no element of a list lies on a loop, there is one from which no other can be reached. -/
theorem exists_last_of_no_loop {α : Type} {r : α → α → Prop} {l : List α} (hl : l ≠ [])
    (hloop : ∀ x ∈ l, ¬ Relation.TransGen r x x) : ∃ w ∈ l, ∀ z ∈ l, ¬ Relation.TransGen r w z := by
  let after : {x // x ∈ l} → {x // x ∈ l} → Prop := fun z w => Relation.TransGen r w z
  have : Finite {x // x ∈ l} := (List.finite_toSet l).to_subtype
  have : IsTrans _ after := ⟨fun a b c hab hbc => Relation.TransGen.trans hbc hab⟩
  have : Std.Irrefl after := ⟨fun a h => hloop a a.2 h⟩
  obtain ⟨x, hx⟩ := List.exists_mem_of_ne_nil l hl
  obtain ⟨w, -, hw⟩ :=
    (Finite.wellFounded_of_trans_of_irrefl after).has_min Set.univ ⟨⟨x, hx⟩, trivial⟩
  exact ⟨w, w.2, fun z hz h => hw ⟨z, hz⟩ trivial h⟩

/-- The invariant of a sweep on a clear way: besides that of all sweeps, the worklist holds blocks
that reach `dst` without `src`, and `dst` has been seen. -/
structure Advancing (g : Graph) (src dst : Int) (worklist visited : List Int) : Prop where
  sweeping : Sweeping g src dst worklist visited
  without : ∀ x ∈ worklist, g.ReachesWithout src x dst
  dst_seen : dst ∈ worklist ∨ dst ∈ visited

theorem advancing_init (hne : src ≠ dst) : Advancing g src dst [dst] [] where
  sweeping := sweeping_init hne
  without := by
    intro x hx
    obtain rfl := List.mem_singleton.mp hx
    exact ⟨[x], .single x, by simpa using hne⟩
  dst_seen := .inl (List.mem_singleton_self dst)

/-- A walk to `dst` from a block that has not been visited meets the worklist. -/
theorem Advancing.exists_mem_worklist {worklist visited : List Int}
    (ha : Advancing g src dst worklist visited) {x : Int} {p : List Int} (hp : g.Walk x p dst)
    (hsrc : src ∉ p) (hx : x ∉ visited) : ∃ z ∈ worklist, z ∈ p := by
  induction hp with
  | single a => exact ⟨a, ha.dst_seen.resolve_right hx, List.mem_singleton_self a⟩
  | @step a b c p hab hp ih =>
    rw [List.mem_cons, not_or] at hsrc
    by_cases hb : b ∈ visited
    · -- `a` is a predecessor of a visited block
      have haw := ((ha.sweeping.preds b hb a hab).resolve_left (Ne.symm hsrc.1)).resolve_left hx
      exact ⟨a, haw, List.mem_cons_self⟩
    · obtain ⟨z, hz, hzp⟩ := ih ha hsrc.2 hb
      exact ⟨z, hz, List.mem_cons_of_mem _ hzp⟩

/-- **On a clear way the worklist holds a ready block**, unless it is empty. -/
theorem Advancing.exists_ready {worklist visited : List Int} (hc : g.Clear src dst)
    (ha : Advancing g src dst worklist visited) (hw : worklist ≠ []) :
    ∃ w ∈ worklist, ∀ s, g.Arc w s → g.Reaches s dst → s ∈ visited := by
  obtain ⟨w, hmem, hlast⟩ :=
    exists_last_of_no_loop hw fun x hx => hc.not_onLoop (ha.without x hx)
  refine ⟨w, hmem, fun s hws hs => ?_⟩
  by_contra hnew
  -- otherwise a walk from `s` to `dst` leads from `w` to another block of the worklist
  obtain ⟨p, hp⟩ := exists_walk_of_reaches hs
  have hsrc := (hc w (ha.without w hmem) (w :: p) (.step hws hp)).1
  obtain ⟨z, hz, hzp⟩ :=
    ha.exists_mem_worklist hp (fun h => hsrc (List.mem_cons_of_mem _ h)) hnew
  exact hlast z hz (.head' hws (hp.reaches_of_mem hzp).1)

/-- One round of a sweep on a clear way keeps the invariant. -/
theorem Advancing.visit {worklist visited : List Int} {uid : Int} (hg : g.Valid)
    (ha : Advancing g src dst worklist visited) (huid : uid ∈ worklist)
    (hready : ∀ s, g.Arc uid s → g.Reaches s dst → s ∈ visited) :
    Advancing g src dst (g.requeue src uid worklist visited) (uid :: visited) where
  sweeping := ha.sweeping.visit hg huid hready
  without := by
    intro x hx
    rw [mem_requeue ha.sweeping.nodup] at hx
    rcases hx with ⟨-, hx⟩ | ⟨harc, hne, -, -⟩
    · exact ha.without x hx
    · exact (ha.without uid huid).cons harc hne
  dst_seen := by
    by_cases hdst : dst = uid
    · exact .inr (hdst ▸ List.mem_cons_self)
    · refine ha.dst_seen.imp (fun h => ?_) (List.mem_cons_of_mem _)
      exact (mem_requeue ha.sweeping.nodup).mpr (.inl ⟨hdst, h⟩)

/-! ### The rounds of a sweep -/

/-- The search for a ready block succeeds if the worklist holds known blocks that have not been
visited, and one of them is ready. -/
theorem exists_firstReady {reaching visited worklist : List Int}
    (hnew : ∀ x ∈ worklist, x ∉ visited ∧ x ∈ g.blocks.map (·.uid)) {w : Int} (hw : w ∈ worklist)
    (hready : g.isReady reaching visited w = true) :
    ∃ uid, g.firstReady reaching visited worklist = .ok (some uid) := by
  induction worklist with
  | nil => exact absurd hw List.not_mem_nil
  | cons x worklist ih =>
    obtain ⟨hx, hknown⟩ := hnew x List.mem_cons_self
    rw [firstReady_cons hx hknown]
    split_ifs with hxr
    · exact ⟨x, rfl⟩
    · have hwx : w ≠ x := by
        rintro rfl
        exact hxr hready
      exact ih (fun y hy => hnew y (List.mem_cons_of_mem _ hy))
        ((List.mem_cons.mp hw).resolve_left hwx)

/-- **On a clear way a sweep goes through.** Every round visits another block, so the rounds do not
run out before the worklist does. -/
theorem Advancing.exists_sweepFrom (hg : g.Valid) (hdst : dst ∈ g.blocks.map (·.uid))
    (hc : g.Clear src dst) {rounds : Nat} :
    ∀ {worklist visited : List Int}, Advancing g src dst worklist visited →
      visited ⊆ g.blocks.map (·.uid) → worklist ⊆ g.blocks.map (·.uid) →
      g.blocks.length ≤ rounds + visited.length →
      ∃ v, g.sweepFrom src dst (g.reaching dst) rounds worklist visited = .ok v := by
  induction rounds with
  | zero =>
    intro worklist visited ha hvk hwk hlen
    cases worklist with
    | nil => exact ⟨{}, rfl⟩
    | cons w worklist =>
      -- all blocks have been visited, and `w` has not
      have hnd : (w :: visited).Nodup := List.nodup_cons.mpr
        ⟨(ha.sweeping.fresh w List.mem_cons_self).1, ha.sweeping.settled.nodup⟩
      have hsub : w :: visited ⊆ g.blocks.map (·.uid) :=
        List.cons_subset.mpr ⟨hwk List.mem_cons_self, hvk⟩
      have hle := (List.subperm_of_subset hnd hsub).length_le
      rw [List.length_cons, List.length_map] at hle
      omega
  | succ rounds ih =>
    intro worklist visited ha hvk hwk hlen
    by_cases hw : worklist = []
    · subst hw
      exact ⟨{}, rfl⟩
    · obtain ⟨w, hmem, hready⟩ := ha.exists_ready hc hw
      obtain ⟨uid, huid⟩ := exists_firstReady
        (fun x hx => ⟨(ha.sweeping.fresh x hx).1, hwk hx⟩) hmem ((hg.isReady_iff hdst).mpr hready)
      obtain ⟨huidw, -, huidr⟩ := firstReady_eq_some huid
      have hnext := ha.visit hg huidw ((hg.isReady_iff hdst).mp huidr)
      obtain ⟨rest, hrest⟩ : ∃ rest, g.sweepFrom src dst (g.reaching dst) rounds
          (g.requeue src uid worklist visited) (uid :: visited) = .ok rest := by
        refine ih hnext (List.cons_subset.mpr ⟨hwk huidw, hvk⟩) (fun x hx => ?_) ?_
        · rcases (mem_requeue ha.sweeping.nodup).mp hx with ⟨-, hx⟩ | ⟨harc, -⟩
          · exact hwk hx
          · exact (hg.arc_known harc).1
        · rw [List.length_cons]
          omega
      exact ⟨_, map_eq_ok_iff.mpr ⟨rest, hrest, rfl⟩ ▸ hg.sweepFrom_of_firstReady huid⟩

/-! ### When queries succeed -/

/-- **When a sweep goes through**: its ends differ and are known, `src` is on the declared chain of
`dst`, and the way is clear. -/
theorem Valid.sweep_isOk_iff (hg : g.Valid) :
    (∃ v, g.sweep src dst = .ok v) ↔
      src ≠ dst ∧ src ∈ g.blocks.map (·.uid) ∧ g.checkDominates src dst = .ok () ∧
        g.Clear src dst := by
  constructor
  · rintro ⟨v, hv⟩
    obtain ⟨hne, hsrc, hdom, -⟩ := sweep_eq_ok_iff.mp hv
    exact ⟨hne, hsrc, hdom, (hg.swept hv).clear⟩
  · rintro ⟨hne, hsrc, hdom, hc⟩
    have hdst := dst_known_of_checkDominates hne hdom
    obtain ⟨v, hv⟩ : ∃ v,
        g.sweepFrom src dst (g.reaching dst) g.blocks.length [dst] [] = .ok v :=
      (advancing_init hne).exists_sweepFrom hg hdst hc (List.nil_subset _) (by simpa using hdst)
        (Nat.le_add_right _ _)
    exact ⟨v, sweep_eq_ok_iff.mpr ⟨hne, hsrc, hdom, hv⟩⟩

/-- What can be reached can be reached without passing a block twice. -/
theorem exists_path_of_reaches {a c : Int} (h : g.Reaches a c) : ∃ p, g.Walk a p c ∧ p.Nodup := by
  induction h using Relation.ReflTransGen.head_induction_on with
  | refl => exact ⟨[c], .single c, List.nodup_singleton c⟩
  | @head a b hab _ ih =>
    obtain ⟨p, hp, hnd⟩ := ih
    by_cases ha : a ∈ p
    · obtain ⟨p₁, p₂, rfl, -, h₂⟩ := hp.split ha
      exact ⟨a :: p₂, h₂, (List.nodup_append.mp hnd).2.1⟩
    · exact ⟨a :: p, .step hab hp, List.nodup_cons.mpr ⟨ha, hnd⟩⟩

/-- **When queries succeed**, both for a longest path and for the number of paths. -/
theorem Valid.connects_iff (hg : g.Valid) :
    g.Connects src dst ↔
      src ≠ dst ∧ src ∈ g.blocks.map (·.uid) ∧ g.checkDominates src dst = .ok () ∧
        g.Clear src dst ∧ g.Reaches src dst := by
  constructor
  · rintro ⟨v, hv, harc⟩
    obtain ⟨hne, hsrc, hdom, hc⟩ := hg.sweep_isOk_iff.mp ⟨v, hv⟩
    exact ⟨hne, hsrc, hdom, hc, Connects.reaches (hg.swept hv) harc⟩
  · rintro ⟨hne, hsrc, hdom, hc, hreach⟩
    obtain ⟨v, hv⟩ := hg.sweep_isOk_iff.mpr ⟨hne, hsrc, hdom, hc⟩
    obtain ⟨p, hp, hnd⟩ := exists_path_of_reaches hreach
    cases hp with
    | single => exact absurd rfl hne
    | @step _ n _ p harc hp =>
      exact ⟨v, hv, n, (hg.swept hv).mem_of_walk hp (List.nodup_cons.mp hnd).1, harc⟩

/-! ### Loops -/

/-- A simple path from `src` does not come back to `src`. -/
theorem Walk.reachesWithout {p : List Int} (hp : g.Walk src p dst) (hnd : p.Nodup) {x : Int}
    (hx : x ∈ p) (hne : x ≠ src) : g.ReachesWithout src x dst := by
  obtain ⟨p₁, p₂, rfl, h₁, h₂⟩ := hp.split hx
  refine ⟨x :: p₂, h₂, fun hmem => ?_⟩
  -- `src` comes first, and it is not `x`
  have hsrc : src ∈ p₁ := by
    simpa [hne.symm] using h₁.head_mem
  exact (List.nodup_append.mp hnd).2.2 src hsrc src hmem rfl

theorem exists_error_of_not_ok {ε α : Type} {x : Except ε α} (h : ¬ ∃ a, x = .ok a) :
    ∃ e, x = .error e := by
  rcases x with e | a
  · exact ⟨e, rfl⟩
  · exact absurd ⟨a, rfl⟩ h

/-- **Loops are rejected** if `dst` can be reached from them without `src`. On a simple path from
`src` to `dst` that is the case for every block but `src`. -/
theorem loop_rejected {g : Graph} (hg : g.Built) {src dst x : Int} (hloop : g.OnLoop x)
    (hx : g.ReachesWithout src x dst) :
    (∃ v, g.longestPath src dst = .error v) ∧ ∃ v, g.countPaths src dst = .error v := by
  have hnot : ¬ g.Connects src dst := fun h =>
    (hg.valid.connects_iff.mp h).2.2.2.1.not_onLoop hx hloop
  exact ⟨exists_error_of_not_ok (hg.valid.longestPath_isOk_iff.not.mpr hnot),
    exists_error_of_not_ok (hg.valid.countPaths_isOk_iff.not.mpr hnot)⟩

/-- Four blocks in a row, where block 2 also leads back to block 1. -/
def looped : Graph where
  blocks :=
    [ { uid := 0, selector := "bs_0", written := "bs_0", cost := 1 },
      { uid := 1, selector := "b_1", written := "b_1", cost := 2, dominator := 0 },
      { uid := 2, selector := "b_2", written := "b_2", cost := 3, dominator := 1 },
      { uid := 3, selector := "b_3", written := "b_3", cost := 4, dominator := 2 } ]
  edges := [⟨⟨0, 1⟩, 0⟩, ⟨⟨1, 2⟩, 0⟩, ⟨⟨2, 1⟩, 0⟩, ⟨⟨2, 3⟩, 0⟩]
  start := 0
  stop := 3

theorem looped_built : looped.Built :=
  .annotate
    ((Built.empty.foldlM_addBlock
      (show looped.blocks.foldlM addBlock {} = .ok { blocks := looped.blocks } by
        decide)).foldlM_addEdge
      (show looped.edges.foldlM addEdge { blocks := looped.blocks } =
          .ok { looped with start := noDominator, stop := noDominator } by
        decide))
    (.endpoints (show Graph.setEndpoints _ 0 3 = .ok looped by decide))

/-- The loop through the blocks 1 and 2 lies between blocks 0 and 3. -/
theorem loop_rejected_looped :
    looped.OnLoop 2 ∧ (∃ v, looped.longestPath 0 3 = .error v) ∧
      ∃ v, looped.countPaths 0 3 = .error v := by
  have hloop : looped.OnLoop 2 :=
    .head (show looped.Arc 2 1 by decide) (.single (by decide))
  have hpath : looped.Walk 0 [0, 1, 2, 3] 3 :=
    .step (by decide) (.step (by decide) (.step (by decide) (.single 3)))
  exact ⟨hloop, loop_rejected looped_built hloop
    (hpath.reachesWithout (by decide) (by decide) (by decide))⟩

/-- Two blocks in a row, the first of which also leads to itself. -/
def selfLooped : Graph where
  blocks :=
    [ { uid := 0, label := "A", selector := "bs_0", written := "bd_0", cost := 1 },
      { uid := 1, label := "B", selector := "bs_1", written := "bd_1", cost := 2,
        dominator := 0 } ]
  edges := [⟨⟨0, 0⟩, 0⟩, ⟨⟨0, 1⟩, 0⟩]
  start := 0
  stop := 1

/-- **A loop through `src` is not rejected**, although it lies on a walk from `src` to `dst`. -/
theorem loop_accepted_selfLooped :
    selfLooped.Walk 0 [0, 0, 1] 1 ∧ selfLooped.OnLoop 0 ∧
      selfLooped.longestPath 0 1 =
        .ok { cost := 3, path := [0, 1], blocks := [0, 1], edges := [⟨0, 1⟩] } ∧
      selfLooped.countPaths 0 1 = .ok 1 := by
  refine ⟨.step (by decide) (.step (by decide) (.single 1)), .single (by decide), ?_, ?_⟩
  · decide
  · decide

end Graph

end WorstCase
