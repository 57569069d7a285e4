import WorstCase.Proofs.Graph.LongestPath

/-!
# Queries certify dominance

Before it starts, a sweep checks only that `src` is on the chain of **declared** dominators of
`dst`, and the declarations may be wrong. That `src` really dominates `dst` is a consequence of the
sweep going through: a block above `src` that also reaches `dst` around `src` would have been
visited, and then `src` itself, which is never visited.

Both kinds of query, for a longest path and for the number of paths, succeed under the same
condition: the sweep goes through and an edge leads from `src` into what it visited
(`Graph.Valid.longestPath_isOk_iff`, `Graph.Valid.countPaths_isOk_iff`).
-/

namespace WorstCase

namespace Graph

variable {g : Graph} {src dst : Int}

/-! ### When queries succeed -/

/-- A sweep goes through and finds an edge from `src` into what it visits. -/
def Connects (g : Graph) (src dst : Int) : Prop :=
  ∃ v, g.sweep src dst = .ok v ∧ ∃ n ∈ v.blocks, g.Arc src n

theorem Valid.connects_of_longestPath (hg : g.Valid) {r : LongestPath}
    (h : g.longestPath src dst = .ok r) : g.Connects src dst := by
  obtain ⟨last, v, o, hlast, hv, ho, -⟩ := longestPath_eq_ok h
  have hk := (hg.swept hv).outlooking hg hlast
  obtain ⟨n, _, e, _, hn, -, he, -⟩ := hk.link src o (sweep_eq_ok hv).1 ho
  exact ⟨v, hv, n, List.mem_reverse.mp hn, arc_of_edge? he⟩

theorem Valid.longestPath_of_connects (hg : g.Valid) (h : g.Connects src dst) :
    ∃ r, g.longestPath src dst = .ok r := by
  obtain ⟨v, hv, n, hn, harc⟩ := h
  have hswept := hg.swept hv
  obtain ⟨-, ⟨b, hb⟩, ⟨last, hlast⟩, -⟩ := sweep_eq_ok hv
  have hk := hswept.outlooking hg hlast
  obtain ⟨ahead, -, hbest⟩ := hk.best n (List.mem_reverse.mpr hn)
  obtain ⟨e, he, -⟩ := hg.exists_edge harc
  obtain ⟨o, ho, -⟩ := hbest src e b he hb
  have hsrc : src ∈ g.blocks.map (·.uid) := (hg.arc_known harc).1
  obtain ⟨path, hpath⟩ : ∃ path,
      followFrom (v.outlooks dst last) src dst (g.blocks.length + 1) src [src] = .ok path :=
    hk.exists_followFrom hg hswept.settled (List.nodup_singleton src) (by simpa using hsrc)
      (by simpa using Relation.ReflTransGen.refl) ho (by simp)
  exact ⟨_, longestPath_of_sweep hlast hv ho hpath⟩

theorem Valid.longestPath_isOk_iff (hg : g.Valid) :
    (∃ r, g.longestPath src dst = .ok r) ↔ g.Connects src dst :=
  ⟨fun ⟨_, h⟩ => hg.connects_of_longestPath h, hg.longestPath_of_connects⟩

/-- Counting gives a count to the sources of the steps, and to no other blocks. -/
theorem lookup_foldl_count_isSome {steps : List Step} {counts : List (Int × Nat)} {u : Int} :
    ((steps.foldl Step.count counts).lookup u).isSome ↔
      (counts.lookup u).isSome ∨ ∃ s ∈ steps, s.pred.uid = u := by
  induction steps generalizing counts with
  | nil => simp
  | cons s steps ih =>
    rw [List.foldl_cons, ih, Step.count, List.lookup_cons]
    by_cases hu : u = s.pred.uid
    · subst hu
      simp
    · rw [beq_false_of_ne hu]
      simp [Ne.symm hu]

theorem Swept.exists_step_iff (hg : g.Valid) {v : Visits} (hv : Swept g src dst v) {u : Int} :
    (∃ s ∈ v.steps, s.pred.uid = u) ↔ ∃ n ∈ v.blocks, g.Arc u n := by
  rw [hv.steps_eq]
  constructor
  · rintro ⟨s, hs, rfl⟩
    obtain ⟨n, hn, hs⟩ := List.mem_flatMap.mp hs
    exact ⟨n, hn, arc_of_mem_stepsInto hs⟩
  · rintro ⟨n, hn, harc⟩
    obtain ⟨s, hs, hpred⟩ := hg.exists_step harc
    exact ⟨s, List.mem_flatMap.mpr ⟨n, hn, hs⟩, hpred⟩

theorem Valid.countPaths_isOk_iff (hg : g.Valid) :
    (∃ n, g.countPaths src dst = .ok n) ↔ g.Connects src dst := by
  simp only [countPaths_eq_ok_iff, Connects]
  rw [exists_comm]
  refine exists_congr fun v => ?_
  rw [exists_and_left]
  refine and_congr_right fun hv => ?_
  have hne : src ≠ dst := (sweep_eq_ok hv).1
  rw [← Option.isSome_iff_exists, lookup_foldl_count_isSome, (hg.swept hv).exists_step_iff hg,
    List.lookup_cons, beq_false_of_ne hne]
  simp

/-! ### Dominance -/

/-- Every walk from the start to `b` meets `a`. -/
def Dominates (g : Graph) (a b : Int) : Prop :=
  ∀ p, g.Walk g.start p b → a ∈ p

/-- **There is no way around `src`** for a block above it. -/
theorem Swept.src_mem_of_walk {v : Visits} (hv : Swept g src dst v) (hsrc : g.Reaches src dst)
    {a : Int} (ha : g.Reaches a src) {p : List Int} (hp : g.Walk a p dst) : src ∈ p := by
  by_contra hmem
  -- then `a` has been visited, and with it all that lies between `a` and `dst`
  have hav : a ∈ v.blocks := hv.mem_of_walk hp hmem
  have hsrcv := hv.settled.mem_of_reaches (List.mem_reverse.mpr hav) ha hsrc
  exact hv.settled.src_notMem hsrcv

theorem Connects.reaches {v : Visits} (hv : Swept g src dst v) (h : ∃ n ∈ v.blocks, g.Arc src n) :
    g.Reaches src dst := by
  obtain ⟨n, hn, harc⟩ := h
  exact .head harc (hv.settled.reaches (List.mem_reverse.mpr hn))

/-- A query that succeeds leaves no way around `src`. -/
theorem Valid.src_mem_of_longestPath (hg : g.Valid) {r : LongestPath}
    (h : g.longestPath src dst = .ok r) {a : Int} (ha : g.Reaches a src) {p : List Int}
    (hp : g.Walk a p dst) : src ∈ p := by
  obtain ⟨v, hv, harc⟩ := hg.connects_of_longestPath h
  exact (hg.swept hv).src_mem_of_walk (Connects.reaches (hg.swept hv) harc) ha hp

/-- **Queries certify dominance**, whatever dominators are declared: if a longest path is found,
which is the case iff paths can be counted, then every walk to `dst` from a block above `src` meets
`src`. If `src` can be reached from the start, it dominates `dst`. -/
theorem dominates_of_query {g : Graph} (hg : g.Built) {src dst : Int} :
    ((∃ r, g.longestPath src dst = .ok r) ↔ ∃ n, g.countPaths src dst = .ok n) ∧
      ((∃ r, g.longestPath src dst = .ok r) →
        (∀ a, g.Reaches a src → ∀ p, g.Walk a p dst → src ∈ p) ∧
        (g.Reaches g.start src → g.Dominates src dst)) := by
  refine ⟨hg.valid.longestPath_isOk_iff.trans hg.valid.countPaths_isOk_iff.symm, ?_⟩
  rintro ⟨r, hr⟩
  exact ⟨fun a ha p hp => hg.valid.src_mem_of_longestPath hr ha hp,
    fun hstart p hp => hg.valid.src_mem_of_longestPath hr hstart hp⟩

/-- A graph whose declared dominators are wrong, except on the chain of block 3: block 1 is
declared to be dominated by block 2. -/
def misdeclared : Graph where
  blocks :=
    [ { uid := 0, selector := "bs_0", written := "bs_0", cost := 1 },
      { uid := 1, selector := "b_1", written := "b_1", cost := 2, dominator := 2 },
      { uid := 2, selector := "b_2", written := "b_2", cost := 3, dominator := 7 },
      { uid := 3, selector := "b_3", written := "b_3", cost := 4, dominator := 1 } ]
  edges := [⟨⟨0, 1⟩, 0⟩, ⟨⟨0, 2⟩, 0⟩, ⟨⟨2, 1⟩, 0⟩, ⟨⟨1, 3⟩, 0⟩, ⟨⟨1, 1⟩, 0⟩]
  start := 0
  stop := 3

theorem misdeclared_built : misdeclared.Built :=
  .annotate
    ((Built.empty.foldlM_addBlock
      (show misdeclared.blocks.foldlM addBlock {} = .ok { blocks := misdeclared.blocks } by
        decide)).foldlM_addEdge
      (show misdeclared.edges.foldlM addEdge { blocks := misdeclared.blocks } =
          .ok { misdeclared with start := noDominator, stop := noDominator } by
        decide))
    (.endpoints (show Graph.setEndpoints _ 0 3 = .ok misdeclared by decide))

theorem dominates_of_query_misdeclared :
    (∃ r, misdeclared.longestPath 1 3 = .ok r) ∧ misdeclared.Dominates 1 3 := by
  have hquery : ∃ r, misdeclared.longestPath 1 3 = .ok r :=
    ⟨⟨6, [1, 3], [1, 3], [⟨1, 3⟩]⟩, by decide⟩
  have hreach : misdeclared.Reaches misdeclared.start 1 := .single (by decide)
  exact ⟨hquery, ((dominates_of_query misdeclared_built).2 hquery).2 hreach⟩

end Graph

end WorstCase
