import WorstCase.Proofs.Ascending
import WorstCase.Proofs.Graph.Agreement
import WorstCase.Proofs.Graph.Registry

/-!
# Graphs built in another order

The lists of a graph are in the order in which blocks and edges were added, and that order is
seen by lookups, by worklists and by the choice between paths of the same cost. A graph is
**reordered** when only these orders change (`Graph.Reordered`).

Whatever is computed from a reordered graph ends alike (`EndAlike`): it fails for both graphs, or
succeeds for both with results that agree. The path of a longest-path query may be another one; its
cost and the region may not (`Graph.Reordered.longestPath`). So the cuts that requests register are
the same, one by one (`Graph.Reordered.answer`, `Graph.Reordered.serve`).
-/

namespace WorstCase

/-! ### Runs that end alike -/

/-- Two runs **end alike** when both fail, or both succeed with results related by `R`. -/
inductive EndAlike {ε ε' α β : Type} (R : α → β → Prop) : Except ε α → Except ε' β → Prop
  | error (e : ε) (e' : ε') : EndAlike R (.error e) (.error e')
  | ok {a : α} {b : β} (h : R a b) : EndAlike R (.ok a) (.ok b)

namespace EndAlike

variable {ε ε' α α' : Type} {R : α → α' → Prop} {x : Except ε α} {x' : Except ε' α'}

theorem of_forall_ok (h : ∀ a, x = .ok a → ∃ a', x' = .ok a' ∧ R a a')
    (h' : ∀ a', x' = .ok a' → ∃ a, x = .ok a) : EndAlike R x x' := by
  rcases x with e | a
  · rcases x' with e' | a'
    · exact .error e e'
    · obtain ⟨a, ha⟩ := h' a' rfl
      exact nomatch ha
  · obtain ⟨a', rfl, ha⟩ := h a rfl
    exact .ok ha

/-- The two ways to end alike. -/
theorem results (h : EndAlike R x x') :
    (∃ e e', x = .error e ∧ x' = .error e') ∨ ∃ a a', x = .ok a ∧ x' = .ok a' ∧ R a a' := by
  cases h with
  | error e e' => exact .inl ⟨e, e', rfl, rfl⟩
  | @ok a a' h => exact .inr ⟨a, a', rfl, rfl, h⟩

theorem imp {S : α → α' → Prop} (h : EndAlike R x x') (hS : ∀ a a', R a a' → S a a') :
    EndAlike S x x' := by
  cases h with
  | error e e' => exact .error e e'
  | ok h => exact .ok (hS _ _ h)

/-- Runs that go on alike end alike. -/
theorem bind {β β' : Type} {S : β → β' → Prop} {f : α → Except ε β} {f' : α' → Except ε' β'}
    (h : EndAlike R x x')
    (hf : ∀ a a', x = .ok a → x' = .ok a' → R a a' → EndAlike S (f a) (f' a')) :
    EndAlike S (x >>= f) (x' >>= f') := by
  cases h with
  | error e e' => exact .error e e'
  | ok h => exact hf _ _ rfl rfl h

end EndAlike

/-- The results of two queries agree in all that a cut keeps. -/
structure LongestPath.SameCut (r r' : LongestPath) : Prop where
  cost : r'.cost = r.cost
  blocks : r'.blocks = r.blocks
  edges : r'.edges = r.edges

namespace Graph

/-- `g'` has the blocks and edges of `g` in any order, and the same endpoints and cuts. -/
structure Reordered (g g' : Graph) : Prop where
  valid : g.Valid
  blocks : g.blocks.Perm g'.blocks
  edges : g.edges.Perm g'.edges
  cuts : g'.cuts = g.cuts
  start : g'.start = g.start
  stop : g'.stop = g.stop

namespace Reordered

variable {g g' : Graph}

/-! ### Lookups and views -/

theorem valid' (h : Reordered g g') : g'.Valid where
  uids_nodup := (h.blocks.map _).nodup_iff.mp h.valid.uids_nodup
  ids_nodup := (h.edges.map _).nodup_iff.mp h.valid.ids_nodup
  ends_known id hid := by
    rw [← (h.blocks.map _).mem_iff, ← (h.blocks.map _).mem_iff]
    exact h.valid.ends_known id ((h.edges.map _).mem_iff.mpr hid)

theorem symm (h : Reordered g g') : Reordered g' g :=
  ⟨h.valid', h.blocks.symm, h.edges.symm, h.cuts.symm, h.start.symm, h.stop.symm⟩

theorem withCut (h : Reordered g g') {id : CutId} {r r' : LongestPath} (hr : r.SameCut r') :
    Reordered (g.withCut id r) (g'.withCut id r') where
  valid := h.valid.congr rfl rfl
  blocks := h.blocks
  edges := h.edges
  cuts := by rw [Graph.withCut, Graph.withCut, h.cuts, hr.cost, hr.blocks, hr.edges]
  start := h.start
  stop := h.stop

theorem block?_eq (h : Reordered g g') : g'.block? = g.block? := by
  funext uid
  refine Option.ext fun b => ?_
  rw [h.valid'.block?_eq_some_iff, h.valid.block?_eq_some_iff, h.blocks.mem_iff]

theorem edge?_eq (h : Reordered g g') : g'.edge? = g.edge? := by
  funext src dst
  refine Option.ext fun e => ?_
  rw [h.valid'.edge?_eq_some_iff, h.valid.edge?_eq_some_iff, h.edges.mem_iff]

theorem cut?_eq (h : Reordered g g') : g'.cut? = g.cut? := by
  funext head tail
  rw [cut?, h.cuts, cut?]

theorem blockOrFail_eq (h : Reordered g g') : g'.blockOrFail = g.blockOrFail := by
  funext uid
  rw [blockOrFail, h.block?_eq, blockOrFail]

theorem length_eq (h : Reordered g g') : g'.blocks.length = g.blocks.length :=
  h.blocks.length_eq.symm

theorem preds_perm (h : Reordered g g') (uid : Int) : (g.preds uid).Perm (g'.preds uid) :=
  (h.edges.filter _).map _

/-- The graphs agree everywhere. -/
theorem agreeOn (h : Reordered g g') : AgreeOn (fun _ => True) g g' where
  block?_eq _ := congrFun h.block?_eq _
  edge?_eq _ c := congrFun (congrFun h.edge?_eq _) c
  closed _ _ := trivial

/-- **Ascending views do not tell the orders.** -/
theorem uids_eq (h : Reordered g g') : g'.uids = g.uids :=
  linear_uids.sortBy_eq_of_perm (h.blocks.symm.map _)

theorem edgeIds_eq (h : Reordered g g') : g'.edgeIds = g.edgeIds :=
  linear_edgeIds.sortBy_eq_of_perm (h.edges.symm.map _)

theorem sortedBlocks_eq (h : Reordered g g') : g'.sortedBlocks = g.sortedBlocks := by
  rw [sortedBlocks, h.uids_eq, h.block?_eq, sortedBlocks]

theorem sortedEdges_eq (h : Reordered g g') : g'.sortedEdges = g.sortedEdges := by
  rw [sortedEdges, h.edgeIds_eq, h.edge?_eq, sortedEdges]

theorem sortedCuts_eq (h : Reordered g g') : g'.sortedCuts = g.sortedCuts := by
  rw [sortedCuts, cutIds, h.cuts, h.cut?_eq, sortedCuts, cutIds]

/-! ### Declared dominators -/

theorem climb_eq (h : Reordered g g') (src dst : Int) (bound : Nat) (cur : Int) :
    g'.climb src dst bound cur = g.climb src dst bound cur := by
  induction bound generalizing cur with
  | zero => rfl
  | succ bound ih => simp only [climb, h.block?_eq, ih]

theorem checkDominates_eq (h : Reordered g g') (src dst : Int) :
    g'.checkDominates src dst = g.checkDominates src dst := by
  rw [checkDominates, h.length_eq, h.climb_eq, checkDominates]

theorem dominatorCandidates_eq (h : Reordered g g') :
    g'.dominatorCandidates = g.dominatorCandidates := by
  have hlength : ∀ uid, (g'.preds uid).length = (g.preds uid).length := fun uid =>
    (h.preds_perm uid).length_eq.symm
  simp only [dominatorCandidates, h.sortedBlocks_eq, hlength]

theorem mergePointsFrom_eq (h : Reordered g g') (bound : Nat) (cur : Int) :
    g'.mergePointsFrom bound cur = g.mergePointsFrom bound cur := by
  induction bound generalizing cur with
  | zero => rw [mergePointsFrom, mergePointsFrom, h.start, h.stop]
  | succ bound ih =>
    rw [mergePointsFrom, mergePointsFrom, h.start, h.stop, h.blockOrFail_eq]
    simp only [ih]

/-- **Merge points are the same**, also where their chain is broken. -/
theorem mergePoints_eq (h : Reordered g g') : g'.mergePoints = g.mergePoints := by
  rw [mergePoints, h.length_eq, h.stop, h.mergePointsFrom_eq, mergePoints]

theorem recursiveCuts_eq (h : Reordered g g') : g'.recursiveCuts = g.recursiveCuts := by
  rw [recursiveCuts, h.mergePoints_eq, recursiveCuts]

/-! ### Queries -/

section Query

variable {src dst : Int}

theorem connects (h : Reordered g g') (hc : g.Connects src dst) : g'.Connects src dst := by
  obtain ⟨hne, hsrc, hdom, hclear, hreach⟩ := h.valid.connects_iff.mp hc
  refine h.valid'.connects_iff.mpr ⟨hne, (h.blocks.map _).mem_iff.mp hsrc, ?_, ?_, ?_⟩
  · rw [h.checkDominates_eq, hdom]
  · intro x hx p hp
    exact hclear x ((h.agreeOn.reachesWithout_iff trivial src).mp hx) p
      ((h.agreeOn.walk_iff trivial).mp hp)
  · exact (h.agreeOn.reaches_iff trivial).mpr hreach

/-- **Queries end alike**, and return the same cost and the same region. -/
theorem longestPath (h : Reordered g g') (src dst : Int) :
    EndAlike LongestPath.SameCut (g.longestPath src dst) (g'.longestPath src dst) := by
  refine .of_forall_ok (fun r hr => ?_) fun r' hr' =>
    h.valid.longestPath_of_connects (h.symm.connects (h.valid'.connects_of_longestPath hr'))
  obtain ⟨r', hr'⟩ :=
    h.valid'.longestPath_of_connects (h.connects (h.valid.connects_of_longestPath hr))
  obtain ⟨hblocks, hedges⟩ := h.agreeOn.region_eq h.valid h.valid' hr hr'
  obtain ⟨-, -, hbnd, hend⟩ := h.valid.isRegion hr
  obtain ⟨-, -, hbnd', hend'⟩ := h.valid'.isRegion hr'
  obtain ⟨_, _, _, -, -, -, -, -, hb, he⟩ := longestPath_eq_ok hr
  obtain ⟨_, _, _, -, -, -, -, -, hb', he'⟩ := longestPath_eq_ok hr'
  -- a region is listed in ascending order
  rw [hb] at hblocks hbnd
  rw [hb'] at hblocks hbnd'
  rw [he] at hedges hend
  rw [he'] at hedges hend'
  refine ⟨r', hr', h.agreeOn.cost_longestPath_eq (fun _ => trivial) h.valid h.valid' hr hr', ?_, ?_⟩
  · rw [hb, hb']
    exact linear_uids.sortBy_eq_of_mem_iff hbnd' hbnd fun u => hblocks u trivial
  · rw [he, he']
    exact linear_edgeIds.sortBy_eq_of_mem_iff hend' hend fun id => hedges id trivial

theorem countPaths (h : Reordered g g') (src dst : Int) :
    EndAlike (fun n n' => n' = n) (g.countPaths src dst) (g'.countPaths src dst) := by
  refine .of_forall_ok (fun n hn => ?_) fun n' hn' =>
    h.valid.countPaths_isOk_iff.mpr (h.symm.connects (h.valid'.countPaths_isOk_iff.mp ⟨n', hn'⟩))
  obtain ⟨n', hn'⟩ :=
    h.valid'.countPaths_isOk_iff.mpr (h.connects (h.valid.countPaths_isOk_iff.mp ⟨n, hn⟩))
  exact ⟨n', hn', h.agreeOn.countPaths_eq h.valid h.valid' trivial hn hn'⟩

/-- The statistics of the two graphs are the same. -/
theorem summary (h : Reordered g g') :
    EndAlike (fun s s' : Summary => s'.longest.cost = s.longest.cost ∧ s'.paths = s.paths)
      g.summary g'.summary := by
  unfold Graph.summary longestSyntacticPath
  rw [h.start, h.stop]
  rcases (h.longestPath g.start g.stop).results with ⟨v, v', hr, hr'⟩ | ⟨r, r', hr, hr', hsame⟩
  · rw [hr, hr']
    exact .error _ _
  rw [hr, hr']
  rcases (h.countPaths g.start g.stop).results with ⟨v, v', hn, hn'⟩ | ⟨n, n', hn, hn', hcount⟩
  · simp only [hn, hn']
    exact .error _ _
  · simp only [hn, hn']
    exact .ok ⟨hsame.cost, hcount⟩

end Query

/-! ### Requests -/

/-- Registering what a query returns keeps graphs reordered. -/
theorem register (h : Reordered g g') {id : CutId} {r r' : LongestPath}
    (hr : g.longestPath id.head id.tail = .ok r) (hr' : g'.longestPath id.head id.tail = .ok r')
    (hsame : r.SameCut r') : EndAlike Reordered (g.register id r) (g'.register id r') := by
  rw [Graph.register, Graph.register, h.cut?_eq]
  split
  · exact .ok h
  · rw [(h.valid.ofLongestPath_eq_ok hr).1, (h.valid'.ofLongestPath_eq_ok hr').1]
    exact .ok (h.withCut hsame)

/-- What adding one cut leaves behind. -/
theorem flagCut (h : Reordered g g') (id : CutId) :
    Reordered (g.flagCut id).1 (g'.flagCut id).1 ∧ (g'.flagCut id).2.1 = (g.flagCut id).2.1 ∧
      (g'.flagCut id).2.2.isNone = (g.flagCut id).2.2.isNone := by
  rw [Graph.flagCut, Graph.flagCut, h.cut?_eq]
  split
  · exact ⟨h, rfl, rfl⟩
  rcases (h.longestPath id.head id.tail).results with ⟨v, v', hr, hr'⟩ | ⟨r, r', hr, hr', hsame⟩
  · rw [hr, hr']
    exact ⟨h, rfl, rfl⟩
  · rw [hr, hr']
    rcases (h.register hr hr' hsame).results with ⟨v, v', hs, hs'⟩ | ⟨g₁, g₁', hs, hs', h₁⟩
    · simp only [hs, hs']
      exact ⟨h, trivial, rfl⟩
    · simp only [hs, hs']
      exact ⟨h₁, trivial, trivial⟩

theorem addCut (h : Reordered g g') (id : CutId) :
    EndAlike (fun s s' : Graph × Bool => Reordered s.1 s'.1 ∧ s'.2 = s.2) (g.addCut id)
      (g'.addCut id) := by
  obtain ⟨hgraph, hnew, hnone⟩ := h.flagCut id
  rw [addCut_eq_flagCut, addCut_eq_flagCut]
  rcases hf : g.flagCut id with ⟨g₁, new, _ | v⟩ <;>
    rcases hf' : g'.flagCut id with ⟨g₁', new', _ | v'⟩ <;> rw [hf, hf'] at hgraph hnew hnone
  · exact .ok ⟨hgraph, hnew⟩
  · simp at hnone
  · simp at hnone
  · exact .error _ _

/-- **Runs over candidates** add as many cuts, and both get to their end or both stop. -/
theorem addCuts (origin : CutOrigin) (ids : List CutId) (run run' : CutRun)
    (h : Reordered run.graph run'.graph) (hadded : run'.added = run.added)
    (hfailure : run'.failure.isNone = run.failure.isNone) :
    Reordered (addCuts origin run ids).graph (Graph.addCuts origin run' ids).graph ∧
      (Graph.addCuts origin run' ids).added = (Graph.addCuts origin run ids).added ∧
      (Graph.addCuts origin run' ids).failure.isNone =
        (Graph.addCuts origin run ids).failure.isNone := by
  induction ids generalizing run run' with
  | nil => exact ⟨h, hadded, hfailure⟩
  | cons id ids ih =>
    rw [Graph.addCuts, Graph.addCuts]
    rcases (h.addCut id).results with ⟨v, v', hr, hr'⟩ | ⟨⟨g₁, n⟩, ⟨g₁', n'⟩, hr, hr', h₁, hn⟩
    · simp only [hr, hr']
      exact ⟨h, hadded, rfl⟩
    · simp only [hr, hr']
      dsimp only at hn
      exact ih _ _ h₁ (by rw [hadded, hn]) hfailure

theorem addGlobalCut (h : Reordered g g') :
    EndAlike (fun s s' : Graph × LongestPath => Reordered s.1 s'.1 ∧ s.2.SameCut s'.2)
      g.addGlobalCut g'.addGlobalCut := by
  unfold Graph.addGlobalCut longestSyntacticPath
  rw [h.start, h.stop]
  refine (h.longestPath g.start g.stop).bind fun r r' hr hr' hsame => ?_
  have hregister : EndAlike Reordered (g.register ⟨g.start, g.stop⟩ r)
      (g'.register ⟨g.start, g.stop⟩ r') := h.register hr hr' hsame
  exact hregister.bind fun g₁ g₁' _ _ h₁ => .ok ⟨h₁, hsame⟩

/-- **Emitting ends alike**, whatever the problems hold, with the same statistics. -/
theorem emit_result (h : Reordered g g') (p p' : Problem) (code : Int) (impliesEnds : Bool) :
    EndAlike (fun s s' => s' = s) (g.emit p code impliesEnds).2
      (g'.emit p' code impliesEnds).2 := by
  unfold emit
  rcases Encoding.ofCode? code with _ | encoding
  · exact .error _ _
  rw [h.blockOrFail_eq, h.start, h.stop]
  rcases g.blockOrFail g.start with v | start
  · exact .error _ _
  rcases g.blockOrFail g.stop with v | stop
  · exact .error _ _
  rcases h.summary.results with ⟨e, e', hs, hs'⟩ | ⟨⟨r, n⟩, ⟨r', n'⟩, hs, hs', hcost, hn⟩
  · simp only [hs, hs']
    exact .error _ _
  · simp only [hs, hs']
    dsimp only at hcost hn
    exact .ok (by rw [h.cuts, hcost, hn])

end Reordered

/-- Answers that agree in all but the violations, the path of a query and the emitted problem. -/
inductive AnswersAlike : Answer → Answer → Prop
  | cut {new : Bool} {f f' : Option Violation} (h : f'.isNone = f.isNone) :
      AnswersAlike (.cut new f) (.cut new f')
  | cuts {added : Nat} {f f' : Option CutFailure} (h : f'.isNone = f.isNone) :
      AnswersAlike (.cuts added f) (.cuts added f')
  | path {x x' : Except Violation LongestPath} (h : EndAlike LongestPath.SameCut x x') :
      AnswersAlike (.path x) (.path x')
  | points (x : Except Violation (List Int)) : AnswersAlike (.points x) (.points x)
  | generations (x : Except Violation (List Generation)) :
      AnswersAlike (.generations x) (.generations x)
  | emitted (p p' : Problem) {x x' : Except EmitError EmitStats}
      (h : EndAlike (fun s s' => s' = s) x x') : AnswersAlike (.emitted p x) (.emitted p' x')

/-- **One request**: both graphs stay reordered, with the same cuts, and the answers agree. -/
theorem Reordered.answer {g g' : Graph} (h : Reordered g g') (q : Request) :
    Reordered (g.answer q).1 (g'.answer q).1 ∧ AnswersAlike (g.answer q).2 (g'.answer q).2 := by
  cases q with
  | cut id =>
    obtain ⟨hgraph, hnew, hnone⟩ := h.flagCut id
    refine ⟨hgraph, ?_⟩
    simp only [Graph.answer, hnew]
    exact .cut hnone
  | dominatorCuts =>
    obtain ⟨hgraph, hadded, hnone⟩ :=
      Reordered.addCuts .dominator g.dominatorCandidates { graph := g } { graph := g' } h rfl rfl
    simp only [Graph.answer, addDominatorCuts, h.dominatorCandidates_eq, hadded]
    exact ⟨hgraph, .cuts hnone⟩
  | semanticCuts generations =>
    obtain ⟨hgraph, hadded, hnone⟩ :=
      Reordered.addCuts .semantic generations.flatten { graph := g } { graph := g' } h rfl rfl
    simp only [Graph.answer, addSemanticCuts, hadded]
    exact ⟨hgraph, .cuts hnone⟩
  | syntacticPath register =>
    cases register with
    | false =>
      simp only [Graph.answer, longestSyntacticPath, h.start, h.stop]
      exact ⟨h, .path (h.longestPath _ _)⟩
    | true =>
      rcases h.addGlobalCut.results with ⟨v, v', hr, hr'⟩ | ⟨s, s', hr, hr', hgraph, hsame⟩
      · simp only [Graph.answer, hr, hr']
        exact ⟨h, .path (.error _ _)⟩
      · simp only [Graph.answer, hr, hr']
        exact ⟨hgraph, .path (.ok hsame)⟩
  | mergePoints =>
    simp only [Graph.answer, h.mergePoints_eq]
    exact ⟨h, .points _⟩
  | recursiveCuts =>
    simp only [Graph.answer, h.recursiveCuts_eq]
    exact ⟨h, .generations _⟩
  | emit p code impliesEnds => exact ⟨h, .emitted _ _ (h.emit_result p p code impliesEnds)⟩

/-- **Runs over requests** end with the same cuts, and their answers agree one by one. -/
theorem Reordered.serve {g g' : Graph} (h : Reordered g g') (qs : List Request) :
    Reordered (g.serve qs).1 (g'.serve qs).1 ∧
      List.Forall₂ AnswersAlike (g.serve qs).2 (g'.serve qs).2 := by
  induction qs generalizing g g' with
  | nil => exact ⟨h, .nil⟩
  | cons q qs ih =>
    obtain ⟨hgraph, hanswer⟩ := h.answer q
    obtain ⟨hrest, hanswers⟩ := ih hgraph
    exact ⟨hrest, .cons hanswer hanswers⟩

end Graph

end WorstCase
