import WorstCase.Proofs.Encoding.DifferenceTerms
import WorstCase.Proofs.Graph.Arrival

/-!
# Difference logic is tight

In difference logic the cost variable of a block stands for what has been spent on arrival there,
and constraints bound by how much it may exceed those of other blocks.

* **Sound**: with the arrival costs of a simple path, and 0 off the path, all constraints hold. An
  executed block is entered along an edge of the path, which makes one of its bounds true; the
  constraints of cuts hold since a path meets the tail after the head or not at all.
* **Tight**: where the selectors of the edges of a path are true, the bounds of the edges add up
  along the path, so that the cost variable of the end is at most the cost of the path, whatever
  the model does elsewhere.
-/

namespace WorstCase

namespace Encoding.Difference

variable {g : Graph} {m : Model} {p : List Int} {impliesEnds : Bool}

/-! ### Paths are models -/

/-- The cost variables on a path: what has been spent on arrival. -/
def arrivalPrices (g : Graph) (p : List Int) : Graph.Prices where
  block b := Int64.ofInt (g.arrivalCost p b.uid)
  edge _ := 0
  objective := 0
  cut _ := 0

section Model

variable (hg : g.Valid) (hr : g.Regular) (hnd : p.Nodup) (hsel : g.Selects p m)
  (hm : (arrivalPrices g p).Given g m)

include hg hr hnd in
theorem toInt_arrivalPrice (b : Block) :
    ((arrivalPrices g p).block b).toInt = g.arrivalCost p b.uid ∧
      (g.arrivalCost p b.uid).natAbs < 2 ^ 62 := by
  have hlow : 0 ≤ g.arrivalCost p b.uid := hr.nonneg.arrivalCost p b.uid
  have hhigh : g.arrivalCost p b.uid ≤ g.costMass := hg.arrivalCost_le hnd b.uid
  have hmass := hr.costMass_lt
  exact ⟨toInt_ofInt_of_natAbs_lt (by omega), by omega⟩

include hg hr hnd hm in
/-- Bounds on differences speak about arrival costs. -/
theorem eval_costBound {a b : Block} (ha : a ∈ g.blocks) (hb : b ∈ g.blocks) (n : Int64) :
    (Term.le (.diff b.costTerm a.costTerm) (.int n)).eval m =
      .ok (.bool (decide (g.arrivalCost p b.uid - g.arrivalCost p a.uid ≤ n.toInt))) := by
  obtain ⟨hav, halt⟩ := toInt_arrivalPrice hg hr hnd a
  obtain ⟨hbv, hblt⟩ := toInt_arrivalPrice hg hr hnd b
  have hdiff : (Term.diff b.costTerm a.costTerm).eval m =
      .ok (.num ((arrivalPrices g p).block b - (arrivalPrices g p).block a)) :=
    Term.eval_diff_eq_ok_iff.mpr ⟨_, _, Term.eval_var_eq_ok_iff.mpr (hm.block b hb),
      Term.eval_var_eq_ok_iff.mpr (hm.block a ha), rfl⟩
  rw [Term.eval_le hdiff (Term.eval_int n)]
  have hsub := Graph.toInt_sub_of_natAbs_lt (by rw [hbv]; exact hblt) (by rw [hav]; exact halt)
  simp only [Int64.le_iff_toInt_le, hsub, hav, hbv]

include hg hr hnd in
theorem arrivalCost_entry (hp : g.Walk g.start p g.stop) {b : Block} (hb : b ∈ g.blocks)
    (hpreds : g.preds b.uid = []) : g.arrivalCost p b.uid ≤ b.cost.toInt := by
  by_cases hmem : b.uid ∈ p
  · rcases hp.eq_or_exists_mem_pathEdges hmem with hstart | ⟨y, hy⟩
    · obtain ⟨q, rfl⟩ := hp.exists_cons
      rw [← hg.blockCost_uid hb, hstart]
      exact (Graph.arrivalCost_head hnd).le
    · -- a block that is entered has a predecessor
      have hpred := Graph.mem_preds_iff.mpr (hp.arc_of_mem_pathEdges hy)
      rw [hpreds] at hpred
      simp at hpred
  · rw [Graph.arrivalCost_of_notMem hmem]
    exact hr.nonneg.block b hb

include hg hr hnd hm in
/-- The bound that an edge of the path gives is reached. -/
theorem bound_holds {e : Edge} {src dst : Block} (he : e ∈ g.edges)
    (hsrc : g.block? e.id.src = some src) (hdst : g.block? e.id.dst = some dst)
    (hmem : e.id ∈ pathEdges p) {n : Int64} (hn : n.toInt = e.cost.toInt + dst.cost.toInt) :
    (Term.le (.diff dst.costTerm src.costTerm) (.int n)).eval m = .ok (.bool true) := by
  rw [eval_costBound hg hr hnd hm (Graph.mem_of_block? hsrc) (Graph.mem_of_block? hdst),
    decide_eq_true]
  rw [Graph.uid_of_block? hsrc, Graph.uid_of_block? hdst,
    Graph.arrivalCost_of_mem_pathEdges hnd hmem, hg.edgeCost_id he,
    Graph.blockCost_of_block? hdst, hn]
  omega

include hg hr hnd hsel hm in
theorem block_holds (hp : g.Walk g.start p g.stop) (hstart : g.preds g.start = []) {b : Block}
    (hb : b ∈ g.blocks) (hbounds : (g.preds b.uid).filterMap (bound g b) ≠ []) :
    (Term.imply b.chosen (.disj ((g.preds b.uid).filterMap (bound g b)))).eval m =
      .ok (.bool true) := by
  rw [Term.eval_imply_iff, hsel.eval_chosen hb]
  by_cases hmem : b.uid ∈ p
  · refine .inr ⟨by rw [decide_eq_true hmem], Term.eval_disj_iff.mpr ⟨fun t ht => ?_, ?_⟩⟩
    · obtain ⟨pred, n, hpred, rfl⟩ := mem_bounds ht
      exact ⟨_, eval_costBound hg hr hnd hm hpred hb n⟩
    · -- the predecessor on the path
      rcases hp.eq_or_exists_mem_pathEdges hmem with heq | ⟨y, hy⟩
      · rw [heq, hstart] at hbounds
        exact absurd rfl hbounds
      · have harc := hp.arc_of_mem_pathEdges hy
        obtain ⟨e, hedge, he, hid⟩ := hg.exists_edge harc
        obtain ⟨pred, hpred⟩ := hg.exists_block_src he
        rw [hid] at hpred
        have hdst : g.block? e.id.dst = some b := by
          rw [hid]
          exact hg.block?_eq_some_iff.mpr ⟨hb, rfl⟩
        refine ⟨_, List.mem_filterMap.mpr ⟨y, Graph.mem_preds_iff.mpr harc, bound_eq hpred⟩, ?_⟩
        refine bound_holds hg hr hnd hm he (by rw [hid]; exact hpred) hdst (hid ▸ hy) ?_
        rw [hedge, Option.map_some, Option.getD_some, Int64.add_comm,
          hr.toInt_add_cost he hb]
  · exact .inl (by rw [decide_eq_false hmem])

include hg hr hnd hm in
/-- **No cut is exceeded on a path**, whether it meets the ends of the cut or not. -/
theorem cut_holds (hcuts : g.CutsCurrent) (hp : g.Walk g.start p g.stop) {c : Cut}
    (hc : c ∈ g.cuts) {head tail : Block} (hhead : g.block? c.id.head = some head)
    (htail : g.block? c.id.tail = some tail) :
    (Term.le (.diff tail.costTerm head.costTerm) (.int (c.cost + tail.cost))).eval m =
      .ok (.bool true) := by
  have hmass : g.costMass < 2 ^ 63 := hr.costMass_lt.trans (by decide)
  obtain ⟨r, hquery, hcost, -, -⟩ := hcuts.query c hc
  have hsub := hg.arrivalCost_sub_le hmass hr.nonneg hquery (hr.reaches hhead) hp hnd
  obtain ⟨-, hrnd, hrcost⟩ := hg.longestPath_walk hmass hquery
  have hrmass := hg.natAbs_pathCost_le hrnd
  have htailMass := Graph.natAbs_blockCost_le_costMass (Graph.mem_of_block? htail)
  -- the bound is the sum of two costs below `2 ^ 62`
  have hadd : (c.cost + tail.cost).toInt = c.cost.toInt + tail.cost.toInt := by
    refine Graph.toInt_add_of_natAbs_lt ?_ (htailMass.trans_lt hr.costMass_lt)
    rw [hcost, hrcost]
    exact hrmass.trans_lt hr.costMass_lt
  have htailCost := hr.nonneg.block tail (Graph.mem_of_block? htail)
  rw [eval_costBound hg hr hnd hm (Graph.mem_of_block? hhead) (Graph.mem_of_block? htail),
    decide_eq_true]
  rw [Graph.uid_of_block? hhead, Graph.uid_of_block? htail, hadd, hcost]
  omega

include hg hr hnd hsel hm in
/-- **The arrival costs of a path satisfy every constraint.** -/
theorem stated_holds (hcuts : g.CutsCurrent) (hp : g.Walk g.start p g.stop)
    (hpreds : g.preds g.start = []) {start stop : Block} (hs : g.block? g.start = some start)
    (ht : g.block? g.stop = some stop) {r : LongestPath}
    (hquery : g.longestPath g.start g.stop = .ok r) {t : Term}
    (h : Stated impliesEnds g start stop r.cost t) : t.eval m = .ok (.bool true) := by
  cases h with
  | @entry b hb hnone =>
    refine Term.eval_le_iff.mpr
      ⟨_, _, Term.eval_var_eq_ok_iff.mpr (hm.block b hb), Term.eval_int _, ?_⟩
    rw [Int64.le_iff_toInt_le, (toInt_arrivalPrice hg hr hnd b).1]
    exact arrivalCost_entry hg hr hnd hp hb hnone
  | block hb hbounds => exact block_holds hg hr hnd hsel hm hp hpreds hb hbounds
  | @edge e src dst he hsrc hdst =>
    rw [edgeBound, Term.eval_imply_iff, hsel.eval_taken he]
    by_cases hmem : e.id ∈ pathEdges p
    · refine .inr ⟨by rw [decide_eq_true hmem], ?_⟩
      exact bound_holds hg hr hnd hm he hsrc hdst hmem
        (hr.toInt_add_cost he (Graph.mem_of_block? hdst))
    · exact .inl (by rw [decide_eq_false hmem])
  | @ends e src dst he hsrc hdst =>
    simp only [edgeEnds, Term.eval_conj_iff, List.forall_mem_cons, Term.eval_imply_iff,
      hsel.eval_taken he, hsel.eval_chosen (Graph.mem_of_block? hsrc),
      hsel.eval_chosen (Graph.mem_of_block? hdst), Graph.uid_of_block? hsrc,
      Graph.uid_of_block? hdst]
    by_cases hmem : e.id ∈ pathEdges p
    · have hsrcMem : e.id.src ∈ p := src_mem_of_mem_pathEdges hmem
      have hdstMem : e.id.dst ∈ p := by
        obtain ⟨q, rfl⟩ := hp.exists_cons
        exact List.mem_cons_of_mem _ (dst_mem_of_mem_pathEdges hmem)
      simp [hmem, hsrcMem, hdstMem]
    · simp [hmem]
  | cut hc hhead htail => exact cut_holds hg hr hnd hm hcuts hp hc hhead htail
  | chosen => exact hsel.eval_ends hp hs ht
  | objective =>
    refine hr.eval_objectiveBounds hg hp hnd hquery
      (Term.eval_var_eq_ok_iff.mpr (hm.block stop (Graph.mem_of_block? ht))) ?_
    rw [(toInt_arrivalPrice hg hr hnd stop).1, Graph.uid_of_block? ht, hp.arrivalCost_last hnd]

end Model

/-! ### Bounds add up along a path -/

/-- No difference of the cost variables of adjacent blocks overflows 64 bits. -/
def NoOverflow (g : Graph) (m : Model) : Prop :=
  ∀ a ∈ g.blocks, ∀ b ∈ g.blocks, g.Arc a.uid b.uid → ∀ x y : Int64,
    m a.costName = some (.num x) → m b.costName = some (.num y) →
    (y - x).toInt = y.toInt - x.toInt

/-- A taken edge bounds the cost variable of its destination. -/
theorem le_of_edgeBound (hr : g.Regular) (hover : NoOverflow g m) {e : Edge} {src dst : Block}
    (he : e ∈ g.edges) (hsrc : g.block? e.id.src = some src) (hdst : g.block? e.id.dst = some dst)
    (htaken : m e.selector = some (.bool true))
    (h : (edgeBound e src dst).eval m = .ok (.bool true)) :
    ∃ x y : Int64, m src.costName = some (.num x) ∧ m dst.costName = some (.num y) ∧
      y.toInt ≤ x.toInt + e.cost.toInt + dst.cost.toInt := by
  rw [edgeBound, Term.eval_imply_iff, Edge.chosen, Term.eval_var_eq_ok_iff.mpr htaken] at h
  obtain ⟨-, hbound⟩ := h.resolve_left (by simp)
  obtain ⟨y, x, hy, hx, hle⟩ := Term.eval_diff_le_iff.mp hbound
  have harc : g.Arc src.uid dst.uid := by
    rw [Graph.uid_of_block? hsrc, Graph.uid_of_block? hdst]
    exact List.mem_map.mpr ⟨e, he, rfl⟩
  rw [Int64.le_iff_toInt_le, hr.toInt_add_cost he (Graph.mem_of_block? hdst),
    hover src (Graph.mem_of_block? hsrc) dst (Graph.mem_of_block? hdst) harc x y hx hy] at hle
  exact ⟨x, y, hx, hy, by omega⟩

/-- **Telescoping**: if all edges of a walk are taken, the cost variable of its last block exceeds
that of its first at most by what is spent in between. -/
theorem le_of_walk (hg : g.Valid) (hr : g.Regular) (hover : NoOverflow g m)
    (hbounds : ∀ e ∈ g.edges, ∀ src dst, g.block? e.id.src = some src →
      g.block? e.id.dst = some dst → (edgeBound e src dst).eval m = .ok (.bool true))
    {a c : Int} (hp : g.Walk a p c)
    (htaken : ∀ e ∈ g.edges, e.id ∈ pathEdges p → m e.selector = some (.bool true))
    {first last : Block} (hfirst : g.block? a = some first) (hlast : g.block? c = some last)
    {x : Int64} (hx : m first.costName = some (.num x)) :
    ∃ y : Int64, m last.costName = some (.num y) ∧
      y.toInt ≤ x.toInt - g.blockCost a + g.pathCost p := by
  induction hp generalizing first x with
  | single a =>
    obtain rfl := Option.some_inj.mp (hfirst.symm.trans hlast)
    refine ⟨x, hx, ?_⟩
    rw [Graph.pathCost_singleton]
    omega
  | @step a b c p hab hp ih =>
    obtain ⟨q, rfl⟩ := hp.exists_cons
    obtain ⟨e, hedge, he, hid⟩ := hg.exists_edge hab
    obtain ⟨src, hsrc⟩ := hg.exists_block_src he
    obtain ⟨dst, hdst⟩ := hg.exists_block_dst he
    -- one bound for the first edge, the others by induction from its destination
    have he_taken := htaken e he (by rw [hid]; exact List.mem_cons_self)
    obtain ⟨x', y, hx', hy, hle⟩ := le_of_edgeBound hr hover he hsrc hdst he_taken
      (hbounds e he src dst hsrc hdst)
    rw [hid] at hsrc hdst
    obtain rfl := Option.some_inj.mp (hfirst.symm.trans hsrc)
    obtain rfl : x = x' := by simpa using hx.symm.trans hx'
    obtain ⟨z, hz, hzle⟩ := ih
      (fun e he hmem => htaken e he (List.mem_cons_of_mem _ hmem)) hdst hlast hy
    refine ⟨z, hz, ?_⟩
    rw [Graph.pathCost_cons_cons, Graph.edgeCost_of_edge? hedge]
    rw [Graph.blockCost_of_block? hdst] at hzle
    omega

theorem states_of_emit {q : Problem} {stats : EmitStats}
    (h : g.emit {} Encoding.differenceLogic.code impliesEnds = (q, .ok stats)) :
    ∃ start stop r, g.block? g.start = some start ∧ g.block? g.stop = some stop ∧
      g.longestPath g.start g.stop = .ok r ∧ q.objectives.map (·.term) = [stop.costTerm] ∧
      q.States (terms impliesEnds g start stop r.cost) :=
  Graph.states_of_emit h (fun _ => rfl) (fun stop => asserts_entities impliesEnds g stop {})
    (asserts_cut g)

end Encoding.Difference

namespace Encoding

open Difference in
/-- **Difference logic is sound and tight on paths, cuts included.** The objective is the cost
variable of the end. For every simple path from the start to the end, its selection extends to a
model of the problem in which the objective is the cost of the path; and in every model of the
problem in which the edges of the path are taken, and no difference overflows, the objective is at
most the cost of the path. -/
theorem differenceLogic_tight {g : Graph} (hg : g.Annotated) (hr : g.Regular)
    (hpreds : g.preds g.start = []) {impliesEnds : Bool} {q : Problem} {stats : EmitStats}
    (hq : g.emit {} Encoding.differenceLogic.code impliesEnds = (q, .ok stats)) {p : List Int}
    (hp : g.Walk g.start p g.stop) (hnd : p.Nodup) :
    ∃ stop, g.block? g.stop = some stop ∧ q.objectives.map (·.term) = [stop.costTerm] ∧
      (∃ m : Model, g.Selects p m ∧ (∀ t ∈ q.assertedTerms, t.holds m = .ok true) ∧
        ∃ n, m stop.costName = some (.num n) ∧ n.toInt = g.pathCost p) ∧
      ∀ m : Model, (∀ t ∈ q.assertedTerms, t.holds m = .ok true) →
        (∀ e ∈ g.edges, e.id ∈ pathEdges p → m e.selector = some (.bool true)) →
        NoOverflow g m →
        ∃ n, m stop.costName = some (.num n) ∧ n.toInt ≤ g.pathCost p := by
  have hvalid := hg.built.valid
  have hcuts := hg.cutsCurrent
  obtain ⟨start, stop, r, hs, ht, hquery, hobjective, hstates⟩ := Difference.states_of_emit hq
  simp only [Term.holds_eq_ok_iff]
  refine ⟨stop, ht, hobjective, ?_, ?_⟩
  · obtain ⟨m, hsel, hm⟩ := hr.exists_model hvalid hcuts.ids_nodup p (arrivalPrices g p)
    refine ⟨m, hsel, fun t htm => ?_, _, hm.block stop (Graph.mem_of_block? ht), ?_⟩
    · exact stated_holds hvalid hr hnd hsel hm hcuts hp hpreds hs ht hquery
        (stated_of_mem_terms hvalid hcuts.ids_nodup (hstates.mem t htm))
    · rw [(toInt_arrivalPrice hvalid hr hnd stop).1, Graph.uid_of_block? ht,
        hp.arrivalCost_last hnd]
  · intro m hholds htaken hover
    have hstartMem := Graph.mem_of_block? hs
    -- the start costs at most what it costs
    have hentry := hholds _ (entryBound_mem_assertedTerms hvalid hcuts.ids_nodup hstates hstartMem
      (by rw [Graph.uid_of_block? hs, hpreds]))
    obtain ⟨x, n, hx, hn, hle⟩ := Term.eval_le_iff.mp hentry
    obtain rfl : start.cost = n := by simpa using hn
    obtain ⟨y, hy, hyle⟩ := le_of_walk hvalid hr hover
      (fun e he src dst hsrc hdst => hholds _
        (edgeBound_mem_assertedTerms hvalid hr hcuts.ids_nodup hstates he hsrc hdst))
      hp htaken hs ht (Term.eval_var_eq_ok_iff.mp hx)
    refine ⟨y, hy, hyle.trans ?_⟩
    rw [Int64.le_iff_toInt_le] at hle
    rw [Graph.blockCost_of_block? hs]
    omega

/-- Again the path that leaves the regions of two cuts midway; here edges imply their ends. -/
theorem differenceLogic_tight_bypassCut :
    let q := (Graph.bypassCut.emit {} Encoding.differenceLogic.code true).1
    Graph.bypassCut.Walk 0 [0, 1, 2, 5] 5 ∧
      ∃ stop, Graph.bypassCut.block? 5 = some stop ∧
        q.objectives.map (·.term) = [stop.costTerm] ∧
        (∃ m : Model, Graph.bypassCut.Selects [0, 1, 2, 5] m ∧
          (∀ t ∈ q.assertedTerms, t.holds m = .ok true) ∧
          ∃ n, m stop.costName = some (.num n) ∧ n.toInt = 18) ∧
        ∀ m : Model, (∀ t ∈ q.assertedTerms, t.holds m = .ok true) →
          (∀ e ∈ Graph.bypassCut.edges, e.id ∈ pathEdges [0, 1, 2, 5] →
            m e.selector = some (.bool true)) →
          Difference.NoOverflow Graph.bypassCut m →
          ∃ n, m stop.costName = some (.num n) ∧ n.toInt ≤ 18 := by
  have hemit : (Graph.bypassCut.emit {} Encoding.differenceLogic.code true).2 =
      .ok { encoding := .differenceLogic, paths := 3, cuts := 3, longest := 21 } := by
    decide
  have htight := differenceLogic_tight Graph.bypassCut_annotated Graph.bypassCut_regular
    (by decide) (Prod.ext rfl hemit) Graph.bypassCut_walk (by decide)
  rw [Graph.bypassCut_pathCost] at htight
  exact ⟨Graph.bypassCut_walk, htight⟩

end Encoding

end WorstCase
