import WorstCase.Proofs.Encoding.Generation
import WorstCase.Proofs.Encoding.IteCosts
import WorstCase.Proofs.Graph.Insertion

/-!
# Unreachable blocks

A block that nothing leads to lies on no path from the start. It is not invisible to generation,
though: it is a predecessor of the blocks that it branches to, and it enters the regions of cuts.
This module compares generation from a listing before and after a record for such a block is
inserted (`Encoding.generation_of_inserted`).

* The block may turn others into blocks with several predecessors, which have to be cut from their
  declared dominators. Generation still succeeds iff the queries for all cuts succeed without the
  block, and the block bypasses no head. A block that bypasses a head stops generation although
  nothing leads to it.
* If it succeeds, the longest path and the number of paths are the same.
* A path that the problem **admits** is still admitted, at its cost, if blocks without dominator are
  the start or cost nothing. The cuts that are there before keep their costs, and what a path meets
  of their regions does not change. Cuts that are new bound paths from the start, provided that
  their heads can be reached from it whenever their tails can.

A block without dominator is taken for a start and counts as executed
(`Encoding.Ite.blockCost_of_holds`). An unreachable block of this kind is charged to every path, so
that no path may be left (`Encoding.path_ruledOut_lineWithOrphan`).
-/

namespace WorstCase

namespace Encoding.Ite

variable {g : Graph} {m : Model} {p : List Int}

/-- **The bound of a cut is asserted.** Other bounds name other cuts, and no other term is printed
like a bound. -/
theorem bound_mem_assertedTerms (hg : g.Valid) (hcuts : (g.cuts.map (·.id)).Nodup)
    {start stop : Block} {longest : Int64} {q : Problem}
    (hq : q.States (terms g start stop longest)) {c : Cut} (hc : c ∈ g.cuts) :
    Term.le (.var c.costName) (.int c.cost) ∈ q.assertedTerms := by
  have hspace : ∀ c ∈ g.cuts, ' ' ∉ c.costName.toList := by
    intro c hc
    have hmem : c.costName ∈ g.generatedNames := by
      simp only [Graph.generatedNames, List.mem_append, List.mem_cons]
      exact .inr (.inr (.inr (.inr (List.mem_map_of_mem hc))))
    exact Graph.space_notMem_of_mem_generatedNames hmem
  obtain ⟨u, hu, huterms, hrender⟩ :=
    hq.exists_mem _ ((mem_terms_iff hg hcuts).mpr (.inr (.inl ⟨c, hc, rfl⟩)))
  rcases (mem_terms_iff hg hcuts).mp huterms with ⟨d, -, rfl⟩ | ⟨c', hc', rfl⟩ | hclosing
  · exact absurd (Term.render_pair_inj hrender).1 (by decide)
  · obtain ⟨-, hargs⟩ := Term.render_pair_inj hrender
    simp only [Term.render] at hargs
    have hname := (append_cons_inj (hspace c' hc') (hspace c hc) hargs).1
    have hsame : c' = c := List.inj_on_of_nodup_map hcuts hc' hc
      (Cut.id_eq_of_costName (String.toList_inj.mp hname))
    rwa [← hsame]
  · simp only [Graph.closingTerms, List.mem_cons, List.not_mem_nil, or_false] at hclosing
    rcases hclosing with rfl | rfl
    · exact absurd (Term.render_pair_inj hrender).1 (by decide)
    · exact absurd (Term.render_pair_inj hrender).1 (by decide)

/-- **What counts as executed is charged**: selected blocks, and blocks without dominator. -/
theorem blockCost_of_holds (hsel : g.Selects p m)
    (h : ∀ d ∈ definitions g, (Term.equal (.var d.1) d.2).eval m = .ok (.bool true)) {b : Block}
    (hb : b ∈ g.blocks) (hcounts : b.dominator < 0 ∨ b.uid ∈ p) :
    m b.costName = some (.num b.cost) := by
  have hcost : (blockValue b).eval m = .ok (.num b.cost) := by
    unfold blockValue
    split
    · rw [Term.eval_int]
    · rename_i hchosen
      rw [Bool.or_eq_true, not_or, Block.isStart, decide_eq_true_eq] at hchosen
      have hmem : b.uid ∈ p := hcounts.resolve_left hchosen.1
      rw [Block.chosen, eval_chosenCost (hsel.block b hb)]
      simp [hmem]
  simp only [definitions, List.mem_append, List.mem_cons, List.mem_map] at h
  obtain ⟨v, hvar, hvalue⟩ := Term.eval_equal_iff.mp (h _ (.inl ⟨b, hb, rfl⟩))
  rw [hcost] at hvalue
  rw [← hvalue] at hvar
  exact Term.eval_var_eq_ok_iff.mp hvar

section Selected

variable (hg : g.Valid) (hcuts : (g.cuts.map (·.id)).Nodup) {impliesEnds : Bool} {q : Problem}
  {stats : EmitStats} (hq : g.emit {} Encoding.iteCosts.code impliesEnds = (q, .ok stats))
  (hholds : ∀ t ∈ q.assertedTerms, t.eval m = .ok (.bool true))

include hg hcuts hq hholds

theorem definitions_hold_of_emit : ∀ d ∈ definitions g,
    (Term.equal (.var d.1) d.2).eval m = .ok (.bool true) := by
  obtain ⟨_, _, _, -, -, -, -, hstates⟩ := states_of_emit hq
  exact fun d hd => hholds _ (mem_assertedTerms_of_mem_definitions hg hcuts hstates hd)

/-- **No cut is exceeded** by what a model charges: the equation of the cut says what its variable
is, the bound that it is not too much. -/
theorem insideCost_le_of_emit (hm : Priced g p m) (hnd : p.Nodup) {c : Cut} (hc : c ∈ g.cuts)
    (hblocks : c.blocks.Nodup) (hedges : c.edges.Nodup) :
    Int64.ofInt (g.insideCost c.blocks c.edges p) ≤ c.cost := by
  obtain ⟨_, _, _, -, -, -, -, hstates⟩ := states_of_emit hq
  have hdef : (c.costName, costSum g c.blocks c.edges) ∈ definitions g := by
    simp only [definitions, List.mem_append, List.mem_cons, List.mem_map]
    exact .inr (.inr (.inr ⟨c, hc, rfl⟩))
  obtain ⟨value, hvar, hvalue⟩ :=
    Term.eval_equal_iff.mp (definitions_hold_of_emit hg hcuts hq hholds _ hdef)
  rw [eval_costSum hm hnd hblocks hedges] at hvalue
  obtain ⟨n, bound, hn, hbound, hle⟩ :=
    Term.eval_le_iff.mp (hholds _ (bound_mem_assertedTerms hg hcuts hstates hc))
  rw [hvar, ← hvalue] at hn
  rw [Term.eval_int] at hbound
  obtain rfl : Int64.ofInt (g.insideCost c.blocks c.edges p) = n := by simpa using hn
  obtain rfl : c.cost = bound := by simpa using hbound
  exact hle

variable (hfree : ∀ b ∈ g.blocks, b.dominator < 0 → b.uid ∈ p ∨ b.cost = 0) (hsel : g.Selects p m)

include hfree hsel

/-- In a model of the problem all equations hold, and they price the selected path. -/
theorem priced_of_emit : (∀ d ∈ definitions g,
    (Term.equal (.var d.1) d.2).eval m = .ok (.bool true)) ∧ Priced g p m := by
  have hdefs := definitions_hold_of_emit hg hcuts hq hholds
  exact ⟨hdefs, priced_of_holds_of_free hfree hsel hdefs⟩

/-- **The objective is the cost of the selected path** in every model, where blocks that count as
executed are on the path or cost nothing. -/
theorem objective_of_holds {c : Int} (hp : g.Walk g.start p c) (hnd : p.Nodup) :
    m objectiveName = some (.num (Int64.ofInt (g.pathCost p))) := by
  obtain ⟨start, _, _, hs, -⟩ := states_of_emit hq
  have hknown : g.start ∈ g.blocks.map (·.uid) := Graph.known_of_block? hs
  obtain ⟨hdefs, hm⟩ := priced_of_emit hg hcuts hq hholds hfree hsel
  obtain ⟨v, hvar, hvalue⟩ := Term.eval_equal_iff.mp
    (hdefs (objectiveName, costSum g g.uids g.edgeIds) (by simp [definitions]))
  rw [eval_objective hg hknown hp hnd hm] at hvalue
  rw [← hvalue] at hvar
  exact Term.eval_var_eq_ok_iff.mp hvar

end Selected

end Encoding.Ite

namespace Graph

/-- A problem **admits** a path if the selection of the path extends to a model. -/
def Admits (g : Graph) (q : Problem) (p : List Int) : Prop :=
  ∃ m : Model, g.Selects p m ∧ ∀ t ∈ q.assertedTerms, t.holds m = .ok true

/-- Blocks without dominator are the start or cost nothing. -/
def OnlyStartFree (g : Graph) : Prop :=
  ∀ b ∈ g.blocks, b.dominator < 0 → b.uid = g.start ∨ b.cost = 0

variable {g g' : Graph} {x : Block} {p : List Int}

theorem OnlyStartFree.free (h : g.OnlyStartFree) {c : Int} (hp : g.Walk g.start p c) :
    ∀ b ∈ g.blocks, b.dominator < 0 → b.uid ∈ p ∨ b.cost = 0 := by
  intro b hb hneg
  rcases h b hb hneg with heq | hzero
  · exact .inl (heq ▸ hp.head_mem)
  · exact .inr hzero

/-- What a path meets of a cut is within its bound if the problem admits the path. -/
theorem Admits.insideCost_le (hg : g.Valid) (hcuts : g.CutsCurrent) (hfree : g.OnlyStartFree)
    {impliesEnds : Bool} {q : Problem} {stats : EmitStats}
    (hq : g.emit {} Encoding.iteCosts.code impliesEnds = (q, .ok stats)) {a : Int}
    (hp : g.Walk g.start p a) (hnd : p.Nodup) (h : g.Admits q p) {c : Cut} (hc : c ∈ g.cuts) :
    Int64.ofInt (g.insideCost c.blocks c.edges p) ≤ c.cost := by
  obtain ⟨m, hsel, hholds⟩ := h
  simp only [Term.holds_eq_ok_iff] at hholds
  obtain ⟨-, hm⟩ :=
    Encoding.Ite.priced_of_emit hg hcuts.ids_nodup hq hholds (hfree.free hp) hsel
  obtain ⟨r, hquery, -, hblocks, hedges⟩ := hcuts.query c hc
  obtain ⟨v, -, hbnd, hend⟩ := hg.isRegion hquery
  exact Encoding.Ite.insideCost_le_of_emit hg hcuts.ids_nodup hq hholds hm hnd hc (hblocks ▸ hbnd)
    (hedges ▸ hend)

/-- What a path from the start meets of a region is within its bound also where the tail of the
region cannot be reached from the start. -/
theorem Valid.insideCost_le_of_imp (hg : g.Valid) (hmass : g.costMass < 2 ^ 63) (hn : g.Nonneg)
    {src dst : Int} {r : LongestPath} (h : g.longestPath src dst = .ok r)
    (hsrc : g.Reaches g.start dst → g.Reaches g.start src) {c : Int} (hp : g.Walk g.start p c)
    (hnd : p.Nodup) : g.insideCost r.blocks r.edges p ≤ r.cost.toInt := by
  by_cases hdst : g.Reaches g.start dst
  · exact hg.insideCost_le hmass hn h (hsrc hdst) hp hnd
  · obtain ⟨v, hregion, -, -⟩ := hg.isRegion h
    obtain ⟨-, -, hcost⟩ := hg.longestPath_walk hmass h
    rw [hregion.insideCost_eq_zero_of_not_reaches hp hdst, hcost]
    exact hn.pathCost r.path

/-! ### Extended graphs -/

namespace Extends

theorem congr (hx : g.Extends g' x) {cut cut' : Graph} (h : SameFlow g cut)
    (h' : SameFlow g' cut') : cut.Extends cut' x where
  valid := h.valid hx.valid
  valid' := h'.valid hx.valid'
  new := by
    rw [h.blocks]
    exact hx.new
  mem_blocks := by
    rw [h.blocks, h'.blocks]
    exact hx.mem_blocks
  mem_edges := by
    rw [h.edges, h'.edges]
    exact hx.mem_edges
  not_arc := by
    unfold Arc
    rw [h'.edges]
    exact hx.not_arc
  start_eq := by rw [h.start, h'.start, hx.start_eq]
  stop_eq := by rw [h.stop, h'.stop, hx.stop_eq]

theorem nonneg (hx : g.Extends g' x) (hn : g'.Nonneg) : g.Nonneg where
  block b hb := hn.block b (hx.mem_blocks.mpr (.inr hb))
  edge e he := by
    have hsrc := hx.ne_of_known (hx.valid.arc_known (List.mem_map_of_mem he)).1
    exact hn.edge e ((hx.mem_edges hsrc).mpr he)

theorem onlyStartFree (hx : g.Extends g' x) (h : g'.OnlyStartFree) : g.OnlyStartFree :=
  fun b hb hneg => hx.start_eq ▸ h b (hx.mem_blocks.mpr (.inr hb)) hneg

/-- A block with predecessors is not new. -/
theorem mem_blocks_of_preds (hx : g.Extends g' x) {b : Block} (hb : b ∈ g'.blocks)
    (hpreds : 0 < (g'.preds b.uid).length) : b ∈ g.blocks := by
  refine (hx.mem_blocks.mp hb).resolve_left ?_
  rintro rfl
  obtain ⟨a, ha⟩ := List.exists_mem_of_length_pos hpreds
  exact hx.not_arc (mem_preds_iff.mp ha)

/-- **A cut can be made in the extended graph** iff it can be made without the new block, and that
does not bypass its head. -/
theorem connects_iff_of_mem_cutCandidates (hx : g.Extends g' x)
    (hdom : ∀ b ∈ g.blocks, b.dominator ≠ noDominator → b.dominator ∈ g.blocks.map (·.uid))
    (hends : g.Connects g.start g.stop) {c : CutId} (hc : c ∈ g'.cutCandidates) :
    g'.Connects c.head c.tail ↔
      g.Connects c.head c.tail ∧ ¬ g'.Bypasses x.uid c.head c.tail := by
  rcases List.mem_append.mp hc with hc | hc
  · obtain ⟨b, hb, hpreds, rfl⟩ := hx.valid'.mem_dominatorCandidates_iff.mp hc
    exact hx.connects_dominator_iff hdom (hx.mem_blocks_of_preds hb (by omega))
  · obtain rfl := List.mem_singleton.mp hc
    simp only [hx.start_eq, hx.stop_eq]
    refine ⟨fun h => ⟨hends, ?_⟩, fun h => hx.connects h.1 h.2⟩
    obtain ⟨-, -, -, hclear, -⟩ := hx.valid'.connects_iff.mp h
    obtain ⟨-, hstart, -, -, hreach⟩ := hx.valid.connects_iff.mp hends
    have hstop := hx.valid.known_of_reaches hstart hreach
    exact ((hx.clear_iff (hx.ne_of_known hstart) (hx.ne_of_known hstop) hreach).mp hclear).2

section Models

variable (hx : g.Extends g' x) (hcuts : g.CutsCurrent) (hcuts' : g'.CutsCurrent)
  (hfree : g'.OnlyStartFree) (hn : g.Nonneg) (hmass : g.costMass < 2 ^ 63)
  (hquery : ∀ id ∈ g'.cuts.map (·.id), ∃ r, g.longestPath id.head id.tail = .ok r)
  (hheads : ∀ id ∈ g'.cuts.map (·.id), id ∉ g.cuts.map (·.id) →
    g.Reaches g.start id.tail → g.Reaches g.start id.head)
  {impliesEnds : Bool} {q : Problem} {stats : EmitStats}
  (hq : g.emit {} Encoding.iteCosts.code impliesEnds = (q, .ok stats))
  (hp : g.Walk g.start p g.stop) (hnd : p.Nodup) (h : g.Admits q p)

include hx hcuts hcuts' hfree hn hmass hquery hheads hq hp hnd h

/-- **No cut of the extended graph is exceeded** by a path that was admitted before. -/
theorem insideCost_le (hxp : x.uid ∉ p) {c : Cut} (hc : c ∈ g'.cuts) :
    Int64.ofInt (g'.insideCost c.blocks c.edges p) ≤ c.cost := by
  obtain ⟨r', hr', hcost', hblocks', hedges'⟩ := hcuts'.query c hc
  obtain ⟨r, hr⟩ := hquery c.id (List.mem_map_of_mem hc)
  have hinside : g'.insideCost c.blocks c.edges p = g.insideCost r.blocks r.edges p := by
    rw [hblocks', hedges', hx.insideCost_eq hr hr' hxp]
  rw [hinside, hcost', hx.cost_longestPath_eq hr hr']
  by_cases hold : c.id ∈ g.cuts.map (·.id)
  · obtain ⟨c₀, hc₀, hid⟩ := List.mem_map.mp hold
    obtain ⟨r₀, hr₀, hcost, hblocks, hedges⟩ := hcuts.query c₀ hc₀
    rw [hid, hr] at hr₀
    obtain rfl := Except.ok.inj hr₀
    rw [← hblocks, ← hedges, ← hcost]
    exact h.insideCost_le hx.valid hcuts (hx.onlyStartFree hfree) hq hp hnd hc₀
  · rw [Int64.le_iff_toInt_le, hx.valid.toInt_insideCost hn hmass hnd]
    have hsrc := hheads c.id (List.mem_map_of_mem hc) hold
    exact hx.valid.insideCost_le_of_imp hmass hn hr hsrc hp hnd

/-- **Paths stay admitted, at their cost.** -/
theorem admits (hd : g'.DistinctSelectors) {q' : Problem} {stats' : EmitStats}
    (hq' : g'.emit {} Encoding.iteCosts.code impliesEnds = (q', .ok stats')) :
    g'.Admits q' p ∧
      ∀ m, g'.Selects p m → (∀ t ∈ q'.assertedTerms, t.holds m = .ok true) →
        ∃ n, m Encoding.objectiveName = some (.num n) ∧ n.toInt = g'.pathCost p := by
  obtain ⟨start, stop, r', hs, ht, hr', -, hstates⟩ := Encoding.Ite.states_of_emit hq'
  obtain ⟨-, -, r, -, -, hr, -, -⟩ := Encoding.Ite.states_of_emit hq
  have hknown : g'.start ∈ g'.blocks.map (·.uid) := known_of_block? hs
  have hp' : g'.Walk g'.start p g'.stop := by
    rw [hx.start_eq, hx.stop_eq]
    exact (hx.walk_iff (hx.src_ne hr)).mpr hp
  have hxp : x.uid ∉ p := by
    refine hx.notMem_walk hp' ?_
    rw [hx.start_eq]
    exact hx.src_ne hr
  have hcost : (Int64.ofInt (g'.pathCost p)).toInt = g'.pathCost p := by
    rw [hx.pathCost_eq hxp]
    exact hx.valid.toInt_pathCost hmass hnd
  simp only [Admits, Term.holds_eq_ok_iff]
  constructor
  · obtain ⟨m, hsel, hm⟩ :=
      hd.exists_model hx.valid' hcuts'.ids_nodup p (Encoding.Ite.pathPrices g' p)
    refine ⟨m, hsel, fun t htm => ?_⟩
    rcases (Encoding.Ite.mem_terms_iff hx.valid' hcuts'.ids_nodup).mp (hstates.mem t htm) with
      ⟨d, hdef, rfl⟩ | ⟨c, hc, rfl⟩ | hclosing
    · exact Encoding.Ite.definition_holds_of_free hx.valid' hcuts' hknown hp' hnd hsel hm
        (hfree.free hp') hdef
    · rw [Term.eval_le_iff]
      exact ⟨_, _, Term.eval_var_eq_ok_iff.mpr (hm.cut c hc), Term.eval_int _,
        hx.insideCost_le hcuts hcuts' hfree hn hmass hquery hheads hq hp hnd h hxp hc⟩
    · simp only [closingTerms, List.mem_cons, List.not_mem_nil, or_false] at hclosing
      rcases hclosing with rfl | rfl
      · exact hsel.eval_ends hp' hs ht
      · rw [hx.start_eq, hx.stop_eq] at hr'
        rw [hx.cost_longestPath_eq hr hr']
        refine hx.valid.eval_objectiveBounds hn hmass hp hnd hr
          (Term.eval_var_eq_ok_iff.mpr hm.objective) ?_
        exact hcost.trans (hx.pathCost_eq hxp)
  · intro m hsel hholds
    exact ⟨_, Encoding.Ite.objective_of_holds hx.valid' hcuts'.ids_nodup hq' hholds (hfree.free hp')
      hsel hp' hnd, hcost⟩

end Models

section Generation

variable {impliesEnds : Bool} {cut cut' : Graph} {q q' : Problem} {stats stats' : EmitStats}

/-- **Generation from the extended graph succeeds** iff its queries do without the new block, and
that bypasses no head. -/
theorem generates_iff (hx : g.Extends g' x) (hcuts : g.cuts = []) (hcuts' : g'.cuts = [])
    (hdom : ∀ b ∈ g.blocks, b.dominator ≠ noDominator → b.dominator ∈ g.blocks.map (·.uid))
    (hgen : g.Generates impliesEnds cut q stats) :
    (∃ cut' q' stats', g'.Generates impliesEnds cut' q' stats') ↔
      ∀ c ∈ g'.cutCandidates, (∃ r, g.longestPath c.head c.tail = .ok r) ∧
        ¬ g'.Bypasses x.uid c.head c.tail := by
  have hbase := (hx.valid.generates_iff hcuts).mp ⟨cut, q, stats, hgen⟩
  have hends : g.Connects g.start g.stop := hbase ⟨g.start, g.stop⟩ (by simp [cutCandidates])
  rw [hx.valid'.generates_iff hcuts']
  refine forall₂_congr fun c hc => ?_
  rw [hx.connects_iff_of_mem_cutCandidates hdom hends hc, hx.valid.longestPath_isOk_iff]

variable (hx : g.Extends g' x) (hgen : g.Generates impliesEnds cut q stats)
  (hgen' : g'.Generates impliesEnds cut' q' stats')

include hx hgen hgen'

theorem summary_eq : stats'.longest = stats.longest ∧ stats'.paths = stats.paths := by
  obtain ⟨⟨r, hr, hlongest⟩, hpaths⟩ := hgen.summary_eq
  obtain ⟨⟨r', hr', hlongest'⟩, hpaths'⟩ := hgen'.summary_eq
  rw [hx.start_eq, hx.stop_eq] at hr' hpaths'
  refine ⟨?_, hx.countPaths_eq (hx.src_ne hr) hpaths hpaths'⟩
  rw [hlongest, hlongest', hx.cost_longestPath_eq hr hr']

/-- **Paths stay admitted through generation, at their cost.** -/
theorem admits_of_generates (hcuts : g.cuts = []) (hcuts' : g'.cuts = []) (hn : g.Nonneg)
    (hquery : ∀ c ∈ g'.cutCandidates, ∃ r, g.longestPath c.head c.tail = .ok r)
    (hfree : g'.OnlyStartFree) (hd : cut'.DistinctSelectors) (hmass : g.costMass < 2 ^ 63)
    (hheads : ∀ c ∈ g'.cutCandidates, c ∉ g.cutCandidates →
      g.Reaches g.start c.tail → g.Reaches g.start c.head)
    (hp : g.Walk g.start p g.stop) (hnd : p.Nodup) (h : cut.Admits q p) :
    cut'.Admits q' p ∧
      ∀ m : Model, cut'.Selects p m → (∀ t ∈ q'.assertedTerms, t.holds m = .ok true) →
        ∃ n, m Encoding.objectiveName = some (.num n) ∧ n.toInt = g.pathCost p := by
  have hflow := hgen.sameFlow
  have hflow' := hgen'.sameFlow
  have hfreec : cut'.OnlyStartFree := by
    unfold OnlyStartFree
    rw [hflow'.blocks, hflow'.start]
    exact hfree
  have hids : ∀ {id}, id ∈ cut'.cuts.map (·.id) ↔ id ∈ g'.cutCandidates :=
    hgen'.mem_cuts_iff hcuts'
  have hqueryc : ∀ id ∈ cut'.cuts.map (·.id), ∃ r, cut.longestPath id.head id.tail = .ok r := by
    intro id hid
    rw [hflow.longestPath_eq]
    exact hquery id (hids.mp hid)
  have hheadsc : ∀ id ∈ cut'.cuts.map (·.id), id ∉ cut.cuts.map (·.id) →
      cut.Reaches cut.start id.tail → cut.Reaches cut.start id.head := by
    intro id hid hnew
    unfold Reaches
    rw [hflow.arc_eq, hflow.start]
    exact hheads id (hids.mp hid) fun hold => hnew ((hgen.mem_cuts_iff hcuts).mpr hold)
  have hpc : cut.Walk cut.start p cut.stop := by
    rw [hflow.start, hflow.stop]
    exact hflow.walk_iff.mpr hp
  obtain ⟨hadmits, hcost⟩ := (hx.congr hflow hflow').admits (hgen.cutsCurrent hcuts)
    (hgen'.cutsCurrent hcuts') hfreec (hflow.nonneg hn) (hflow.costMass_eq ▸ hmass) hqueryc hheadsc
    hgen.emitted hpc hnd h hd hgen'.emitted
  refine ⟨hadmits, fun m hsel hholds => ?_⟩
  obtain ⟨n, hvar, hvalue⟩ := hcost m hsel hholds
  obtain ⟨⟨r, hr, -⟩, -⟩ := hgen.summary_eq
  have hxp : x.uid ∉ p := hx.notMem_walk ((hx.walk_iff (hx.src_ne hr)).mpr hp) (hx.src_ne hr)
  refine ⟨n, hvar, ?_⟩
  rw [hvalue, hflow'.pathCost_eq, hx.pathCost_eq hxp]

end Generation

end Extends

end Graph

namespace Encoding

open WorstCase.Graph

/-- **Generation with an unreachable block.** Let generation from a listing succeed, and insert the
record of a block that does not branch to itself. Generation still succeeds iff, for every cut that
it makes now, the query succeeds without the block and the block does not bypass the head. If so,
the longest path and the number of paths are the same. If besides blocks without dominator are the
start or cost nothing, selectors are distinct, costs do not add up to too much, and heads of new
cuts can be reached where their tails can, then every path that was admitted still is, at its
cost. -/
theorem generation_of_inserted {text text' : String} {x : Record} {g g' : Graph}
    (hins : x.Inserted text.toList text'.toList) (hg : ofListing text = .ok g)
    (hg' : ofListing text' = .ok g') (hself : ¬ g'.Arc x.uid x.uid) (hn : g'.Nonneg)
    {impliesEnds : Bool} {cut : Graph} {q : Problem} {stats : EmitStats}
    (hgen : g.Generates impliesEnds cut q stats) :
    ((∃ cut' q' stats', g'.Generates impliesEnds cut' q' stats') ↔
        ∀ c ∈ g'.cutCandidates, (∃ r, g.longestPath c.head c.tail = .ok r) ∧
          ¬ g'.Bypasses x.uid c.head c.tail) ∧
      ∀ cut' q' stats', g'.Generates impliesEnds cut' q' stats' →
        stats'.longest = stats.longest ∧ stats'.paths = stats.paths ∧
          (g'.OnlyStartFree → cut'.DistinctSelectors → g.costMass < 2 ^ 63 →
            (∀ c ∈ g'.cutCandidates, c ∉ g.cutCandidates →
              g.Reaches g.start c.tail → g.Reaches g.start c.head) →
            ∀ p, g.Walk g.start p g.stop → p.Nodup → cut.Admits q p →
              cut'.Admits q' p ∧
                ∀ m : Model, cut'.Selects p m → (∀ t ∈ q'.assertedTerms, t.holds m = .ok true) →
                  ∃ n, m objectiveName = some (.num n) ∧ n.toInt = g.pathCost p) := by
  obtain ⟨_, rs, rs', hread, hread', hsame⟩ := hins
  obtain ⟨_, start, stop, entries, hrecords, hl⟩ := lists_of_ofListing hg
  obtain ⟨_, start', stop', entries', hrecords', hl'⟩ := lists_of_ofListing hg'
  obtain rfl := Except.ok.inj (hread.symm.trans hrecords)
  obtain rfl := Except.ok.inj (hread'.symm.trans hrecords')
  have hv := valid_of_ofListing hg
  have hv' := valid_of_ofListing hg'
  obtain ⟨b, hb, hx⟩ := extends_of_inserted hl hl' hsame hv hv' hself
  have hiff := hx.generates_iff hl.cuts hl'.cuts (fun b hb => hl.dominator_known hb) hgen
  rw [hb] at hiff
  refine ⟨hiff, fun cut' q' stats' hgen' => ?_⟩
  obtain ⟨hlongest, hpaths⟩ := hx.summary_eq hgen hgen'
  have hquery := hiff.mp ⟨cut', q', stats', hgen'⟩
  exact ⟨hlongest, hpaths, fun hfree hd hmass hheads p hp hnd hadmits =>
    hx.admits_of_generates hgen hgen' hl.cuts hl'.cuts (hx.nonneg hn)
      (fun c hc => (hquery c hc).1) hfree hd hmass hheads hp hnd hadmits⟩

/-! ### A fork with an unreachable block -/

/-- Two branches that meet again. Block M declares block N as its dominator, which is wrong. -/
def forkText : String :=
  "BasicBlock bd_0: 3
    A: Dominator = NULL
    br label %M, label %N
  BasicBlock b_2: 1
    M: Dominator = b_3
    br label %B
  BasicBlock b_3: 1
    N: Dominator = bd_0
    br label %B
  BasicBlock bd_1: 4
    B: Dominator = bd_0
    ret void"

/-- The same with an unreachable block that branches to N. -/
def forkIntoText : String :=
  "BasicBlock bd_0: 3
    A: Dominator = NULL
    br label %M, label %N
  BasicBlock b_2: 1
    M: Dominator = b_3
    br label %B
  BasicBlock b_3: 1
    N: Dominator = bd_0
    br label %B
  BasicBlock bd_1: 4
    B: Dominator = bd_0
    ret void
  BasicBlock b_4: 5
    X: Dominator = bd_0
    br label %N"

/-- The graph of `forkText`. -/
def fork : Graph where
  blocks :=
    [ { uid := 0, label := "A", selector := "bs_0", written := "bd_0", cost := 3 },
      { uid := 2, label := "M", selector := "b_2", written := "b_2", cost := 1, dominator := 3 },
      { uid := 3, label := "N", selector := "b_3", written := "b_3", cost := 1, dominator := 0 },
      { uid := 1, label := "B", selector := "bs_1", written := "bd_1", cost := 4,
        dominator := 0 } ]
  edges := [⟨⟨0, 2⟩, 0⟩, ⟨⟨0, 3⟩, 0⟩, ⟨⟨2, 1⟩, 0⟩, ⟨⟨3, 1⟩, 0⟩]
  start := 0
  stop := 1

/-- The graph of `forkIntoText`. -/
def forkInto : Graph :=
  { fork with
    blocks := fork.blocks ++
      [{ uid := 4, label := "X", selector := "b_4", written := "b_4", cost := 5, dominator := 0 }]
    edges := fork.edges ++ [⟨⟨4, 3⟩, 0⟩] }

theorem ofListing_forkText : ofListing forkText = .ok fork := by
  refine ok_of_toOption_eq_some ?_
  rw [ofListing, forkText, String.toList_ofList]
  decide

theorem ofListing_forkIntoText : ofListing forkIntoText = .ok forkInto := by
  refine ok_of_toOption_eq_some ?_
  rw [ofListing, forkIntoText, String.toList_ofList]
  decide

/-- The graph of `forkText` with its cuts. -/
def forkCut : Graph := fork.addDominatorCuts.graph

theorem fork_generates : fork.Generates true forkCut (forkCut.emit {} iteCosts.code true).1
    { encoding := .iteCosts, paths := 2, cuts := 1, longest := 8 } where
  dominatorCuts := by decide
  globalCut := ⟨⟨8, [0, 2, 1], [0, 1, 2, 3], [⟨0, 2⟩, ⟨0, 3⟩, ⟨2, 1⟩, ⟨3, 1⟩]⟩,
    ok_of_toOption_eq_some (by decide)⟩
  emitted := Prod.ext rfl (by decide)

/-- The graph of `forkIntoText` with its cuts. -/
def forkIntoCut : Graph := forkInto.addDominatorCuts.graph

theorem forkInto_generates : forkInto.Generates true forkIntoCut
    (forkIntoCut.emit {} iteCosts.code true).1
    { encoding := .iteCosts, paths := 2, cuts := 2, longest := 8 } where
  dominatorCuts := by decide
  globalCut := ⟨⟨8, [0, 2, 1], [0, 1, 2, 3, 4], [⟨0, 2⟩, ⟨0, 3⟩, ⟨2, 1⟩, ⟨3, 1⟩, ⟨4, 3⟩]⟩,
    ok_of_toOption_eq_some (by decide)⟩
  emitted := Prod.ext rfl (by decide)

/-- An unreachable block that branches to N adds a cut of N from its declared dominator. The path
through N is still admitted. -/
theorem generation_of_inserted_fork :
    let q' := (forkIntoCut.emit {} iteCosts.code true).1
    (∀ c ∈ forkInto.cutCandidates, (∃ r, fork.longestPath c.head c.tail = .ok r) ∧
        ¬ forkInto.Bypasses 4 c.head c.tail) ∧
      forkIntoCut.Admits q' [0, 3, 1] ∧
      ∀ m : Model, forkIntoCut.Selects [0, 3, 1] m →
        (∀ t ∈ q'.assertedTerms, t.holds m = .ok true) →
        ∃ n, m "cost" = some (.num n) ∧ n.toInt = 8 := by
  obtain ⟨x, hins, hx⟩ : ∃ x : Record,
      x.Inserted forkText.toList forkIntoText.toList ∧ x.uid = 4 := by
    rw [forkText, forkIntoText, String.toList_ofList, String.toList_ofList]
    exact Record.exists_inserted 4 (by decide)
  have hself : ¬ forkInto.Arc x.uid x.uid := by
    rw [hx]
    decide
  obtain ⟨hiff, hmodels⟩ := generation_of_inserted hins ofListing_forkText ofListing_forkIntoText
    hself ⟨by decide, by decide⟩ fork_generates
  have hfree : forkInto.OnlyStartFree := by
    unfold OnlyStartFree
    decide
  have hd : forkIntoCut.DistinctSelectors := ⟨by decide, by decide⟩
  have hheads : ∀ c ∈ forkInto.cutCandidates, c.head = fork.start := by decide
  have hp : fork.Walk 0 [0, 3, 1] 1 := .step (by decide) (.step (by decide) (.single 1))
  have hadmits : forkCut.Admits (forkCut.emit {} iteCosts.code true).1 [0, 3, 1] :=
    ⟨Model.ofTable (forkCut.pathTable [0, 3, 1] (Ite.pathPrices forkCut [0, 3, 1])),
      ⟨by decide, by decide⟩, by decide⟩
  have hcost : fork.pathCost [0, 3, 1] = 8 := by decide
  obtain ⟨-, -, hpaths⟩ := hmodels _ _ _ forkInto_generates
  rw [hx] at hiff
  refine ⟨hiff.mp ⟨_, _, _, forkInto_generates⟩, ?_⟩
  rw [← hcost]
  exact hpaths hfree hd (by decide) (fun c hc _ _ => hheads c hc ▸ .refl) _ hp (by decide)
    hadmits

/-! ### A block without dominator -/

/-- A block that leads to another one. -/
def lineText : String :=
  "BasicBlock bd_0: 3
    A: Dominator = NULL
    br label %B
  BasicBlock bd_1: 4
    B: Dominator = bd_0
    ret void"

/-- The same with an unreachable block that declares no dominator. -/
def lineWithOrphanText : String :=
  "BasicBlock bd_0: 3
    A: Dominator = NULL
    br label %B
  BasicBlock bd_1: 4
    B: Dominator = bd_0
    ret void
  BasicBlock b_2: 5
    X: Dominator = NULL
    br label %B"

/-- The graph of `lineText`. -/
def line : Graph where
  blocks :=
    [ { uid := 0, label := "A", selector := "bs_0", written := "bd_0", cost := 3 },
      { uid := 1, label := "B", selector := "bs_1", written := "bd_1", cost := 4,
        dominator := 0 } ]
  edges := [⟨⟨0, 1⟩, 0⟩]
  start := 0
  stop := 1

/-- The graph of `lineWithOrphanText`. -/
def lineWithOrphan : Graph :=
  { line with
    blocks := line.blocks ++
      [{ uid := 2, label := "X", selector := "b_2", written := "b_2", cost := 5 }]
    edges := line.edges ++ [⟨⟨2, 1⟩, 0⟩] }

/-- The graph of `lineText` with its cut. -/
def lineCut : Graph :=
  { line with cuts := [⟨⟨0, 1⟩, 7, [0, 1], [⟨0, 1⟩]⟩] }

/-- The graph of `lineWithOrphanText` with its cut. -/
def lineWithOrphanCut : Graph :=
  { lineWithOrphan with cuts := [⟨⟨0, 1⟩, 7, [0, 1, 2], [⟨0, 1⟩, ⟨2, 1⟩]⟩] }

theorem line_generates : line.Generates true lineCut (lineCut.emit {} iteCosts.code true).1
    { encoding := .iteCosts, paths := 1, cuts := 1, longest := 7 } where
  dominatorCuts := by decide
  globalCut := ⟨⟨7, [0, 1], [0, 1], [⟨0, 1⟩]⟩, ok_of_toOption_eq_some (by decide)⟩
  emitted := Prod.ext rfl (by decide)

theorem lineWithOrphan_generates : lineWithOrphan.Generates true lineWithOrphanCut
    (lineWithOrphanCut.emit {} iteCosts.code true).1
    { encoding := .iteCosts, paths := 1, cuts := 1, longest := 7 } where
  dominatorCuts := by decide
  globalCut := ⟨⟨7, [0, 1], [0, 1, 2], [⟨0, 1⟩, ⟨2, 1⟩]⟩,
    ok_of_toOption_eq_some (by decide)⟩
  emitted := Prod.ext rfl (by decide)

/-- A model of the problem that selects the path charges all three blocks, which is more than the
bound of the cut. -/
theorem lineWithOrphan_not_admits (hg : lineWithOrphan.Valid) :
    ¬ lineWithOrphanCut.Admits (lineWithOrphanCut.emit {} iteCosts.code true).1 [0, 1] := by
  rintro ⟨m, hsel, hholds⟩
  simp only [Term.holds_eq_ok_iff] at hholds
  have hvalid : lineWithOrphanCut.Valid := hg.congr rfl rfl
  have hids : (lineWithOrphanCut.cuts.map (·.id)).Nodup := by decide
  have hemit := lineWithOrphan_generates.emitted
  have hdefs := Ite.definitions_hold_of_emit hvalid hids hemit hholds
  -- the prices are those of the list of all blocks, which is no path
  have hpriced : Ite.Priced lineWithOrphanCut [0, 1, 2] m := by
    refine ⟨fun b hb => ?_, fun e he => ?_⟩
    · have hcounts : ∀ b ∈ lineWithOrphanCut.blocks,
          b.uid ∈ [0, 1, 2] ∧ (b.dominator < 0 ∨ b.uid ∈ [0, 1]) := by decide
      rw [if_pos (hcounts b hb).1]
      exact Ite.blockCost_of_holds hsel hdefs hb (hcounts b hb).2
    · have hzero : ∀ e ∈ lineWithOrphanCut.edges, e.cost = 0 := by decide
      have hcost := Ite.edgeCost_of_holds hsel hdefs he
      rw [hzero e he, ite_self] at hcost ⊢
      exact hcost
  have hcut : (⟨⟨0, 1⟩, 7, [0, 1, 2], [⟨0, 1⟩, ⟨2, 1⟩]⟩ : Cut) ∈ lineWithOrphanCut.cuts := by decide
  have hle := Ite.insideCost_le_of_emit hvalid hids hemit hholds hpriced (by decide) hcut
    (by decide) (by decide)
  exact absurd hle (by decide)

/-- **An unreachable block without dominator rules out paths.** It is taken for a start, and its
cost is charged to every path. Generation goes through as before, and the longest path and the
number of paths stay the same, but the problem admits its only path no longer. -/
theorem path_ruledOut_lineWithOrphan :
    ∃ (x : Record) (g g' : Graph), x.Inserted lineText.toList lineWithOrphanText.toList ∧
      ofListing lineText = .ok g ∧ ofListing lineWithOrphanText = .ok g' ∧ g'.preds x.uid = [] ∧
      g'.Nonneg ∧ ∃ cut q cut' q' stats, g.Generates true cut q stats ∧
        g'.Generates true cut' q' stats ∧ g.Walk g.start [0, 1] g.stop ∧ cut.Admits q [0, 1] ∧
        ¬ cut'.Admits q' [0, 1] := by
  obtain ⟨x, hins, hx⟩ : ∃ x : Record,
      x.Inserted lineText.toList lineWithOrphanText.toList ∧ x.uid = 2 := by
    rw [lineText, lineWithOrphanText, String.toList_ofList, String.toList_ofList]
    exact Record.exists_inserted 2 (by decide)
  have hg : ofListing lineText = .ok line := by
    refine ok_of_toOption_eq_some ?_
    rw [ofListing, lineText, String.toList_ofList]
    decide
  have hg' : ofListing lineWithOrphanText = .ok lineWithOrphan := by
    refine ok_of_toOption_eq_some ?_
    rw [ofListing, lineWithOrphanText, String.toList_ofList]
    decide
  have hadmits : lineCut.Admits (lineCut.emit {} iteCosts.code true).1 [0, 1] :=
    ⟨Model.ofTable (lineCut.pathTable [0, 1] (Ite.pathPrices lineCut [0, 1])),
      ⟨by decide, by decide⟩, by decide⟩
  refine ⟨x, line, lineWithOrphan, hins, hg, hg', ?_, ⟨by decide, by decide⟩, _, _, _, _, _,
    line_generates, lineWithOrphan_generates, .step (by decide) (.single 1), hadmits,
    lineWithOrphan_not_admits (valid_of_ofListing hg')⟩
  rw [hx]
  decide

end Encoding

end WorstCase
