import WorstCase.Proofs.Encoding.Emission
import WorstCase.Proofs.Encoding.PathModel
import Mathlib.Algebra.Order.BigOperators.Group.List

/-!
# If-then-else costs are exact

In the encoding by if-then-else costs every cost variable is defined by an equation. On a model that
selects a simple path these equations leave no choice: the cost variables of blocks and edges are
their costs on the path and 0 elsewhere, and a sum of cost variables is the cost of **what the path
meets** of the blocks and edges summed up, whether or not the sum leaves out those that cost nothing
(`Encoding.Ite.eval_costSum`).

* For the objective this is the cost of the path, which is at most the longest path.
* For a cut it is the cost inside the region of the cut, which is at most the cost of the cut if the
  cut is current.

So the selection of a path extends to a model of the problem, and in every such model the objective
is the cost of the path. Assertions with equal texts cannot be mixed up, since an equation names the
variable that it defines.
-/

namespace WorstCase

/-! ### Sums over what is chosen -/

/-- Summing over `xs` what is in `p` is summing over `p` what is in `xs`. -/
theorem sum_map_mem_comm {ι : Type} [DecidableEq ι] {xs p : List ι} (hxs : xs.Nodup) (hp : p.Nodup)
    (f : ι → ℤ) :
    (xs.map fun i => if i ∈ p then f i else 0).sum = ((p.filter (· ∈ xs)).map f).sum := by
  have hfilter : (xs.map fun i => if i ∈ p then f i else 0).sum =
      ((xs.filter (· ∈ p)).map f).sum := by
    clear hxs
    induction xs with
    | nil => rfl
    | cons x xs ih => by_cases hx : x ∈ p <;> simp [hx, ih]
  have hperm : (xs.filter (· ∈ p)).Perm (p.filter (· ∈ xs)) := by
    refine (List.perm_ext_iff_of_nodup (hxs.filter _) (hp.filter _)).mpr fun i => ?_
    simp [and_comm]
  rw [hfilter, (hperm.map f).sum_eq]

/-- Elements that are not found or cost nothing may be left out of a sum. -/
theorem sum_filterMap_costs {ι α : Type} [DecidableEq ι] {find : ι → Option α} {key : α → ι}
    (hkey : ∀ {i a}, find i = some a → key a = i) (cost : α → Int64) (p xs : List ι) :
    (((xs.filterMap find).filter (cost · ≠ 0)).map fun a =>
        (if key a ∈ p then cost a else 0).toInt).sum =
      (xs.map fun i => if i ∈ p then ((find i).map (cost · |>.toInt)).getD 0 else 0).sum := by
  induction xs with
  | nil => rfl
  | cons i xs ih =>
    rw [List.map_cons, List.sum_cons, ← ih]
    rcases ha : find i with _ | a
    · simp [ha]
    · obtain rfl := hkey ha
      by_cases hc : cost a = 0
      · simp [ha, hc]
      · by_cases hp : key a ∈ p <;> simp [ha, hc, hp]

namespace Encoding.Ite

variable {g : Graph} {m : Model} {p : List Int}

/-! ### The values of cost variables -/

/-- The cost variables of blocks and edges are their costs on the path, and 0 elsewhere. -/
structure Priced (g : Graph) (p : List Int) (m : Model) : Prop where
  block : ∀ b ∈ g.blocks, m b.costName = some (.num (if b.uid ∈ p then b.cost else 0))
  edge : ∀ e ∈ g.edges, m e.costName = some (.num (if e.id ∈ pathEdges p then e.cost else 0))

theorem eval_chosenCost {name : String} {x : Bool} (h : m name = some (.bool x)) (cost : Int64) :
    (chosenCost (.var name) cost).eval m = .ok (.num (if x then cost else 0)) := by
  rw [chosenCost, Term.eval_ite (Term.eval_var_eq_ok_iff.mpr h)]
  cases x <;> simp

/-- A block without dominator counts always, so it has to be on the path or cost nothing. -/
theorem eval_blockValue (hsel : g.Selects p m) {b : Block} (hb : b ∈ g.blocks)
    (hfree : b.dominator < 0 → b.uid ∈ p ∨ b.cost = 0) :
    (blockValue b).eval m = .ok (.num (if b.uid ∈ p then b.cost else 0)) := by
  unfold blockValue
  split
  · rename_i h
    rw [Bool.or_eq_true, Block.isStart, decide_eq_true_eq, beq_iff_eq] at h
    have hcost : b.uid ∈ p ∨ b.cost = 0 := h.elim hfree .inr
    rcases hcost with hmem | hzero
    · rw [Term.eval_int, if_pos hmem]
    · rw [Term.eval_int, hzero, ite_self]
  · rw [Block.chosen, eval_chosenCost (hsel.block b hb)]
    simp

theorem eval_edgeValue (hsel : g.Selects p m) {e : Edge} (he : e ∈ g.edges) :
    (edgeValue e).eval m = .ok (.num (if e.id ∈ pathEdges p then e.cost else 0)) := by
  unfold edgeValue
  split
  · rename_i h
    rw [Term.eval_int, beq_iff_eq.mp h, ite_self]
  · rw [Edge.chosen, eval_chosenCost (hsel.edge e he)]
    simp

/-- **A sum of cost variables is the cost of what the path meets.** -/
theorem eval_costSum (hm : Priced g p m) (hp : p.Nodup) {blocks : List Int}
    {edges : List EdgeId} (hblocks : blocks.Nodup) (hedges : edges.Nodup) :
    (costSum g blocks edges).eval m = .ok (.num (Int64.ofInt (g.insideCost blocks edges p))) := by
  have hvalues : (blockCosts (blocks.filterMap g.block?) ++
        edgeCosts (edges.filterMap fun id => g.edge? id.src id.dst)).map (Term.eval m) =
      ((((blocks.filterMap g.block?).filter (·.cost ≠ 0)).map fun b =>
          if b.uid ∈ p then b.cost else 0) ++
        (((edges.filterMap fun id => g.edge? id.src id.dst).filter (·.cost ≠ 0)).map fun e =>
          if e.id ∈ pathEdges p then e.cost else 0)).map fun n => .ok (.num n) := by
    rw [blockCosts, edgeCosts, List.map_append, List.map_append, List.map_map, List.map_map,
      List.map_map, List.map_map]
    congr 1
    · refine List.map_congr_left fun b hb => ?_
      obtain ⟨uid, -, huid⟩ := List.mem_filterMap.mp (List.mem_of_mem_filter hb)
      exact Term.eval_var_eq_ok_iff.mpr (hm.block b (Graph.mem_of_block? huid))
    · refine List.map_congr_left fun e he => ?_
      obtain ⟨id, -, hid⟩ := List.mem_filterMap.mp (List.mem_of_mem_filter he)
      exact Term.eval_var_eq_ok_iff.mpr (hm.edge e (Graph.mem_of_edge? hid))
  -- the sum runs over the given blocks, the cost inside over the path
  have hb : (((blocks.filterMap g.block?).filter (·.cost ≠ 0)).map
        (Int64.toInt ∘ fun b => if b.uid ∈ p then b.cost else 0)).sum =
      ((p.filter (· ∈ blocks)).map g.blockCost).sum :=
    (sum_filterMap_costs (fun {i b} (h : g.block? i = some b) => Graph.uid_of_block? h)
      (·.cost) p blocks).trans (sum_map_mem_comm hblocks hp g.blockCost)
  have he : (((edges.filterMap fun id => g.edge? id.src id.dst).filter (·.cost ≠ 0)).map
        (Int64.toInt ∘ fun e => if e.id ∈ pathEdges p then e.cost else 0)).sum =
      (((pathEdges p).filter (· ∈ edges)).map g.edgeCost).sum :=
    (sum_filterMap_costs
      (fun {id e} (h : g.edge? id.src id.dst = some e) => Graph.id_of_edge? h)
      (·.cost) (pathEdges p) edges).trans
      (sum_map_mem_comm hedges (pathEdges_nodup hp) g.edgeCost)
  rw [costSum, Term.eval_sum hvalues, List.map_append, List.sum_append, List.map_map,
    List.map_map, hb, he]
  rfl

/-! ### The terms of the encoding -/

/-- All that the problem states. -/
def terms (g : Graph) (start stop : Block) (longest : Int64) : List Term :=
  entityTerms g ++ g.sortedCuts.flatMap (cutTerms g) ++
    Graph.closingTerms start stop (.var objectiveName) longest

/-- The variables that are defined, with their values. -/
def definitions (g : Graph) : List (String × Term) :=
  g.blocks.map (fun b => (b.costName, blockValue b)) ++
    (g.edges.map (fun e => (e.costName, edgeValue e)) ++
      ((objectiveName, costSum g g.uids g.edgeIds) ::
        g.cuts.map fun c => (c.costName, costSum g c.blocks c.edges)))

theorem definitions_names (g : Graph) :
    g.generatedNames = g.edges.map Edge.selector ++ (definitions g).map (·.1) := by
  simp only [definitions, Graph.generatedNames, List.map_append, List.map_map, List.map_cons]
  rfl

/-- The terms are definitions, bounds of cuts, and the closing ones. -/
theorem mem_terms_iff (hg : g.Valid) (hcuts : (g.cuts.map (·.id)).Nodup) {start stop : Block}
    {longest : Int64} {t : Term} :
    t ∈ terms g start stop longest ↔
      (∃ d ∈ definitions g, t = .equal (.var d.1) d.2) ∨
        (∃ c ∈ g.cuts, t = .le (.var c.costName) (.int c.cost)) ∨
        t ∈ Graph.closingTerms start stop (.var objectiveName) longest := by
  simp only [terms, entityTerms, cutTerms, definitions, List.mem_append, List.mem_flatMap,
    List.mem_cons, List.mem_map, List.not_mem_nil, or_false, hg.mem_sortedBlocks,
    hg.mem_sortedEdges, Graph.mem_sortedCuts hcuts]
  constructor
  · rintro ((((⟨b, hb, rfl⟩ | ⟨e, he, rfl⟩) | rfl) | ⟨c, hc, rfl | rfl⟩) | h)
    · exact .inl ⟨_, .inl ⟨b, hb, rfl⟩, rfl⟩
    · exact .inl ⟨_, .inr (.inl ⟨e, he, rfl⟩), rfl⟩
    · exact .inl ⟨_, .inr (.inr (.inl rfl)), rfl⟩
    · exact .inl ⟨_, .inr (.inr (.inr ⟨c, hc, rfl⟩)), rfl⟩
    · exact .inr (.inl ⟨c, hc, rfl⟩)
    · exact .inr (.inr h)
  · rintro (⟨d, ⟨b, hb, rfl⟩ | ⟨e, he, rfl⟩ | rfl | ⟨c, hc, rfl⟩, rfl⟩ | ⟨c, hc, rfl⟩ | h)
    · exact .inl (.inl (.inl (.inl ⟨b, hb, rfl⟩)))
    · exact .inl (.inl (.inl (.inr ⟨e, he, rfl⟩)))
    · exact .inl (.inl (.inr rfl))
    · exact .inl (.inr ⟨c, hc, .inl rfl⟩)
    · exact .inl (.inr ⟨c, hc, .inr rfl⟩)
    · exact .inr h

/-- **A definition is asserted.** No other term is printed like it, since the variable it defines
can be read off its text. -/
theorem mem_assertedTerms_of_mem_definitions (hg : g.Valid) (hcuts : (g.cuts.map (·.id)).Nodup)
    {start stop : Block} {longest : Int64} {q : Problem}
    (hq : q.States (terms g start stop longest)) {d : String × Term} (hd : d ∈ definitions g) :
    Term.equal (.var d.1) d.2 ∈ q.assertedTerms := by
  have hnames := definitions_names g ▸ Graph.generatedNames_nodup hg hcuts
  have hspace : ∀ d ∈ definitions g, ' ' ∉ d.1.toList := fun d hd =>
    Graph.space_notMem_of_mem_generatedNames
      (definitions_names g ▸ List.mem_append_right _ (List.mem_map_of_mem hd))
  -- what is asserted is some term `u` with the text of the definition
  obtain ⟨u, hu, huterms, hrender⟩ :=
    hq.exists_mem _ ((mem_terms_iff hg hcuts).mpr (.inl ⟨d, hd, rfl⟩))
  rcases (mem_terms_iff hg hcuts).mp huterms with ⟨d', hd', rfl⟩ | ⟨c, -, rfl⟩ | hclosing
  · obtain ⟨-, hargs⟩ := Term.render_pair_inj hrender
    simp only [Term.render] at hargs
    have hname := (append_cons_inj (hspace d' hd') (hspace d hd) hargs).1
    have hsame : d' = d := List.inj_on_of_nodup_map (List.nodup_append.mp hnames).2.1 hd' hd
      (String.toList_inj.mp hname)
    rwa [← hsame]
  · exact absurd (Term.render_pair_inj hrender).1 (by decide)
  · simp only [Graph.closingTerms, List.mem_cons, List.not_mem_nil, or_false] at hclosing
    rcases hclosing with rfl | rfl
    · exact absurd (Term.render_pair_inj hrender).1 (by decide)
    · exact absurd (Term.render_pair_inj hrender).1 (by decide)

/-! ### Paths are models -/

/-- The cost variables on a path. -/
def pathPrices (g : Graph) (p : List Int) : Graph.Prices where
  block b := if b.uid ∈ p then b.cost else 0
  edge e := if e.id ∈ pathEdges p then e.cost else 0
  objective := Int64.ofInt (g.pathCost p)
  cut c := Int64.ofInt (g.insideCost c.blocks c.edges p)

theorem priced_of_given (hm : (pathPrices g p).Given g m) : Priced g p m :=
  ⟨hm.block, hm.edge⟩

/-- The objective sums up all blocks and edges, so what a path meets of them is the path. -/
theorem eval_objective (hg : g.Valid) {a c : Int} (ha : a ∈ g.blocks.map (·.uid))
    (hp : g.Walk a p c) (hnd : p.Nodup) (hm : Priced g p m) :
    (costSum g g.uids g.edgeIds).eval m = .ok (.num (Int64.ofInt (g.pathCost p))) := by
  rw [eval_costSum hm hnd hg.nodup_uids hg.nodup_edgeIds, Graph.insideCost_eq_pathCost]
  · intro x hx
    exact (sortBy_perm _ _).mem_iff.mpr (hg.known_of_reaches ha (hp.reaches_of_mem hx).1)
  · intro id hid
    exact (sortBy_perm _ _).mem_iff.mpr (hp.arc_of_mem_pathEdges hid)

section Model

variable (hg : g.Valid) (hr : g.Regular) (hcuts : g.CutsCurrent)
  (hstart : ∀ b ∈ g.blocks, b.dominator < 0 → b.uid = g.start)
  (hknown : g.start ∈ g.blocks.map (·.uid)) (hp : g.Walk g.start p g.stop) (hnd : p.Nodup)
  (hsel : g.Selects p m) (hm : (pathPrices g p).Given g m)

include hg hcuts hknown hp hnd hsel hm in
theorem definition_holds_of_free (hfree : ∀ b ∈ g.blocks, b.dominator < 0 → b.uid ∈ p ∨ b.cost = 0)
    {d : String × Term} (hd : d ∈ definitions g) :
    (Term.equal (.var d.1) d.2).eval m = .ok (.bool true) := by
  rw [Term.eval_equal_iff]
  simp only [definitions, List.mem_append, List.mem_cons, List.mem_map] at hd
  rcases hd with ⟨b, hb, rfl⟩ | ⟨e, he, rfl⟩ | rfl | ⟨c, hc, rfl⟩
  · exact ⟨_, Term.eval_var_eq_ok_iff.mpr (hm.block b hb), eval_blockValue hsel hb (hfree b hb)⟩
  · exact ⟨_, Term.eval_var_eq_ok_iff.mpr (hm.edge e he), eval_edgeValue hsel he⟩
  · exact ⟨_, Term.eval_var_eq_ok_iff.mpr hm.objective,
      eval_objective hg hknown hp hnd (priced_of_given hm)⟩
  · obtain ⟨r, hquery, -, hblocks, hedges⟩ := hcuts.query c hc
    obtain ⟨v, -, hbnd, hend⟩ := hg.isRegion hquery
    exact ⟨_, Term.eval_var_eq_ok_iff.mpr (hm.cut c hc),
      eval_costSum (priced_of_given hm) hnd (hblocks ▸ hbnd) (hedges ▸ hend)⟩

include hg hcuts hstart hknown hp hnd hsel hm in
theorem definition_holds {d : String × Term} (hd : d ∈ definitions g) :
    (Term.equal (.var d.1) d.2).eval m = .ok (.bool true) :=
  definition_holds_of_free hg hcuts hknown hp hnd hsel hm
    (fun b hb h => .inl (hstart b hb h ▸ hp.head_mem)) hd

include hg hr hcuts hp hnd hm in
/-- **No cut is exceeded on a path.** -/
theorem cut_holds {c : Cut} (hc : c ∈ g.cuts) :
    (Term.le (.var c.costName) (.int c.cost)).eval m = .ok (.bool true) := by
  obtain ⟨r, hquery, hcost, hblocks, hedges⟩ := hcuts.query c hc
  obtain ⟨-, ⟨head, hhead⟩, -⟩ := Graph.blocks_of_longestPath hquery
  have hle : g.insideCost c.blocks c.edges p ≤ c.cost.toInt := by
    rw [hcost, hblocks, hedges]
    exact hg.insideCost_le (hr.costMass_lt.trans (by decide)) hr.nonneg hquery (hr.reaches hhead)
      hp hnd
  rw [Term.eval_le_iff]
  refine ⟨_, _, Term.eval_var_eq_ok_iff.mpr (hm.cut c hc), Term.eval_int _, ?_⟩
  rw [Int64.le_iff_toInt_le]
  exact (hr.toInt_insideCost hg hnd _ _).trans_le hle

include hg hr hp hnd hsel hm in
theorem closing_holds {start stop : Block} (hs : g.block? g.start = some start)
    (ht : g.block? g.stop = some stop) {r : LongestPath}
    (hquery : g.longestPath g.start g.stop = .ok r) {t : Term}
    (h : t ∈ Graph.closingTerms start stop (.var objectiveName) r.cost) :
    t.eval m = .ok (.bool true) := by
  simp only [Graph.closingTerms, List.mem_cons, List.not_mem_nil, or_false] at h
  rcases h with rfl | rfl
  · exact hsel.eval_ends hp hs ht
  · exact hr.eval_objectiveBounds hg hp hnd hquery (Term.eval_var_eq_ok_iff.mpr hm.objective)
      (hr.toInt_pathCost hg hnd)

end Model

theorem edgeCost_of_holds (hsel : g.Selects p m)
    (h : ∀ d ∈ definitions g, (Term.equal (.var d.1) d.2).eval m = .ok (.bool true)) {e : Edge}
    (he : e ∈ g.edges) :
    m e.costName = some (.num (if e.id ∈ pathEdges p then e.cost else 0)) := by
  simp only [definitions, List.mem_append, List.mem_cons, List.mem_map] at h
  obtain ⟨v, hvar, hvalue⟩ := Term.eval_equal_iff.mp (h _ (.inr (.inl ⟨e, he, rfl⟩)))
  rw [eval_edgeValue hsel he] at hvalue
  rw [← hvalue] at hvar
  exact Term.eval_var_eq_ok_iff.mp hvar

/-- The definitions leave the cost variables of blocks and edges no choice. -/
theorem priced_of_holds_of_free
    (hfree : ∀ b ∈ g.blocks, b.dominator < 0 → b.uid ∈ p ∨ b.cost = 0) (hsel : g.Selects p m)
    (h : ∀ d ∈ definitions g, (Term.equal (.var d.1) d.2).eval m = .ok (.bool true)) :
    Priced g p m := by
  refine ⟨fun b hb => ?_, fun e he => edgeCost_of_holds hsel h he⟩
  simp only [definitions, List.mem_append, List.mem_cons, List.mem_map] at h
  obtain ⟨v, hvar, hvalue⟩ := Term.eval_equal_iff.mp (h _ (.inl ⟨b, hb, rfl⟩))
  rw [eval_blockValue hsel hb (hfree b hb)] at hvalue
  rw [← hvalue] at hvar
  exact Term.eval_var_eq_ok_iff.mp hvar

theorem priced_of_holds (hstart : ∀ b ∈ g.blocks, b.dominator < 0 → b.uid = g.start)
    (hp : g.Walk g.start p g.stop) (hsel : g.Selects p m)
    (h : ∀ d ∈ definitions g, (Term.equal (.var d.1) d.2).eval m = .ok (.bool true)) :
    Priced g p m :=
  priced_of_holds_of_free (fun b hb hneg => .inl (hstart b hb hneg ▸ hp.head_mem)) hsel h

theorem states_of_emit {impliesEnds : Bool} {q : Problem} {stats : EmitStats}
    (h : g.emit {} Encoding.iteCosts.code impliesEnds = (q, .ok stats)) :
    ∃ start stop r, g.block? g.start = some start ∧ g.block? g.stop = some stop ∧
      g.longestPath g.start g.stop = .ok r ∧ q.objectives.map (·.term) = [.var objectiveName] ∧
      q.States (terms g start stop r.cost) :=
  Graph.states_of_emit h (fun _ => rfl) (fun _ => asserts_entities g {}) (asserts_cut g)

end Encoding.Ite

namespace Encoding

/-- **If-then-else costs are exact on paths, cuts included.** For every simple path from the start
to the end, its selection extends to a model of the problem, in which the objective is the cost of
the path; and in every model of the problem that selects the path the objective has this value. -/
theorem iteCosts_exact {g : Graph} (hg : g.Annotated) (hr : g.Regular)
    (hstart : ∀ b ∈ g.blocks, b.dominator < 0 → b.uid = g.start) {impliesEnds : Bool}
    {q : Problem} {stats : EmitStats}
    (hq : g.emit {} Encoding.iteCosts.code impliesEnds = (q, .ok stats)) {p : List Int}
    (hp : g.Walk g.start p g.stop) (hnd : p.Nodup) :
    (∃ m : Model, g.Selects p m ∧ (∀ t ∈ q.assertedTerms, t.holds m = .ok true) ∧
        ∃ n, m objectiveName = some (.num n) ∧ n.toInt = g.pathCost p) ∧
      ∀ m : Model, g.Selects p m → (∀ t ∈ q.assertedTerms, t.holds m = .ok true) →
        ∃ n, m objectiveName = some (.num n) ∧ n.toInt = g.pathCost p := by
  have hvalid := hg.built.valid
  have hcuts := hg.cutsCurrent
  obtain ⟨start, stop, r, hs, ht, hquery, -, hstates⟩ := Ite.states_of_emit hq
  have hknown : g.start ∈ g.blocks.map (·.uid) := Graph.known_of_block? hs
  simp only [Term.holds_eq_ok_iff]
  constructor
  · obtain ⟨m, hsel, hm⟩ := hr.exists_model hvalid hcuts.ids_nodup p (Ite.pathPrices g p)
    refine ⟨m, hsel, fun t htm => ?_, _, hm.objective, hr.toInt_pathCost hvalid hnd⟩
    rcases (Ite.mem_terms_iff hvalid hcuts.ids_nodup).mp (hstates.mem t htm) with
      ⟨d, hd, rfl⟩ | ⟨c, hc, rfl⟩ | hclosing
    · exact Ite.definition_holds hvalid hcuts hstart hknown hp hnd hsel hm hd
    · exact Ite.cut_holds hvalid hr hcuts hp hnd hm hc
    · exact Ite.closing_holds hvalid hr hp hnd hsel hm hs ht hquery hclosing
  · intro m hsel hholds
    have hdefs : ∀ d ∈ Ite.definitions g,
        (Term.equal (.var d.1) d.2).eval m = .ok (.bool true) := fun d hd =>
      hholds _ (Ite.mem_assertedTerms_of_mem_definitions hvalid hcuts.ids_nodup hstates hd)
    have hm := Ite.priced_of_holds hstart hp hsel hdefs
    obtain ⟨v, hvar, hvalue⟩ := Term.eval_equal_iff.mp
      (hdefs (objectiveName, Ite.costSum g g.uids g.edgeIds) (by simp [Ite.definitions]))
    rw [Ite.eval_objective hvalid hknown hp hnd hm] at hvalue
    rw [← hvalue] at hvar
    exact ⟨_, Term.eval_var_eq_ok_iff.mp hvar, hr.toInt_pathCost hvalid hnd⟩

/-- A path that leaves the regions of two cuts midway and goes all through that of a third. -/
theorem iteCosts_exact_bypassCut :
    let q := (Graph.bypassCut.emit {} Encoding.iteCosts.code false).1
    Graph.bypassCut.Walk 0 [0, 1, 2, 5] 5 ∧
      (∃ m : Model, Graph.bypassCut.Selects [0, 1, 2, 5] m ∧
        (∀ t ∈ q.assertedTerms, t.holds m = .ok true) ∧
        ∃ n, m "cost" = some (.num n) ∧ n.toInt = 18) ∧
      ∀ m : Model, Graph.bypassCut.Selects [0, 1, 2, 5] m →
        (∀ t ∈ q.assertedTerms, t.holds m = .ok true) →
        ∃ n, m "cost" = some (.num n) ∧ n.toInt = 18 := by
  have hemit : (Graph.bypassCut.emit {} Encoding.iteCosts.code false).2 =
      .ok { encoding := .iteCosts, paths := 3, cuts := 3, longest := 21 } := by
    decide
  have hexact := iteCosts_exact Graph.bypassCut_annotated Graph.bypassCut_regular
    (by decide) (Prod.ext rfl hemit) Graph.bypassCut_walk (by decide)
  rw [Graph.bypassCut_pathCost] at hexact
  exact ⟨Graph.bypassCut_walk, hexact⟩

end Encoding

end WorstCase
