import WorstCase.Formula.Eval
import WorstCase.Proofs.Encoding.Names
import WorstCase.Proofs.Formula.Holds

/-!
# Models of paths

A model **selects** a path when the selectors of blocks and edges are true exactly on it. Since the
selectors and the generated names are pairwise different, the cost variables of such a model can be
given any values (`Graph.DistinctSelectors.exists_model`): these are the models in which the
encodings are shown to hold.

`Graph.Regular` collects what the encodings ask of a graph. Costs are not negative and add up to
less than `2 ^ 62`, so that the sum of two costs still fits 64 bits.
-/

namespace WorstCase

/-! ### Models given by tables -/

/-- The model that looks names up in a table. -/
def Model.ofTable (table : List (String × Value)) : Model :=
  fun name => (table.find? (·.1 = name)).map (·.2)

theorem Model.ofTable_eq_some {table : List (String × Value)} (htable : (table.map (·.1)).Nodup)
    {name : String} {v : Value} (h : (name, v) ∈ table) : Model.ofTable table name = some v := by
  have hfind : table.find? (·.1 = name) = some (name, v) :=
    (find?_key_eq_some_iff htable).mpr ⟨h, rfl⟩
  rw [ofTable, hfind]
  rfl

namespace Graph

/-- What the encodings ask of a graph: every block can be reached from the start, costs are not
negative and do not add up to too much, and the selectors of the blocks differ from each other and
from all generated names. -/
structure Regular (g : Graph) : Prop where
  reachable : ∀ b ∈ g.blocks, g.Reaches g.start b.uid
  nonneg : g.Nonneg
  costMass_lt : g.costMass < 2 ^ 62
  selectors_nodup : (g.blocks.map (·.selector)).Nodup
  selectors_fresh : ∀ b ∈ g.blocks, b.selector ∉ g.generatedNames

/-- A model **selects** a path when it chooses exactly the blocks and edges along it. -/
structure Selects (g : Graph) (p : List Int) (m : Model) : Prop where
  block : ∀ b ∈ g.blocks, m b.selector = some (.bool (decide (b.uid ∈ p)))
  edge : ∀ e ∈ g.edges, m e.selector = some (.bool (decide (e.id ∈ pathEdges p)))

section Selects

variable {g : Graph} {p : List Int} {m : Model}

theorem Selects.eval_chosen (h : g.Selects p m) {b : Block} (hb : b ∈ g.blocks) :
    b.chosen.eval m = .ok (.bool (decide (b.uid ∈ p))) :=
  Term.eval_var_eq_ok_iff.mpr (h.block b hb)

theorem Selects.eval_taken (h : g.Selects p m) {e : Edge} (he : e ∈ g.edges) :
    e.chosen.eval m = .ok (.bool (decide (e.id ∈ pathEdges p))) :=
  Term.eval_var_eq_ok_iff.mpr (h.edge e he)

/-- The start and the end of a path are chosen. -/
theorem Selects.eval_ends (h : g.Selects p m) {a c : Int} (hp : g.Walk a p c) {start stop : Block}
    (hstart : g.block? a = some start) (hstop : g.block? c = some stop) :
    (Term.conj [start.chosen, stop.chosen]).eval m = .ok (.bool true) := by
  simp only [Term.eval_conj_iff, List.forall_mem_cons]
  refine ⟨?_, ?_, by simp⟩
  · rw [h.eval_chosen (mem_of_block? hstart), uid_of_block? hstart, decide_eq_true hp.head_mem]
  · rw [h.eval_chosen (mem_of_block? hstop), uid_of_block? hstop, decide_eq_true hp.last_mem]

end Selects

/-- Values for the cost variables of a graph. -/
structure Prices where
  block : Block → Int64
  edge : Edge → Int64
  objective : Int64
  cut : Cut → Int64

/-- The cost variables have the given values. -/
structure Prices.Given (v : Prices) (g : Graph) (m : Model) : Prop where
  block : ∀ b ∈ g.blocks, m b.costName = some (.num (v.block b))
  edge : ∀ e ∈ g.edges, m e.costName = some (.num (v.edge e))
  objective : m Encoding.objectiveName = some (.num v.objective)
  cut : ∀ c ∈ g.cuts, m c.costName = some (.num (v.cut c))

/-- The values of all variables, given a path and the values of the cost variables. -/
def pathTable (g : Graph) (p : List Int) (v : Prices) : List (String × Value) :=
  g.blocks.map (fun b => (b.selector, Value.bool (decide (b.uid ∈ p)))) ++
    (g.edges.map (fun e => (e.selector, Value.bool (decide (e.id ∈ pathEdges p)))) ++
      (g.blocks.map (fun b => (b.costName, Value.num (v.block b))) ++
        (g.edges.map (fun e => (e.costName, Value.num (v.edge e))) ++
          ((Encoding.objectiveName, Value.num v.objective) ::
            g.cuts.map fun c => (c.costName, Value.num (v.cut c))))))

theorem pathTable_names (g : Graph) (p : List Int) (v : Prices) :
    (g.pathTable p v).map (·.1) = g.blocks.map (·.selector) ++ g.generatedNames := by
  simp only [pathTable, generatedNames, List.map_append, List.map_map, List.map_cons]
  rfl

variable {g : Graph}

theorem Regular.reaches (hr : g.Regular) {x : Int} {b : Block} (hb : g.block? x = some b) :
    g.Reaches g.start x :=
  uid_of_block? hb ▸ hr.reachable b (mem_of_block? hb)

/-- The selectors of blocks differ from each other and from all generated names. -/
structure DistinctSelectors (g : Graph) : Prop where
  nodup : (g.blocks.map (·.selector)).Nodup
  fresh : ∀ b ∈ g.blocks, b.selector ∉ g.generatedNames

theorem DistinctSelectors.names_nodup (hd : g.DistinctSelectors) (hg : g.Valid)
    (hcuts : (g.cuts.map (·.id)).Nodup) :
    (g.blocks.map (·.selector) ++ g.generatedNames).Nodup := by
  refine List.nodup_append.mpr ⟨hd.nodup, generatedNames_nodup hg hcuts, ?_⟩
  rintro x hx y hy rfl
  obtain ⟨b, hb, rfl⟩ := List.mem_map.mp hx
  exact hd.fresh b hb hy

theorem Regular.distinctSelectors (hr : g.Regular) : g.DistinctSelectors :=
  ⟨hr.selectors_nodup, hr.selectors_fresh⟩

/-- **There is a model for every path and all values of the cost variables.** -/
theorem DistinctSelectors.exists_model (hd : g.DistinctSelectors) (hg : g.Valid)
    (hcuts : (g.cuts.map (·.id)).Nodup) (p : List Int) (v : Prices) :
    ∃ m, g.Selects p m ∧ v.Given g m := by
  have hlookup : ∀ {name x}, (name, x) ∈ g.pathTable p v →
      Model.ofTable (g.pathTable p v) name = some x :=
    Model.ofTable_eq_some (pathTable_names g p v ▸ hd.names_nodup hg hcuts)
  simp only [pathTable, List.mem_append, List.mem_cons, List.mem_map] at hlookup
  refine ⟨Model.ofTable (g.pathTable p v), ⟨fun b hb => ?_, fun e he => ?_⟩,
    ⟨fun b hb => ?_, fun e he => ?_, ?_, fun c hc => ?_⟩⟩
  · exact hlookup (.inl ⟨b, hb, rfl⟩)
  · exact hlookup (.inr (.inl ⟨e, he, rfl⟩))
  · exact hlookup (.inr (.inr (.inl ⟨b, hb, rfl⟩)))
  · exact hlookup (.inr (.inr (.inr (.inl ⟨e, he, rfl⟩))))
  · exact hlookup (.inr (.inr (.inr (.inr (.inl rfl)))))
  · exact hlookup (.inr (.inr (.inr (.inr (.inr ⟨c, hc, rfl⟩)))))

theorem Regular.exists_model (hr : g.Regular) (hg : g.Valid) (hcuts : (g.cuts.map (·.id)).Nodup)
    (p : List Int) (v : Prices) : ∃ m, g.Selects p m ∧ v.Given g m :=
  hr.distinctSelectors.exists_model hg hcuts p v

/-! ### Costs that fit 64 bits -/

theorem Valid.toInt_pathCost (hg : g.Valid) (hmass : g.costMass < 2 ^ 63) {p : List Int}
    (hp : p.Nodup) : (Int64.ofInt (g.pathCost p)).toInt = g.pathCost p :=
  toInt_ofInt_of_natAbs_lt ((hg.natAbs_pathCost_le hp).trans_lt hmass)

theorem Valid.toInt_insideCost (hg : g.Valid) (hn : g.Nonneg) (hmass : g.costMass < 2 ^ 63)
    {p : List Int} (hp : p.Nodup) (blocks : List Int) (edges : List EdgeId) :
    (Int64.ofInt (g.insideCost blocks edges p)).toInt = g.insideCost blocks edges p := by
  have hlow : 0 ≤ g.insideCost blocks edges p := hn.insideCost_nonneg p
  have hhigh : g.insideCost blocks edges p ≤ g.pathCost p := hn.insideCost_le_pathCost p
  have hpath : (g.pathCost p).natAbs ≤ g.costMass := hg.natAbs_pathCost_le hp
  exact toInt_ofInt_of_natAbs_lt (by omega)

theorem Regular.toInt_pathCost (hr : g.Regular) (hg : g.Valid) {p : List Int} (hp : p.Nodup) :
    (Int64.ofInt (g.pathCost p)).toInt = g.pathCost p :=
  hg.toInt_pathCost (hr.costMass_lt.trans (by decide)) hp

theorem Regular.toInt_insideCost (hr : g.Regular) (hg : g.Valid) {p : List Int} (hp : p.Nodup)
    (blocks : List Int) (edges : List EdgeId) :
    (Int64.ofInt (g.insideCost blocks edges p)).toInt = g.insideCost blocks edges p :=
  hg.toInt_insideCost hr.nonneg (hr.costMass_lt.trans (by decide)) hp blocks edges

theorem toInt_add_of_natAbs_lt {x y : Int64} (hx : x.toInt.natAbs < 2 ^ 62)
    (hy : y.toInt.natAbs < 2 ^ 62) : (x + y).toInt = x.toInt + y.toInt := by
  rw [Int64.toInt_add]
  exact Int.bmod_eq_of_le (by omega) (by omega)

theorem toInt_sub_of_natAbs_lt {x y : Int64} (hx : x.toInt.natAbs < 2 ^ 62)
    (hy : y.toInt.natAbs < 2 ^ 62) : (x - y).toInt = x.toInt - y.toInt := by
  rw [Int64.toInt_sub]
  exact Int.bmod_eq_of_le (by omega) (by omega)

/-- The cost of an edge and that of a block add up without wrapping. -/
theorem Regular.toInt_add_cost (hr : g.Regular) {e : Edge} {b : Block} (he : e ∈ g.edges)
    (hb : b ∈ g.blocks) :
    (e.cost + b.cost).toInt = e.cost.toInt + b.cost.toInt :=
  toInt_add_of_natAbs_lt ((natAbs_edgeCost_le_costMass he).trans_lt hr.costMass_lt)
    ((natAbs_blockCost_le_costMass hb).trans_lt hr.costMass_lt)

/-- **The bounds of the objective hold** where its value is the cost of a path. -/
theorem Valid.eval_objectiveBounds (hg : g.Valid) (hn : g.Nonneg) (hmass : g.costMass < 2 ^ 63)
    {p : List Int} (hp : g.Walk g.start p g.stop) (hnd : p.Nodup) {r : LongestPath}
    (hquery : g.longestPath g.start g.stop = .ok r) {m : Model} {objective : Term} {n : Int64}
    (hobjective : objective.eval m = .ok (.num n)) (hcost : n.toInt = g.pathCost p) :
    (Term.conj [.le (.int 0) objective, .le objective (.int r.cost)]).eval m =
      .ok (.bool true) := by
  have hhigh : g.pathCost p ≤ r.cost.toInt := hg.pathCost_le_longestPath hmass hquery hp hnd
  simp only [Term.eval_conj_iff, List.forall_mem_cons, Term.eval_le_iff]
  refine ⟨⟨_, _, Term.eval_int _, hobjective, ?_⟩, ⟨_, _, hobjective, Term.eval_int _, ?_⟩,
    by simp⟩
  · rw [Int64.le_iff_toInt_le, hcost]
    exact hn.pathCost p
  · rw [Int64.le_iff_toInt_le, hcost]
    exact hhigh

theorem Regular.eval_objectiveBounds (hr : g.Regular) (hg : g.Valid) {p : List Int}
    (hp : g.Walk g.start p g.stop) (hnd : p.Nodup) {r : LongestPath}
    (hquery : g.longestPath g.start g.stop = .ok r) {m : Model} {objective : Term} {n : Int64}
    (hobjective : objective.eval m = .ok (.num n)) (hn : n.toInt = g.pathCost p) :
    (Term.conj [.le (.int 0) objective, .le objective (.int r.cost)]).eval m =
      .ok (.bool true) :=
  hg.eval_objectiveBounds hr.nonneg (hr.costMass_lt.trans (by decide)) hp hnd hquery hobjective hn

/-! ### A regular graph -/

/-- A graph in which block 2 leads to the end directly and by way of block 4. -/
def bypass : Graph where
  blocks :=
    [ { uid := 0, selector := "bs_0", written := "bs_0", cost := 3 },
      { uid := 1, selector := "b_1", written := "b_1", cost := 4, dominator := 0 },
      { uid := 2, selector := "b_2", written := "b_2", cost := 5, dominator := 1 },
      { uid := 3, selector := "b_3", written := "b_3", cost := 9, dominator := 1 },
      { uid := 4, selector := "b_4", written := "b_4", cost := 0, dominator := 1 },
      { uid := 5, selector := "b_5", written := "b_5", cost := 2, dominator := 1 } ]
  edges :=
    [ ⟨⟨0, 1⟩, 0⟩, ⟨⟨1, 2⟩, 1⟩, ⟨⟨1, 3⟩, 0⟩, ⟨⟨2, 4⟩, 6⟩, ⟨⟨3, 4⟩, 0⟩, ⟨⟨2, 5⟩, 3⟩, ⟨⟨4, 5⟩, 0⟩ ]
  start := 0
  stop := 5

theorem bypass_built : bypass.Built :=
  .annotate
    ((Built.empty.foldlM_addBlock
      (show bypass.blocks.foldlM addBlock {} = .ok { blocks := bypass.blocks } by
        decide)).foldlM_addEdge
      (show bypass.edges.foldlM addEdge { blocks := bypass.blocks } =
          .ok { bypass with start := noDominator, stop := noDominator } by
        decide))
    (.endpoints (show Graph.setEndpoints _ 0 5 = .ok bypass by decide))

/-- The same graph with its dominator cuts, and the cut from the start to block 4. -/
def bypassCut : Graph :=
  (bypass.addDominatorCuts.graph.addSemanticCuts [[⟨0, 4⟩]]).graph

theorem bypassCut_annotated : bypassCut.Annotated :=
  ⟨bypass, bypass_built, rfl,
    .tail (.single (.dominatorCuts bypass)) (.semanticCuts bypass.addDominatorCuts.graph _)⟩

theorem bypassCut_arc {a b : Int} (h : bypass.Arc a b) : bypassCut.Arc a b := by
  have hedges : bypassCut.edges = bypass.edges := by decide
  rwa [Arc, hedges]

theorem bypassCut_regular : bypassCut.Regular where
  reachable := by
    have h01 : bypassCut.Reaches 0 1 := .single (bypassCut_arc (by decide))
    have h02 : bypassCut.Reaches 0 2 := h01.tail (bypassCut_arc (by decide))
    have h03 : bypassCut.Reaches 0 3 := h01.tail (bypassCut_arc (by decide))
    have h04 : bypassCut.Reaches 0 4 := h02.tail (bypassCut_arc (by decide))
    have h05 : bypassCut.Reaches 0 5 := h02.tail (bypassCut_arc (by decide))
    have hblocks : bypassCut.blocks = bypass.blocks := by decide
    have hstart : bypassCut.start = 0 := by decide
    rw [hblocks, hstart]
    simp only [bypass, List.forall_mem_cons]
    exact ⟨.refl, h01, h02, h03, h04, h05, by simp⟩
  nonneg := ⟨by decide, by decide⟩
  costMass_lt := by decide
  selectors_nodup := by decide
  selectors_fresh := by decide

theorem bypassCut_walk :
    bypassCut.Walk bypassCut.start [0, 1, 2, 5] bypassCut.stop := by
  have hstart : bypassCut.start = 0 := by decide
  have hstop : bypassCut.stop = 5 := by decide
  rw [hstart, hstop]
  exact .step (bypassCut_arc (by decide)) (.step (bypassCut_arc (by decide))
    (.step (bypassCut_arc (by decide)) (.single 5)))

theorem bypassCut_pathCost : bypassCut.pathCost [0, 1, 2, 5] = 18 := by
  decide

end Graph

end WorstCase
