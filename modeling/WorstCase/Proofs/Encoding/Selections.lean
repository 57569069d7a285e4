import WorstCase.Proofs.Encoding.IteCosts
import WorstCase.Proofs.Formula.Exact

/-!
# Selections of blocks and edges

A **selection** says of every block and every edge whether it is chosen, along a path or not. Under
a selection the equations of if-then-else costs leave the cost variables no choice over the
integers: those of blocks and edges are their costs or 0, and every sum of them is what the
selection costs (`Encoding.Ite.exact_costSum`). The values so determined are those of a model,
because the selectors and the generated names are pairwise different
(`Encoding.Ite.exists_exactModel`).
-/

namespace WorstCase

/-- A choice of blocks and edges. -/
structure Selection where
  block : Int → Bool
  edge : EdgeId → Bool

/-- What the chosen ones among blocks and edges cost. -/
def Selection.cost (σ : Selection) (blocks : List Block) (edges : List Edge) : ℤ :=
  (blocks.map fun b => if σ.block b.uid then b.cost.toInt else 0).sum +
    (edges.map fun e => if σ.edge e.id then e.cost.toInt else 0).sum

/-! ### Exact models given by tables -/

/-- The exact model that looks names up in a table. -/
def ExactModel.ofTable (table : List (String × ExactValue)) : ExactModel :=
  fun name => (table.find? (·.1 = name)).map (·.2)

theorem ExactModel.ofTable_eq_some {table : List (String × ExactValue)}
    (htable : (table.map (·.1)).Nodup) {name : String} {v : ExactValue} (h : (name, v) ∈ table) :
    ExactModel.ofTable table name = some v := by
  have hfind : table.find? (·.1 = name) = some (name, v) :=
    (find?_key_eq_some_iff htable).mpr ⟨h, rfl⟩
  rw [ofTable, hfind]
  rfl

namespace Graph

/-- An exact model makes the choices of a selection. -/
structure Chooses (g : Graph) (σ : Selection) (m : ExactModel) : Prop where
  block : ∀ b ∈ g.blocks, m b.selector = some (.bool (σ.block b.uid))
  edge : ∀ e ∈ g.edges, m e.selector = some (.bool (σ.edge e.id))

/-- The values of the selectors under a selection. -/
def choiceTable (g : Graph) (σ : Selection) : List (String × ExactValue) :=
  g.blocks.map (fun b => (b.selector, .bool (σ.block b.uid))) ++
    g.edges.map (fun e => (e.selector, .bool (σ.edge e.id)))

/-- The exact model of a selection that gives values to selectors only. -/
def choices (g : Graph) (σ : Selection) : ExactModel :=
  ExactModel.ofTable (g.choiceTable σ)

variable {g : Graph} {σ : Selection}

theorem DistinctSelectors.chooses_choices (hd : g.DistinctSelectors) (hg : g.Valid)
    (hcuts : (g.cuts.map (·.id)).Nodup) : g.Chooses σ (g.choices σ) := by
  have hnodup : ((g.choiceTable σ).map (·.1)).Nodup := by
    have hnames : (g.choiceTable σ).map (·.1) =
        g.blocks.map (·.selector) ++ g.edges.map Edge.selector := by
      simp only [choiceTable, List.map_append, List.map_map]
      rfl
    have hsub : (g.blocks.map (·.selector) ++ g.edges.map Edge.selector).Sublist
        (g.blocks.map (·.selector) ++ g.generatedNames) :=
      (List.sublist_append_left _ _).append_left _
    rw [hnames]
    exact (hd.names_nodup hg hcuts).sublist hsub
  have hlookup : ∀ {name x}, (name, x) ∈ g.choiceTable σ → g.choices σ name = some x :=
    ExactModel.ofTable_eq_some hnodup
  simp only [choiceTable, List.mem_append, List.mem_map] at hlookup
  exact ⟨fun b hb => hlookup (.inl ⟨b, hb, rfl⟩), fun e he => hlookup (.inr ⟨e, he, rfl⟩)⟩

end Graph

namespace Encoding.Ite

variable {g : Graph} {σ : Selection} {m : ExactModel}

/-! ### The values of cost variables -/

/-- The cost variables of blocks and edges are their costs where these are chosen, else 0. -/
structure Charged (g : Graph) (σ : Selection) (m : ExactModel) : Prop where
  block : ∀ b ∈ g.blocks, m b.costName = some (.num (if σ.block b.uid then b.cost.toInt else 0))
  edge : ∀ e ∈ g.edges, m e.costName = some (.num (if σ.edge e.id then e.cost.toInt else 0))

theorem exact_chosenCost {name : String} {x : Bool} (h : m name = some (.bool x)) (cost : Int64) :
    (chosenCost (.var name) cost).exact m = some (.num (if x then cost.toInt else 0)) := by
  have hname : (Term.var name).exact m = some (.bool x) := by
    rw [Term.exact_var, h]
  rw [chosenCost, Term.exact_ite hname]
  cases x <;> simp

/-- The value of a block. A block without dominator is charged in any case, so it has to be
chosen. -/
theorem exact_blockValue (hc : g.Chooses σ m) {b : Block} (hb : b ∈ g.blocks)
    (hstart : b.dominator < 0 → σ.block b.uid = true) :
    (blockValue b).exact m = some (.num (if σ.block b.uid then b.cost.toInt else 0)) := by
  unfold blockValue
  split
  · rename_i h
    rw [Bool.or_eq_true, Block.isStart, decide_eq_true_eq, beq_iff_eq] at h
    rcases h with h | h
    · rw [Term.exact_int, if_pos (hstart h)]
    · simp [h]
  · rw [Block.chosen, exact_chosenCost (hc.block b hb)]

theorem exact_edgeValue (hc : g.Chooses σ m) {e : Edge} (he : e ∈ g.edges) :
    (edgeValue e).exact m = some (.num (if σ.edge e.id then e.cost.toInt else 0)) := by
  unfold edgeValue
  split
  · rename_i h
    simp [beq_iff_eq.mp h]
  · rw [Edge.chosen, exact_chosenCost (hc.edge e he)]

/-- What costs nothing may be left out of a sum. -/
theorem sum_filter_ne_zero {α : Type} (cost : α → Int64) (chosen : α → Bool) (xs : List α) :
    ((xs.filter (cost · ≠ 0)).map fun x => if chosen x then (cost x).toInt else 0).sum =
      (xs.map fun x => if chosen x then (cost x).toInt else 0).sum := by
  induction xs with
  | nil => rfl
  | cons x xs ih =>
    rw [List.map_cons, List.sum_cons, ← ih]
    by_cases hx : cost x = 0
    · simp [hx]
    · simp [hx]

/-- **A sum of cost variables is what the selection costs.** -/
theorem exact_costSum (hm : Charged g σ m) (blocks : List Int) (edges : List EdgeId) :
    (costSum g blocks edges).exact m =
      some (.num (σ.cost (blocks.filterMap g.block?)
        (edges.filterMap fun id => g.edge? id.src id.dst))) := by
  have hvalues : (blockCosts (blocks.filterMap g.block?) ++
        edgeCosts (edges.filterMap fun id => g.edge? id.src id.dst)).map (Term.exact m) =
      ((((blocks.filterMap g.block?).filter (·.cost ≠ 0)).map fun b =>
          if σ.block b.uid then b.cost.toInt else 0) ++
        (((edges.filterMap fun id => g.edge? id.src id.dst).filter (·.cost ≠ 0)).map fun e =>
          if σ.edge e.id then e.cost.toInt else 0)).map fun n => some (.num n) := by
    rw [blockCosts, edgeCosts, List.map_append, List.map_append, List.map_map, List.map_map,
      List.map_map, List.map_map]
    congr 1
    · refine List.map_congr_left fun b hb => ?_
      obtain ⟨uid, -, huid⟩ := List.mem_filterMap.mp (List.mem_of_mem_filter hb)
      exact (Term.exact_var _).trans (hm.block b (Graph.mem_of_block? huid))
    · refine List.map_congr_left fun e he => ?_
      obtain ⟨id, -, hid⟩ := List.mem_filterMap.mp (List.mem_of_mem_filter he)
      exact (Term.exact_var _).trans (hm.edge e (Graph.mem_of_edge? hid))
  rw [costSum, Term.exact_sum hvalues, List.sum_append, sum_filter_ne_zero, sum_filter_ne_zero]
  rfl

/-- The definitions leave the cost variables no choice. -/
theorem charged_of_holds (hstart : ∀ b ∈ g.blocks, b.dominator < 0 → σ.block b.uid = true)
    (hc : g.Chooses σ m)
    (h : ∀ d ∈ definitions g, (Term.equal (.var d.1) d.2).exact m = some (.bool true)) :
    Charged g σ m := by
  simp only [definitions, List.mem_append, List.mem_cons, List.mem_map] at h
  refine ⟨fun b hb => ?_, fun e he => ?_⟩
  · obtain ⟨v, hvar, hvalue⟩ := Term.exact_equal_iff.mp (h _ (.inl ⟨b, hb, rfl⟩))
    rw [exact_blockValue hc hb (hstart b hb)] at hvalue
    rw [← hvalue] at hvar
    exact (Term.exact_var _).symm.trans hvar
  · obtain ⟨v, hvar, hvalue⟩ := Term.exact_equal_iff.mp (h _ (.inr (.inl ⟨e, he, rfl⟩)))
    rw [exact_edgeValue hc he] at hvalue
    rw [← hvalue] at hvar
    exact (Term.exact_var _).symm.trans hvar

/-! ### The model of a selection -/

/-- The values of all variables under a selection. -/
def exactTable (g : Graph) (σ : Selection) : List (String × ExactValue) :=
  g.blocks.map (fun b => (b.selector, .bool (σ.block b.uid))) ++
    (g.edges.map (fun e => (e.selector, .bool (σ.edge e.id))) ++
      (g.blocks.map (fun b => (b.costName, .num (if σ.block b.uid then b.cost.toInt else 0))) ++
        (g.edges.map (fun e => (e.costName, .num (if σ.edge e.id then e.cost.toInt else 0))) ++
          ((objectiveName, .num (σ.cost g.sortedBlocks g.sortedEdges)) ::
            g.cuts.map fun c => (c.costName, .num (σ.cost (c.blocks.filterMap g.block?)
              (c.edges.filterMap fun id => g.edge? id.src id.dst)))))))

/-- **Every selection of the start extends to a model of the definitions.** -/
theorem exists_exactModel (hg : g.Valid) (hcuts : (g.cuts.map (·.id)).Nodup)
    (hd : g.DistinctSelectors) (hstart : ∀ b ∈ g.blocks, b.dominator < 0 → σ.block b.uid = true) :
    ∃ m, g.Chooses σ m ∧
      ∀ d ∈ definitions g, (Term.equal (.var d.1) d.2).exact m = some (.bool true) := by
  have hnodup : ((exactTable g σ).map (·.1)).Nodup := by
    have hnames : (exactTable g σ).map (·.1) = g.blocks.map (·.selector) ++ g.generatedNames := by
      simp only [exactTable, Graph.generatedNames, List.map_append, List.map_map, List.map_cons]
      rfl
    rw [hnames]
    exact hd.names_nodup hg hcuts
  have hlookup : ∀ {name x}, (name, x) ∈ exactTable g σ →
      ExactModel.ofTable (exactTable g σ) name = some x :=
    ExactModel.ofTable_eq_some hnodup
  simp only [exactTable, List.mem_append, List.mem_cons, List.mem_map] at hlookup
  let m := ExactModel.ofTable (exactTable g σ)
  have hc : g.Chooses σ m :=
    ⟨fun b hb => hlookup (.inl ⟨b, hb, rfl⟩), fun e he => hlookup (.inr (.inl ⟨e, he, rfl⟩))⟩
  have hm : Charged g σ m :=
    ⟨fun b hb => hlookup (.inr (.inr (.inl ⟨b, hb, rfl⟩))),
      fun e he => hlookup (.inr (.inr (.inr (.inl ⟨e, he, rfl⟩))))⟩
  refine ⟨m, hc, fun d hdef => ?_⟩
  rw [Term.exact_equal_iff]
  simp only [definitions, List.mem_append, List.mem_cons, List.mem_map] at hdef
  rcases hdef with ⟨b, hb, rfl⟩ | ⟨e, he, rfl⟩ | rfl | ⟨c, hcut, rfl⟩
  · exact ⟨_, (Term.exact_var _).trans (hm.block b hb), exact_blockValue hc hb (hstart b hb)⟩
  · exact ⟨_, (Term.exact_var _).trans (hm.edge e he), exact_edgeValue hc he⟩
  · have hobjective : m objectiveName = some (.num (σ.cost g.sortedBlocks g.sortedEdges)) :=
      hlookup (.inr (.inr (.inr (.inr (.inl rfl)))))
    exact ⟨_, (Term.exact_var _).trans hobjective, exact_costSum hm g.uids g.edgeIds⟩
  · have hcost : m c.costName = some (.num (σ.cost (c.blocks.filterMap g.block?)
        (c.edges.filterMap fun id => g.edge? id.src id.dst))) :=
      hlookup (.inr (.inr (.inr (.inr (.inr ⟨c, hcut, rfl⟩)))))
    exact ⟨_, (Term.exact_var _).trans hcost, exact_costSum hm c.blocks c.edges⟩

end Encoding.Ite

end WorstCase
