import WorstCase.Proofs.Encoding.AssertSoft
import WorstCase.Proofs.Formula.Declared

/-!
# Emitted problems are closed

The constants of a problem are declared next to the constraints of the block, edge or cut that they
stand for: the objective and the costs, each by its generated name. In all encodings these are
different names (`Encoding.constants_names_nodup`), so what an emitted problem declares can be
listed (`Encoding.declarations_of_emit`): no name twice, and never a selector, provided that the
variables of the blocks are no generated names.

The constraints speak of the selectors of blocks and edges and of these constants only, also where
they leave out what costs nothing or is not there (`Encoding.Ite.over_entityTerms` and so on).
Hence the problem is closed over the selectors of the graph.
-/

namespace WorstCase

namespace Graph

/-- The variables that say which blocks and edges are chosen. -/
def selectors (g : Graph) : List String :=
  g.blocks.map (·.selector) ++ g.edges.map Edge.selector

/-- The generated names of costs and of the objective. -/
def costNames (g : Graph) : List String :=
  g.blocks.map Block.costName ++ (g.edges.map Edge.costName ++
    (Encoding.objectiveName :: g.cuts.map Cut.costName))

variable {g : Graph}

theorem selector_mem_of_block {b : Block} (hb : b ∈ g.blocks) : b.selector ∈ g.selectors :=
  List.mem_append_left _ (List.mem_map_of_mem hb)

theorem selector_mem_of_edge {e : Edge} (he : e ∈ g.edges) : e.selector ∈ g.selectors :=
  List.mem_append_right _ (List.mem_map_of_mem he)

end Graph

namespace Encoding

open Problem

variable {g : Graph} {enc : Encoding}

/-! ### What is declared -/

/-- The costs of blocks and edges as constants. -/
def entityConstants (g : Graph) : List (String × TermSort) :=
  (g.sortedBlocks.map fun b => (b.costName, .int)) ++
    g.sortedEdges.map fun e => (e.costName, .int)

/-- The constants that a problem declares. -/
def constants (enc : Encoding) (g : Graph) : List (String × TermSort) :=
  match enc with
  | .iteCosts =>
    ((objectiveName, .int) :: entityConstants g) ++ g.sortedCuts.map fun c => (c.costName, .int)
  | .assertSoft => (objectiveName, .real) :: g.sortedCuts.map fun c => (c.costName, .real)
  | .differenceLogic => entityConstants g

theorem Soft.declares_block (group : String) (p : Problem) (b : Block) :
    Declares p (Soft.block group p b) [] := by
  unfold Soft.block
  split
  · exact .assertSoft _ _
  · rfl

theorem Soft.declares_edge (group : String) (p : Problem) (e : Edge) :
    Declares p (Soft.edge group p e) [] := by
  unfold Soft.edge
  split
  · exact .assertSoft _ _
  · rfl

theorem Difference.declares_block (g : Graph) (p : Problem) (b : Block) :
    Declares p (Difference.block g p b) [(b.costName, .int)] := by
  have hdeclare := Declares.declare p b.costName .int
  unfold Difference.block
  rcases (g.preds b.uid).filterMap (Difference.bound g b) with _ | ⟨t, ts⟩
  · exact hdeclare.trans (.assert _ _)
  · exact hdeclare.trans (.assert _ _)

theorem Difference.declares_edge (impliesEnds : Bool) (g : Graph) (p : Problem) (e : Edge) :
    Declares p (Difference.edge impliesEnds g p e) [(e.costName, .int)] := by
  have hdeclare := Declares.declare p e.costName .int
  unfold Difference.edge
  rcases g.block? e.id.src with _ | src
  · exact hdeclare
  rcases g.block? e.id.dst with _ | dst
  · exact hdeclare
  cases impliesEnds with
  | false => exact hdeclare.trans (.assert _ _)
  | true => exact (hdeclare.trans (.assert _ _)).trans (.assert _ _)

theorem Difference.declares_cut (g : Graph) (p : Problem) (c : Cut) :
    Declares p (Difference.cut g p c) [] := by
  unfold Difference.cut
  rcases g.block? c.id.head with _ | head
  · rfl
  rcases g.block? c.id.tail with _ | tail
  · rfl
  · exact .assert _ _

theorem Ite.declares_entities (g : Graph) (p : Problem) :
    Declares p (Ite.entities g p).1 ((objectiveName, .int) :: entityConstants g) := by
  have hblock : ∀ p b, Declares p (Ite.block p b) [(b.costName, .int)] := fun p b =>
    (Declares.declare p _ _).trans (.assert _ _)
  have hedge : ∀ p e, Declares p (Ite.edge p e) [(e.costName, .int)] := fun p e =>
    (Declares.declare p _ _).trans (.assert _ _)
  have hcosts := ((Declares.declare p objectiveName .int).trans
    (Declares.accumulates.foldl_map hblock _ g.sortedBlocks)).trans
    (Declares.accumulates.foldl_map hedge _ g.sortedEdges)
  have hsum := hcosts.trans (.assert _ (.equal (.var objectiveName)
    (.sum (Ite.blockCosts g.sortedBlocks ++ Ite.edgeCosts g.sortedEdges))))
  rw [List.append_nil] at hsum
  exact hsum

theorem Soft.declares_entities (g : Graph) (p : Problem) :
    Declares p (Soft.entities g p).1 [(objectiveName, .real)] :=
  ((Declares.declare p _ _).trans
    (Declares.accumulates.foldl_nil (Soft.declares_block _) _ _)).trans
    (Declares.accumulates.foldl_nil (Soft.declares_edge _) _ _)

theorem Soft.declares_cut (g : Graph) (p : Problem) (c : Cut) :
    Declares p (Soft.cut g p c) [(c.costName, .real)] :=
  (((Declares.declare p _ _).trans
    (Declares.accumulates.foldl_nil (Soft.declares_block _) _ _)).trans
    (Declares.accumulates.foldl_nil (Soft.declares_edge _) _ _)).trans (.assert _ _)

theorem Difference.declares_entities (impliesEnds : Bool) (g : Graph) (stop : Block)
    (p : Problem) :
    Declares p (Difference.entities impliesEnds g stop p).1 (entityConstants g) :=
  (Declares.accumulates.foldl_map (Difference.declares_block g) p g.sortedBlocks).trans
    (Declares.accumulates.foldl_map (Difference.declares_edge impliesEnds g) _ g.sortedEdges)

/-- Blocks, edges and cuts declare the constants of the encoding in this order. -/
theorem declares_constants (enc : Encoding) (impliesEnds : Bool) (g : Graph) (stop : Block)
    (p : Problem) :
    Declares p (g.sortedCuts.foldl (enc.emitCut g) (enc.emitEntities impliesEnds g stop p).1)
      (enc.constants g) := by
  cases enc with
  | iteCosts =>
    have hcut : ∀ p c, Declares p (Ite.cut g p c) [(c.costName, .int)] := fun p c =>
      ((Declares.declare p _ _).trans (.assert _ _)).trans (.assert _ _)
    exact (Ite.declares_entities g p).trans (Declares.accumulates.foldl_map hcut _ _)
  | assertSoft =>
    exact (Soft.declares_entities g p).trans
      (Declares.accumulates.foldl_map (Soft.declares_cut g) _ _)
  | differenceLogic =>
    have hall := (Difference.declares_entities impliesEnds g stop p).trans
      (Declares.accumulates.foldl_nil (Difference.declares_cut g) _ g.sortedCuts)
    rw [List.append_nil] at hall
    exact hall

theorem declares_of_emit {impliesEnds : Bool} {p q : Problem} {stats : EmitStats}
    (h : g.emit p enc.code impliesEnds = (q, .ok stats)) : Declares p q (enc.constants g) := by
  obtain ⟨start, stop, r, -, -, -, -, rfl⟩ := Graph.emit_eq_ok h
  have hconstraints : Declares p (g.constraints enc impliesEnds start stop p).1
      (enc.constants g ++ []) :=
    (declares_constants enc impliesEnds g stop p).trans
      (.assert _ (.conj [start.chosen, stop.chosen]))
  have hbounds := (hconstraints.trans (.assert _ (.conj [.le (.int 0)
    (g.constraints enc impliesEnds start stop p).2,
    .le (g.constraints enc impliesEnds start stop p).2 (.int stats.longest)]))).trans
    (.addObjective _ { goal := .maximize, term := (g.constraints enc impliesEnds start stop p).2,
                       lower := some 0, upper := some stats.longest })
  have hend := hbounds.trans (.addComments _ stats.comments)
  rw [List.append_nil, List.append_nil, List.append_nil, List.append_nil] at hend
  exact hend

/-! ### The names of what is declared -/

/-- All constants have generated names, each its own. -/
theorem constants_names_subperm (hg : g.Valid) (hcuts : (g.cuts.map (·.id)).Nodup)
    (enc : Encoding) : ((enc.constants g).map (·.1)).Subperm g.costNames := by
  have hblocks : (g.sortedBlocks.map Block.costName).Perm (g.blocks.map Block.costName) :=
    hg.sortedBlocks_perm.map _
  have hedges : (g.sortedEdges.map Edge.costName).Perm (g.edges.map Edge.costName) :=
    hg.sortedEdges_perm.map _
  have hcutNames : (g.sortedCuts.map Cut.costName).Perm (g.cuts.map Cut.costName) :=
    (Graph.sortedCuts_perm hcuts).map _
  have hentities : (entityConstants g).map (·.1) =
      g.sortedBlocks.map Block.costName ++ g.sortedEdges.map Edge.costName := by
    rw [entityConstants, List.map_append, List.map_map, List.map_map]
    rfl
  cases enc with
  | iteCosts =>
    have hnames : (iteCosts.constants g).map (·.1) = objectiveName ::
        (g.sortedBlocks.map Block.costName ++ g.sortedEdges.map Edge.costName ++
          g.sortedCuts.map Cut.costName) := by
      rw [constants, List.map_append, List.map_cons, hentities, List.map_map]
      rfl
    rw [hnames, Graph.costNames, ← List.append_assoc]
    exact (List.perm_middle.symm.trans
      ((hblocks.append hedges).append (hcutNames.cons _))).subperm
  | assertSoft =>
    have hnames : (assertSoft.constants g).map (·.1) =
        objectiveName :: g.sortedCuts.map Cut.costName := by
      rw [constants, List.map_cons, List.map_map]
      rfl
    rw [hnames, Graph.costNames, ← List.append_assoc]
    exact (hcutNames.cons _).subperm.trans (List.sublist_append_right _ _).subperm
  | differenceLogic =>
    rw [constants, hentities, Graph.costNames, ← List.append_assoc]
    exact (hblocks.append hedges).subperm.trans (List.sublist_append_left _ _).subperm

theorem constants_names_nodup (hg : g.Valid) (hcuts : (g.cuts.map (·.id)).Nodup)
    (enc : Encoding) : ((enc.constants g).map (·.1)).Nodup := by
  obtain ⟨l, hl, hsub⟩ := constants_names_subperm hg hcuts enc
  have hcosts : g.costNames.Nodup :=
    (Graph.generatedNames_nodup hg hcuts).sublist (List.sublist_append_right _ _)
  exact hl.nodup_iff.mp (hcosts.sublist hsub)

theorem mem_generatedNames_of_constant (hg : g.Valid) (hcuts : (g.cuts.map (·.id)).Nodup)
    {name : String} (h : name ∈ (enc.constants g).map (·.1)) : name ∈ g.generatedNames :=
  List.mem_append_right _ ((constants_names_subperm hg hcuts enc).subset h)

/-- **What an emitted problem declares**: each constant of the encoding once. -/
theorem declarations_of_emit (hg : g.Valid) (hcuts : (g.cuts.map (·.id)).Nodup)
    {impliesEnds : Bool} {p q : Problem} {stats : EmitStats} (hp : p.declarations = [])
    (h : g.emit p enc.code impliesEnds = (q, .ok stats)) :
    q.declarations = (enc.constants g).map fun c => .ofConstant c.1 c.2 :=
  (declares_of_emit h).declarations_eq hp (constants_names_nodup hg hcuts enc) fun _ hname =>
    Graph.space_notMem_of_mem_generatedNames (mem_generatedNames_of_constant hg hcuts hname)

/-- No constant has the name of a selector. -/
theorem selector_notMem_constants (hg : g.Valid) (hcuts : (g.cuts.map (·.id)).Nodup)
    (hfresh : ∀ b ∈ g.blocks, b.selector ∉ g.generatedNames) {name : String}
    (hname : name ∈ g.selectors) : name ∉ (enc.constants g).map (·.1) := by
  intro hconstant
  rcases List.mem_append.mp hname with hblock | hedge
  · obtain ⟨b, hb, rfl⟩ := List.mem_map.mp hblock
    exact hfresh b hb (mem_generatedNames_of_constant hg hcuts hconstant)
  · have hcost : name ∈ g.costNames := (constants_names_subperm hg hcuts enc).subset hconstant
    exact (List.nodup_append.mp (Graph.generatedNames_nodup hg hcuts)).2.2 _ hedge _ hcost rfl

/-! ### The names in what is asserted -/

/-- What an encoding may speak of: the selectors of the graph and its constants. -/
def Speaks (enc : Encoding) (g : Graph) (name : String) : Prop :=
  name ∈ g.selectors ∨ name ∈ (enc.constants g).map (·.1)

theorem speaks_block {b : Block} (hb : b ∈ g.blocks) : enc.Speaks g b.selector :=
  .inl (Graph.selector_mem_of_block hb)

theorem speaks_edge {e : Edge} (he : e ∈ g.edges) : enc.Speaks g e.selector :=
  .inl (Graph.selector_mem_of_edge he)

theorem over_chosen {b : Block} (hb : b ∈ g.blocks) : b.chosen.Over (enc.Speaks g) :=
  Term.over_var.mpr (speaks_block hb)

theorem over_taken {e : Edge} (he : e ∈ g.edges) : e.chosen.Over (enc.Speaks g) :=
  Term.over_var.mpr (speaks_edge he)

theorem over_closingTerms {start stop : Block} (hstart : start ∈ g.blocks) (hstop : stop ∈ g.blocks)
    {objective : Term} (hobjective : objective.Over (enc.Speaks g)) (longest : Int64) :
    ∀ t ∈ Graph.closingTerms start stop objective longest, t.Over (enc.Speaks g) := by
  simp [Graph.closingTerms, over_chosen hstart, over_chosen hstop, hobjective]

namespace Ite

variable (hg : g.Valid)

include hg

theorem over_blockCost {b : Block} (hb : b ∈ g.blocks) :
    b.costTerm.Over (iteCosts.Speaks g) := by
  refine Term.over_var.mpr (.inr ?_)
  have hmem : (b.costName, TermSort.int) ∈ entityConstants g :=
    List.mem_append_left _ (List.mem_map_of_mem (hg.mem_sortedBlocks.mpr hb))
  exact List.mem_map_of_mem (List.mem_append_left _ (List.mem_cons_of_mem _ hmem))

theorem over_edgeCost {e : Edge} (he : e ∈ g.edges) : e.costTerm.Over (iteCosts.Speaks g) := by
  refine Term.over_var.mpr (.inr ?_)
  have hmem : (e.costName, TermSort.int) ∈ entityConstants g :=
    List.mem_append_right _ (List.mem_map_of_mem (hg.mem_sortedEdges.mpr he))
  exact List.mem_map_of_mem (List.mem_append_left _ (List.mem_cons_of_mem _ hmem))

omit hg in
theorem over_objective : (Term.var objectiveName).Over (iteCosts.Speaks g) :=
  Term.over_var.mpr (.inr (List.mem_map_of_mem (List.mem_append_left _ List.mem_cons_self)))

omit hg in
theorem over_cutCost {c : Cut} (hc : c ∈ g.sortedCuts) :
    (Term.var c.costName).Over (iteCosts.Speaks g) :=
  Term.over_var.mpr (.inr (List.mem_map_of_mem (List.mem_append_right _ (List.mem_map_of_mem hc))))

theorem over_costSum (blocks : List Int) (edges : List EdgeId) :
    (costSum g blocks edges).Over (iteCosts.Speaks g) := by
  simp only [costSum, blockCosts, edgeCosts, Term.over_sum, List.mem_append, List.mem_map,
    List.mem_filter, List.mem_filterMap]
  rintro t (⟨b, ⟨⟨uid, -, hb⟩, -⟩, rfl⟩ | ⟨e, ⟨⟨id, -, he⟩, -⟩, rfl⟩)
  · exact over_blockCost hg (Graph.mem_of_block? hb)
  · exact over_edgeCost hg (Graph.mem_of_edge? he)

theorem over_entityTerms : ∀ t ∈ entityTerms g, t.Over (iteCosts.Speaks g) := by
  simp only [entityTerms, List.mem_append, List.mem_flatMap, List.mem_singleton]
  rintro t ((⟨b, hb, rfl⟩ | ⟨e, he, rfl⟩) | rfl)
  · have hb' := hg.mem_sortedBlocks.mp hb
    have hvalue : (blockValue b).Over (iteCosts.Speaks g) := by
      unfold blockValue
      split <;> simp [chosenCost, over_chosen hb']
    exact Term.over_equal.mpr ⟨over_blockCost hg hb', hvalue⟩
  · have he' := hg.mem_sortedEdges.mp he
    have hvalue : (edgeValue e).Over (iteCosts.Speaks g) := by
      unfold edgeValue
      split <;> simp [chosenCost, over_taken he']
    exact Term.over_equal.mpr ⟨over_edgeCost hg he', hvalue⟩
  · exact Term.over_equal.mpr ⟨over_objective, over_costSum hg _ _⟩

theorem over_cutTerms {c : Cut} (hc : c ∈ g.sortedCuts) :
    ∀ t ∈ cutTerms g c, t.Over (iteCosts.Speaks g) := by
  simp [cutTerms, over_cutCost hc, over_costSum hg]

end Ite

namespace Soft

theorem over_objective : (Term.var objectiveName).Over (assertSoft.Speaks g) :=
  Term.over_var.mpr (.inr (List.mem_map_of_mem List.mem_cons_self))

theorem over_cutCost {c : Cut} (hc : c ∈ g.sortedCuts) :
    (Term.var c.costName).Over (assertSoft.Speaks g) :=
  Term.over_var.mpr (.inr (List.mem_map_of_mem
    (List.mem_cons_of_mem _ (List.mem_map_of_mem hc))))

/-- Soft assertions are on the selectors of blocks and edges. -/
theorem over_of_mem_ofAll {group : String} {blocks : List Block} {edges : List Edge}
    (hblocks : ∀ b ∈ blocks, b ∈ g.blocks) (hedges : ∀ e ∈ edges, e ∈ g.edges)
    {s : SoftAssertion} (h : s ∈ ofAll group blocks edges) : s.term.Over (assertSoft.Speaks g) := by
  simp only [ofAll, List.mem_append, List.mem_flatMap] at h
  rcases h with ⟨b, hb, hs⟩ | ⟨e, he, hs⟩
  · unfold ofBlock at hs
    split at hs
    · rw [List.mem_singleton.mp hs]
      exact Term.over_not.mpr (over_chosen (hblocks b hb))
    · simp at hs
  · unfold ofEdge at hs
    split at hs
    · rw [List.mem_singleton.mp hs]
      exact Term.over_not.mpr (over_taken (hedges e he))
    · simp at hs

theorem speaks_soft (hg : g.Valid) {s : SoftAssertion}
    (h : s ∈ ofAll objectiveName g.sortedBlocks g.sortedEdges ++ g.sortedCuts.flatMap (ofCut g)) :
    assertSoft.Speaks g s.group ∧ s.term.Over (assertSoft.Speaks g) := by
  rcases List.mem_append.mp h with h | h
  · rw [group_of_mem_ofAll h]
    exact ⟨Term.over_var.mp over_objective,
      over_of_mem_ofAll (fun b hb => hg.mem_sortedBlocks.mp hb)
        (fun e he => hg.mem_sortedEdges.mp he) h⟩
  · obtain ⟨c, hc, h⟩ := List.mem_flatMap.mp h
    rw [group_of_mem_ofAll h]
    refine ⟨Term.over_var.mp (over_cutCost hc),
      over_of_mem_ofAll (fun b hb => ?_) (fun e he => ?_) h⟩
    · obtain ⟨uid, -, huid⟩ := List.mem_filterMap.mp hb
      exact Graph.mem_of_block? huid
    · obtain ⟨id, -, hid⟩ := List.mem_filterMap.mp he
      exact Graph.mem_of_edge? hid

end Soft

namespace Difference

theorem over_blockCost (hg : g.Valid) {b : Block} (hb : b ∈ g.blocks) :
    b.costTerm.Over (differenceLogic.Speaks g) :=
  Term.over_var.mpr (.inr (List.mem_map_of_mem
    (List.mem_append_left _ (List.mem_map_of_mem (hg.mem_sortedBlocks.mpr hb)))))

theorem over_blockTerm (hg : g.Valid) {b : Block} (hb : b ∈ g.blocks) :
    (blockTerm g b).Over (differenceLogic.Speaks g) := by
  have hbound : ∀ t ∈ (g.preds b.uid).filterMap (bound g b), t.Over (differenceLogic.Speaks g) := by
    intro t ht
    obtain ⟨uid, -, ht⟩ := List.mem_filterMap.mp ht
    obtain ⟨pred, hpred, rfl⟩ := Option.map_eq_some_iff.mp ht
    simp [over_blockCost hg hb, over_blockCost hg (Graph.mem_of_block? hpred)]
  unfold blockTerm
  split
  · simp [over_blockCost hg hb]
  · exact Term.over_imply.mpr ⟨over_chosen hb, Term.over_disj.mpr hbound⟩

theorem over_edgeTerms (hg : g.Valid) (impliesEnds : Bool) {e : Edge} (he : e ∈ g.edges) :
    ∀ t ∈ edgeTerms impliesEnds g e, t.Over (differenceLogic.Speaks g) := by
  unfold edgeTerms
  split
  · rename_i src dst hsrc hdst
    have hs := Graph.mem_of_block? hsrc
    have hd := Graph.mem_of_block? hdst
    cases impliesEnds <;>
      simp [over_taken he, over_chosen hs, over_chosen hd, over_blockCost hg hs,
        over_blockCost hg hd]
  · simp

theorem over_entityTerms (hg : g.Valid) (impliesEnds : Bool) :
    ∀ t ∈ entityTerms impliesEnds g, t.Over (differenceLogic.Speaks g) := by
  simp only [entityTerms, List.mem_append, List.mem_flatMap, List.mem_singleton]
  rintro t (⟨b, hb, rfl⟩ | ⟨e, he, ht⟩)
  · exact over_blockTerm hg (hg.mem_sortedBlocks.mp hb)
  · exact over_edgeTerms hg impliesEnds (hg.mem_sortedEdges.mp he) t ht

theorem over_cutTerms (hg : g.Valid) (c : Cut) :
    ∀ t ∈ cutTerms g c, t.Over (differenceLogic.Speaks g) := by
  unfold cutTerms
  split
  · rename_i head tail hhead htail
    simp [over_blockCost hg (Graph.mem_of_block? hhead),
      over_blockCost hg (Graph.mem_of_block? htail)]
  · simp

end Difference

/-! ### Closed problems -/

/-- The problem has declared what its encoding speaks of besides selectors. -/
theorem settles_of_speaks (hg : g.Valid) (hcuts : (g.cuts.map (·.id)).Nodup) {q : Problem}
    (hdeclared : q.declaredNames = (enc.constants g).map (·.1)) {name : String}
    (h : enc.Speaks g name) : q.Settles g.selectors name := by
  refine h.imp_right fun hname => ?_
  rw [hdeclared]
  exact List.count_eq_one_of_mem (constants_names_nodup hg hcuts enc) hname

/-- A problem is closed when its encoding asserts only what it may speak of. -/
theorem closedOver_of_over (hg : g.Built) (hfresh : ∀ b ∈ g.blocks, b.selector ∉ g.generatedNames)
    {impliesEnds : Bool} {printer : Term → String} {q : Problem} {stats : EmitStats}
    (h : g.emit { printer } enc.code impliesEnds = (q, .ok stats)) {objective : Block → Term}
    {entityTerms : List Term} {cutTerms : Cut → List Term}
    (hobjective : ∀ stop, (enc.emitEntities impliesEnds g stop { printer }).2 = objective stop)
    (hentities : ∀ stop,
      Asserts { printer } (enc.emitEntities impliesEnds g stop { printer }).1 entityTerms)
    (hcutTerms : ∀ p c, Asserts p (enc.emitCut g p c) (cutTerms c))
    (hoverObjective : ∀ stop ∈ g.blocks, (objective stop).Over (enc.Speaks g))
    (hoverEntities : ∀ t ∈ entityTerms, t.Over (enc.Speaks g))
    (hoverCuts : ∀ c ∈ g.sortedCuts, ∀ t ∈ cutTerms c, t.Over (enc.Speaks g))
    (hsoft : ∀ s ∈ q.softAssertions, enc.Speaks g s.group ∧ s.term.Over (enc.Speaks g)) :
    q.ClosedOver g.selectors := by
  have hvalid := hg.valid
  have hcuts := hg.cutIds_nodup
  have hdeclarations := declarations_of_emit hvalid hcuts rfl h
  have hdeclared : q.declaredNames = (enc.constants g).map (·.1) := by
    rw [declaredNames, hdeclarations, List.filterMap_map]
    exact congrFun List.filterMap_eq_map _
  have hsettles : ∀ name, enc.Speaks g name → q.Settles g.selectors name := fun _ hname =>
    settles_of_speaks hvalid hcuts hdeclared hname
  obtain ⟨start, stop, r, q', hstart, hstop, -, -, hasserts, hassertions, hobjectives⟩ :=
    Graph.asserts_of_emit h hobjective hentities hcutTerms
  have hstop' := Graph.mem_of_block? hstop
  exact {
    constants := by
      intro d hd
      rw [hdeclarations] at hd
      obtain ⟨c, -, rfl⟩ := List.mem_map.mp hd
      exact ⟨c.1, c.2, rfl⟩
    names_nodup := hdeclared ▸ constants_names_nodup hvalid hcuts enc
    given_undeclared := by
      intro name hname
      rw [hdeclared]
      exact selector_notMem_constants hvalid hcuts hfresh hname
    assertions := by
      intro a ha
      rw [hassertions, hasserts.assertions] at ha
      obtain ⟨t, ht, rfl⟩ := (mem_assertions_foldl _ _ ha).resolve_left List.not_mem_nil
      have hover : t.Over (enc.Speaks g) := by
        rcases List.mem_append.mp ht with ht | ht
        · rcases List.mem_append.mp ht with ht | ht
          · exact hoverEntities t ht
          · obtain ⟨c, hc, ht⟩ := List.mem_flatMap.mp ht
            exact hoverCuts c hc t ht
        · exact over_closingTerms (Graph.mem_of_block? hstart) hstop' (hoverObjective stop hstop')
            r.cost t ht
      exact ⟨t, rfl, hover.mono hsettles⟩
    soft := fun s hs => ⟨hsettles _ (hsoft s hs).1, (hsoft s hs).2.mono hsettles⟩
    objectives := by
      intro o ho
      rw [hobjectives] at ho
      obtain rfl := List.mem_singleton.mp ho
      exact (hoverObjective stop hstop').mono hsettles }

theorem Ite.softAssertions_of_emit {impliesEnds : Bool} {p q : Problem} {stats : EmitStats}
    (h : g.emit p iteCosts.code impliesEnds = (q, .ok stats)) :
    q.softAssertions = p.softAssertions := by
  have hblock : ∀ p b, Softens p (Ite.block p b) [] := fun p b =>
    (Softens.declare p _ _).trans (.assert _ _)
  have hedge : ∀ p e, Softens p (Ite.edge p e) [] := fun p e =>
    (Softens.declare p _ _).trans (.assert _ _)
  have hcut : ∀ p c, Softens p (Ite.cut g p c) [] := fun p c =>
    ((Softens.declare p _ _).trans (.assert _ _)).trans (.assert _ _)
  have hentities : Softens p (Ite.entities g p).1 [] :=
    (((Softens.declare p _ _).trans (Softens.accumulates.foldl_nil hblock _ _)).trans
      (Softens.accumulates.foldl_nil hedge _ _)).trans (.assert _ _)
  have hall := Soft.softens_of_emit h (fun _ => hentities) hcut
  rw [List.flatMap_eq_nil_iff.mpr fun _ _ => rfl] at hall
  exact Eq.trans hall (List.append_nil _)

theorem Difference.softens_block (g : Graph) (p : Problem) (b : Block) :
    Softens p (Difference.block g p b) [] := by
  unfold Softens Difference.block
  split <;> simp

theorem Difference.softens_edge (impliesEnds : Bool) (g : Graph) (p : Problem) (e : Edge) :
    Softens p (Difference.edge impliesEnds g p e) [] := by
  unfold Softens Difference.edge
  split
  · cases impliesEnds <;> simp
  · simp

theorem Difference.softens_cut (g : Graph) (p : Problem) (c : Cut) :
    Softens p (Difference.cut g p c) [] := by
  unfold Softens Difference.cut
  split <;> simp

theorem Difference.softAssertions_of_emit {impliesEnds : Bool} {p q : Problem} {stats : EmitStats}
    (h : g.emit p differenceLogic.code impliesEnds = (q, .ok stats)) :
    q.softAssertions = p.softAssertions := by
  have hentities : ∀ stop, Softens p (Difference.entities impliesEnds g stop p).1 [] := fun _ =>
    (Softens.accumulates.foldl_nil (Difference.softens_block g) _ _).trans
      (Softens.accumulates.foldl_nil (Difference.softens_edge impliesEnds g) _ _)
  have hall := Soft.softens_of_emit h hentities (Difference.softens_cut g)
  rw [List.flatMap_eq_nil_iff.mpr fun _ _ => rfl] at hall
  exact Eq.trans hall (List.append_nil _)

/-- **Emitted problems are closed** over the selectors of the graph: they declare no name twice and
no selector, and every name in an assertion, in an objective or of a group of soft assertions is a
selector or declared once. -/
theorem closedOver_of_emit (hg : g.Built) (hfresh : ∀ b ∈ g.blocks, b.selector ∉ g.generatedNames)
    {impliesEnds : Bool} {printer : Term → String} {q : Problem} {stats : EmitStats}
    (h : g.emit { printer } enc.code impliesEnds = (q, .ok stats)) :
    q.ClosedOver g.selectors := by
  have hvalid := hg.valid
  cases enc with
  | iteCosts =>
    refine closedOver_of_over hg hfresh h (fun _ => rfl) (fun _ => Ite.asserts_entities g _)
      (Ite.asserts_cut g) (fun _ _ => Ite.over_objective) (Ite.over_entityTerms hvalid)
      (fun c hc => Ite.over_cutTerms hvalid hc) fun s hs => ?_
    rw [Ite.softAssertions_of_emit h] at hs
    exact absurd hs List.not_mem_nil
  | assertSoft =>
    refine closedOver_of_over hg hfresh h (fun _ => rfl) (fun _ => Soft.asserts_entities g _)
      (Soft.asserts_cut g) (fun _ _ => Soft.over_objective) (fun t ht => absurd ht List.not_mem_nil)
      (fun c hc => ?_) fun s hs => ?_
    · simp [Soft.over_cutCost hc]
    · rw [Soft.softens_of_emit h (fun _ => Soft.softens_entities g _) (Soft.softens_cut g)] at hs
      exact Soft.speaks_soft hvalid hs
  | differenceLogic =>
    refine closedOver_of_over hg hfresh h (fun _ => rfl)
      (fun stop => Difference.asserts_entities impliesEnds g stop _) (Difference.asserts_cut g)
      (fun _ hstop => Difference.over_blockCost hvalid hstop)
      (Difference.over_entityTerms hvalid impliesEnds)
      (fun c _ => Difference.over_cutTerms hvalid c) fun s hs => ?_
    rw [Difference.softAssertions_of_emit h] at hs
    exact absurd hs List.not_mem_nil

/-- A graph with three cuts, stated by soft assertions in four groups. -/
theorem closedOver_of_emit_bypassCut :
    let q := (Graph.bypassCut.emit {} assertSoft.code false).1
    q.ClosedOver Graph.bypassCut.selectors ∧ q.softAssertions.length = 26 ∧
      q.declaredNames = ["cost", "cut_0_4", "cut_1_4", "cut_1_5"] := by
  intro q
  have hq : (Graph.bypassCut.emit {} assertSoft.code false).2 =
      .ok { encoding := .assertSoft, paths := 3, cuts := 3, longest := 21 } := by
    decide
  refine ⟨?_, by decide, by decide⟩
  exact closedOver_of_emit Graph.bypassCut_annotated.built Graph.bypassCut_regular.selectors_fresh
    (Prod.ext rfl hq)

end Encoding

end WorstCase
