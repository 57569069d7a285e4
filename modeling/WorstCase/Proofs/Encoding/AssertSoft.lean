import WorstCase.Proofs.Encoding.Selections
import WorstCase.Proofs.Formula.Penalty
import WorstCase.Proofs.Graph.Cutting

/-!
# Soft assertions state the same problem as if-then-else costs

The encoding by soft assertions defines no cost variables. It reads the objective and the cost of
every cut as the **penalty** of a group of soft assertions, and asserts nothing of these quantities
but their bounds. Over the integers both encodings say the same about every selection that chooses
the start, whether or not it is a path:

* the value that the equations of if-then-else costs force on a quantity is the penalty of its group
  (`Encoding.Soft.penalty_eq`, `Encoding.Ite.exact_costSum`);
* what the soft encoding asserts is what the other asserts besides equations, in the same order
  (`Problem.Asserts.assertedTerms_eq`);
* so a selection is feasible in one iff it is in the other, with the same objective
  (`Encoding.assertSoft_equivalent`).

Costs are not negative. Soft assertions are stated for costs above 0 only, equations for all, and a
sum leaves out costs that are 0.
-/

namespace WorstCase

/-- Whether a term is an equation. -/
def Term.isEquation : Term → Bool
  | .app .equal _ => true
  | _ => false

namespace Term

variable (a b : Term)

@[simp] theorem isEquation_equal : (equal a b).isEquation = true := rfl

@[simp] theorem isEquation_le : (Term.le a b).isEquation = false := rfl

@[simp] theorem isEquation_conj_pair : (conj [a, b]).isEquation = false := rfl

end Term

namespace Encoding.Soft

open Problem

variable {g : Graph}

/-! ### What is stated -/

/-- The soft assertion of a block in a group. -/
def ofBlock (group : String) (b : Block) : List SoftAssertion :=
  if b.cost > 0 then [{ term := .not b.chosen, weight := b.cost, group }] else []

/-- The soft assertion of an edge in a group. -/
def ofEdge (group : String) (e : Edge) : List SoftAssertion :=
  if e.cost > 0 then [{ term := .not e.chosen, weight := e.cost, group }] else []

/-- The soft assertions of blocks and edges in a group. -/
def ofAll (group : String) (blocks : List Block) (edges : List Edge) : List SoftAssertion :=
  blocks.flatMap (ofBlock group) ++ edges.flatMap (ofEdge group)

/-- The soft assertions of a cut, in its own group. -/
def ofCut (g : Graph) (c : Cut) : List SoftAssertion :=
  ofAll c.costName (c.blocks.filterMap g.block?)
    (c.edges.filterMap fun id => g.edge? id.src id.dst)

theorem softens_block (group : String) (p : Problem) (b : Block) :
    Softens p (block group p b) (ofBlock group b) := by
  unfold block ofBlock
  split
  · exact .assertSoft _ _
  · exact (List.append_nil _).symm

theorem softens_edge (group : String) (p : Problem) (e : Edge) :
    Softens p (edge group p e) (ofEdge group e) := by
  unfold edge ofEdge
  split
  · exact .assertSoft _ _
  · exact (List.append_nil _).symm

theorem softens_entities (g : Graph) (p : Problem) :
    Softens p (entities g p).1 (ofAll objectiveName g.sortedBlocks g.sortedEdges) :=
  ((Softens.declare p _ _).trans (.foldl (softens_block _) _ _)).trans
    (.foldl (softens_edge _) _ _)

theorem softens_cut (g : Graph) (p : Problem) (c : Cut) : Softens p (cut g p c) (ofCut g c) := by
  have h := (((Softens.declare p c.costName .real).trans
    (.foldl (softens_block c.costName) _ (c.blocks.filterMap g.block?))).trans
    (.foldl (softens_edge c.costName) _ (c.edges.filterMap fun id => g.edge? id.src id.dst))).trans
    (.assert _ (.le (.var c.costName) (.int c.cost)))
  rw [List.append_nil] at h
  exact h

theorem asserts_block (group : String) (p : Problem) (b : Block) :
    Asserts p (block group p b) [] := by
  unfold block
  split <;> exact ⟨rfl, rfl, rfl⟩

theorem asserts_edge (group : String) (p : Problem) (e : Edge) :
    Asserts p (edge group p e) [] := by
  unfold edge
  split <;> exact ⟨rfl, rfl, rfl⟩

theorem asserts_entities (g : Graph) (p : Problem) : Asserts p (entities g p).1 [] :=
  ((Asserts.declare p _ _).trans (Asserts.accumulates.foldl_nil (asserts_block _) _ _)).trans
    (Asserts.accumulates.foldl_nil (asserts_edge _) _ _)

theorem asserts_cut (g : Graph) (p : Problem) (c : Cut) :
    Asserts p (cut g p c) [.le (.var c.costName) (.int c.cost)] :=
  (((Asserts.declare p _ _).trans (Asserts.accumulates.foldl_nil (asserts_block _) _ _)).trans
    (Asserts.accumulates.foldl_nil (asserts_edge _) _ _)).trans (.assert _ _)

/-! ### Penalties -/

section Penalty

variable {σ : Selection} {m : ExactModel}

theorem charge_ofBlock (hn : g.Nonneg) (hc : g.Chooses σ m) {b : Block} (hb : b ∈ g.blocks)
    (group : String) :
    ((ofBlock group b).map (charge m)).sum = if σ.block b.uid then b.cost.toInt else 0 := by
  have hchosen : b.chosen.exact m = some (.bool (σ.block b.uid)) :=
    (Term.exact_var _).trans (hc.block b hb)
  unfold ofBlock
  split
  · rw [List.map_singleton, List.sum_singleton, charge, Term.exact_not hchosen]
    cases σ.block b.uid <;> simp
  · -- a cost that is neither negative nor positive
    rename_i h
    have hnonneg := hn.block b hb
    have hzero : b.cost.toInt = 0 := by
      rw [gt_iff_lt, Int64.lt_iff_toInt_lt, Int64.toInt_zero] at h
      omega
    simp [hzero]

theorem charge_ofEdge (hn : g.Nonneg) (hc : g.Chooses σ m) {e : Edge} (he : e ∈ g.edges)
    (group : String) :
    ((ofEdge group e).map (charge m)).sum = if σ.edge e.id then e.cost.toInt else 0 := by
  have hchosen : e.chosen.exact m = some (.bool (σ.edge e.id)) :=
    (Term.exact_var _).trans (hc.edge e he)
  unfold ofEdge
  split
  · rw [List.map_singleton, List.sum_singleton, charge, Term.exact_not hchosen]
    cases σ.edge e.id <;> simp
  · rename_i h
    have hnonneg := hn.edge e he
    have hzero : e.cost.toInt = 0 := by
      rw [gt_iff_lt, Int64.lt_iff_toInt_lt, Int64.toInt_zero] at h
      omega
    simp [hzero]

theorem sum_map_flatMap {α β : Type} (f : α → List β) (h : β → ℤ) (xs : List α) :
    ((xs.flatMap f).map h).sum = (xs.map fun x => ((f x).map h).sum).sum := by
  induction xs with
  | nil => rfl
  | cons x xs ih => rw [List.flatMap_cons, List.map_append, List.sum_append, ih, List.map_cons,
      List.sum_cons]

/-- **Blocks and edges are charged with what the selection costs.** -/
theorem charge_ofAll (hn : g.Nonneg) (hc : g.Chooses σ m) (group : String) {blocks : List Block}
    {edges : List Edge} (hblocks : ∀ b ∈ blocks, b ∈ g.blocks)
    (hedges : ∀ e ∈ edges, e ∈ g.edges) :
    ((ofAll group blocks edges).map (charge m)).sum = σ.cost blocks edges := by
  rw [ofAll, List.map_append, List.sum_append, sum_map_flatMap, sum_map_flatMap, Selection.cost]
  congr 2
  · exact List.map_congr_left fun b hb => charge_ofBlock hn hc (hblocks b hb) group
  · exact List.map_congr_left fun e he => charge_ofEdge hn hc (hedges e he) group

/-- All of them are in their group. -/
theorem group_of_mem_ofAll {group : String} {blocks : List Block} {edges : List Edge}
    {s : SoftAssertion} (h : s ∈ ofAll group blocks edges) : s.group = group := by
  have hblock : ∀ {b}, s ∈ ofBlock group b → s.group = group := by
    intro b hs
    unfold ofBlock at hs
    split at hs
    · rw [List.mem_singleton.mp hs]
    · simp at hs
  have hedge : ∀ {e}, s ∈ ofEdge group e → s.group = group := by
    intro e hs
    unfold ofEdge at hs
    split at hs
    · rw [List.mem_singleton.mp hs]
    · simp at hs
  simp only [ofAll, List.mem_append, List.mem_flatMap] at h
  rcases h with ⟨b, -, hs⟩ | ⟨e, -, hs⟩
  · exact hblock hs
  · exact hedge hs

theorem filter_ofAll_self (group : String) (blocks : List Block) (edges : List Edge) :
    (ofAll group blocks edges).filter (·.group = group) = ofAll group blocks edges :=
  List.filter_eq_self.mpr fun _ hs => decide_eq_true (group_of_mem_ofAll hs)

theorem filter_ofAll_of_ne {group name : String} (hne : group ≠ name) (blocks : List Block)
    (edges : List Edge) : (ofAll group blocks edges).filter (·.group = name) = [] := by
  refine List.filter_eq_nil_iff.mpr fun s hs => ?_
  rw [decide_eq_true_eq, group_of_mem_ofAll hs]
  exact hne

theorem costName_ne_objectiveName (c : Cut) : c.costName ≠ objectiveName := by
  intro h
  have hlist := congrArg String.toList h
  simp [Cut.toList_costName, toList_objectiveName] at hlist

/-- Among the soft assertions of cuts with different names each cut finds its own. -/
theorem filter_flatMap_ofCut {cuts : List Cut} (hcuts : (cuts.map Cut.costName).Nodup) {c : Cut}
    (hc : c ∈ cuts) : (cuts.flatMap (ofCut g)).filter (·.group = c.costName) = ofCut g c := by
  induction cuts with
  | nil => simp at hc
  | cons d cuts ih =>
    rw [List.map_cons, List.nodup_cons] at hcuts
    rw [List.flatMap_cons, List.filter_append]
    rcases List.mem_cons.mp hc with rfl | hc
    · have hrest : (cuts.flatMap (ofCut g)).filter (·.group = c.costName) = [] := by
        rw [List.filter_eq_nil_iff]
        intro s hs
        obtain ⟨d, hd, hs⟩ := List.mem_flatMap.mp hs
        rw [decide_eq_true_eq, group_of_mem_ofAll hs]
        exact fun h => hcuts.1 (h ▸ List.mem_map_of_mem hd)
      rw [hrest, List.append_nil]
      exact filter_ofAll_self _ _ _
    · have hne : d.costName ≠ c.costName := fun h => hcuts.1 (h ▸ List.mem_map_of_mem hc)
      rw [ih hcuts.2 hc, ofCut, filter_ofAll_of_ne hne, List.nil_append]

/-- The ascending view of the cuts lists no cut twice. -/
theorem sortedCuts_names_nodup (hcuts : (g.cuts.map (·.id)).Nodup) :
    (g.sortedCuts.map Cut.costName).Nodup :=
  ((Graph.sortedCuts_perm hcuts).map _).nodup_iff.mpr
    (nodup_map_of_key hcuts Cut.id_eq_of_costName)

/-- The soft assertions that emitting states, given those of blocks and edges and of each cut. -/
theorem softens_of_emit {enc : Encoding} {impliesEnds : Bool} {p q : Problem} {stats : EmitStats}
    (h : g.emit p enc.code impliesEnds = (q, .ok stats)) {entitySofts : List SoftAssertion}
    {cutSofts : Cut → List SoftAssertion}
    (hentities : ∀ stop, Softens p (enc.emitEntities impliesEnds g stop p).1 entitySofts)
    (hcuts : ∀ p c, Softens p (enc.emitCut g p c) (cutSofts c)) :
    Softens p q (entitySofts ++ g.sortedCuts.flatMap cutSofts) := by
  obtain ⟨start, stop, r, -, -, -, -, rfl⟩ := Graph.emit_eq_ok h
  have hconstraints : Softens p (g.constraints enc impliesEnds start stop p).1
      (entitySofts ++ g.sortedCuts.flatMap cutSofts ++ []) :=
    ((hentities stop).trans (.foldl hcuts _ _)).trans (.assert _ _)
  have hbounds := hconstraints.trans (.assert _ (.conj [.le (.int 0)
    (g.constraints enc impliesEnds start stop p).2,
    .le (g.constraints enc impliesEnds start stop p).2 (.int stats.longest)]))
  have hend := hbounds.trans (.addComments _ stats.comments)
  rw [List.append_nil, List.append_nil, List.append_nil] at hend
  exact hend

theorem softAssertions_of_emit {impliesEnds : Bool} {s : Problem} {stats : EmitStats}
    (h : g.emit {} Encoding.assertSoft.code impliesEnds = (s, .ok stats)) :
    s.softAssertions = ofAll objectiveName g.sortedBlocks g.sortedEdges ++
      g.sortedCuts.flatMap (ofCut g) :=
  softens_of_emit h (fun _ => softens_entities g {}) (softens_cut g)

/-- **The penalty of a quantity is what the selection costs.** -/
theorem penalty_eq (hg : g.Valid) (hcuts : (g.cuts.map (·.id)).Nodup) (hn : g.Nonneg)
    (hc : g.Chooses σ m) {impliesEnds : Bool} {s : Problem} {stats : EmitStats}
    (h : g.emit {} Encoding.assertSoft.code impliesEnds = (s, .ok stats)) :
    s.penalty m objectiveName = σ.cost g.sortedBlocks g.sortedEdges ∧
      ∀ c ∈ g.cuts, s.penalty m c.costName = σ.cost (c.blocks.filterMap g.block?)
        (c.edges.filterMap fun id => g.edge? id.src id.dst) := by
  constructor
  · have hothers : (g.sortedCuts.flatMap (ofCut g)).filter (·.group = objectiveName) = [] := by
      rw [List.filter_eq_nil_iff]
      intro s hs
      obtain ⟨c, -, hs⟩ := List.mem_flatMap.mp hs
      rw [decide_eq_true_eq, group_of_mem_ofAll hs]
      exact costName_ne_objectiveName c
    rw [penalty, softAssertions_of_emit h, List.filter_append, filter_ofAll_self, hothers,
      List.append_nil]
    exact charge_ofAll hn hc _ (fun b hb => hg.mem_sortedBlocks.mp hb)
      fun e he => hg.mem_sortedEdges.mp he
  · intro c hcut
    rw [penalty, softAssertions_of_emit h, List.filter_append,
      filter_ofAll_of_ne (costName_ne_objectiveName c).symm, List.nil_append,
      filter_flatMap_ofCut (sortedCuts_names_nodup hcuts) ((Graph.mem_sortedCuts hcuts).mpr hcut)]
    refine charge_ofAll hn hc _ (fun b hb => ?_) fun e he => ?_
    · obtain ⟨uid, -, huid⟩ := List.mem_filterMap.mp hb
      exact Graph.mem_of_block? huid
    · obtain ⟨id, -, hid⟩ := List.mem_filterMap.mp he
      exact Graph.mem_of_edge? hid

end Penalty

/-! ### What is asserted -/

/-- All that the encoding asserts. -/
def terms (g : Graph) (start stop : Block) (longest : Int64) : List Term :=
  (g.sortedCuts.flatMap fun c => [.le (.var c.costName) (.int c.cost)]) ++
    Graph.closingTerms start stop (.var objectiveName) longest

/-- What an emitted problem asserts, and its objective. -/
theorem assertedTerms_of_emit {enc : Encoding} {impliesEnds : Bool} {q : Problem}
    {stats : EmitStats} (h : g.emit {} enc.code impliesEnds = (q, .ok stats))
    {entityTerms : List Term} {cutTerms : Cut → List Term}
    (hobjective : ∀ stop, (enc.emitEntities impliesEnds g stop {}).2 = .var objectiveName)
    (hentities : ∀ stop, Asserts {} (enc.emitEntities impliesEnds g stop {}).1 entityTerms)
    (hcuts : ∀ p c, Asserts p (enc.emitCut g p c) (cutTerms c)) :
    ∃ start stop, g.block? g.start = some start ∧ g.block? g.stop = some stop ∧
      q.assertedTerms = firstOfEach (fun t => (assertionOf {} t).text) []
        (entityTerms ++ g.sortedCuts.flatMap cutTerms ++
          Graph.closingTerms start stop (.var objectiveName) stats.longest) ∧
      q.objectives = [⟨.maximize, .var objectiveName, some 0, some stats.longest⟩] := by
  obtain ⟨start, stop, r, q', hstart, hstop, -, hlongest, hasserts, hassertions, hobjs⟩ :=
    Graph.asserts_of_emit h hobjective hentities hcuts
  refine ⟨start, stop, hstart, hstop, ?_, ?_⟩
  · rw [assertedTerms, hassertions, hlongest]
    exact hasserts.assertedTerms_eq
  · rw [hobjs, hlongest]
    rfl

/-- Apart from equations, the encoding by if-then-else costs states what this one states. -/
theorem filter_terms (start stop : Block) (longest : Int64) :
    (Ite.terms g start stop longest).filter (!·.isEquation) = terms g start stop longest := by
  have hblocks : (g.sortedBlocks.flatMap fun b =>
      [Term.equal b.costTerm (Ite.blockValue b)]).filter (!·.isEquation) = [] := by
    rw [List.filter_eq_nil_iff]
    intro t ht
    obtain ⟨b, -, ht⟩ := List.mem_flatMap.mp ht
    rw [List.mem_singleton.mp ht]
    simp
  have hedges : (g.sortedEdges.flatMap fun e =>
      [Term.equal e.costTerm (Ite.edgeValue e)]).filter (!·.isEquation) = [] := by
    rw [List.filter_eq_nil_iff]
    intro t ht
    obtain ⟨e, -, ht⟩ := List.mem_flatMap.mp ht
    rw [List.mem_singleton.mp ht]
    simp
  have hcuts : (g.sortedCuts.flatMap (Ite.cutTerms g)).filter (!·.isEquation) =
      g.sortedCuts.flatMap fun c => [.le (.var c.costName) (.int c.cost)] := by
    induction g.sortedCuts with
    | nil => rfl
    | cons c cuts ih =>
      rw [List.flatMap_cons, List.filter_append, ih, List.flatMap_cons]
      rfl
  rw [Ite.terms, Ite.entityTerms, List.filter_append, List.filter_append, List.filter_append,
    List.filter_append, hblocks, hedges, hcuts]
  rfl

/-- No other term is printed like an equation. -/
theorem text_ne_of_isEquation (hg : g.Valid) (hcuts : (g.cuts.map (·.id)).Nodup)
    {start stop : Block} {longest : Int64} {t u : Term} (ht : t ∈ Ite.terms g start stop longest)
    (hu : u ∈ Ite.terms g start stop longest) (hte : (!t.isEquation) = true)
    (hue : (!u.isEquation) = false) :
    (assertionOf {} t).text ≠ (assertionOf {} u).text := by
  refine text_assertionOf_ne fun hrender => ?_
  obtain ⟨a, b, rfl⟩ : ∃ a b, u = .equal a b := by
    rcases (Ite.mem_terms_iff hg hcuts).mp hu with ⟨d, -, rfl⟩ | ⟨c, -, rfl⟩ | hclosing
    · exact ⟨_, _, rfl⟩
    · simp at hue
    · simp only [Graph.closingTerms, List.mem_cons, List.not_mem_nil, or_false] at hclosing
      rcases hclosing with rfl | rfl <;> simp at hue
  rcases (Ite.mem_terms_iff hg hcuts).mp ht with ⟨d, -, rfl⟩ | ⟨c, -, rfl⟩ | hclosing
  · simp at hte
  · exact absurd (Term.render_pair_inj hrender).1 (by decide)
  · simp only [Graph.closingTerms, List.mem_cons, List.not_mem_nil, or_false] at hclosing
    rcases hclosing with rfl | rfl
    · exact absurd (Term.render_pair_inj hrender).1 (by decide)
    · exact absurd (Term.render_pair_inj hrender).1 (by decide)

end Encoding.Soft

/-! ### Two readings of one problem -/

namespace Problem

/-- All asserted terms hold over the integers. -/
def HoldsIn (q : Problem) (m : ExactModel) : Prop :=
  ∀ t ∈ q.assertedTerms, t.exact m = some (.bool true)

/-- All asserted equations hold over the integers. -/
def EquationsHold (q : Problem) (m : ExactModel) : Prop :=
  ∀ t ∈ q.assertedTerms, t.isEquation = true → t.exact m = some (.bool true)

end Problem

namespace Graph

/-- The names of the quantities that problems bound: the objective and the costs of the cuts. -/
def quantities (g : Graph) : List String :=
  Encoding.objectiveName :: g.cuts.map Cut.costName

/-- The equations of a problem **force** a value on a variable under a selection: they have a model
that makes the selection, and in all such models the variable has this value. -/
def Forces (g : Graph) (σ : Selection) (q : Problem) (name : String) (n : ℤ) : Prop :=
  (∃ m, g.Chooses σ m ∧ q.EquationsHold m) ∧
    ∀ m, g.Chooses σ m → q.EquationsHold m → m name = some (.num n)

/-- A selection is feasible with an objective if a model of the problem makes it and has this
objective. -/
def Feasible (g : Graph) (σ : Selection) (q : Problem) (n : ℤ) : Prop :=
  ∃ m, g.Chooses σ m ∧ q.HoldsIn m ∧ m Encoding.objectiveName = some (.num n)

/-- The same where the quantities are read as the penalties of their groups. -/
def SoftFeasible (g : Graph) (σ : Selection) (s : Problem) (n : ℤ) : Prop :=
  ∃ m, g.Chooses σ m ∧ (∀ name ∈ g.quantities, m name = some (.num (s.penalty m name))) ∧
    s.HoldsIn m ∧ m Encoding.objectiveName = some (.num n)

end Graph

namespace Encoding

variable {g : Graph} {σ : Selection}

/-- The asserted equations are the definitions. -/
theorem Ite.equationsHold_iff (hg : g.Valid) (hcuts : (g.cuts.map (·.id)).Nodup)
    {start stop : Block} {longest : Int64} {q : Problem}
    (hq : q.States (Ite.terms g start stop longest)) {m : ExactModel} :
    q.EquationsHold m ↔
      ∀ d ∈ Ite.definitions g, (Term.equal (.var d.1) d.2).exact m = some (.bool true) := by
  constructor
  · intro h d hd
    exact h _ (Ite.mem_assertedTerms_of_mem_definitions hg hcuts hq hd) (Term.isEquation_equal _ _)
  · intro h t ht heq
    rcases (Ite.mem_terms_iff hg hcuts).mp (hq.mem t ht) with ⟨d, hd, rfl⟩ | ⟨c, -, rfl⟩ | hclosing
    · exact h d hd
    · simp at heq
    · simp only [Graph.closingTerms, List.mem_cons, List.not_mem_nil, or_false] at hclosing
      rcases hclosing with rfl | rfl <;> simp at heq

/-- The definitions force what the selection costs on every quantity. -/
theorem Ite.quantity_of_holds (hstart : ∀ b ∈ g.blocks, b.dominator < 0 → σ.block b.uid = true)
    {m : ExactModel} (hc : g.Chooses σ m)
    (h : ∀ d ∈ Ite.definitions g, (Term.equal (.var d.1) d.2).exact m = some (.bool true)) :
    m objectiveName = some (.num (σ.cost g.sortedBlocks g.sortedEdges)) ∧
      ∀ c ∈ g.cuts, m c.costName = some (.num (σ.cost (c.blocks.filterMap g.block?)
        (c.edges.filterMap fun id => g.edge? id.src id.dst))) := by
  have hm := Ite.charged_of_holds hstart hc h
  have hvalue : ∀ {name : String} {blocks : List Int} {edges : List EdgeId},
      (name, Ite.costSum g blocks edges) ∈ Ite.definitions g →
        m name = some (.num (σ.cost (blocks.filterMap g.block?)
          (edges.filterMap fun id => g.edge? id.src id.dst))) := by
    intro name blocks edges hd
    obtain ⟨v, hvar, hsum⟩ := Term.exact_equal_iff.mp (h _ hd)
    rw [Ite.exact_costSum hm] at hsum
    rw [← hsum] at hvar
    exact (Term.exact_var _).symm.trans hvar
  refine ⟨hvalue ?_, fun c hcut => hvalue ?_⟩
  · simp [Ite.definitions]
  · simp only [Ite.definitions, List.mem_append, List.mem_cons, List.mem_map]
    exact .inr (.inr (.inr ⟨c, hcut, rfl⟩))

/-- Terms besides equations look at the quantities and at the selectors of the start and the
end. -/
theorem Soft.exact_congr (hg : g.Valid) (hcuts : (g.cuts.map (·.id)).Nodup) {start stop : Block}
    (hs : start ∈ g.blocks) (ht : stop ∈ g.blocks) {longest : Int64} {t : Term}
    (hmem : t ∈ Ite.terms g start stop longest) (hte : t.isEquation = false) {m m' : ExactModel}
    (hc : g.Chooses σ m) (hc' : g.Chooses σ m')
    (hname : ∀ name ∈ g.quantities, m name = m' name) : t.exact m = t.exact m' := by
  have hpair : ∀ {op : Operator} {a b : Term}, a.exact m = a.exact m' → b.exact m = b.exact m' →
      (Term.app op [a, b]).exact m = (Term.app op [a, b]).exact m' := by
    intro op a b ha hb
    refine Term.exact_app_congr ?_
    simpa using ⟨ha, hb⟩
  have hvar : ∀ {name}, name ∈ g.quantities →
      (Term.var name).exact m = (Term.var name).exact m' := by
    intro name h
    rw [Term.exact_var, Term.exact_var, hname name h]
  have hchosen : ∀ b ∈ g.blocks, b.chosen.exact m = b.chosen.exact m' := by
    intro b hb
    rw [Block.chosen, Term.exact_var, Term.exact_var, hc.block b hb, hc'.block b hb]
  rcases (Ite.mem_terms_iff hg hcuts).mp hmem with ⟨d, -, rfl⟩ | ⟨c, hcut, rfl⟩ | hclosing
  · simp at hte
  · have hcost : c.costName ∈ g.quantities :=
      List.mem_cons_of_mem _ (List.mem_map_of_mem hcut)
    exact hpair (hvar hcost) (by simp)
  · have hobjective : objectiveName ∈ g.quantities := List.mem_cons_self
    simp only [Graph.closingTerms, List.mem_cons, List.not_mem_nil, or_false] at hclosing
    rcases hclosing with rfl | rfl
    · exact hpair (hchosen start hs) (hchosen stop ht)
    · exact hpair (hpair (by simp) (hvar hobjective)) (hpair (hvar hobjective) (by simp))

/-- Both encodings can be emitted or fail alike. -/
theorem Soft.outcome_eq (g : Graph) (p : Problem) (impliesEnds : Bool) :
    (g.emit p Encoding.assertSoft.code impliesEnds).2 =
      (g.emit p Encoding.iteCosts.code impliesEnds).2.map fun stats =>
        { stats with encoding := .assertSoft } := by
  simp only [Graph.emit, ofCode?_code]
  rcases g.blockOrFail g.start with _ | start
  · rfl
  rcases g.blockOrFail g.stop with _ | stop
  · rfl
  rcases g.summary with _ | summary <;> rfl

/-- **Soft assertions state the same problem as if-then-else costs.** The two encodings can be
emitted alike. If so, they have the same objective, and the soft encoding asserts what the other
asserts besides equations. Under every selection that chooses the start, the equations force the
penalty of its group on every quantity, and the selection is feasible in one encoding iff it is in
the other, with the same objective. -/
theorem assertSoft_equivalent {g : Graph} (hg : g.Built) (hn : g.Nonneg)
    (hstart : ∀ b ∈ g.blocks, b.dominator < 0 → b.uid = g.start) (hd : g.DistinctSelectors)
    (impliesEnds : Bool) :
    (g.emit {} Encoding.assertSoft.code impliesEnds).2 =
        (g.emit {} Encoding.iteCosts.code impliesEnds).2.map
          (fun stats => { stats with encoding := .assertSoft }) ∧
      ∀ q s stats stats', g.emit {} Encoding.iteCosts.code impliesEnds = (q, .ok stats) →
        g.emit {} Encoding.assertSoft.code impliesEnds = (s, .ok stats') →
        s.objectives = q.objectives ∧ s.assertedTerms = q.assertedTerms.filter (!·.isEquation) ∧
          ∀ σ : Selection, σ.block g.start = true →
            (∀ name ∈ g.quantities, g.Forces σ q name (s.penalty (g.choices σ) name)) ∧
              ∀ n, g.Feasible σ q n ↔ g.SoftFeasible σ s n := by
  have hvalid := hg.valid
  have hcuts := hg.cutIds_nodup
  refine ⟨Soft.outcome_eq g {} impliesEnds, fun q s stats stats' hq hs => ?_⟩
  -- what both assert
  obtain ⟨start, stop, hstartb, hstopb, hqterms, hqobj⟩ :=
    Soft.assertedTerms_of_emit hq (fun _ => rfl) (fun _ => Ite.asserts_entities g {})
      (Ite.asserts_cut g)
  obtain ⟨start', stop', hstartb', hstopb', hsterms, hsobj⟩ :=
    Soft.assertedTerms_of_emit hs (fun _ => rfl) (fun _ => Soft.asserts_entities g {})
      (Soft.asserts_cut g)
  obtain rfl := Option.some_inj.mp (hstartb.symm.trans hstartb')
  obtain rfl := Option.some_inj.mp (hstopb.symm.trans hstopb')
  have hlongest : stats'.longest = stats.longest := by
    have houtcome := Soft.outcome_eq g {} impliesEnds
    rw [hq, hs] at houtcome
    simp only [Except.map, Except.ok.injEq] at houtcome
    rw [houtcome]
  rw [hlongest] at hsterms hsobj
  have hfilter : s.assertedTerms = q.assertedTerms.filter (!·.isEquation) := by
    have hall : q.assertedTerms = firstOfEach (fun t => (Problem.assertionOf {} t).text) []
        (Ite.terms g start stop stats.longest) := hqterms
    rw [hall, filter_firstOfEach (fun t ht u hu => Soft.text_ne_of_isEquation hvalid hcuts ht hu)
      (fun _ _ _ => Iff.rfl)]
    exact hsterms.trans (congrArg _ (Soft.filter_terms start stop stats.longest).symm)
  obtain ⟨start₂, stop₂, r, hstart₂, hstop₂, -, -, hstates⟩ := Ite.states_of_emit hq
  refine ⟨hsobj.trans hqobj.symm, hfilter, fun σ hσ => ?_⟩
  have hchosen : ∀ b ∈ g.blocks, b.dominator < 0 → σ.block b.uid = true :=
    fun b hb hneg => hstart b hb hneg ▸ hσ
  -- the values that are forced are the penalties
  have hpenalty : ∀ {m}, g.Chooses σ m → ∀ {m'}, g.Chooses σ m' → q.EquationsHold m' →
      ∀ name ∈ g.quantities, m' name = some (.num (s.penalty m name)) := by
    intro m hc m' hc' hm' name hname
    obtain ⟨hobjective, hcut⟩ := Soft.penalty_eq hvalid hcuts hn hc hs
    obtain ⟨hobjective', hcut'⟩ := Ite.quantity_of_holds hchosen hc'
      ((Ite.equationsHold_iff hvalid hcuts hstates).mp hm')
    rcases List.mem_cons.mp hname with rfl | hname
    · rw [hobjective', hobjective]
    · obtain ⟨c, hmem, rfl⟩ := List.mem_map.mp hname
      rw [hcut' c hmem, hcut c hmem]
  obtain ⟨m₀, hc₀, hdefs₀⟩ := Ite.exists_exactModel hvalid hcuts hd hchosen
  have hm₀ : q.EquationsHold m₀ := (Ite.equationsHold_iff hvalid hcuts hstates).mpr hdefs₀
  refine ⟨fun name hname => ⟨⟨m₀, hc₀, hm₀⟩, fun m hc hm => ?_⟩, fun n => ⟨?_, ?_⟩⟩
  · exact hpenalty (hd.chooses_choices hvalid hcuts) hc hm name hname
  · rintro ⟨m, hc, hm, hn'⟩
    have heqs : q.EquationsHold m := fun t ht _ => hm t ht
    refine ⟨m, hc, fun name hname => hpenalty hc hc heqs name hname, fun t ht => ?_, hn'⟩
    rw [hfilter] at ht
    exact hm t (List.mem_of_mem_filter ht)
  · rintro ⟨m, hc, hquant, hm, hn'⟩
    -- the model of the definitions has the same quantities
    have hsame : ∀ name ∈ g.quantities, m₀ name = m name := fun name hname =>
      (hpenalty hc hc₀ hm₀ name hname).trans (hquant name hname).symm
    refine ⟨m₀, hc₀, fun t ht => ?_, (hsame _ List.mem_cons_self).trans hn'⟩
    by_cases heq : t.isEquation = true
    · exact hm₀ t ht heq
    · rw [Bool.not_eq_true] at heq
      have hts : t ∈ s.assertedTerms := by
        rw [hfilter]
        exact List.mem_filter.mpr ⟨ht, by rw [heq]; rfl⟩
      rw [Soft.exact_congr hvalid hcuts (Graph.mem_of_block? hstart₂) (Graph.mem_of_block? hstop₂)
        (hstates.mem t ht) heq hc₀ hc hsame]
      exact hm t hts

/-- Blocks 0 and 3 with the edges into block 4, which are no path. -/
theorem assertSoft_equivalent_bypassCut :
    let q := (Graph.bypassCut.emit {} Encoding.iteCosts.code false).1
    let s := (Graph.bypassCut.emit {} Encoding.assertSoft.code false).1
    let σ : Selection := ⟨fun uid => uid = 0 || uid = 3, fun e => e.dst = 4⟩
    s.assertedTerms = q.assertedTerms.filter (!·.isEquation) ∧
      Graph.bypassCut.Forces σ q "cost" 18 ∧ Graph.bypassCut.Forces σ q "cut_1_4" 15 ∧
      ∀ n, Graph.bypassCut.Feasible σ q n ↔ Graph.bypassCut.SoftFeasible σ s n := by
  intro q s σ
  have hd : Graph.bypassCut.DistinctSelectors :=
    ⟨Graph.bypassCut_regular.selectors_nodup, Graph.bypassCut_regular.selectors_fresh⟩
  obtain ⟨houtcome, hproblem⟩ := assertSoft_equivalent Graph.bypassCut_annotated.built
    Graph.bypassCut_regular.nonneg (by decide) hd false
  have hq : (Graph.bypassCut.emit {} Encoding.iteCosts.code false).2 =
      .ok { encoding := .iteCosts, paths := 3, cuts := 3, longest := 21 } := by
    decide
  rw [hq] at houtcome
  obtain ⟨-, hterms, hσ⟩ := hproblem q s _ _ (Prod.ext rfl hq) (Prod.ext rfl houtcome)
  obtain ⟨hforces, hfeasible⟩ := hσ σ (by decide)
  have hcost := hforces "cost" (by decide)
  have hcut := hforces "cut_1_4" (by decide)
  have hpenalty : s.penalty (Graph.bypassCut.choices σ) "cost" = 18 := by decide
  have hcutPenalty : s.penalty (Graph.bypassCut.choices σ) "cut_1_4" = 15 := by decide
  rw [hpenalty] at hcost
  rw [hcutPenalty] at hcut
  exact ⟨hterms, hcost, hcut, hfeasible⟩

end Encoding

end WorstCase
