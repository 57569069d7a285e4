import WorstCase.Proofs.Encoding.Emission
import WorstCase.Proofs.Encoding.PathModel

/-!
# The constraints of difference logic

`Encoding.Difference.Stated` lists the kinds of constraints that a problem in difference logic
states, and every term of the problem is of one of these kinds.

Two terms that are printed alike are asserted once, so a constraint might be **shadowed** by
another one. The bounds of edges and of blocks without predecessors are not. Their texts begin with
a generated name and are told apart by it from all others, except from the constraint of a block
whose selector contains spaces; there the number of comparisons decides.
-/

namespace WorstCase

/-! ### Characters of printed terms -/

namespace Term

theorem mem_renderArgs {ts : List Term} {t : Term} (ht : t ∈ ts) {ch : Char}
    (h : ch ∈ t.render.toList) : ch ∈ (renderArgs ts).toList := by
  induction ts with
  | nil => simp at ht
  | cons u ts ih =>
    simp only [renderArgs, String.toList_append, List.mem_append]
    rcases List.mem_cons.mp ht with rfl | ht
    · exact .inl (.inr h)
    · exact .inr (ih ht)

theorem mem_render_disj {ts : List Term} {t : Term} (ht : t ∈ ts) {ch : Char}
    (h : ch ∈ t.render.toList) : ch ∈ (disj ts).render.toList := by
  rcases ts with _ | ⟨u, _ | ⟨u', ts⟩⟩
  · simp at ht
  · obtain rfl := List.mem_singleton.mp ht
    exact h
  · have hargs := mem_renderArgs ht h
    simp only [disj, nary, render, String.toList_append, List.mem_append]
    exact .inl (.inr hargs)

theorem lt_notMem_renderInt (n : Int) : '<' ∉ (renderInt n).toList := by
  have hchars : ∀ k, '<' ∉ Decimal.chars k := fun k h => by simpa using Decimal.mem_chars h
  unfold renderInt
  split <;> simp [hchars]

/-- A bound on the difference of two cost variables begins with its only comparison. -/
theorem toList_render_costBound (a b : Block) (n : Int64) :
    ∃ rest, (Term.le (.diff a.costTerm b.costTerm) (.int n)).render.toList =
      '(' :: '<' :: rest ∧ '<' ∉ rest := by
  have hname : ∀ b : Block, '<' ∉ b.costName.toList := fun b h => by
    rw [Block.toList_costName] at h
    simpa using Decimal.mem_chars ((List.mem_cons.mp h).resolve_left (by decide))
  have hleq : Operator.leq.symbol.toList = ['<', '='] := by decide
  have hdiff : '<' ∉ (Term.diff a.costTerm b.costTerm).render.toList := by
    have hsymbol : '<' ∉ Operator.diff.symbol.toList := by decide
    rw [diff, toList_render_pair]
    simp [hsymbol, render, Block.costTerm, hname]
  refine ⟨_, (toList_render_pair .leq _ _).trans (by rw [hleq]; rfl), ?_⟩
  simp [hdiff, render, lt_notMem_renderInt]

end Term

namespace Encoding.Difference

variable {g : Graph} {m : Model} {p : List Int} {impliesEnds : Bool}

/-! ### The terms of the encoding -/

/-- All that the problem states. -/
def terms (impliesEnds : Bool) (g : Graph) (start stop : Block) (longest : Int64) : List Term :=
  entityTerms impliesEnds g ++ g.sortedCuts.flatMap (cutTerms g) ++
    Graph.closingTerms start stop stop.costTerm longest

/-- What a taken edge bounds. -/
def edgeBound (e : Edge) (src dst : Block) : Term :=
  .imply e.chosen (.le (.diff dst.costTerm src.costTerm) (.int (e.cost + dst.cost)))

/-- What a taken edge implies. -/
def edgeEnds (e : Edge) (src dst : Block) : Term :=
  .conj [.imply e.chosen src.chosen, .imply e.chosen dst.chosen]

theorem edgeTerms_eq {e : Edge} {src dst : Block} (hsrc : g.block? e.id.src = some src)
    (hdst : g.block? e.id.dst = some dst) :
    edgeTerms impliesEnds g e =
      edgeBound e src dst :: if impliesEnds then [edgeEnds e src dst] else [] := by
  simp only [edgeTerms, hsrc, hdst]
  rfl

theorem cutTerms_eq {c : Cut} {head tail : Block} (hhead : g.block? c.id.head = some head)
    (htail : g.block? c.id.tail = some tail) :
    cutTerms g c = [.le (.diff tail.costTerm head.costTerm) (.int (c.cost + tail.cost))] := by
  simp only [cutTerms, hhead, htail]

theorem bound_eq {b pred : Block} {uid : Int} (h : g.block? uid = some pred) :
    bound g b uid = some (.le (.diff b.costTerm pred.costTerm)
      (.int (b.cost + ((g.edge? uid b.uid).map (·.cost)).getD 0))) := by
  rw [bound, h]
  rfl

theorem mem_bounds {b : Block} {t : Term} (h : t ∈ (g.preds b.uid).filterMap (bound g b)) :
    ∃ pred n, pred ∈ g.blocks ∧ t = .le (.diff b.costTerm pred.costTerm) (.int n) := by
  obtain ⟨uid, -, ht⟩ := List.mem_filterMap.mp h
  rcases hpred : g.block? uid with _ | pred
  · simp [bound, hpred] at ht
  · rw [bound_eq hpred, Option.some_inj] at ht
    exact ⟨pred, _, Graph.mem_of_block? hpred, ht.symm⟩

/-- A block has predecessors, or it costs what it costs. -/
theorem blockTerm_eq (hg : g.Valid) (b : Block) :
    (g.preds b.uid = [] ∧ blockTerm g b = .le b.costTerm (.int b.cost)) ∨
      (g.preds b.uid).filterMap (bound g b) ≠ [] ∧
        blockTerm g b = .imply b.chosen (.disj ((g.preds b.uid).filterMap (bound g b))) := by
  unfold blockTerm
  rcases hbounds : (g.preds b.uid).filterMap (bound g b) with _ | ⟨t, ts⟩
  · refine .inl ⟨List.eq_nil_iff_forall_not_mem.mpr fun uid huid => ?_, rfl⟩
    -- the predecessors of a block are blocks, and each gives a bound
    have hknown := (hg.arc_known (Graph.mem_preds_iff.mp huid)).1
    obtain ⟨pred, hpred⟩ := Option.isSome_iff_exists.mp (Graph.block?_isSome_iff.mpr hknown)
    have hmem := List.mem_filterMap.mpr ⟨uid, huid, bound_eq (b := b) hpred⟩
    rw [hbounds] at hmem
    simp at hmem
  · exact .inr ⟨by simp, rfl⟩

/-- The constraints of difference logic, one constructor for each kind. -/
inductive Stated (impliesEnds : Bool) (g : Graph) (start stop : Block) (longest : Int64) :
    Term → Prop
  | entry {b : Block} (hb : b ∈ g.blocks) (hpreds : g.preds b.uid = []) :
      Stated impliesEnds g start stop longest (.le b.costTerm (.int b.cost))
  | block {b : Block} (hb : b ∈ g.blocks)
      (hbounds : (g.preds b.uid).filterMap (bound g b) ≠ []) :
      Stated impliesEnds g start stop longest
        (.imply b.chosen (.disj ((g.preds b.uid).filterMap (bound g b))))
  | edge {e : Edge} {src dst : Block} (he : e ∈ g.edges) (hsrc : g.block? e.id.src = some src)
      (hdst : g.block? e.id.dst = some dst) :
      Stated impliesEnds g start stop longest (edgeBound e src dst)
  | ends {e : Edge} {src dst : Block} (he : e ∈ g.edges) (hsrc : g.block? e.id.src = some src)
      (hdst : g.block? e.id.dst = some dst) :
      Stated impliesEnds g start stop longest (edgeEnds e src dst)
  | cut {c : Cut} {head tail : Block} (hc : c ∈ g.cuts) (hhead : g.block? c.id.head = some head)
      (htail : g.block? c.id.tail = some tail) :
      Stated impliesEnds g start stop longest
        (.le (.diff tail.costTerm head.costTerm) (.int (c.cost + tail.cost)))
  | chosen : Stated impliesEnds g start stop longest (.conj [start.chosen, stop.chosen])
  | objective : Stated impliesEnds g start stop longest
      (.conj [.le (.int 0) stop.costTerm, .le stop.costTerm (.int longest)])

theorem mem_terms_iff (hg : g.Valid) (hcuts : (g.cuts.map (·.id)).Nodup) {start stop : Block}
    {longest : Int64} {t : Term} :
    t ∈ terms impliesEnds g start stop longest ↔
      (∃ b ∈ g.blocks, t = blockTerm g b) ∨ (∃ e ∈ g.edges, t ∈ edgeTerms impliesEnds g e) ∨
        (∃ c ∈ g.cuts, t ∈ cutTerms g c) ∨
        t ∈ Graph.closingTerms start stop stop.costTerm longest := by
  simp only [terms, entityTerms, List.mem_append, List.mem_flatMap, List.mem_singleton,
    hg.mem_sortedBlocks, hg.mem_sortedEdges, Graph.mem_sortedCuts hcuts, or_assoc]

/-- **Every term of the problem is one of these constraints.** -/
theorem stated_of_mem_terms (hg : g.Valid) (hcuts : (g.cuts.map (·.id)).Nodup)
    {start stop : Block} {longest : Int64} {t : Term}
    (h : t ∈ terms impliesEnds g start stop longest) :
    Stated impliesEnds g start stop longest t := by
  rcases (mem_terms_iff hg hcuts).mp h with ⟨b, hb, rfl⟩ | ⟨e, he, ht⟩ | ⟨c, hc, ht⟩ | ht
  · rcases blockTerm_eq hg b with ⟨hpreds, hterm⟩ | ⟨hbounds, hterm⟩
    · exact hterm ▸ .entry hb hpreds
    · exact hterm ▸ .block hb hbounds
  · obtain ⟨src, hsrc⟩ := hg.exists_block_src he
    obtain ⟨dst, hdst⟩ := hg.exists_block_dst he
    rw [edgeTerms_eq hsrc hdst] at ht
    rcases List.mem_cons.mp ht with rfl | ht
    · exact .edge he hsrc hdst
    · cases impliesEnds with
      | false => simp at ht
      | true => exact List.mem_singleton.mp ht ▸ .ends he hsrc hdst
  · rcases hhead : g.block? c.id.head with _ | head
    · simp [cutTerms, hhead] at ht
    rcases htail : g.block? c.id.tail with _ | tail
    · simp [cutTerms, hhead, htail] at ht
    rw [cutTerms_eq hhead htail] at ht
    exact List.mem_singleton.mp ht ▸ .cut hc hhead htail
  · simp only [Graph.closingTerms, List.mem_cons, List.not_mem_nil, or_false] at ht
    rcases ht with rfl | rfl
    · exact .chosen
    · exact .objective

/-! ### What is asserted for sure -/

/-- The constraint of a block is not printed like the bound of an edge: if the selector of the block
began with that of the edge and a space, the text would hold a second comparison. -/
theorem render_ne_edgeBound {b : Block} {e : Edge} {src dst : Block} {consequence : Term}
    (hne : b.selector ≠ e.selector) (hspace : ' ' ∉ e.selector.toList)
    (hlt : '<' ∈ consequence.render.toList) :
    (Term.imply b.chosen consequence).render ≠ (edgeBound e src dst).render := by
  intro h
  obtain ⟨-, hargs⟩ := Term.render_pair_inj h
  obtain ⟨rest, hbound, hrest⟩ := Term.toList_render_costBound dst src (e.cost + dst.cost)
  rw [hbound] at hargs
  simp only [Block.chosen, Edge.chosen, Term.render] at hargs
  by_cases hsp : ' ' ∈ b.selector.toList
  · obtain ⟨xs, ys, hsel, hxs⟩ := List.eq_append_cons_of_mem hsp
    rw [hsel, List.append_assoc, List.cons_append] at hargs
    have htail := (append_cons_inj hxs hspace hargs).2
    -- `ys` has to hold the opening bracket and the only comparison
    rcases ys with _ | ⟨y, _ | ⟨y', ys⟩⟩
    · exact absurd (List.cons.inj htail).1 (by decide)
    · exact absurd (List.cons.inj (List.cons.inj htail).2).1 (by decide)
    · have hys := (List.cons.inj (List.cons.inj htail).2).2
      rw [← hys] at hrest
      exact hrest (List.mem_append_right _ (List.mem_cons_of_mem _ hlt))
  · exact hne (String.toList_inj.mp (append_cons_inj hsp hspace hargs).1)

theorem lt_mem_bounds {b : Block} (h : (g.preds b.uid).filterMap (bound g b) ≠ []) :
    '<' ∈ (Term.disj ((g.preds b.uid).filterMap (bound g b))).render.toList := by
  obtain ⟨t, ht⟩ := List.exists_mem_of_ne_nil _ h
  refine Term.mem_render_disj ht ?_
  obtain ⟨pred, n, -, rfl⟩ := mem_bounds ht
  obtain ⟨rest, hrender, -⟩ := Term.toList_render_costBound b pred n
  rw [hrender]
  simp

section Asserted

variable (hg : g.Valid) (hr : g.Regular) (hcuts : (g.cuts.map (·.id)).Nodup)
  {start stop : Block} {longest : Int64} {q : Problem}
  (hq : q.States (terms impliesEnds g start stop longest))

include hg hr hcuts hq in
/-- **The bounds of edges are asserted.** -/
theorem edgeBound_mem_assertedTerms {e : Edge} (he : e ∈ g.edges) {src dst : Block}
    (hsrc : g.block? e.id.src = some src) (hdst : g.block? e.id.dst = some dst) :
    edgeBound e src dst ∈ q.assertedTerms := by
  have hname : ∀ {e : Edge}, e ∈ g.edges → e.selector ∈ g.generatedNames := fun he =>
    List.mem_append_left _ (List.mem_map_of_mem he)
  have hspace : ∀ {e : Edge}, e ∈ g.edges → ' ' ∉ e.selector.toList := fun he =>
    Graph.space_notMem_of_mem_generatedNames (hname he)
  have hmem : edgeBound e src dst ∈ terms impliesEnds g start stop longest := by
    rw [mem_terms_iff hg hcuts]
    refine .inr (.inl ⟨e, he, ?_⟩)
    rw [edgeTerms_eq hsrc hdst]
    exact List.mem_cons_self
  obtain ⟨u, hu, huterms, hrender⟩ := hq.exists_mem _ hmem
  cases stated_of_mem_terms hg hcuts huterms with
  | block hb hbounds =>
    refine absurd hrender (render_ne_edgeBound (fun heq => ?_) (hspace he)
      (lt_mem_bounds hbounds))
    exact hr.selectors_fresh _ hb (heq ▸ hname he)
  | edge he' hsrc' hdst' =>
    obtain ⟨-, hargs⟩ := Term.render_pair_inj hrender
    simp only [Edge.chosen, Term.render] at hargs
    have hsel := (append_cons_inj (hspace he') (hspace he) hargs).1
    obtain rfl := List.inj_on_of_nodup_map hg.ids_nodup he' he
      (Edge.id_eq_of_selector (String.toList_inj.mp hsel))
    obtain rfl := Option.some_inj.mp (hsrc'.symm.trans hsrc)
    obtain rfl := Option.some_inj.mp (hdst'.symm.trans hdst)
    exact hu
  -- all others are no implications
  | entry | ends | cut | chosen | objective =>
    exact absurd (Term.render_pair_inj hrender).1 (by decide)

include hg hcuts hq in
/-- **The bound of a block without predecessors is asserted.** -/
theorem entryBound_mem_assertedTerms {b : Block} (hb : b ∈ g.blocks)
    (hpreds : g.preds b.uid = []) : Term.le b.costTerm (.int b.cost) ∈ q.assertedTerms := by
  have hname : ∀ {b : Block}, b ∈ g.blocks → ' ' ∉ b.costName.toList := fun hb =>
    Graph.space_notMem_of_mem_generatedNames
      (List.mem_append_right _ (List.mem_append_left _ (List.mem_map_of_mem hb)))
  have hterm : blockTerm g b = .le b.costTerm (.int b.cost) := by
    rw [blockTerm, hpreds]
    rfl
  have hmem : Term.le b.costTerm (.int b.cost) ∈ terms impliesEnds g start stop longest :=
    (mem_terms_iff hg hcuts).mpr (.inl ⟨b, hb, hterm.symm⟩)
  obtain ⟨u, hu, huterms, hrender⟩ := hq.exists_mem _ hmem
  cases stated_of_mem_terms hg hcuts huterms with
  | @entry b' hb' =>
    obtain ⟨-, hargs⟩ := Term.render_pair_inj hrender
    simp only [Block.costTerm, Term.render] at hargs
    have hcost := (append_cons_inj (hname hb') (hname hb) hargs).1
    obtain rfl := List.inj_on_of_nodup_map hg.uids_nodup hb' hb
      (Block.uid_eq_of_costName (String.toList_inj.mp hcost))
    exact hu
  | @cut c head tail =>
    -- a difference begins with a bracket, a name does not
    obtain ⟨-, hargs⟩ := Term.render_pair_inj hrender
    have hletter : b.costTerm.render.toList = 'c' :: Decimal.chars b.uid := by
      rw [Block.costTerm, Term.render, Block.toList_costName]
    rw [Term.diff, Term.toList_render_pair, hletter] at hargs
    exact absurd (List.cons.inj hargs).1 (by decide)
  | block | edge | ends | chosen | objective =>
    exact absurd (Term.render_pair_inj hrender).1 (by decide)

end Asserted

end Encoding.Difference

end WorstCase
