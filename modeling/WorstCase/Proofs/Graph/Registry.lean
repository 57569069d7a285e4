import WorstCase.Proofs.Encoding.Generation

/-!
# The registry of cuts

The cuts of a graph are a **registry** that several calls share: single cuts, the dominator cuts,
the candidates of a file or of the merge points, and the cut from the start to the end, which is
registered on a way of its own. A `Request` is one such call, or one that only reads the graph. A
run over requests goes on after failures (`Graph.serve`).

Whatever is requested comes down to one move, the registration of the cut of a longest path where
there is none (`Graph.answer_preserves`). It follows that

* blocks, edges and endpoints stay as they are, and all cuts stay current;
* cuts are only appended (`Graph.serve_cuts_prefix`);
* a call that counts its cuts counts them right, also where it fails
  (`Graph.Valid.answer_added`): the count is raised for a cut before it is registered, but
  registering never fails after a path has been found;
* a run without failures has registered exactly the pairs that it was asked for
  (`Graph.serve_ids`), so the order and the kind of its requests do not matter.
-/

namespace WorstCase

/-- A call on a graph that registers cuts or reads them. -/
inductive Request where
  | cut (id : CutId)
  | dominatorCuts
  | semanticCuts (generations : List Generation)
  | syntacticPath (register : Bool)
  | mergePoints
  | recursiveCuts
  | emit (p : Problem) (code : Int) (impliesEnds : Bool)

/-- What a call returns. -/
inductive Answer where
  | cut (new : Bool) (failure : Option Violation)
  | cuts (added : Nat) (failure : Option CutFailure)
  | path (result : Except Violation LongestPath)
  | points (result : Except Violation (List Int))
  | generations (result : Except Violation (List Generation))
  | emitted (p : Problem) (result : Except EmitError EmitStats)

namespace Answer

/-- The number of cuts that a call says it added, if it counts them. -/
def added? : Answer → Option Nat
  | cut new _ => some (if new then 1 else 0)
  | cuts added _ => some added
  | _ => none

/-- The call did not fail. -/
def succeeded : Answer → Bool
  | cut _ failure => failure.isNone
  | cuts _ failure => failure.isNone
  | path result => result.toOption.isSome
  | points result => result.toOption.isSome
  | generations result => result.toOption.isSome
  | emitted _ result => result.toOption.isSome

end Answer

/-- The pairs that a request asks to register. -/
def Request.pairs (g : Graph) : Request → List CutId
  | cut id => [id]
  | dominatorCuts => g.dominatorCandidates
  | semanticCuts generations => generations.flatten
  | syntacticPath true => [⟨g.start, g.stop⟩]
  | _ => []

namespace Graph

variable {g g' : Graph}

/-! ### Requests -/

/-- Adds a cut. The flag says that a path was found for a cut that was not there; it is raised
before the cut is registered, and stays if that fails. -/
def flagCut (g : Graph) (id : CutId) : Graph × Bool × Option Violation :=
  if (g.cut? id.head id.tail).isSome then (g, false, none)
  else
    match g.longestPath id.head id.tail with
    | .error v => (g, false, some v)
    | .ok r =>
      match g.register id r with
      | .error v => (g, true, some v)
      | .ok g' => (g', true, none)

/-- Where adding a cut fails, `addCut` returns the violation only. -/
theorem addCut_eq_flagCut (g : Graph) (id : CutId) :
    g.addCut id =
      match g.flagCut id with
      | (g', new, none) => .ok (g', new)
      | (_, _, some v) => .error v := by
  unfold addCut flagCut
  split
  · rfl
  · rcases g.longestPath id.head id.tail with _ | r
    · rfl
    · simp only [bind, Except.bind]
      rcases g.register id r with _ | g₁ <;> rfl

/-- A candidate that cannot be cut leaves the graph as it is. -/
theorem flagCut_failed {id : CutId} {new : Bool} {v : Violation}
    (h : g.flagCut id = (g', new, some v)) : g' = g := by
  unfold flagCut at h
  split at h
  · simp at h
  · split at h
    · simp_all
    · split at h <;> simp_all

/-- Serves one request. -/
def answer (g : Graph) : Request → Graph × Answer
  | .cut id =>
    let (g', new, failure) := g.flagCut id
    (g', .cut new failure)
  | .dominatorCuts => (g.addDominatorCuts.graph,
      .cuts g.addDominatorCuts.added g.addDominatorCuts.failure)
  | .semanticCuts generations => ((g.addSemanticCuts generations).graph,
      .cuts (g.addSemanticCuts generations).added (g.addSemanticCuts generations).failure)
  | .syntacticPath true =>
    match g.addGlobalCut with
    | .error v => (g, .path (.error v))
    | .ok (g', r) => (g', .path (.ok r))
  | .syntacticPath false => (g, .path g.longestSyntacticPath)
  | .mergePoints => (g, .points g.mergePoints)
  | .recursiveCuts => (g, .generations g.recursiveCuts)
  | .emit p code impliesEnds =>
    (g, .emitted (g.emit p code impliesEnds).1 (g.emit p code impliesEnds).2)

/-- Serves requests in order, whether or not they fail. -/
def serve (g : Graph) : List Request → Graph × List Answer
  | [] => (g, [])
  | q :: qs =>
    let (g₁, a) := g.answer q
    let (g₂, as) := g₁.serve qs
    (g₂, a :: as)

/-! ### What one request does -/

/-- What adding a cut does, whether or not it fails: nothing, or it adds the cut of the longest
path. -/
theorem flagCut_graph (g : Graph) (id : CutId) :
    (g.flagCut id).1 = g ∨ ∃ r, g.longestPath id.head id.tail = .ok r ∧
      g.cut? id.head id.tail = none ∧ (g.flagCut id).1 = g.withCut id r := by
  unfold flagCut
  split
  · exact .inl rfl
  rcases hr : g.longestPath id.head id.tail with _ | r
  · exact .inl rfl
  rcases hs : g.register id r with _ | g₁
  · exact .inl (by simp only [hs])
  · simp only [hs]
    exact (register_eq_ok hs).imp_right fun hg₁ => ⟨r, rfl, hg₁⟩

/-- **Every request comes down to one move**: adding the cut of a longest path where there is none
yet. -/
theorem answer_preserves {P : Graph → Prop}
    (hcut : ∀ {g id r}, P g → g.longestPath id.head id.tail = .ok r →
      g.cut? id.head id.tail = none → P (g.withCut id r)) (q : Request) (hg : P g) :
    P (g.answer q).1 := by
  cases q with
  | cut id =>
    show P (g.flagCut id).1
    rcases g.flagCut_graph id with h | ⟨r, hr, hnone, h⟩
    · rwa [h]
    · rw [h]
      exact hcut hg hr hnone
  | dominatorCuts => exact addCuts_preserves hcut hg
  | semanticCuts generations => exact addCuts_preserves hcut hg
  | syntacticPath register =>
    cases register with
    | false => exact hg
    | true =>
      simp only [answer]
      rcases h : g.addGlobalCut with _ | ⟨g₁, r⟩
      · exact hg
      · obtain ⟨hr, rfl | ⟨hnone, rfl⟩⟩ := addGlobalCut_eq_ok h
        · exact hg
        · exact hcut hg hr hnone
  | mergePoints => exact hg
  | recursiveCuts => exact hg
  | emit p code impliesEnds => exact hg

theorem answer_sameFlow (g : Graph) (q : Request) : SameFlow g (g.answer q).1 :=
  answer_preserves (P := SameFlow g) (fun h _ _ => h.withCut _ _) q (.refl g)

theorem CutsCurrent.answer (hc : g.CutsCurrent) (q : Request) : (g.answer q).1.CutsCurrent :=
  answer_preserves (fun h hr hnone => h.withCut hr hnone) q hc

theorem answer_cuts_prefix (g : Graph) (q : Request) : g.cuts <+: (g.answer q).1.cuts :=
  answer_preserves (P := fun g₁ => g.cuts <+: g₁.cuts)
    (fun h _ _ => h.trans (List.prefix_append _ _)) q List.prefix_rfl

/-! ### Counts -/

/-- Registering a cut that is not there adds one. -/
theorem register_length {id : CutId} {r : LongestPath} (hnone : ¬ (g.cut? id.head id.tail).isSome)
    (h : g.register id r = .ok g') : g'.cuts.length = g.cuts.length + 1 := by
  rw [register, if_neg hnone] at h
  obtain ⟨c, -, h⟩ := bind_eq_ok_iff.mp h
  obtain rfl := pure_eq_ok_iff.mp h
  simp

theorem Valid.flagCut_length (hg : g.Valid) (id : CutId) :
    (g.flagCut id).1.cuts.length = g.cuts.length + if (g.flagCut id).2.1 then 1 else 0 := by
  unfold flagCut
  split
  · rfl
  rename_i hnone
  rcases hr : g.longestPath id.head id.tail with _ | r
  · rfl
  · obtain ⟨g₁, hs⟩ := hg.exists_register hr
    simp only [hs, if_pos]
    exact register_length hnone hs

/-- A run over candidates counts the cuts that it adds, whether or not it gets to its end. -/
theorem Valid.addCuts_added {origin : CutOrigin} {ids : List CutId} (run : CutRun)
    (hg : run.graph.Valid) :
    (addCuts origin run ids).graph.cuts.length + run.added =
      run.graph.cuts.length + (addCuts origin run ids).added := by
  induction ids generalizing run with
  | nil => rfl
  | cons id ids ih =>
    rw [addCuts]
    rcases hadd : run.graph.addCut id with v | ⟨g₁, new⟩
    · rfl
    · have hrest := ih { run with graph := g₁, added := run.added + if new then 1 else 0 }
        ((addCut_sameFlow hadd).valid hg)
      have hlen : g₁.cuts.length = run.graph.cuts.length + if new then 1 else 0 := by
        have hflag := hg.flagCut_length id
        rw [addCut_eq_flagCut] at hadd
        rcases hf : run.graph.flagCut id with ⟨g₂, new₂, _ | v⟩
        · rw [hf] at hadd hflag
          obtain ⟨rfl, rfl⟩ := Prod.mk.inj (Except.ok.inj hadd)
          exact hflag
        · simp [hf] at hadd
      dsimp only at hrest ⊢
      omega

/-- **Calls count the cuts that they add**, also where they fail. -/
theorem Valid.answer_added (hg : g.Valid) (q : Request) {n : Nat} (h : n ∈ (g.answer q).2.added?) :
    (g.answer q).1.cuts.length = g.cuts.length + n := by
  cases q with
  | cut id =>
    obtain rfl := Option.some_inj.mp h
    exact hg.flagCut_length id
  | dominatorCuts =>
    obtain rfl := Option.some_inj.mp h
    exact Valid.addCuts_added { graph := g } hg
  | semanticCuts generations =>
    obtain rfl := Option.some_inj.mp h
    exact Valid.addCuts_added { graph := g } hg
  | syntacticPath register =>
    cases register with
    | false => simp [answer, Answer.added?] at h
    | true =>
      simp only [answer] at h
      split at h <;> simp [Answer.added?] at h
  | mergePoints => simp [answer, Answer.added?] at h
  | recursiveCuts => simp [answer, Answer.added?] at h
  | emit p code impliesEnds => simp [answer, Answer.added?] at h

/-! ### Which pairs are registered -/

theorem SameFlow.dominatorCandidates_eq (h : SameFlow g g') :
    g'.dominatorCandidates = g.dominatorCandidates := by
  have hblocks : g'.sortedBlocks = g.sortedBlocks := by
    rw [sortedBlocks, uids, h.blocks, funext (block?_congr h.blocks), sortedBlocks, uids]
  rw [dominatorCandidates, hblocks, preds_congr h.edges, dominatorCandidates]

theorem SameFlow.pairs_eq (h : SameFlow g g') (q : Request) : q.pairs g' = q.pairs g := by
  cases q with
  | dominatorCuts => exact h.dominatorCandidates_eq
  | syntacticPath register => cases register <;> simp [Request.pairs, h.start, h.stop]
  | _ => rfl

/-- **A request that succeeds leaves its pairs registered**, and no other new ones. -/
theorem answer_ids {q : Request} (h : (g.answer q).2.succeeded) {c : CutId} :
    c ∈ (g.answer q).1.cuts.map (·.id) ↔ c ∈ g.cuts.map (·.id) ∨ c ∈ q.pairs g := by
  cases q with
  | cut id =>
    rcases hf : g.flagCut id with ⟨g₁, new, _ | v⟩
    · have hadd : g.addCut id = .ok (g₁, new) := by rw [addCut_eq_flagCut, hf]
      simp only [answer, hf, Request.pairs, List.mem_singleton]
      exact addCut_ids hadd
    · simp [answer, hf, Answer.succeeded] at h
  | dominatorCuts => exact addCuts_ids (Option.isNone_iff_eq_none.mp h)
  | semanticCuts generations => exact addCuts_ids (Option.isNone_iff_eq_none.mp h)
  | syntacticPath register =>
    cases register with
    | false => simp [answer, Request.pairs]
    | true =>
      simp only [answer, Request.pairs, List.mem_singleton] at h ⊢
      rcases hadd : g.addGlobalCut with _ | ⟨g₁, r⟩
      · simp [hadd, Answer.succeeded, Except.toOption] at h
      · exact addGlobalCut_ids hadd
  | mergePoints => simp [answer, Request.pairs]
  | recursiveCuts => simp [answer, Request.pairs]
  | emit p code impliesEnds => simp [answer, Request.pairs]

/-! ### Runs over requests -/

/-- What one request preserves, all requests preserve. -/
theorem serve_preserves {P : Graph → Prop} (hstep : ∀ g q, P g → P (g.answer q).1)
    (qs : List Request) (hg : P g) : P (g.serve qs).1 := by
  induction qs generalizing g with
  | nil => exact hg
  | cons q qs ih => exact ih (hstep g q hg)

theorem serve_sameFlow (g : Graph) (qs : List Request) : SameFlow g (g.serve qs).1 :=
  serve_preserves (P := SameFlow g) (fun g₁ q h => h.trans (g₁.answer_sameFlow q)) qs (.refl g)

theorem CutsCurrent.serve (hc : g.CutsCurrent) (qs : List Request) : (g.serve qs).1.CutsCurrent :=
  serve_preserves (fun _ q h => h.answer q) qs hc

/-- **A registered cut is never changed or removed.** -/
theorem serve_cuts_prefix (g : Graph) (qs : List Request) : g.cuts <+: (g.serve qs).1.cuts :=
  serve_preserves (P := fun g₁ => g.cuts <+: g₁.cuts)
    (fun g₁ q h => h.trans (g₁.answer_cuts_prefix q)) qs List.prefix_rfl

/-- **A run that succeeds leaves exactly the pairs registered that it was asked for.** -/
theorem serve_ids {qs : List Request} (h : ∀ a ∈ (g.serve qs).2, a.succeeded) {c : CutId} :
    c ∈ (g.serve qs).1.cuts.map (·.id) ↔
      c ∈ g.cuts.map (·.id) ∨ c ∈ qs.flatMap (·.pairs g) := by
  induction qs generalizing g with
  | nil => simp [serve]
  | cons q qs ih =>
    simp only [serve, List.forall_mem_cons] at h
    have hpairs : qs.flatMap (·.pairs (g.answer q).1) = qs.flatMap (·.pairs g) := by
      simp only [(g.answer_sameFlow q).pairs_eq]
    simp only [serve]
    rw [ih h.2, answer_ids h.1, hpairs, List.flatMap_cons, List.mem_append, or_assoc]

/-- Graphs that differ in their cuts have the same cuts if all are current and for the same
pairs. -/
theorem CutsCurrent.cuts_perm {g₁ g₂ : Graph} (h₁ : g₁.CutsCurrent) (h₂ : g₂.CutsCurrent)
    (hflow : SameFlow g₁ g₂) (hids : ∀ c, c ∈ g₁.cuts.map (·.id) ↔ c ∈ g₂.cuts.map (·.id)) :
    g₁.cuts.Perm g₂.cuts := by
  -- the cut for a pair is made of what its query returns, which is the same in both graphs
  have hsub : ∀ {g₁ g₂ : Graph}, g₁.CutsCurrent → g₂.CutsCurrent → SameFlow g₁ g₂ →
      (∀ c, c ∈ g₁.cuts.map (·.id) ↔ c ∈ g₂.cuts.map (·.id)) → g₁.cuts ⊆ g₂.cuts := by
    intro g₁ g₂ h₁ h₂ hflow hids c hc
    obtain ⟨c', hc', hid⟩ := List.mem_map.mp ((hids c.id).mp (List.mem_map_of_mem hc))
    obtain ⟨r, hr, hcost, hblocks, hedges⟩ := h₁.query c hc
    obtain ⟨r', hr', hcost', hblocks', hedges'⟩ := h₂.query c' hc'
    rw [hid, hflow.longestPath_eq] at hr'
    obtain rfl := Except.ok.inj (hr.symm.trans hr')
    have heq : c = c' := by
      rcases c with ⟨id, cost, blocks, edges⟩
      rcases c' with ⟨id', cost', blocks', edges'⟩
      simp_all
    exact heq ▸ hc'
  have hback : SameFlow g₂ g₁ :=
    ⟨hflow.blocks.symm, hflow.edges.symm, hflow.start.symm, hflow.stop.symm⟩
  refine (List.perm_ext_iff_of_nodup h₁.ids_nodup.of_map h₂.ids_nodup.of_map).mpr fun c => ?_
  exact ⟨fun hc => hsub h₁ h₂ hflow hids hc, fun hc => hsub h₂ h₁ hback (fun c => (hids c).symm) hc⟩

/-- **The registry over whole runs.** After any requests to a graph without cuts, failures
included:

* no two cuts have the same ends, each is what its query returns now, holds its ends and an edge;
* a path that is found always gives a cut;
* nothing but the cuts has changed;
* further requests only append cuts, and a call that counts its cuts counts them right;
* two runs without failures that ask for the same pairs end with the same cuts. -/
theorem serve_registry {g : Graph} (hg : g.Built) (hcuts : g.cuts = []) (qs : List Request) :
    ((g.serve qs).1.CutsCurrent ∧ ∀ c ∈ (g.serve qs).1.cuts,
      c.id.head ∈ c.blocks ∧ c.id.tail ∈ c.blocks ∧ c.edges ≠ []) ∧
    (∀ id r, (g.serve qs).1.longestPath id.head id.tail = .ok r →
      ∃ c, Cut.ofLongestPath id r = .ok c) ∧
    (g.serve qs).1 = { g with cuts := (g.serve qs).1.cuts } ∧
    (∀ qs', (g.serve qs).1.cuts <+: ((g.serve qs).1.serve qs').1.cuts) ∧
    (∀ q, ∀ n ∈ ((g.serve qs).1.answer q).2.added?,
      ((g.serve qs).1.answer q).1.cuts.length = (g.serve qs).1.cuts.length + n) ∧
    ∀ qs', (∀ a ∈ (g.serve qs).2, a.succeeded) → (∀ a ∈ (g.serve qs').2, a.succeeded) →
      (∀ c, c ∈ qs.flatMap (·.pairs g) ↔ c ∈ qs'.flatMap (·.pairs g)) →
        (g.serve qs).1.cuts.Perm (g.serve qs').1.cuts := by
  have hflow := g.serve_sameFlow qs
  have hvalid : (g.serve qs).1.Valid := hflow.valid hg.valid
  have hcurrent : ∀ qs, (g.serve qs).1.CutsCurrent :=
    (cutsCurrent_of_cuts_eq_nil hcuts).serve
  refine ⟨⟨hcurrent qs, fun c hc => ?_⟩, fun id r hr => ⟨_, (hvalid.ofLongestPath_eq_ok hr).1⟩, ?_,
    serve_cuts_prefix _, fun q n hn => hvalid.answer_added q hn, fun qs' h h' hpairs => ?_⟩
  · obtain ⟨r, hr, -, hblocks, hedges⟩ := (hcurrent qs).query c hc
    rw [hblocks, hedges]
    exact (hvalid.ofLongestPath_eq_ok hr).2
  · rcases hg' : (g.serve qs).1 with ⟨blocks, edges, cuts, start, stop⟩
    rw [hg'] at hflow
    obtain ⟨rfl, rfl, rfl, rfl⟩ := hflow
    rfl
  · have hflow' : SameFlow (g.serve qs).1 (g.serve qs').1 := by
      have hto := g.serve_sameFlow qs'
      exact ⟨by rw [hto.blocks, hflow.blocks], by rw [hto.edges, hflow.edges],
        by rw [hto.start, hflow.start], by rw [hto.stop, hflow.stop]⟩
    refine (hcurrent qs).cuts_perm (hcurrent qs') hflow' fun c => ?_
    rw [serve_ids h, serve_ids h', hpairs]

/-- Two forks in a row. Block 6 declares a block as its dominator that it can be reached around, so
the run over the dominator cuts fails after the first of them. -/
def halfDeclared : Graph where
  blocks :=
    [ { uid := 0, selector := "bs_0", written := "bs_0", cost := 1 },
      { uid := 1, selector := "b_1", written := "b_1", cost := 2, dominator := 0 },
      { uid := 2, selector := "b_2", written := "b_2", cost := 3, dominator := 0 },
      { uid := 3, selector := "b_3", written := "b_3", cost := 4, dominator := 0 },
      { uid := 4, selector := "b_4", written := "b_4", cost := 5, dominator := 3 },
      { uid := 5, selector := "b_5", written := "b_5", cost := 6, dominator := 3 },
      { uid := 6, selector := "b_6", written := "b_6", cost := 7, dominator := 4 } ]
  edges :=
    [ ⟨⟨0, 1⟩, 0⟩, ⟨⟨0, 2⟩, 0⟩, ⟨⟨1, 3⟩, 0⟩, ⟨⟨2, 3⟩, 0⟩, ⟨⟨3, 4⟩, 0⟩, ⟨⟨3, 5⟩, 0⟩, ⟨⟨4, 6⟩, 0⟩,
      ⟨⟨5, 6⟩, 0⟩ ]
  start := 0
  stop := 6

theorem halfDeclared_built : halfDeclared.Built :=
  .annotate
    ((Built.empty.foldlM_addBlock
      (show halfDeclared.blocks.foldlM addBlock {} = .ok { blocks := halfDeclared.blocks } by
        decide)).foldlM_addEdge
      (show halfDeclared.edges.foldlM addEdge { blocks := halfDeclared.blocks } =
          .ok { halfDeclared with start := noDominator, stop := noDominator } by
        decide))
    (.endpoints (show Graph.setEndpoints _ 0 6 = .ok halfDeclared by decide))

/-- The failing run over the dominator cuts counts one cut, and one is there. The cuts from block 0
to block 3 and from there to block 4 may be asked for in either order. -/
theorem serve_registry_halfDeclared :
    (halfDeclared.serve []).1.CutsCurrent ∧
      (halfDeclared.answer .dominatorCuts).2.succeeded = false ∧
      (halfDeclared.answer .dominatorCuts).1.cuts.length = 0 + 1 ∧
      (halfDeclared.serve [.cut ⟨0, 3⟩, .cut ⟨3, 4⟩]).1.cuts.Perm
        (halfDeclared.serve [.semanticCuts [[⟨3, 4⟩], [⟨0, 3⟩]], .mergePoints]).1.cuts := by
  obtain ⟨⟨hcurrent, -⟩, -, -, -, hadded, -⟩ := serve_registry halfDeclared_built rfl []
  obtain ⟨-, -, -, -, -, hperm⟩ :=
    serve_registry halfDeclared_built rfl [.cut ⟨0, 3⟩, .cut ⟨3, 4⟩]
  refine ⟨hcurrent, by decide, hadded .dominatorCuts 1 (by decide), ?_⟩
  refine hperm _ (by decide) (by decide) fun c => ?_
  simp [Request.pairs, or_comm]

end Graph

end WorstCase
