import WorstCase.Proofs.Encoding.Emission
import WorstCase.Proofs.Graph.DeclaredChain
import WorstCase.Proofs.Health.Findings

/-!
# What a clean bill of health guarantees

A health check looks at a graph in its own way: it searches in mirrors, and climbs a dominator tree
that it trusts. Generation climbs declared chains and sweeps. The two views agree:

* what the checks report says that loops are absent, that all blocks can be reached and that
  declared dominators dominate (see `WorstCase.Proofs.Health.Findings`);
* `Health.wellDeclared_of_reports`: if they report nothing bad, the declarations can be trusted;
* `Health.generation_of_reports`: **then generation cannot fail**, from the dominator cuts through
  the recursive cuts to the emitted problem.

What is reported of dead ends and of the end block plays no part.
-/

namespace WorstCase.Health

open WorstCase.Graph

variable {g : Graph}

/-! ### Generation -/

/-- **If nothing bad is reported, the declarations can be trusted.** Uids are not negative, so that
a declared dominator that dominates is not mistaken for a missing one. -/
theorem wellDeclared_of_reports (hg : g.Valid) (hstart : g.start ∈ g.blocks.map (·.uid))
    (huids : ∀ b ∈ g.blocks, 0 ≤ b.uid) (hacyclic : (examine g).Reports .acyclic .ok)
    (hreach : (examine g).Reports .reachability .ok)
    (hdom : ¬ (examine g).Reports .dominators .error) : g.WellDeclared := by
  obtain ⟨-, hall⟩ :=
    (reports_reachability_ok_iff Toolkit.lawful_standard hg hstart).mp hreach
  have hstrict : ∀ b ∈ g.blocks, b.uid ≠ g.start → g.StrictlyDominates b.dominator b.uid := by
    intro b hb hne
    by_contra hnot
    exact hdom ((reports_dominators Toolkit.lawful_standard hg hstart).1.mpr
      ⟨b, hb, hne, hall _ (List.mem_map_of_mem hb), hnot⟩)
  refine ⟨hg, hstart, (reports_acyclic_ok_iff Toolkit.lawful_standard hg).mp hacyclic, hall,
    fun b hb hne heq => ?_, hstrict⟩
  -- the declared dominator is a block, and has its uid
  have hreachable := ((hstrict b hb hne).2.reaches (hall _ (List.mem_map_of_mem hb))).1
  obtain ⟨d, hd, hduid⟩ := List.mem_map.mp (hg.known_of_reaches hstart hreachable)
  have hnonneg := huids d hd
  rw [hduid, heq, noDominator] at hnonneg
  omega

/-- **A clean bill of health guarantees generation.** If the check of a listing reports no loop, no
unreachable block and no wrong dominator, then the dominator cuts, the recursive cuts and the cut
from the start to the end can all be made, paths can be counted, and the graph can be emitted in
every encoding. -/
theorem generation_of_reports {text : String} {g : Graph} (h : ofListing text = .ok g)
    (huids : ∀ b ∈ g.blocks, 0 ≤ b.uid) (hacyclic : (examine g).Reports .acyclic .ok)
    (hreach : (examine g).Reports .reachability .ok)
    (hdom : ¬ (examine g).Reports .dominators .error) :
    g.addDominatorCuts.failure = none ∧
      ∃ points generations g' r n,
        g.addDominatorCuts.graph.mergePoints = .ok points ∧
        g.addDominatorCuts.graph.recursiveCuts = .ok generations ∧
        (g.addDominatorCuts.graph.addSemanticCuts generations).failure = none ∧
        (g.addDominatorCuts.graph.addSemanticCuts generations).graph.addGlobalCut = .ok (g', r) ∧
        g'.countPaths g'.start g'.stop = .ok n ∧
        ∀ p enc impliesEnds, ∃ stats,
          (g'.emit p (Encoding.code enc) impliesEnds).2 = .ok stats := by
  obtain ⟨records, start, stop, entries, -, hl⟩ := lists_of_ofListing h
  have hg := valid_of_ofListing h
  have hw := wellDeclared_of_reports hg hl.start_known huids hacyclic hreach hdom
  obtain ⟨points, hchain⟩ := hw.exists_chain hl.stop_known
  -- the dominator cuts
  have hfirst : g.addDominatorCuts.failure = none :=
    hg.addCuts_failure_eq_none rfl fun id hid => hw.dominatorCandidate_longestPath hid
  have hsame₁ : SameFlow g g.addDominatorCuts.graph := addCuts_sameFlow (.refl g)
  have hmerge : g.addDominatorCuts.graph.mergePoints = .ok points :=
    hsame₁.mergePoints_eq.trans (hw.mergePoints_eq_ok hchain)
  -- the recursive cuts
  let generations : List Generation := (recursivePairs points).map ([·])
  have hrecursive : g.addDominatorCuts.graph.recursiveCuts = .ok generations := by
    rw [recursiveCuts, hmerge]
    rfl
  have hsecond : (g.addDominatorCuts.graph.addSemanticCuts generations).failure = none := by
    refine (hsame₁.valid hg).addSemanticCuts_failure_eq_none fun id hid => ?_
    have hmem : id ∈ recursivePairs points := by
      simpa [generations, List.mem_flatten] using hid
    rw [hsame₁.longestPath_eq]
    exact hw.recursivePair_longestPath hchain hmem
  have hsame₂ : SameFlow g (g.addDominatorCuts.graph.addSemanticCuts generations).graph :=
    hsame₁.trans (addCuts_sameFlow (.refl _))
  -- from the start to the end
  obtain ⟨r, hr⟩ := hw.exists_longestPath hchain hchain.start_mem (hl.start_ne_stop hg)
  obtain ⟨g', hg'⟩ : ∃ g',
      (g.addDominatorCuts.graph.addSemanticCuts generations).graph.addGlobalCut = .ok (g', r) := by
    refine (hsame₂.valid hg).exists_addGlobalCut ?_
    rw [hsame₂.longestPath_eq, hsame₂.start, hsame₂.stop, hr]
  have hsame₃ : SameFlow g g' := hsame₂.trans (addGlobalCut_sameFlow hg')
  have hr' : g'.longestPath g'.start g'.stop = .ok r := by
    rw [hsame₃.longestPath_eq, hsame₃.start, hsame₃.stop, hr]
  have hvalid' := hsame₃.valid hg
  obtain ⟨n, hn⟩ := hvalid'.countPaths_isOk_iff.mpr (hvalid'.connects_of_longestPath hr')
  exact ⟨hfirst, points, generations, g', r, n, hmerge, hrecursive, hsecond, hg', hn,
    fun p enc impliesEnds => hvalid'.exists_emit hr' p enc impliesEnds⟩

/-- Two branches that meet again, behind a block that both come from. -/
def kiteText : String :=
  "BasicBlock bd_0: 1
    A: Dominator = NULL
    br label %B
  BasicBlock b_2: 7
    B: Dominator = bd_0
    br i1 %c, label %C, label %D
  BasicBlock b_3: 3
    C: Dominator = b_2
    br label %E
  BasicBlock b_4: 5
    D: Dominator = b_2
    br label %E
  BasicBlock bd_1: 2
    E: Dominator = b_2
    ret void"

/-- The graph of `kiteText`. -/
def kite : Graph where
  blocks :=
    [ { uid := 0, label := "A", selector := "bs_0", written := "bd_0", cost := 1 },
      { uid := 2, label := "B", selector := "b_2", written := "b_2", cost := 7, dominator := 0 },
      { uid := 3, label := "C", selector := "b_3", written := "b_3", cost := 3, dominator := 2 },
      { uid := 4, label := "D", selector := "b_4", written := "b_4", cost := 5, dominator := 2 },
      { uid := 1, label := "E", selector := "bs_1", written := "bd_1", cost := 2,
        dominator := 2 } ]
  edges := [⟨⟨0, 2⟩, 0⟩, ⟨⟨2, 3⟩, 0⟩, ⟨⟨2, 4⟩, 0⟩, ⟨⟨3, 1⟩, 0⟩, ⟨⟨4, 1⟩, 0⟩]
  start := 0
  stop := 1

theorem generation_of_reports_kite :
    kite.addDominatorCuts.failure = none ∧
      ∃ points generations g' r n,
        kite.addDominatorCuts.graph.mergePoints = .ok points ∧
        kite.addDominatorCuts.graph.recursiveCuts = .ok generations ∧
        (kite.addDominatorCuts.graph.addSemanticCuts generations).failure = none ∧
        (kite.addDominatorCuts.graph.addSemanticCuts generations).graph.addGlobalCut =
          .ok (g', r) ∧
        g'.countPaths g'.start g'.stop = .ok n ∧
        ∀ p enc impliesEnds, ∃ stats,
          (g'.emit p (Encoding.code enc) impliesEnds).2 = .ok stats := by
  have hread : ofListing kiteText = .ok kite := by
    refine ok_of_toOption_eq_some ?_
    rw [ofListing, kiteText, String.toList_ofList]
    decide +kernel
  exact generation_of_reports hread (by decide) (by decide +kernel) (by decide +kernel)
    (by decide +kernel)

end WorstCase.Health
