import WorstCase.Proofs.Encoding.Reordered
import WorstCase.Proofs.Graph.RecordOrder

/-!
# The order of records does not matter

A listing may name its blocks in any order, as long as the start comes before the end. The order
decides in which order blocks, edges and predecessors are stored, and which of several longest paths
is found, but nothing that is handed to a solver.

`Graph.serve_recordOrder` puts the stages together: both texts are read or neither is, into
reordered graphs (`Graph.ofListing_reordered`); any requests for cuts are answered alike
(`Graph.Reordered.serve`); and the graphs emit the same (`Graph.Reordered.emitAlike`).
-/

namespace WorstCase

namespace Graph

open Encoding

/-- Two graphs emit the same into a fresh problem. In difference logic the bounds of a block may
come in another order. -/
structure EmitAlike (g g' : Graph) : Prop where
  result (code : Int) (impliesEnds : Bool) :
    EndAlike (fun s s' => s' = s) (g.emit {} code impliesEnds).2 (g'.emit {} code impliesEnds).2
  problem (code : Int) (impliesEnds : Bool) (h : code ≠ differenceLogic.code) :
    (g'.emit {} code impliesEnds).1 = (g.emit {} code impliesEnds).1
  bounds (impliesEnds : Bool) :
    SameUpToDisjuncts g (g.emit {} differenceLogic.code impliesEnds).1
      (g'.emit {} differenceLogic.code impliesEnds).1

theorem Reordered.emitAlike {g g' : Graph} (h : Reordered g g') : EmitAlike g g' where
  result := h.emit_result {} {}
  problem _ impliesEnds hcode := h.emit_eq hcode {} impliesEnds
  bounds := h.emit_sameUpToDisjuncts

/-- **The order of records does not matter.** Two listings with the same records are both read or
both refused. After any requests the graphs have the same cuts and the same candidates for recursive
cuts, each request has succeeded for both or failed for both, and they emit the same problems. -/
theorem serve_recordOrder {text text' : String} (h : Record.Reorders text.toList text'.toList) :
    EndAlike
      (fun g g' => ∀ qs : List Request,
        List.Forall₂ AnswersAlike (g.serve qs).2 (g'.serve qs).2 ∧
          (g'.serve qs).1.cuts = (g.serve qs).1.cuts ∧
          (g'.serve qs).1.recursiveCuts = (g.serve qs).1.recursiveCuts ∧
          EmitAlike (g.serve qs).1 (g'.serve qs).1)
      (ofListing text) (ofListing text') := by
  refine (ofListing_reordered h).imp fun g g' hreordered qs => ?_
  obtain ⟨hserved, hanswers⟩ := hreordered.serve qs
  exact ⟨hanswers, hserved.cuts, hserved.recursiveCuts_eq, hserved.emitAlike⟩

/-! ### A diamond in two orders -/

/-- Two branches of the same cost. -/
def diamondText : String :=
  "BasicBlock bd_0: 3
    A: Dominator = NULL
    br label %M, label %N
  BasicBlock b_2: 1
    M: Dominator = bd_0
    br label %B
  BasicBlock b_3: 1
    N: Dominator = bd_0
    br label %B
  BasicBlock bd_1: 4
    B: Dominator = bd_0
    ret void"

/-- The same with the branches exchanged, one of them behind the end. -/
def turnedText : String :=
  "BasicBlock b_3: 1
    N: Dominator = bd_0
    br label %B
  BasicBlock bd_0: 3
    A: Dominator = NULL
    br label %M, label %N
  BasicBlock bd_1: 4
    B: Dominator = bd_0
    ret void
  BasicBlock b_2: 1
    M: Dominator = bd_0
    br label %B"

/-- The graph of `diamondText`. -/
def diamond : Graph where
  blocks :=
    [ { uid := 0, label := "A", selector := "bs_0", written := "bd_0", cost := 3 },
      { uid := 2, label := "M", selector := "b_2", written := "b_2", cost := 1, dominator := 0 },
      { uid := 3, label := "N", selector := "b_3", written := "b_3", cost := 1, dominator := 0 },
      { uid := 1, label := "B", selector := "bs_1", written := "bd_1", cost := 4,
        dominator := 0 } ]
  edges := [⟨⟨0, 2⟩, 0⟩, ⟨⟨0, 3⟩, 0⟩, ⟨⟨2, 1⟩, 0⟩, ⟨⟨3, 1⟩, 0⟩]
  start := 0
  stop := 1

/-- The graph of `turnedText`. -/
def turned : Graph where
  blocks :=
    [ { uid := 3, label := "N", selector := "b_3", written := "b_3", cost := 1, dominator := 0 },
      { uid := 0, label := "A", selector := "bs_0", written := "bd_0", cost := 3 },
      { uid := 1, label := "B", selector := "bs_1", written := "bd_1", cost := 4, dominator := 0 },
      { uid := 2, label := "M", selector := "b_2", written := "b_2", cost := 1, dominator := 0 } ]
  edges := [⟨⟨3, 1⟩, 0⟩, ⟨⟨0, 2⟩, 0⟩, ⟨⟨0, 3⟩, 0⟩, ⟨⟨2, 1⟩, 0⟩]
  start := 0
  stop := 1

theorem ofListing_diamondText : ofListing diamondText = .ok diamond := by
  refine ok_of_toOption_eq_some ?_
  rw [ofListing, diamondText, String.toList_ofList]
  decide

theorem ofListing_turnedText : ofListing turnedText = .ok turned := by
  refine ok_of_toOption_eq_some ?_
  rw [ofListing, turnedText, String.toList_ofList]
  decide

theorem reorders_turnedText : Record.Reorders diamondText.toList turnedText.toList := by
  rw [diamondText, turnedText, String.toList_ofList, String.toList_ofList]
  exact ⟨by decide, by decide⟩

/-- The block in which the branches meet has its predecessors in another order. -/
theorem serve_recordOrder_diamond :
    Record.Reorders diamondText.toList turnedText.toList ∧
      ofListing diamondText = .ok diamond ∧ ofListing turnedText = .ok turned ∧
      diamond.preds 1 = [2, 3] ∧ turned.preds 1 = [3, 2] ∧
      ∀ qs : List Request,
        List.Forall₂ AnswersAlike (diamond.serve qs).2 (turned.serve qs).2 ∧
          (turned.serve qs).1.cuts = (diamond.serve qs).1.cuts ∧
          (turned.serve qs).1.recursiveCuts = (diamond.serve qs).1.recursiveCuts ∧
          EmitAlike (diamond.serve qs).1 (turned.serve qs).1 := by
  refine ⟨reorders_turnedText, ofListing_diamondText, ofListing_turnedText, by decide, by decide, ?_⟩
  rcases (serve_recordOrder reorders_turnedText).results with
    ⟨e, -, he, -⟩ | ⟨g, g', hg, hg', h⟩
  · exact absurd (ofListing_diamondText.symm.trans he) (by simp)
  · obtain rfl := Except.ok.inj (ofListing_diamondText.symm.trans hg)
    obtain rfl := Except.ok.inj (ofListing_turnedText.symm.trans hg')
    exact h

end Graph

end WorstCase
