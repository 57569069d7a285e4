import WorstCase.Proofs.Graph.Charge
import WorstCase.Proofs.Text.Lines

/-!
# What a matching file leaves behind

A matching file is accepted exactly if the reader has room for all of its rows and every line that
is not blank spells something that names a block or an edge of the graph
(`Coherent.applyMatching_eq_none_iff`). Then each block costs what the last line that names it says,
or nothing if there is none, while an edge that no line names keeps its cost (`Graph.settle`).
Otherwise the file fails at one row, and what the rows before it name has been charged.
-/

namespace WorstCase

namespace MatchingLine

/-- What the rows of a text spell. -/
def Says (text : String) (ls : List MatchingLine) : Prop :=
  Spoken ((Text.rows text.toList).map Text.content) ls

theorem Says.unique {text : String} {ls ls' : List MatchingLine} (h : Says text ls)
    (h' : Says text ls') : ls = ls' :=
  List.right_unique_forall₂' (R := Spells) (fun _ _ _ => Spells.unique) h h'

/-- Every row that is not blank is a line. -/
theorem Says.exists_mem {text : String} {ls : List MatchingLine} {raw : List Char}
    (h : Says text ls)
    (hraw : raw ∈ ((Text.rows text.toList).map Text.content).filter (¬ Text.isBlankText ·)) :
    ∃ l ∈ ls, Spells raw l := by
  obtain ⟨i, hi, rfl⟩ := List.mem_iff_getElem.mp hraw
  have hi' := h.length_eq ▸ hi
  exact ⟨_, List.getElem_mem hi', h.get hi hi'⟩

end MatchingLine

open MatchingLine

namespace Graph

variable {g g' : Graph}

/-- What a file leaves behind: the blocks that no line names are free, and the edges that no line
names keep their costs. -/
def settle (g : Graph) (ls : List MatchingLine) : Graph :=
  { g with
    blocks := g.blocks.map fun b => { b with cost := (lastCost (·.namesBlock b) ls).getD 0 }
    edges := g.edges.map (g.chargeEdge ls) }

theorem clearOthers_charge {named : List Int} {ls : List MatchingLine}
    (hnamed : ∀ b ∈ g.blocks, b.uid ∈ named ↔ ∃ l ∈ ls, l.namesBlock b) :
    (g.charge ls).clearOthers named = g.settle ls := by
  simp only [clearOthers, charge, settle, List.map_map]
  congr 1
  refine List.map_congr_left fun b hb => ?_
  simp only [Function.comp, List.contains_iff_mem, hnamed b hb]
  split_ifs with h
  · obtain ⟨l, hl, hnames⟩ := h
    obtain ⟨cost, hcost⟩ : ∃ cost, lastCost (·.namesBlock b) ls = some cost :=
      exists_lastCost hl hnames
    rw [hcost]
    rfl
  · have hnone : lastCost (·.namesBlock b) ls = none :=
      lastCost_eq_none_iff.mpr fun l hl => by simpa using fun hnames => h ⟨l, hl, hnames⟩
    rw [hnone]
    rfl

variable {text : String}

/-- **A file that is accepted** settles the costs of all blocks. -/
theorem Coherent.applyMatching_eq_none (hg : g.Coherent) (h : (g.applyMatching text).2 = none) :
    (∀ row ∈ Text.rows text.toList, row.length < Text.Lines.room) ∧
      ∃ ls, Says text ls ∧ (∀ l ∈ ls, g.Resolves l) ∧ (g.applyMatching text).1 = g.settle ls := by
  have hread := Text.Lines.read_eq text.toList
  rcases hrun : g.applyLines [] 1 (Text.Lines.read text.toList).lines with ⟨g₁, named, _ | e⟩
  · simp only [Graph.applyMatching, hrun] at h ⊢
    split_ifs at h ⊢ with hlong
    have hroom : ∀ row ∈ Text.rows text.toList, row.length < Text.Lines.room := by
      simpa [hread] using hlong
    obtain ⟨ls, happlied, hnamed⟩ := hg.applyLines_eq_none hrun
    refine ⟨hroom, ls, ?_, happlied.resolves, ?_⟩
    · have hspoken := happlied.spoken
      rwa [hread, List.takeWhile_eq_self_iff.mpr fun row hrow => decide_eq_true (hroom row hrow)]
        at hspoken
    · rw [happlied.graph_eq, clearOthers_charge fun b hb => by simpa using hnamed b hb]
  · simp [Graph.applyMatching, hrun] at h

/-- **A file that is not accepted** fails at a row, and has charged what the rows before it name. -/
theorem Coherent.applyMatching_eq_some (hg : g.Coherent) {e : LineError}
    (h : (g.applyMatching text).2 = some e) :
    ∃ before row rest ls, Text.rows text.toList = before ++ row :: rest ∧
      (∀ row ∈ before, row.length < Text.Lines.room) ∧
      g.Applied (before.map Text.content) ls (g.applyMatching text).1 ∧
      ((∃ fragment cause, row.length < Text.Lines.room ∧
          Text.isBlankText (Text.content row) = false ∧
          g.Refused (Text.content row) fragment cause ∧
          e = .read ⟨.matching, before.length + 1, fragment, cause⟩) ∨
        Text.Lines.room ≤ row.length ∧ e = .tooLong .matching) := by
  rcases hrun : g.applyLines [] 1 (Text.Lines.read text.toList).lines with ⟨g₁, named, _ | e'⟩
  · simp only [Graph.applyMatching, hrun] at h ⊢
    split_ifs at h ⊢ with hlong
    obtain ⟨before, row, rest, hrows, hshort, hrow, hlines⟩ := Text.Lines.exists_long_row hlong
    obtain ⟨ls, happlied, -⟩ := hg.applyLines_eq_none hrun
    rw [← hlines] at happlied
    exact ⟨before, row, rest, ls, hrows, hshort, happlied,
      .inr ⟨hrow, (Option.some_inj.mp h).symm⟩⟩
  · simp only [Graph.applyMatching, hrun, Option.some.injEq] at h ⊢
    obtain ⟨lines, raw, _, ls, fragment, cause, hlines, happlied, hraw, hrefused, rfl⟩ :=
      hg.applyLines_eq_some hrun
    obtain ⟨before, row, rest, hrows, hshort, hrow, rfl, rfl⟩ := Text.Lines.exists_row hlines
    refine ⟨before, row, rest, ls, hrows, hshort, happlied,
      .inl ⟨fragment, cause, hrow, by simpa using hraw, hrefused, ?_⟩⟩
    rw [← h, Nat.add_comm, List.length_map]

/-- **Which files are accepted.** -/
theorem Coherent.applyMatching_eq_none_iff (hg : g.Coherent) :
    (g.applyMatching text).2 = none ↔
      (∀ row ∈ Text.rows text.toList, row.length < Text.Lines.room) ∧
        ∃ ls, Says text ls ∧ ∀ l ∈ ls, g.Resolves l := by
  constructor
  · intro h
    obtain ⟨hroom, ls, hsays, hresolves, -⟩ := hg.applyMatching_eq_none h
    exact ⟨hroom, ls, hsays, hresolves⟩
  · rintro ⟨hroom, ls, hsays, hresolves⟩
    rcases he : (g.applyMatching text).2 with _ | e
    · rfl
    obtain ⟨before, row, rest, -, hrows, -, -, hfails⟩ := hg.applyMatching_eq_some he
    have hrow : row ∈ Text.rows text.toList := by simp [hrows]
    rcases hfails with ⟨fragment, cause, -, hraw, hrefused, -⟩ | ⟨hlong, -⟩
    · -- the row that is refused would spell one of the lines
      have hmem : Text.content row ∈
          ((Text.rows text.toList).map Text.content).filter (¬ Text.isBlankText ·) :=
        List.mem_filter.mpr ⟨List.mem_map_of_mem hrow, by simpa using hraw⟩
      obtain ⟨l, hl, hspells⟩ := hsays.exists_mem hmem
      exact absurd (hresolves l hl) (hrefused.not_resolves hg.valid hspells)
    · exact absurd (hroom row hrow) (Nat.not_lt.mpr hlong)

/-- **Matching files set costs.** An accepted file, on a graph whose edges are free, gives each
block and each edge the cost in the last line that names it, or none; it changes nothing else.
Otherwise the file fails at some row: exactly the rows before it have charged what they name, and
the error tells the number of the row and what is wrong with it, or that it is too long for the
reader. -/
theorem Built.applyMatching_charges (hg : g.Built) (hfree : ∀ e ∈ g.edges, e.cost = 0)
    (text : String) :
    ((g.applyMatching text).2 = none →
      (∀ row ∈ Text.rows text.toList, row.length < Text.Lines.room) ∧
      ∃ ls, Says text ls ∧ (∀ l ∈ ls, g.Resolves l) ∧
        (g.applyMatching text).1 =
          { g with
            blocks := g.blocks.map fun b =>
              { b with cost := (lastCost (·.namesBlock b) ls).getD 0 }
            edges := g.edges.map fun e =>
              { e with cost := (lastCost (g.namesEdge · e) ls).getD 0 } }) ∧
    ∀ e, (g.applyMatching text).2 = some e →
      ∃ before row rest ls, Text.rows text.toList = before ++ row :: rest ∧
        (∀ row ∈ before, row.length < Text.Lines.room) ∧
        g.Applied (before.map Text.content) ls (g.applyMatching text).1 ∧
        ((∃ fragment cause, row.length < Text.Lines.room ∧
            Text.isBlankText (Text.content row) = false ∧
            g.Refused (Text.content row) fragment cause ∧
            e = .read ⟨.matching, before.length + 1, fragment, cause⟩) ∨
          Text.Lines.room ≤ row.length ∧ e = .tooLong .matching) := by
  refine ⟨fun h => ?_, fun e h => hg.coherent.applyMatching_eq_some h⟩
  obtain ⟨hroom, ls, hsays, hresolves, hgraph⟩ := hg.coherent.applyMatching_eq_none h
  refine ⟨hroom, ls, hsays, hresolves, hgraph.trans ?_⟩
  refine congrArg (fun edges => { g.settle ls with edges }) (List.map_congr_left fun e he => ?_)
  rw [chargeEdge, hfree e he]

/-- A listing of two blocks and the edge between them. -/
def pairText : String :=
  "BasicBlock bd_0: 1
    A: Dominator = NULL
    br label %B
  BasicBlock bd_1: 2
    B: Dominator = bd_0
    ret void"

/-- The graph that is listed. -/
def pair : Graph where
  blocks := [ { uid := 0, label := "A", selector := "bs_0", written := "bd_0", cost := 1 },
    { uid := 1, label := "B", selector := "bs_1", written := "bd_1", cost := 2, dominator := 0 } ]
  edges := [⟨⟨0, 1⟩, 0⟩]
  start := 0
  stop := 1

theorem ofListing_pairText : ofListing pairText = .ok pair := by
  refine ok_of_toOption_eq_some ?_
  rw [ofListing, pairText, String.toList_ofList]
  decide +kernel

/-- Names that repeat, signs that do not count, a blank line, and an empty second label. -/
def acceptedCosts : String := "% (%A) 1
(A, B), 5

x(A,)\t, 7
(A, B) -2"

/-- No block is labelled as the third line says. -/
def refusedCosts : String := "(B) 4

(A, C) 9
(A) 1"

theorem applyMatching_charges_pair :
    (∃ ls, Says acceptedCosts ls ∧
      (pair.applyMatching acceptedCosts).1 =
        { pair with
          blocks := pair.blocks.map fun b =>
            { b with cost := (lastCost (·.namesBlock b) ls).getD 0 }
          edges := pair.edges.map fun e =>
            { e with cost := (lastCost (pair.namesEdge · e) ls).getD 0 } } ∧
      (pair.applyMatching acceptedCosts).1.blocks.map (·.cost) = [7, 0] ∧
      (pair.applyMatching acceptedCosts).1.edges.map (·.cost) = [-2]) ∧
    ∃ before row rest ls, Text.rows refusedCosts.toList = before ++ row :: rest ∧
      pair.Applied (before.map Text.content) ls (pair.applyMatching refusedCosts).1 ∧
      (pair.applyMatching refusedCosts).1.blocks.map (·.cost) = [1, 4] ∧
      (pair.applyMatching refusedCosts).2 =
        some (.read ⟨.matching, before.length + 1, "C", .unknownLabel⟩) := by
  obtain ⟨haccepted, -⟩ := (Built.listing ofListing_pairText).applyMatching_charges (by decide)
    acceptedCosts
  obtain ⟨-, hrefused⟩ := (Built.listing ofListing_pairText).applyMatching_charges (by decide)
    refusedCosts
  constructor
  · obtain ⟨-, ls, hspoken, -, hgraph⟩ := haccepted (by decide +kernel)
    exact ⟨ls, hspoken, hgraph, by decide +kernel, by decide +kernel⟩
  · have he : (pair.applyMatching refusedCosts).2 =
        some (.read ⟨.matching, 3, "C", .unknownLabel⟩) := by decide +kernel
    obtain ⟨before, row, rest, ls, hrows, -, happlied, hfails⟩ := hrefused _ he
    refine ⟨before, row, rest, ls, hrows, happlied, by decide +kernel, ?_⟩
    rcases hfails with ⟨fragment, cause, -, -, -, heq⟩ | ⟨-, heq⟩
    · obtain ⟨-, hline, -⟩ := ReadError.mk.inj (LineError.read.inj heq)
      rw [he, hline]
    · cases heq

end Graph

end WorstCase
