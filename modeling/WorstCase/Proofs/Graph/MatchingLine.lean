import WorstCase.Graph.Matching
import WorstCase.Proofs.Text.Pieces

/-!
# The lines of matching files

A line of a matching file names a block by its label, or an edge by the labels of its ends, and says
what it costs. `MatchingLine.Spells` is the grammar of such lines: percent signs apart, a line
consists of the first pair of brackets and what is around it. One label or two stand in the
brackets, and a cost stands behind them, perhaps after a comma. What stands before the brackets
does not count, nor do blanks around labels and costs, and an empty second label is as good as none.

**Reading a line decides the grammar** (`MatchingLine.read_eq_ok_iff`): a line is read exactly if it
spells something, and then as what it spells.
-/

namespace WorstCase

namespace MatchingLine

open Text

variable {raw s : List Char} {l : MatchingLine}

/-! ### The grammar -/

/-- What stands between the brackets: one label, or two with a comma in between. -/
inductive Labels : List Char → String → String → Prop
  | one {s : List Char} (hs : ',' ∉ s) : Labels s (String.ofList (trim s)) ""
  | two {s d : List Char} (hs : ',' ∉ s) (hd : ',' ∉ d) :
      Labels (s ++ ',' :: d) (String.ofList (trim s)) (String.ofList (trim d))

/-- **What a line spells**: what is named between the first brackets of each kind costs what stands
behind them. -/
inductive Spells (raw : List Char) : MatchingLine → Prop
  | intro {before inner after : List Char} {src dst : String} {n : Int}
      (hline : raw.filter (· ≠ '%') = before ++ '(' :: (inner ++ ')' :: after))
      (hopen : '(' ∉ before) (hclose : ')' ∉ before ++ inner)
      (hlabels : Labels inner src dst) (hsrc : src ≠ "")
      (hcost : Decimal.readInt64? (trim (dropPrefix [','] (trim after))) = some n) :
      Spells raw { src, dst, cost := Int64.ofInt n }

theorem Spells.src_ne (h : Spells raw l) : l.src ≠ "" := by
  cases h
  assumption

/-! ### Reading -/

/-- The first brackets of each kind are in order. -/
theorem brackets_iff {first last : Nat} :
    (position? ['('] s = some first ∧ position? [')'] s = some last ∧ ¬ last < first) ↔
      ∃ before inner after, s = before ++ '(' :: (inner ++ ')' :: after) ∧ '(' ∉ before ∧
        ')' ∉ before ++ inner ∧ first = before.length ∧ last = (before ++ '(' :: inner).length := by
  rw [position?_singleton_eq_some_iff, position?_singleton_eq_some_iff]
  constructor
  · rintro ⟨⟨before, t, hs, hopen, rfl⟩, ⟨upto, after, hs', hclose, rfl⟩, hle⟩
    rw [hs', List.append_eq_append_iff] at hs
    rcases hs with ⟨w, rfl, hw⟩ | ⟨w, rfl, hw⟩
    · -- the closing bracket would be in front of the opening one
      cases w with
      | nil => exact absurd (List.cons.inj hw).1 (by decide)
      | cons c w => exact absurd (by simp) hle
    · cases w with
      | nil => exact absurd (List.cons.inj hw).1 (by decide)
      | cons c inner =>
        obtain ⟨rfl, -⟩ := List.cons.inj hw
        refine ⟨before, inner, after, by simpa using hs', hopen, ?_, rfl, rfl⟩
        simpa using hclose
  · rintro ⟨before, inner, after, rfl, hopen, hclose, rfl, rfl⟩
    refine ⟨⟨before, _, rfl, hopen, rfl⟩,
      ⟨before ++ '(' :: inner, after, by simp, ?_, rfl⟩, by simp⟩
    simpa using hclose

/-- What the pieces of a text say about its labels. -/
theorem labels_iff {src dst : String} :
    Labels s src dst ↔
      ¬ 2 < ((pieces [','] s).map trim).length ∧
        src = String.ofList (((pieces [','] s).map trim).head?.getD []) ∧
        dst = String.ofList ((((pieces [','] s).map trim).drop 1).head?.getD []) := by
  have hne : [','] ≠ [] := List.cons_ne_nil _ _
  have hone : ∀ {s : List Char}, ',' ∉ s → pieces [','] s = [s] := fun hs =>
    pieces_eq_singleton (by rwa [List.singleton_infix_iff])
  constructor
  · rintro (hs | ⟨hs, hd⟩)
    · rw [hone hs]
      exact ⟨by simp, rfl, rfl⟩
    · rw [pieces_eq hne, cut?_append_cons_self hs]
      simp only [hone hd]
      exact ⟨by simp, rfl, rfl⟩
  · rintro ⟨hlength, rfl, rfl⟩
    rw [pieces_eq hne] at hlength ⊢
    rcases hcut : cut? [','] s with _ | ⟨before, after⟩
    · rw [cut?_eq_none_iff hne, List.singleton_infix_iff] at hcut
      exact .one hcut
    · have hbefore := not_infix_of_cut? hne hcut
      rw [List.singleton_infix_iff] at hbefore
      simp only [hcut] at hlength ⊢
      rw [pieces_eq hne] at hlength ⊢
      rcases hcut' : cut? [','] after with _ | ⟨middle, rest⟩
      · rw [cut?_eq_none_iff hne, List.singleton_infix_iff] at hcut'
        obtain rfl := eq_of_cut? hne hcut
        simpa using Labels.two hbefore hcut'
      · -- three pieces or more
        simp only [hcut', List.map_cons, List.length_cons, List.length_map] at hlength
        rw [pieces_eq hne] at hlength
        split at hlength <;> simp at hlength

/-- What stands between two brackets, and what stands behind them. -/
theorem between_and_behind (before inner after : List Char) :
    ((before ++ '(' :: (inner ++ ')' :: after)).take (before ++ '(' :: inner).length).drop
        (before.length + 1) = inner ∧
      (before ++ '(' :: (inner ++ ')' :: after)).drop ((before ++ '(' :: inner).length + 1) =
        after := by
  have hclose :
      before ++ '(' :: (inner ++ ')' :: after) = (before ++ '(' :: inner) ++ ')' :: after := by
    simp
  rw [hclose, List.take_left, ← List.drop_drop, List.drop_left, ← List.drop_drop, List.drop_left]
  exact ⟨rfl, rfl⟩

/-- **Reading decides the grammar.** -/
theorem read_eq_ok_iff : read raw = .ok l ↔ Spells raw l := by
  constructor
  · intro h
    simp only [read] at h
    split at h
    · rename_i first last hfirst hlast
      split_ifs at h with hle hmany hsrc
      obtain ⟨before, inner, after, hline, hopen, hclose, rfl, rfl⟩ :=
        brackets_iff.mp ⟨hfirst, hlast, hle⟩
      obtain ⟨hbetween, hbehind⟩ := between_and_behind before inner after
      rw [hline, hbetween] at hmany hsrc h
      rw [hbehind] at h
      split at h
      · cases h
      · rename_i n hcost
        obtain rfl := Except.ok.inj h
        refine .intro hline hopen hclose (labels_iff.mpr ⟨hmany, rfl, rfl⟩) ?_ hcost
        simpa using hsrc
    · cases h
  · rintro ⟨hline, hopen, hclose, hlabels, hsrc, hcost⟩
    obtain ⟨hfirst, hlast, hle⟩ :=
      brackets_iff.mpr ⟨_, _, _, hline, hopen, hclose, rfl, rfl⟩
    obtain ⟨hmany, rfl, rfl⟩ := labels_iff.mp hlabels
    simp only [read, hfirst, hlast]
    rw [if_neg hle, hline, (between_and_behind _ _ _).1, (between_and_behind _ _ _).2,
      if_neg hmany, if_neg (by simpa using hsrc), hcost]

/-- A line spells one thing at most. -/
theorem Spells.unique {l' : MatchingLine} (h : Spells raw l) (h' : Spells raw l') : l = l' :=
  Except.ok.inj ((read_eq_ok_iff.mpr h).symm.trans (read_eq_ok_iff.mpr h'))

/-- A label and an empty one name a block. -/
example : Spells "%x(C,)\t, +5".toList ⟨"C", "", 5⟩ :=
  read_eq_ok_iff.mp (by decide +kernel)

end MatchingLine

end WorstCase
