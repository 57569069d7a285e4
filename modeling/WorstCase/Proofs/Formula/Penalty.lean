import WorstCase.Proofs.Formula.Asserted
import WorstCase.Proofs.Formula.Exact

/-!
# Soft assertions and their penalties

The **penalty** of a group of soft assertions (`Problem.penalty`) is the total weight of those that
are violated. Soft assertions accumulate in the order in which they are stated
(`Problem.Softens`), while of hard assertions with the same text only the first is kept
(`Problem.Asserts.assertedTerms_eq`). Leaving some terms out beforehand therefore is the same as
leaving them out of what is kept, as long as their texts are not those of other terms
(`filter_firstOfEach`).
-/

namespace WorstCase

/-! ### The first of each text -/

/-- The elements of a list whose keys are not among `seen` and not those of earlier elements. -/
def firstOfEach {α κ : Type} [DecidableEq κ] (key : α → κ) (seen : List κ) : List α → List α
  | [] => []
  | x :: xs =>
    if key x ∈ seen then firstOfEach key seen xs else x :: firstOfEach key (seen ++ [key x]) xs

/-- Elements that share no keys with the others can be left out before or after. -/
theorem filter_firstOfEach {α κ : Type} [DecidableEq κ] {key : α → κ} {keep : α → Bool}
    {xs : List α} (hxs : ∀ x ∈ xs, ∀ y ∈ xs, keep x = true → keep y = false → key x ≠ key y)
    {seen seen' : List κ} (hseen : ∀ x ∈ xs, keep x = true → (key x ∈ seen ↔ key x ∈ seen')) :
    (firstOfEach key seen xs).filter keep = firstOfEach key seen' (xs.filter keep) := by
  induction xs generalizing seen seen' with
  | nil => rfl
  | cons x xs ih =>
    have hxs' : ∀ y ∈ xs, ∀ z ∈ xs, keep y = true → keep z = false → key y ≠ key z :=
      fun y hy z hz => hxs y (List.mem_cons_of_mem _ hy) z (List.mem_cons_of_mem _ hz)
    have hseen' : ∀ y ∈ xs, keep y = true → (key y ∈ seen ↔ key y ∈ seen') :=
      fun y hy => hseen y (List.mem_cons_of_mem _ hy)
    rw [firstOfEach]
    by_cases hk : keep x = true
    · rw [List.filter_cons_of_pos hk, firstOfEach]
      by_cases hmem : key x ∈ seen
      · rw [if_pos hmem, if_pos ((hseen x List.mem_cons_self hk).mp hmem)]
        exact ih hxs' hseen'
      · rw [if_neg hmem, if_neg ((hseen x List.mem_cons_self hk).not.mp hmem),
          List.filter_cons_of_pos hk]
        refine congrArg (x :: ·) (ih hxs' fun y hy hky => ?_)
        rw [List.mem_append, List.mem_append, hseen' y hy hky]
    · rw [List.filter_cons_of_neg hk]
      by_cases hmem : key x ∈ seen
      · rw [if_pos hmem]
        exact ih hxs' hseen'
      · rw [if_neg hmem, List.filter_cons_of_neg hk]
        refine ih hxs' fun y hy hky => ?_
        have hne : key y ≠ key x := hxs y (List.mem_cons_of_mem _ hy) x List.mem_cons_self hky
          (Bool.not_eq_true _ ▸ hk)
        rw [List.mem_append, List.mem_singleton, or_iff_left hne, hseen' y hy hky]

theorem firstOfEach_subset {α κ : Type} [DecidableEq κ] (key : α → κ) (seen : List κ)
    (xs : List α) : firstOfEach key seen xs ⊆ xs := by
  induction xs generalizing seen with
  | nil => exact List.nil_subset _
  | cons x xs ih =>
    rw [firstOfEach]
    split
    · exact List.subset_cons_of_subset x (ih seen)
    · exact List.cons_subset_cons x (ih _)

theorem firstOfEach_map {α β κ : Type} [DecidableEq κ] (key : β → κ) (f : α → β) (seen : List κ)
    (xs : List α) :
    firstOfEach key seen (xs.map f) = (firstOfEach (fun x => key (f x)) seen xs).map f := by
  induction xs generalizing seen with
  | nil => rfl
  | cons x xs ih =>
    rw [List.map_cons, firstOfEach, firstOfEach]
    split
    · exact ih seen
    · rw [List.map_cons, ih]

/-- Keys that tell the same elements apart keep the same elements. -/
theorem firstOfEach_congr {α κ κ' : Type} [DecidableEq κ] [DecidableEq κ'] {key : α → κ}
    {key' : α → κ'} {xs : List α} (hxs : ∀ x ∈ xs, ∀ y ∈ xs, key x = key y ↔ key' x = key' y)
    {seen : List κ} {seen' : List κ'} (hseen : ∀ x ∈ xs, key x ∈ seen ↔ key' x ∈ seen') :
    firstOfEach key seen xs = firstOfEach key' seen' xs := by
  induction xs generalizing seen seen' with
  | nil => rfl
  | cons x xs ih =>
    have hxs' : ∀ y ∈ xs, ∀ z ∈ xs, key y = key z ↔ key' y = key' z :=
      fun y hy z hz => hxs y (List.mem_cons_of_mem _ hy) z (List.mem_cons_of_mem _ hz)
    have hseen' : ∀ y ∈ xs, key y ∈ seen ↔ key' y ∈ seen' :=
      fun y hy => hseen y (List.mem_cons_of_mem _ hy)
    rw [firstOfEach, firstOfEach]
    by_cases hmem : key x ∈ seen
    · rw [if_pos hmem, if_pos ((hseen x List.mem_cons_self).mp hmem)]
      exact ih hxs' hseen'
    · rw [if_neg hmem, if_neg ((hseen x List.mem_cons_self).not.mp hmem)]
      refine congrArg (x :: ·) (ih hxs' fun y hy => ?_)
      rw [List.mem_append, List.mem_append, hseen' y hy, List.mem_singleton, List.mem_singleton,
        hxs y (List.mem_cons_of_mem _ hy) x List.mem_cons_self]

namespace Problem

/-- Of terms with the same text the first is asserted, unless the text was there before. -/
theorem assertions_foldl_assert (p : Problem) (ts : List Term) :
    (ts.foldl assert p).assertions =
      p.assertions ++
        (firstOfEach (fun t => (p.assertionOf t).text) (p.assertions.map (·.text)) ts).map
          p.assertionOf := by
  induction ts generalizing p with
  | nil => simp [firstOfEach]
  | cons t ts ih =>
    have hsame : (p.assert t).assertionOf = p.assertionOf := by
      funext t'
      rw [assertionOf, printer_assert, assertionOf]
    have hmem : (p.assertions.any (·.text = (p.assertionOf t).text)) = true ↔
        (p.assertionOf t).text ∈ p.assertions.map (·.text) := by
      simp [List.any_eq_true, List.mem_map]
    rw [List.foldl_cons, ih, hsame, firstOfEach, assertions_assert]
    by_cases hold : (p.assertionOf t).text ∈ p.assertions.map (·.text)
    · rw [if_pos (hmem.mpr hold), if_pos hold]
    · rw [if_neg (hmem.not.mpr hold), if_neg hold, List.map_append, List.append_assoc]
      rfl

theorem assertedTerms_foldl_assert (p : Problem) (ts : List Term) :
    (ts.foldl assert p).assertedTerms =
      p.assertedTerms ++
        firstOfEach (fun t => (p.assertionOf t).text) (p.assertions.map (·.text)) ts := by
  have hterm : (fun t => (p.assertionOf t).term) = some := rfl
  rw [assertedTerms, assertions_foldl_assert, List.filterMap_append, List.filterMap_map,
    Function.comp_def, hterm, List.filterMap_some, assertedTerms]

/-- **What an empty problem asserts** after terms have been asserted: the first of each text. -/
theorem Asserts.assertedTerms_eq {q : Problem} {ts : List Term} (h : Asserts {} q ts) :
    q.assertedTerms = firstOfEach (fun t => (assertionOf {} t).text) [] ts := by
  have hterms : q.assertedTerms = (ts.foldl Problem.assert {}).assertedTerms := by
    rw [assertedTerms, h.assertions, assertedTerms]
  rw [hterms, assertedTerms_foldl_assert]
  rfl

/-- An assertion tells how its term is printed. -/
theorem text_assertionOf_inj {t u : Term} :
    (assertionOf {} t).text = (assertionOf {} u).text ↔ t.render = u.render := by
  simp [assertionOf, String.append_assoc]

theorem text_assertionOf_ne {t u : Term} (h : t.render ≠ u.render) :
    (assertionOf {} t).text ≠ (assertionOf {} u).text :=
  text_assertionOf_inj.not.mpr h

/-! ### Stating soft assertions -/

@[simp]
theorem softAssertions_declare (p : Problem) (name : String) (sort : TermSort) :
    (p.declare name sort).softAssertions = p.softAssertions := by
  unfold declare addDeclaration
  split <;> rfl

@[simp]
theorem softAssertions_assert (p : Problem) (t : Term) :
    (p.assert t).softAssertions = p.softAssertions := by
  unfold assert addAssertion
  split <;> rfl

/-- `q` is what `p` becomes when the soft assertions `ss` are stated, as far as these go. -/
def Softens (p q : Problem) (ss : List SoftAssertion) : Prop :=
  q.softAssertions = p.softAssertions ++ ss

namespace Softens

variable {p q r : Problem} {ss ss' : List SoftAssertion}

theorem assertSoft (p : Problem) (s : SoftAssertion) : Softens p (p.assertSoft s) [s] := rfl

theorem declare (p : Problem) (name : String) (sort : TermSort) :
    Softens p (p.declare name sort) [] := by
  simp [Softens]

theorem assert (p : Problem) (t : Term) : Softens p (p.assert t) [] := by
  simp [Softens]

theorem trans (h : Softens p q ss) (h' : Softens q r ss') : Softens p r (ss ++ ss') := by
  unfold Softens at *
  rw [h', h, List.append_assoc]

theorem addComments (p : Problem) (texts : List String) :
    Softens p (texts.foldl addComment p) [] := by
  induction texts generalizing p with
  | nil => exact (List.append_nil _).symm
  | cons text texts ih => exact ih (p.addComment text)

theorem accumulates : Accumulates Softens where
  refl _ := (List.append_nil _).symm
  trans := trans

/-- What every step of a fold states, the fold states in order. -/
theorem foldl {α : Type} {f : Problem → α → Problem} {soft : α → List SoftAssertion}
    (h : ∀ p x, Softens p (f p x) (soft x)) (p : Problem) (xs : List α) :
    Softens p (xs.foldl f p) (xs.flatMap soft) :=
  accumulates.foldl h p xs

end Softens

/-! ### Penalties -/

/-- What a soft assertion is charged with: its weight, if it is violated. -/
def charge (m : ExactModel) (s : SoftAssertion) : ℤ :=
  if s.term.exact m = some (.bool false) then s.weight.toInt else 0

/-- The penalty of a group: the total weight of its soft assertions that are violated. -/
def penalty (p : Problem) (m : ExactModel) (group : String) : ℤ :=
  ((p.softAssertions.filter (·.group = group)).map (charge m)).sum

end Problem

end WorstCase
