import WorstCase.Formula.Problem
import Mathlib.Data.List.Basic

/-!
# What a problem asserts

Problems are built by folds that declare constants and assert terms. `Problem.Asserts p q ts` says
that `q` is what `p` becomes when the terms `ts` are asserted one after the other, up to
declarations and comments. It composes along sequences and folds, so that the
assertions of a whole problem can be read off as one list of terms.

An assertion whose text is there already is dropped. So the **asserted terms** are among the listed
ones, and every listed term is printed like an asserted one; which of two terms with the same text
is kept, the list does not tell.
-/

namespace WorstCase

/-! ### Telling printed terms apart -/

/-- What stands before the first separator can be read off a text. -/
theorem append_cons_inj {α : Type} {sep : α} {xs xs' ys ys' : List α} (hx : sep ∉ xs)
    (hx' : sep ∉ xs') (h : xs ++ sep :: ys = xs' ++ sep :: ys') : xs = xs' ∧ ys = ys' := by
  induction xs generalizing xs' with
  | nil =>
    cases xs' with
    | nil => exact ⟨rfl, (List.cons.inj h).2⟩
    | cons x xs' => exact absurd ((List.cons.inj h).1 ▸ List.mem_cons_self) hx'
  | cons x xs ih =>
    cases xs' with
    | nil => exact absurd ((List.cons.inj h).1 ▸ List.mem_cons_self) hx
    | cons x' xs' =>
      rw [List.mem_cons, not_or] at hx hx'
      obtain ⟨hhead, htail⟩ := List.cons.inj h
      obtain ⟨rfl, rfl⟩ := ih hx.2 hx'.2 htail
      exact ⟨by rw [hhead], rfl⟩

theorem Operator.space_notMem_symbol (op : Operator) : ' ' ∉ op.symbol.toList := by
  cases op <;> simp [symbol]

theorem Term.toList_render_pair (op : Operator) (a b : Term) :
    (Term.app op [a, b]).render.toList =
      '(' :: (op.symbol.toList ++ ' ' ::
        (a.render.toList ++ ' ' :: (b.render.toList ++ [')']))) := by
  simp [render, renderArgs]

/-- A printed application to two operands tells its symbol, and how the operands are printed one
after the other. Where the first ends it does not tell, since names may contain spaces. -/
theorem Term.render_pair_inj {op op' : Operator} {a b a' b' : Term}
    (h : (Term.app op [a, b]).render = (Term.app op' [a', b']).render) :
    op.symbol = op'.symbol ∧
      a.render.toList ++ ' ' :: b.render.toList = a'.render.toList ++ ' ' :: b'.render.toList := by
  have hlist := congrArg String.toList h
  rw [toList_render_pair, toList_render_pair, List.cons_inj_right] at hlist
  obtain ⟨hop, hargs⟩ :=
    append_cons_inj op.space_notMem_symbol op'.space_notMem_symbol hlist
  refine ⟨String.toList_inj.mp hop, ?_⟩
  rw [← List.append_cancel_right_eq _ [')']]
  simpa using hargs

namespace Problem

/-! ### Asserting one term and many -/

/-- The assertion of a term as a problem prints it. -/
def assertionOf (p : Problem) (t : Term) : Assertion :=
  { text := "(assert " ++ p.printer t ++ ")", term := some t }

/-- Asserting does nothing where the text is there, and appends the assertion otherwise. -/
theorem assertions_assert (p : Problem) (t : Term) :
    (p.assert t).assertions =
      if p.assertions.any (·.text = (p.assertionOf t).text) then p.assertions
      else p.assertions ++ [p.assertionOf t] := by
  unfold assert addAssertion
  split <;> rename_i h
  · exact (if_pos h).symm
  · exact (if_neg h).symm

@[simp]
theorem printer_assert (p : Problem) (t : Term) : (p.assert t).printer = p.printer := by
  unfold assert addAssertion
  split <;> rfl

@[simp]
theorem objectives_assert (p : Problem) (t : Term) : (p.assert t).objectives = p.objectives := by
  unfold assert addAssertion
  split <;> rfl

@[simp]
theorem printer_foldl_assert (p : Problem) (ts : List Term) :
    (ts.foldl assert p).printer = p.printer := by
  induction ts generalizing p with
  | nil => rfl
  | cons t ts ih => rw [List.foldl_cons, ih, printer_assert]

theorem foldl_assert_congr {p q : Problem} (hp : q.printer = p.printer)
    (ha : q.assertions = p.assertions) (ts : List Term) :
    (ts.foldl assert q).assertions = (ts.foldl assert p).assertions := by
  induction ts generalizing p q with
  | nil => exact ha
  | cons t ts ih =>
    refine ih (by simp [hp]) ?_
    rw [assertions_assert, assertions_assert, ha, assertionOf, hp, assertionOf]

theorem mem_assertions_foldl (p : Problem) (ts : List Term) {a : Assertion}
    (ha : a ∈ (ts.foldl assert p).assertions) :
    a ∈ p.assertions ∨ ∃ t ∈ ts, a = p.assertionOf t := by
  induction ts generalizing p with
  | nil => exact .inl ha
  | cons t ts ih =>
    rcases ih (p.assert t) ha with h | ⟨u, hu, rfl⟩
    · rw [assertions_assert] at h
      split at h
      · exact .inl h
      · refine (List.mem_append.mp h).imp_right fun h => ?_
        exact ⟨t, List.mem_cons_self, List.mem_singleton.mp h⟩
    · refine .inr ⟨u, List.mem_cons_of_mem _ hu, ?_⟩
      rw [assertionOf, printer_assert, assertionOf]

theorem text_mem_assert (p : Problem) (t : Term) :
    ∃ a ∈ (p.assert t).assertions, a.text = (p.assertionOf t).text := by
  rw [assertions_assert]
  split
  · rename_i h
    obtain ⟨a, ha, htext⟩ := List.any_eq_true.mp h
    exact ⟨a, ha, of_decide_eq_true htext⟩
  · exact ⟨_, List.mem_append_right _ (List.mem_singleton.mpr rfl), rfl⟩

theorem mem_assert_of_mem {p : Problem} {a : Assertion} (ha : a ∈ p.assertions) (t : Term) :
    a ∈ (p.assert t).assertions := by
  rw [assertions_assert]
  split
  · exact ha
  · exact List.mem_append_left _ ha

theorem mem_foldl_of_mem {p : Problem} {a : Assertion} (ha : a ∈ p.assertions) (ts : List Term) :
    a ∈ (ts.foldl assert p).assertions := by
  induction ts generalizing p with
  | nil => exact ha
  | cons t ts ih => exact ih (mem_assert_of_mem ha t)

theorem text_mem_foldl (p : Problem) {ts : List Term} {t : Term} (ht : t ∈ ts) :
    ∃ a ∈ (ts.foldl assert p).assertions, a.text = (p.assertionOf t).text := by
  induction ts generalizing p with
  | nil => simp at ht
  | cons u ts ih =>
    rcases List.mem_cons.mp ht with rfl | ht
    · obtain ⟨a, ha, htext⟩ := text_mem_assert p t
      exact ⟨a, mem_foldl_of_mem ha ts, htext⟩
    · obtain ⟨a, ha, htext⟩ := ih (p.assert u) ht
      exact ⟨a, ha, by rw [htext, assertionOf, printer_assert, assertionOf]⟩

/-! ### What is added along a run -/

/-- A relation that says what is added from one problem to another, and composes. -/
structure Accumulates {α : Type} (R : Problem → Problem → List α → Prop) : Prop where
  refl : ∀ p, R p p []
  trans : ∀ {p q r xs ys}, R p q xs → R q r ys → R p r (xs ++ ys)

namespace Accumulates

variable {α β : Type} {R : Problem → Problem → List α → Prop} {f : Problem → β → Problem}

/-- What every step of a fold adds, the fold adds in order. -/
theorem foldl (hR : Accumulates R) {added : β → List α} (h : ∀ p x, R p (f p x) (added x))
    (p : Problem) (xs : List β) : R p (xs.foldl f p) (xs.flatMap added) := by
  induction xs generalizing p with
  | nil => exact hR.refl p
  | cons x xs ih => exact hR.trans (h p x) (ih (f p x))

/-- A fold adds one thing for each element when every step does. -/
theorem foldl_map (hR : Accumulates R) {added : β → α} (h : ∀ p x, R p (f p x) [added x])
    (p : Problem) (xs : List β) : R p (xs.foldl f p) (xs.map added) := by
  rw [List.map_eq_flatMap]
  exact hR.foldl h p xs

/-- A fold adds nothing when no step does. -/
theorem foldl_nil (hR : Accumulates R) (h : ∀ p x, R p (f p x) []) (p : Problem) (xs : List β) :
    R p (xs.foldl f p) [] := by
  have hfold := hR.foldl h p xs
  rwa [List.flatMap_eq_nil_iff.mpr fun _ _ => rfl] at hfold

end Accumulates

/-! ### Sequences of assertions -/

/-- `q` is what `p` becomes when `ts` are asserted, up to declarations and comments. -/
structure Asserts (p q : Problem) (ts : List Term) : Prop where
  printer : q.printer = p.printer
  objectives : q.objectives = p.objectives
  assertions : q.assertions = (ts.foldl assert p).assertions

namespace Asserts

variable {p q r : Problem} {ts us : List Term}

theorem assert (p : Problem) (t : Term) : Asserts p (p.assert t) [t] :=
  ⟨printer_assert p t, objectives_assert p t, rfl⟩

theorem declare (p : Problem) (name : String) (sort : TermSort) :
    Asserts p (p.declare name sort) [] := by
  unfold Problem.declare addDeclaration
  split <;> exact ⟨rfl, rfl, rfl⟩

theorem trans (h : Asserts p q ts) (h' : Asserts q r us) : Asserts p r (ts ++ us) where
  printer := h'.printer.trans h.printer
  objectives := h'.objectives.trans h.objectives
  assertions := by
    rw [h'.assertions, List.foldl_append]
    exact foldl_assert_congr (by rw [h.printer, printer_foldl_assert]) h.assertions us

theorem addComments (p : Problem) (texts : List String) :
    Asserts p (texts.foldl addComment p) [] := by
  induction texts generalizing p with
  | nil => exact ⟨rfl, rfl, rfl⟩
  | cons text texts ih => exact ⟨(ih _).printer, (ih _).objectives, (ih _).assertions⟩

theorem accumulates : Accumulates Asserts where
  refl _ := ⟨rfl, rfl, rfl⟩
  trans := trans

/-- What every step of a fold asserts, the fold asserts in order. -/
theorem foldl {α : Type} {f : Problem → α → Problem} {terms : α → List Term}
    (h : ∀ p x, Asserts p (f p x) (terms x)) (p : Problem) (xs : List α) :
    Asserts p (xs.foldl f p) (xs.flatMap terms) :=
  accumulates.foldl h p xs

end Asserts

/-! ### The asserted terms -/

/-- A problem **states** a list of terms when it asserts no others, and each of them up to its
text. -/
structure States (p : Problem) (ts : List Term) : Prop where
  mem : ∀ t ∈ p.assertedTerms, t ∈ ts
  exists_mem : ∀ t ∈ ts, ∃ u ∈ p.assertedTerms, u ∈ ts ∧ u.render = t.render

theorem States.congr {p q : Problem} {ts : List Term} (h : p.States ts)
    (hpq : q.assertions = p.assertions) : q.States ts := by
  have hterms : q.assertedTerms = p.assertedTerms := by rw [assertedTerms, hpq, assertedTerms]
  exact ⟨hterms ▸ h.mem, hterms ▸ h.exists_mem⟩

/-- **An empty problem in which terms are asserted states these terms.** -/
theorem Asserts.states {q : Problem} {ts : List Term} (h : Asserts {} q ts) : q.States ts where
  mem t ht := by
    obtain ⟨a, ha, hat⟩ := List.mem_filterMap.mp ht
    rw [h.assertions] at ha
    rcases mem_assertions_foldl {} ts ha with ha | ⟨u, hu, rfl⟩
    · simp at ha
    · obtain rfl := Option.some_inj.mp hat
      exact hu
  exists_mem t ht := by
    obtain ⟨a, ha, htext⟩ := text_mem_foldl {} ht
    rcases mem_assertions_foldl {} ts ha with hnil | ⟨u, hu, rfl⟩
    · simp at hnil
    · have hmem : u ∈ q.assertedTerms :=
        List.mem_filterMap.mpr ⟨_, h.assertions ▸ ha, rfl⟩
      refine ⟨u, hmem, hu, ?_⟩
      simpa [assertionOf, String.append_assoc] using htext

end Problem

end WorstCase
