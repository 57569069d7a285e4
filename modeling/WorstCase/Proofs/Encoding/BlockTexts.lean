import WorstCase.Proofs.Encoding.DifferenceTerms

/-!
# The texts of disjunctions

In difference logic a block with several predecessors is constrained by a disjunction of bounds.
This module shows that no other constraint of the same problem is printed like it
(`Encoding.Difference.Plain.render_ne`, `Encoding.Difference.uid_eq_of_several`), so such a
constraint never takes the place of another one, nor another one its place.

A selector may hold any characters, so nothing can be told from the beginning of a text. Its end
tells: behind the last bound there are only closing brackets, and read from the end the bound gives
their number and the block whose cost it bounds (`Term.EndsIn.inj`).
-/

namespace WorstCase

/-! ### Reading texts from the end -/

/-- What stands after the last separator can be read off a text. -/
theorem append_cons_inj_last {α : Type} {sep : α} {xs xs' ys ys' : List α} (hy : sep ∉ ys)
    (hy' : sep ∉ ys') (h : xs ++ sep :: ys = xs' ++ sep :: ys') : xs = xs' ∧ ys = ys' := by
  have hrev := congrArg List.reverse h
  simp only [List.reverse_append, List.reverse_cons, List.append_assoc, List.singleton_append]
    at hrev
  obtain ⟨hys, hxs⟩ := append_cons_inj (by simpa using hy) (by simpa using hy') hrev
  exact ⟨List.reverse_inj.mp hxs, List.reverse_inj.mp hys⟩

namespace Term

/-- A number that is not negative is written without a space, and a negative one has its sign before
the last space. -/
theorem toList_renderInt (n : Int) :
    (renderInt n).toList =
      if n < 0 then '(' :: '-' :: ' ' :: (Decimal.chars (-n) ++ [')']) else Decimal.chars n := by
  unfold renderInt
  split <;> simp

/-- A number behind a closing bracket, and what closes it, can be read off from the end. -/
theorem renderInt_append_inj {xs xs' ys ys' : List Char} {n n' : Int} (hy : ' ' ∉ ys)
    (hy' : ' ' ∉ ys')
    (h : xs ++ ')' :: ' ' :: ((renderInt n).toList ++ ')' :: ys) =
      xs' ++ ')' :: ' ' :: ((renderInt n').toList ++ ')' :: ys')) : xs = xs' ∧ ys = ys' := by
  have hclose : ∀ k, ')' ∉ Decimal.chars k := fun k h => by simpa using Decimal.mem_chars h
  have hspace : ∀ k {zs : List Char}, ' ' ∉ zs → ' ' ∉ Decimal.chars k ++ ')' :: zs := by
    intro k zs hz hmem
    rcases List.mem_append.mp hmem with h | h
    · simpa using Decimal.mem_chars h
    · exact hz ((List.mem_cons.mp h).resolve_left (by decide))
  -- the digits stand between the last space and the first bracket after it
  have hdigits : ∀ (ws ws' : List Char) (k k' : Int) {zs zs' : List Char}, ' ' ∉ zs → ' ' ∉ zs' →
      ws ++ ' ' :: (Decimal.chars k ++ ')' :: zs) = ws' ++ ' ' :: (Decimal.chars k' ++ ')' :: zs') →
        ws = ws' ∧ zs = zs' := by
    intro ws ws' k k' zs zs' hz hz' heq
    obtain ⟨hws, hrest⟩ := append_cons_inj_last (hspace k hz) (hspace k' hz') heq
    exact ⟨hws, (append_cons_inj (hclose k) (hclose k') hrest).2⟩
  have hne : ∀ ws ws' : List Char, ws ++ [')', ' ', '(', '-'] ≠ ws' ++ [')'] := by
    intro ws ws' heq
    simpa using congrArg List.getLast? heq
  have hsigned : ' ' ∉ ')' :: ys := by simpa using hy
  have hsigned' : ' ' ∉ ')' :: ys' := by simpa using hy'
  rw [toList_renderInt, toList_renderInt] at h
  split_ifs at h
  · obtain ⟨hws, hzs⟩ := hdigits (xs ++ [')', ' ', '(', '-']) (xs' ++ [')', ' ', '(', '-'])
      (-n) (-n') hsigned hsigned' (by simpa using h)
    exact ⟨List.append_cancel_right hws, (List.cons.inj hzs).2⟩
  · exact absurd (hdigits (xs ++ [')', ' ', '(', '-']) (xs' ++ [')']) (-n) n' hsigned hy'
      (by simpa using h)).1 (hne _ _)
  · exact absurd (hdigits (xs ++ [')']) (xs' ++ [')', ' ', '(', '-']) n (-n') hy hsigned'
      (by simpa using h)).1 (hne _ _).symm
  · obtain ⟨hws, hzs⟩ := hdigits (xs ++ [')']) (xs' ++ [')']) n n' hy hy' (by simpa using h)
    exact ⟨List.append_cancel_right hws, hzs⟩

/-- The text of `t` ends in a bound on the cost of the block `uid` and `k` closing brackets. -/
def EndsIn (t : Term) (uid : Int) (k : Nat) : Prop :=
  ∃ (before : List Char) (a b : Block) (n : Int64), a.uid = uid ∧
    t.render.toList = before ++ (Term.le (.diff a.costTerm b.costTerm) (.int n)).render.toList ++
      List.replicate k ')'

namespace EndsIn

variable {t t' : Term} {uid uid' : Int} {k k' : Nat}

theorem bound (a b : Block) (n : Int64) :
    (Term.le (.diff a.costTerm b.costTerm) (.int n)).EndsIn a.uid 0 :=
  ⟨[], a, b, n, rfl, by simp⟩

/-- Another closing bracket may follow. -/
theorem close {u : Term} (h : t.EndsIn uid k) (hu : ∃ before,
    u.render.toList = before ++ t.render.toList ++ [')']) : u.EndsIn uid (k + 1) := by
  obtain ⟨before, a, b, n, rfl, ht⟩ := h
  obtain ⟨before', hu⟩ := hu
  refine ⟨before' ++ before, a, b, n, rfl, ?_⟩
  rw [hu, ht, List.replicate_succ']
  simp only [List.append_assoc]

theorem imply (h : t.EndsIn uid k) (c : Term) : (Term.imply c t).EndsIn uid (k + 1) := by
  refine h.close ⟨'(' :: (Operator.imply.symbol.toList ++ ' ' :: (c.render.toList ++ [' '])), ?_⟩
  rw [Term.imply, toList_render_pair]
  simp

theorem disj (h : t.EndsIn uid k) {ts : List Term} (hts : ts ≠ []) :
    (Term.disj (ts ++ [t])).EndsIn uid (k + 1) := by
  have hargs : ∀ us : List Term, renderArgs (us ++ [t]) = renderArgs us ++ " " ++ t.render := by
    intro us
    induction us with
    | nil => simp [renderArgs]
    | cons u us ih => rw [List.cons_append, renderArgs, ih, renderArgs]; simp [String.append_assoc]
  have hlength : (ts ++ [t]).length ≠ 1 := by simpa using hts
  refine h.close ⟨("(" ++ Operator.or.symbol ++ renderArgs ts ++ " ").toList, ?_⟩
  obtain ⟨u, us, rfl⟩ := List.exists_cons_of_ne_nil hts
  rw [Term.disj, nary_of_length_ne_one hlength, List.cons_append, render, ← List.cons_append, hargs]
  · simp
  · simp

/-- **Terms that are printed alike end in bounds on the same block**, closed alike. -/
theorem inj (h : t.EndsIn uid k) (h' : t'.EndsIn uid' k') (hrender : t.render = t'.render) :
    uid = uid' ∧ k = k' := by
  obtain ⟨before, a, b, n, rfl, ht⟩ := h
  obtain ⟨before', a', b', n', rfl, ht'⟩ := h'
  have hspace : ∀ b : Block, ' ' ∉ b.costName.toList := fun b h => by
    rw [Block.toList_costName] at h
    simpa using Decimal.mem_chars ((List.mem_cons.mp h).resolve_left (by decide))
  have htext : ∀ (a b : Block) (n : Int64) (before closing : List Char),
      before ++ (Term.le (.diff a.costTerm b.costTerm) (.int n)).render.toList ++ closing =
        (before ++ ['(', '<', '=', ' ', '(', '-'] ++ ' ' :: (a.costName.toList) ++
          ' ' :: b.costName.toList) ++
            ')' :: ' ' :: ((renderInt n.toInt).toList ++ ')' :: closing) := by
    intro a b n before closing
    have hleq : Operator.leq.symbol.toList = ['<', '='] := by decide
    have hdiff : Operator.diff.symbol.toList = ['-'] := by decide
    rw [Term.le, toList_render_pair, diff, toList_render_pair, hleq, hdiff]
    simp [render, Block.costTerm]
  have heq := ht.symm.trans ((congrArg String.toList hrender).trans ht')
  rw [htext, htext] at heq
  obtain ⟨hnames, hclosing⟩ := renderInt_append_inj (by simp) (by simp) heq
  obtain ⟨hnames, -⟩ := append_cons_inj_last (hspace b) (hspace b') hnames
  obtain ⟨-, hname⟩ := append_cons_inj_last (hspace a) (hspace a') hnames
  exact ⟨Block.uid_eq_of_costName (String.toList_inj.mp hname),
    by simpa using congrArg List.length hclosing⟩

end EndsIn

end Term

/-! ### The constraints of blocks -/

namespace Encoding.Difference

variable {g : Graph} {b b' : Block}

/-- The bounds that the predecessors of a block give. -/
def bounds (g : Graph) (b : Block) : List Term :=
  (g.preds b.uid).filterMap (bound g b)

theorem exists_of_mem_bounds {t : Term} (h : t ∈ bounds g b) :
    ∃ pred n, t = .le (.diff b.costTerm (Block.costTerm pred)) (.int n) := by
  obtain ⟨pred, n, -, ht⟩ := mem_bounds h
  exact ⟨pred, n, ht⟩

theorem blockTerm_of_length (h : 2 ≤ (bounds g b).length) :
    blockTerm g b = .imply b.chosen (.disj (bounds g b)) := by
  unfold blockTerm
  split
  · rename_i hnil
    simp [bounds, hnil] at h
  · rfl

/-- The constraint of a block with several bounds closes two brackets behind the last. -/
theorem endsIn_of_several (h : 2 ≤ (bounds g b).length) : (blockTerm g b).EndsIn b.uid 2 := by
  rw [blockTerm_of_length h]
  obtain hnil | ⟨ts, t, hts⟩ := List.eq_nil_or_concat' (bounds g b)
  · simp [hnil] at h
  · obtain ⟨pred, n, rfl⟩ := exists_of_mem_bounds (hts ▸ List.mem_concat_self)
    have hne : ts ≠ [] := by
      rintro rfl
      simp [hts] at h
    rw [hts]
    exact ((Term.EndsIn.bound b pred n).disj hne).imply _

/-- **The constraints of two blocks with several bounds differ in their texts.** -/
theorem uid_eq_of_several (h : 2 ≤ (bounds g b).length) (h' : 2 ≤ (bounds g b').length)
    (hrender : (blockTerm g b).render = (blockTerm g b').render) : b.uid = b'.uid :=
  ((endsIn_of_several h).inj (endsIn_of_several h') hrender).1

/-! ### All other constraints -/

/-- A constraint that is no disjunction of bounds: a single bound that is implied, or no implication
at all. -/
def Plain (t : Term) : Prop :=
  (∃ uid, t.EndsIn uid 1) ∨
    ∃ op t₁ t₂, t = .app op [t₁, t₂] ∧ op.symbol ≠ Operator.imply.symbol

/-- **A plain constraint is not printed like that of a block with several bounds.** -/
theorem Plain.render_ne {t : Term} (ht : Plain t) (h : 2 ≤ (bounds g b).length) :
    t.render ≠ (blockTerm g b).render := by
  intro hrender
  rcases ht with ⟨uid, ht⟩ | ⟨op, t₁, t₂, rfl, hop⟩
  · exact absurd (ht.inj (endsIn_of_several h) hrender).2 (by decide)
  · rw [blockTerm_of_length h] at hrender
    exact hop (Term.render_pair_inj hrender).1

theorem plain_bound (a : Term) (n : Int64) : Plain (.le a (.int n)) :=
  .inr ⟨.leq, _, _, rfl, by decide⟩

theorem plain_conj (a a' : Term) : Plain (.conj [a, a']) :=
  .inr ⟨.and, _, _, rfl, by decide⟩

theorem plain_blockTerm (h : ¬ 2 ≤ (bounds g b).length) : Plain (blockTerm g b) := by
  rcases hbounds : bounds g b with _ | ⟨t, _ | ⟨t', ts⟩⟩
  · have hterm : blockTerm g b = .le b.costTerm (.int b.cost) := by
      unfold bounds at hbounds
      rw [blockTerm, hbounds]
    rw [hterm]
    exact plain_bound _ _
  · have hterm : blockTerm g b = .imply b.chosen t := by
      unfold bounds at hbounds
      rw [blockTerm, hbounds]
      rfl
    obtain ⟨pred, n, rfl⟩ := exists_of_mem_bounds (hbounds ▸ List.mem_singleton_self t)
    rw [hterm]
    exact .inl ⟨b.uid, (Term.EndsIn.bound b pred n).imply _⟩
  · simp [hbounds] at h

theorem plain_edgeTerms {impliesEnds : Bool} {e : Edge} {t : Term}
    (ht : t ∈ edgeTerms impliesEnds g e) : Plain t := by
  rcases hsrc : g.block? e.id.src with _ | src
  · simp [edgeTerms, hsrc] at ht
  rcases hdst : g.block? e.id.dst with _ | dst
  · simp [edgeTerms, hsrc, hdst] at ht
  rw [edgeTerms_eq hsrc hdst, List.mem_cons] at ht
  rcases ht with rfl | ht
  · exact .inl ⟨dst.uid, (Term.EndsIn.bound dst src _).imply _⟩
  · cases impliesEnds with
    | false => simp at ht
    | true =>
      obtain rfl := List.mem_singleton.mp ht
      exact plain_conj _ _

theorem plain_cutTerms {c : Cut} {t : Term} (ht : t ∈ cutTerms g c) : Plain t := by
  unfold cutTerms at ht
  split at ht
  · obtain rfl := List.mem_singleton.mp ht
    exact plain_bound _ _
  · simp at ht

end Encoding.Difference

end WorstCase
