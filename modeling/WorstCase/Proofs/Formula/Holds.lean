import WorstCase.Formula.Eval
import WorstCase.Proofs.Outcome
import Mathlib.Algebra.BigOperators.Group.List.Basic
import Mathlib.Algebra.Ring.Int.Defs

/-!
# When terms hold

`Term.holds` evaluates its operands one by one and fails at the first that has no value of the
right sort. The lemmas of this module say, connective by connective, under which conditions on the
operands a term has the value *true*. The operands are **all** evaluated except where an
if-then-else or an implication decides against one, so a term that holds also tells what sort its
operands have.

Sums wrap around at 64 bits; `Term.eval_sum` gives their value through the exact sum.
-/

namespace WorstCase

/-! ### Operands -/

namespace Operand

theorem asBool_eq_ok_iff {x : Operand} {b : Bool} : x.asBool = .ok b ↔ x.value = .ok (.bool b) := by
  unfold asBool
  split <;> simp_all

theorem asNum_eq_ok_iff {x : Operand} {n : Int64} : x.asNum = .ok n ↔ x.value = .ok (.num n) := by
  unfold asNum
  split <;> simp_all

theorem allBool_eq_ok_iff {xs : List Operand} {bs : List Bool} :
    allBool xs = .ok bs ↔ xs.map value = bs.map fun b => .ok (.bool b) := by
  induction xs generalizing bs with
  | nil => cases bs <;> simp [allBool]
  | cons x xs ih =>
    simp only [allBool, bind_eq_ok_iff, pure_eq_ok_iff, asBool_eq_ok_iff, ih,
      List.map_cons]
    constructor
    · rintro ⟨b, hb, bs, hbs, rfl⟩
      rw [List.map_cons, hb, hbs]
    · intro h
      cases bs with
      | nil => simp at h
      | cons b bs =>
        obtain ⟨hb, hbs⟩ := List.cons.inj h
        exact ⟨b, hb, bs, hbs, rfl⟩

theorem allNum_eq_ok_iff {xs : List Operand} {ns : List Int64} :
    allNum xs = .ok ns ↔ xs.map value = ns.map fun n => .ok (.num n) := by
  induction xs generalizing ns with
  | nil => cases ns <;> simp [allNum]
  | cons x xs ih =>
    simp only [allNum, bind_eq_ok_iff, pure_eq_ok_iff, asNum_eq_ok_iff, ih,
      List.map_cons]
    constructor
    · rintro ⟨n, hn, ns, hns, rfl⟩
      rw [List.map_cons, hn, hns]
    · intro h
      cases ns with
      | nil => simp at h
      | cons n ns =>
        obtain ⟨hn, hns⟩ := List.cons.inj h
        exact ⟨n, hn, ns, hns, rfl⟩

end Operand

namespace Term

variable {m : Model} {a b c : Term}

theorem holds_eq_ok_iff {t : Term} {x : Bool} : t.holds m = .ok x ↔ t.eval m = .ok (.bool x) :=
  Operand.asBool_eq_ok_iff

/-! ### Variables and applications -/

theorem eval_var_eq_ok_iff {name : String} {v : Value} :
    (Term.var name).eval m = .ok v ↔ m name = some v := by
  rw [eval]
  split <;> simp_all

@[simp]
theorem eval_int (n : Int64) : (Term.int n).eval m = .ok (.num n) := by
  rw [eval]

/-- An operand of a term, with its value. -/
def operand (m : Model) (t : Term) : Operand := ⟨t, t.eval m⟩

@[simp]
theorem value_operand (t : Term) : (operand m t).value = t.eval m := rfl

theorem eval_app (op : Operator) (ts : List Term) :
    (Term.app op ts).eval m = op.apply (ts.map (operand m)) := by
  rw [eval, evalArgs_eq_map]
  rfl

theorem map_value_operand (ts : List Term) :
    (ts.map (operand m)).map Operand.value = ts.map (eval m) := by
  rw [List.map_map]
  rfl

/-! ### Comparisons and differences -/

theorem eval_le_eq : (Term.le a b).eval m = (operand m a).asNum >>= fun x =>
    (operand m b).asNum >>= fun y => .ok (.bool (decide (x ≤ y))) :=
  eval_app .leq [a, b]

theorem eval_le {x y : Int64} (ha : a.eval m = .ok (.num x)) (hb : b.eval m = .ok (.num y)) :
    (Term.le a b).eval m = .ok (.bool (decide (x ≤ y))) := by
  have hx : (operand m a).asNum = .ok x := Operand.asNum_eq_ok_iff.mpr ha
  have hy : (operand m b).asNum = .ok y := Operand.asNum_eq_ok_iff.mpr hb
  rw [eval_le_eq, hx, hy]
  rfl

theorem eval_le_iff : (Term.le a b).eval m = .ok (.bool true) ↔
    ∃ x y, a.eval m = .ok (.num x) ∧ b.eval m = .ok (.num y) ∧ x ≤ y := by
  simp only [eval_le_eq, bind_eq_ok_iff, Operand.asNum_eq_ok_iff, value_operand,
    Except.ok.injEq, Value.bool.injEq, decide_eq_true_eq]
  constructor
  · rintro ⟨x, hx, y, hy, hle⟩
    exact ⟨x, y, hx, hy, hle⟩
  · rintro ⟨x, y, hx, hy, hle⟩
    exact ⟨x, hx, y, hy, hle⟩

theorem eval_diff_eq_ok_iff {v : Value} : (Term.diff a b).eval m = .ok v ↔
    ∃ x y, a.eval m = .ok (.num x) ∧ b.eval m = .ok (.num y) ∧ v = .num (x - y) := by
  have happ : (Term.diff a b).eval m = (operand m a).asNum >>= fun x =>
      (operand m b).asNum >>= fun y => .ok (.num (x - y)) := eval_app .diff [a, b]
  simp only [happ, bind_eq_ok_iff, Operand.asNum_eq_ok_iff, value_operand,
    Except.ok.injEq]
  constructor
  · rintro ⟨x, hx, y, hy, rfl⟩
    exact ⟨x, y, hx, hy, rfl⟩
  · rintro ⟨x, y, hx, hy, rfl⟩
    exact ⟨x, hx, y, hy, rfl⟩

/-- A bound on a difference of variables, which is the form that difference logic knows. -/
theorem eval_diff_le_iff {x y : String} {n : Int64} :
    (Term.le (.diff (.var x) (.var y)) (.int n)).eval m = .ok (.bool true) ↔
      ∃ i j, m x = some (.num i) ∧ m y = some (.num j) ∧ i - j ≤ n := by
  simp only [eval_le_iff, eval_diff_eq_ok_iff, eval_var_eq_ok_iff, eval_int, Except.ok.injEq,
    Value.num.injEq]
  constructor
  · rintro ⟨d, n, ⟨i, j, hi, hj, rfl⟩, rfl, hle⟩
    exact ⟨i, j, hi, hj, hle⟩
  · rintro ⟨i, j, hi, hj, hle⟩
    exact ⟨i - j, n, ⟨i, j, hi, hj, rfl⟩, rfl, hle⟩

/-! ### Equations and choices -/

theorem eval_equal_iff : (Term.equal a b).eval m = .ok (.bool true) ↔
    ∃ v, a.eval m = .ok v ∧ b.eval m = .ok v := by
  simp only [equal, eval_app, List.map_cons, List.map_nil, Operator.apply, value_operand,
    bind_eq_ok_iff]
  constructor
  · rintro ⟨v, hv, w, hw, h⟩
    refine ⟨v, hv, hw.trans (congrArg Except.ok ?_)⟩
    cases v <;> cases w <;> simp_all [pure_eq_ok_iff, throw_ne_ok]
  · rintro ⟨v, hv, hw⟩
    refine ⟨v, hv, v, hw, ?_⟩
    cases v <;> simp [pure_eq_ok_iff]

theorem eval_ite {x : Bool} (hc : c.eval m = .ok (.bool x)) :
    (Term.ite c a b).eval m = if x then a.eval m else b.eval m := by
  have happ : (Term.ite c a b).eval m = (operand m c).asBool >>= fun x =>
      if x then a.eval m else b.eval m := eval_app .ite [c, a, b]
  have hx : (operand m c).asBool = .ok x := Operand.asBool_eq_ok_iff.mpr hc
  rw [happ, hx]
  rfl

theorem eval_imply_iff : (Term.imply a b).eval m = .ok (.bool true) ↔
    a.eval m = .ok (.bool false) ∨ a.eval m = .ok (.bool true) ∧ b.eval m = .ok (.bool true) := by
  have happ : (Term.imply a b).eval m = (operand m a).asBool >>= fun x =>
      if x then (operand m b).asBool >>= fun y => .ok (.bool y) else .ok (.bool true) :=
    eval_app .imply [a, b]
  simp only [happ, bind_eq_ok_iff, Operand.asBool_eq_ok_iff, value_operand]
  constructor
  · rintro ⟨x, hx, h⟩
    cases x with
    | false => exact .inl hx
    | true =>
      rw [if_pos rfl, bind_eq_ok_iff] at h
      obtain ⟨y, hy, h⟩ := h
      obtain rfl := Value.bool.inj (Except.ok.inj h)
      exact .inr ⟨hx, Operand.asBool_eq_ok_iff.mp hy⟩
  · rintro (hx | ⟨hx, hy⟩)
    · exact ⟨false, hx, rfl⟩
    · refine ⟨true, hx, ?_⟩
      rw [if_pos rfl, bind_eq_ok_iff]
      exact ⟨true, Operand.asBool_eq_ok_iff.mpr hy, rfl⟩

/-! ### Connectives with any number of operands -/

theorem eval_app_and_iff {ts : List Term} : (Term.app .and ts).eval m = .ok (.bool true) ↔
    ∀ t ∈ ts, t.eval m = .ok (.bool true) := by
  have happ : (Term.app .and ts).eval m = Operand.allBool (ts.map (operand m)) >>= fun bs =>
      .ok (.bool (bs.all id)) := eval_app .and ts
  simp only [happ, bind_eq_ok_iff, Operand.allBool_eq_ok_iff, map_value_operand,
    Except.ok.injEq, Value.bool.injEq]
  constructor
  · rintro ⟨bs, hbs, hall⟩ t ht
    have hmem : t.eval m ∈ bs.map fun b => Except.ok (.bool b) := hbs ▸ List.mem_map_of_mem ht
    obtain ⟨b, hb, hbt⟩ := List.mem_map.mp hmem
    rw [← hbt, show b = true from List.all_eq_true.mp hall b hb]
  · intro h
    refine ⟨ts.map fun _ => true, ?_, by simp⟩
    rw [List.map_map]
    exact List.map_congr_left h

theorem eval_conj_iff {ts : List Term} : (conj ts).eval m = .ok (.bool true) ↔
    ∀ t ∈ ts, t.eval m = .ok (.bool true) := by
  rcases ts with _ | ⟨t, _ | ⟨t', ts⟩⟩
  · exact eval_app_and_iff
  · simp [conj]
  · exact eval_app_and_iff

theorem eval_app_or_iff {ts : List Term} : (Term.app .or ts).eval m = .ok (.bool true) ↔
    (∀ t ∈ ts, ∃ x, t.eval m = .ok (.bool x)) ∧ ∃ t ∈ ts, t.eval m = .ok (.bool true) := by
  have happ : (Term.app .or ts).eval m = Operand.allBool (ts.map (operand m)) >>= fun bs =>
      .ok (.bool (bs.any id)) := eval_app .or ts
  simp only [happ, bind_eq_ok_iff, Operand.allBool_eq_ok_iff, map_value_operand,
    Except.ok.injEq, Value.bool.injEq]
  constructor
  · rintro ⟨bs, hbs, hany⟩
    constructor
    · intro t ht
      have hmem : t.eval m ∈ bs.map fun b => Except.ok (.bool b) := hbs ▸ List.mem_map_of_mem ht
      obtain ⟨b, -, hbt⟩ := List.mem_map.mp hmem
      exact ⟨b, hbt.symm⟩
    · obtain ⟨b, hb, rfl⟩ := List.any_eq_true.mp hany
      have hmem : (Except.ok (.bool true) : Except EvalError Value) ∈ ts.map (eval m) :=
        hbs ▸ List.mem_map.mpr ⟨_, hb, rfl⟩
      exact List.mem_map.mp hmem
  · rintro ⟨hbool, t, ht, htrue⟩
    refine ⟨ts.map fun t => decide (t.eval m = .ok (.bool true)), ?_, ?_⟩
    · rw [List.map_map]
      refine List.map_congr_left fun t ht => ?_
      obtain ⟨x, hx⟩ := hbool t ht
      rw [Function.comp, hx]
      cases x <;> simp
    · exact List.any_eq_true.mpr ⟨true, List.mem_map.mpr ⟨t, ht, by simpa using htrue⟩, rfl⟩

theorem eval_disj_iff {ts : List Term} : (disj ts).eval m = .ok (.bool true) ↔
    (∀ t ∈ ts, ∃ x, t.eval m = .ok (.bool x)) ∧ ∃ t ∈ ts, t.eval m = .ok (.bool true) := by
  rcases ts with _ | ⟨t, _ | ⟨t', ts⟩⟩
  · exact eval_app_or_iff
  · simp only [disj, nary_singleton, List.mem_singleton, forall_eq, exists_eq_left]
    exact ⟨fun h => ⟨⟨_, h⟩, h⟩, And.right⟩
  · exact eval_app_or_iff

/-! ### Sums -/

/-- Wrapping sums are the exact sum, wrapped. -/
theorem foldl_add_eq_ofInt_sum (ns : List Int64) (n : Int64) :
    ns.foldl (· + ·) n = Int64.ofInt (n.toInt + (ns.map Int64.toInt).sum) := by
  induction ns generalizing n with
  | nil => simp
  | cons k ns ih =>
    rw [List.foldl_cons, ih, List.map_cons, List.sum_cons]
    simp only [Int64.ofInt_add, Int64.ofInt_toInt, Int64.add_assoc]

/-- The sum of terms with numeric values is the wrapped exact sum of these. -/
theorem eval_sum {ts : List Term} {ns : List Int64}
    (h : ts.map (eval m) = ns.map fun n => .ok (.num n)) :
    (sum ts).eval m = .ok (.num (Int64.ofInt (ns.map Int64.toInt).sum)) := by
  have happ : (Term.app .plus ts).eval m =
      .ok (.num (Int64.ofInt (ns.map Int64.toInt).sum)) := by
    have hfold : (Term.app .plus ts).eval m = Operand.allNum (ts.map (operand m)) >>= fun ns =>
        .ok (.num (ns.foldl (· + ·) 0)) := eval_app .plus ts
    simp only [hfold, bind_eq_ok_iff, Operand.allNum_eq_ok_iff, map_value_operand,
      Except.ok.injEq, Value.num.injEq]
    refine ⟨ns, h, ?_⟩
    rw [foldl_add_eq_ofInt_sum, Int64.toInt_zero, zero_add]
  rcases ts with _ | ⟨t, _ | ⟨t', ts⟩⟩
  · exact happ
  · -- a single operand is not added to anything
    obtain ⟨n, rfl⟩ : ∃ n, ns = [n] := by
      rw [← List.length_eq_one_iff, ← List.length_map, ← h]
      rfl
    rw [sum, nary_singleton, (List.cons.inj h).1]
    simp
  · exact happ

end Term

end WorstCase
