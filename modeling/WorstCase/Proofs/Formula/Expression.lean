import WorstCase.Proofs.Formula.Holds
import Mathlib.Data.Fin.VecNotation

/-!
# What terms with sorts denote

An **expression** is a term in which every operand has the sort that its place asks for. It is put
together by the constructors of terms, so that verbatim text has no place in it, and it has a
meaning that refers to no evaluation: a Boolean, or a 64-bit integer.

* **The meaning is the textbook one** (`Expression.denote`). A conjunction is true iff all operands
  are, `<` and `≤` compare integers, and sums, products, opposites and differences are the exact
  ones, wrapped once.
* **Evaluation finds it** (`Expression.eval_eq_denote`): under a model that binds the variables of
  an expression at their sorts, its term has a value, the value has the sort of the expression, and
  it is what the expression denotes.

The proof is an induction over the expression with one lemma for each constructor of terms. Operands
that evaluation skips are harmless, for they have values as well.
-/

namespace WorstCase

/-! ### Sorts -/

/-- The sorts of values. -/
inductive ValueSort where
  | bool
  | num
deriving DecidableEq, Repr

namespace ValueSort

/-- The values of a sort. -/
abbrev Carrier : ValueSort → Type
  | bool => Bool
  | num => Int64

instance decidableEqCarrier : (s : ValueSort) → DecidableEq s.Carrier
  | bool => inferInstanceAs (DecidableEq Bool)
  | num => inferInstanceAs (DecidableEq Int64)

/-- A value of a sort as a value. -/
def value : (s : ValueSort) → s.Carrier → Value
  | bool, b => .bool b
  | num, n => .num n

end ValueSort

/-- The sort of a value. -/
def Value.sort : Value → ValueSort
  | bool _ => .bool
  | num _ => .num

@[simp]
theorem ValueSort.sort_value : ∀ (s : ValueSort) (x : s.Carrier), (s.value x).sort = s
  | bool, _ => rfl
  | num, _ => rfl

/-- Values for variables, at each sort. -/
abbrev Valuation := (s : ValueSort) → String → s.Carrier

/-- The values that a model gives to variables; where it gives none of the sort, any will do. -/
def Model.valuation (m : Model) : Valuation
  | .bool, name => match m name with
    | some (.bool b) => b
    | _ => false
  | .num, name => match m name with
    | some (.num n) => n
    | _ => 0

theorem Model.eq_valuation {m : Model} {name : String} {v : Value} (h : m name = some v) :
    v = v.sort.value (m.valuation v.sort name) := by
  cases v with
  | bool b => simp [Value.sort, valuation, h, ValueSort.value]
  | num n => simp [Value.sort, valuation, h, ValueSort.value]

/-! ### Expressions -/

/-- The terms with sorts. -/
inductive Expression : ValueSort → Type where
  | var {s : ValueSort} (name : String) : Expression s
  | int (n : Int64) : Expression .num
  | not (a : Expression .bool) : Expression .bool
  | conj {n : Nat} (as : Fin n → Expression .bool) : Expression .bool
  | disj {n : Nat} (as : Fin n → Expression .bool) : Expression .bool
  | sum {n : Nat} (as : Fin n → Expression .num) : Expression .num
  | times (a b : Expression .num) : Expression .num
  | neg (a : Expression .num) : Expression .num
  | diff (a b : Expression .num) : Expression .num
  | le (a b : Expression .num) : Expression .bool
  | lt (a b : Expression .num) : Expression .bool
  | equal {s : ValueSort} (a b : Expression s) : Expression .bool
  | ite {s : ValueSort} (c : Expression .bool) (a b : Expression s) : Expression s
  | imply (a b : Expression .bool) : Expression .bool
  | iff (a b : Expression .bool) : Expression .bool

namespace Expression

/-- The term that the constructors of terms build. -/
def term {s : ValueSort} : Expression s → Term
  | var name => .var name
  | int n => .int n
  | not a => .not a.term
  | conj as => .conj (List.ofFn fun i => (as i).term)
  | disj as => .disj (List.ofFn fun i => (as i).term)
  | sum as => .sum (List.ofFn fun i => (as i).term)
  | times a b => .times a.term b.term
  | neg a => .neg a.term
  | diff a b => .diff a.term b.term
  | le a b => .le a.term b.term
  | lt a b => .lt a.term b.term
  | equal a b => .equal a.term b.term
  | ite c a b => .ite c.term a.term b.term
  | imply a b => .imply a.term b.term
  | iff a b => .iff a.term b.term

/-- Whether a model binds all variables, each at the sort at which it occurs. -/
def Bound (m : Model) {s : ValueSort} : Expression s → Prop
  | var name => ∃ v, m name = some v ∧ v.sort = s
  | int _ => True
  | not a | neg a => a.Bound m
  | conj as | disj as | sum as => ∀ i, (as i).Bound m
  | times a b | diff a b | le a b | lt a b | equal a b | imply a b | iff a b =>
    a.Bound m ∧ b.Bound m
  | ite c a b => c.Bound m ∧ a.Bound m ∧ b.Bound m

/-- What an expression denotes. -/
def denote (ν : Valuation) {s : ValueSort} : Expression s → s.Carrier
  | var name => ν s name
  | int n => n
  | not a => decide (¬ a.denote ν = true)
  | conj as => decide (∀ i, (as i).denote ν = true)
  | disj as => decide (∃ i, (as i).denote ν = true)
  | sum as => Int64.ofInt (List.ofFn fun i => ((as i).denote ν).toInt).sum
  | times a b => Int64.ofInt ((a.denote ν).toInt * (b.denote ν).toInt)
  | neg a => Int64.ofInt (-(a.denote ν).toInt)
  | diff a b => Int64.ofInt ((a.denote ν).toInt - (b.denote ν).toInt)
  | le a b => decide ((a.denote ν).toInt ≤ (b.denote ν).toInt)
  | lt a b => decide ((a.denote ν).toInt < (b.denote ν).toInt)
  | equal a b => decide (a.denote ν = b.denote ν)
  | ite c a b => if c.denote ν = true then a.denote ν else b.denote ν
  | imply a b => decide (a.denote ν = true → b.denote ν = true)
  | iff a b => decide (a.denote ν = true ↔ b.denote ν = true)

end Expression

/-! ### Terms with operands that have values -/

namespace Term

variable {m : Model} {a b : Term} {ts : List Term}

/-- A connective with any number of operands, of which a single one stands for itself. -/
theorem eval_nary_bool {op : Operator} {f : List Bool → Bool} (hone : ∀ b, f [b] = b)
    (happly : ∀ xs, op.apply xs = (Operand.allBool xs).bind fun bs => .ok (.bool (f bs)))
    {bs : List Bool} (h : ts.map (eval m) = bs.map fun b => .ok (.bool b)) :
    (nary op ts).eval m = .ok (.bool (f bs)) := by
  by_cases hlength : ts.length = 1
  · obtain ⟨t, rfl⟩ := List.length_eq_one_iff.mp hlength
    obtain ⟨b, rfl⟩ : ∃ b, bs = [b] := by
      rw [← List.length_eq_one_iff, ← List.length_map, ← h]
      rfl
    rw [nary_singleton, (List.cons.inj h).1, hone]
  · have hall : Operand.allBool (ts.map (operand m)) = .ok bs :=
      Operand.allBool_eq_ok_iff.mpr (by rw [map_value_operand, h])
    rw [nary_of_length_ne_one hlength, eval_app, happly, hall]
    rfl

theorem eval_conj {bs : List Bool} (h : ts.map (eval m) = bs.map fun b => .ok (.bool b)) :
    (conj ts).eval m = .ok (.bool (bs.all id)) :=
  eval_nary_bool (f := (·.all id)) (by simp) (fun _ => rfl) h

theorem eval_disj {bs : List Bool} (h : ts.map (eval m) = bs.map fun b => .ok (.bool b)) :
    (disj ts).eval m = .ok (.bool (bs.any id)) :=
  eval_nary_bool (f := (·.any id)) (by simp) (fun _ => rfl) h

theorem eval_not {x : Bool} (ha : a.eval m = .ok (.bool x)) :
    (Term.not a).eval m = .ok (.bool !x) := by
  have hx : (operand m a).asBool = .ok x := Operand.asBool_eq_ok_iff.mpr ha
  have happ : (Term.not a).eval m = ((operand m a).asBool).bind fun x => .ok (.bool !x) :=
    eval_app .not [a]
  rw [happ, hx]
  rfl

theorem eval_imply {x y : Bool} (ha : a.eval m = .ok (.bool x)) (hb : b.eval m = .ok (.bool y)) :
    (imply a b).eval m = .ok (.bool (!x || y)) := by
  have hx : (operand m a).asBool = .ok x := Operand.asBool_eq_ok_iff.mpr ha
  have hy : (operand m b).asBool = .ok y := Operand.asBool_eq_ok_iff.mpr hb
  have happ : (imply a b).eval m = ((operand m a).asBool).bind fun x =>
      if x then ((operand m b).asBool).bind fun y => .ok (.bool y) else .ok (.bool true) :=
    eval_app .imply [a, b]
  rw [happ, hx, hy]
  cases x <;> rfl

theorem eval_times {x y : Int64} (ha : a.eval m = .ok (.num x)) (hb : b.eval m = .ok (.num y)) :
    (times a b).eval m = .ok (.num (x * y)) := by
  have hx : (operand m a).asNum = .ok x := Operand.asNum_eq_ok_iff.mpr ha
  have hy : (operand m b).asNum = .ok y := Operand.asNum_eq_ok_iff.mpr hb
  have happ : (times a b).eval m = ((operand m a).asNum).bind fun x =>
      ((operand m b).asNum).bind fun y => .ok (.num (x * y)) := eval_app .times [a, b]
  rw [happ, hx, hy]
  rfl

theorem eval_neg {x : Int64} (ha : a.eval m = .ok (.num x)) :
    (Term.neg a).eval m = .ok (.num (-x)) := by
  have hx : (operand m a).asNum = .ok x := Operand.asNum_eq_ok_iff.mpr ha
  have happ : (Term.neg a).eval m = ((operand m a).asNum).bind fun x => .ok (.num (-x)) :=
    eval_app .neg [a]
  rw [happ, hx]
  rfl

/-- Values of the same sort can be compared. -/
theorem eval_equal {s : ValueSort} {x y : s.Carrier} (ha : a.eval m = .ok (s.value x))
    (hb : b.eval m = .ok (s.value y)) :
    (equal a b).eval m = .ok (.bool (decide (x = y))) := by
  rw [equal, eval_app]
  simp only [List.map_cons, List.map_nil, Operator.apply, value_operand, ha, hb, bind, Except.bind]
  cases s <;> rfl

end Term

/-! ### Evaluation -/

namespace Expression

variable {m : Model} {s : ValueSort}

/-- Operands of a connective, evaluated one by one. -/
theorem map_eval_ofFn {n : Nat} {as : Fin n → Expression s} {xs : Fin n → s.Carrier}
    (h : ∀ i, (as i).term.eval m = .ok (s.value (xs i))) :
    (List.ofFn fun i => (as i).term).map (Term.eval m) =
      (List.ofFn xs).map fun x => .ok (s.value x) := by
  rw [List.map_ofFn, List.map_ofFn]
  exact congrArg List.ofFn (funext h)

/-- **The term of an expression evaluates to what the expression denotes.** -/
theorem eval_term (e : Expression s) (h : e.Bound m) :
    e.term.eval m = .ok (s.value (e.denote m.valuation)) := by
  induction e with
  | var name =>
    obtain ⟨v, hv, rfl⟩ := h
    exact Term.eval_var_eq_ok_iff.mpr (hv.trans (congrArg some (Model.eq_valuation hv)))
  | int n => exact Term.eval_int n
  | not a iha =>
    refine (Term.eval_not (iha h)).trans ?_
    simp [denote, ValueSort.value]
  | conj as ih =>
    refine (Term.eval_conj (map_eval_ofFn fun i => ih i (h i))).trans ?_
    rw [denote, ValueSort.value]
    congr 2
    rw [Bool.eq_iff_iff, List.all_eq_true, decide_eq_true_iff]
    simp [List.mem_ofFn]
  | disj as ih =>
    refine (Term.eval_disj (map_eval_ofFn fun i => ih i (h i))).trans ?_
    rw [denote, ValueSort.value]
    congr 2
    rw [Bool.eq_iff_iff, List.any_eq_true, decide_eq_true_iff]
    simp [List.mem_ofFn]
  | sum as ih =>
    refine (Term.eval_sum (map_eval_ofFn fun i => ih i (h i))).trans ?_
    rw [denote, List.map_ofFn]
    rfl
  | times a b iha ihb =>
    refine (Term.eval_times (iha h.1) (ihb h.2)).trans ?_
    rw [denote, Int64.ofInt_mul, Int64.ofInt_toInt, Int64.ofInt_toInt]
    rfl
  | neg a iha =>
    refine (Term.eval_neg (iha h)).trans ?_
    rw [denote, Int64.ofInt_neg, Int64.ofInt_toInt]
    rfl
  | diff a b iha ihb =>
    refine (Term.eval_diff_eq_ok_iff.mpr ⟨_, _, iha h.1, ihb h.2, rfl⟩).trans ?_
    rw [denote, Int64.ofInt_sub, Int64.ofInt_toInt, Int64.ofInt_toInt]
    rfl
  | le a b iha ihb =>
    refine (Term.eval_le (iha h.1) (ihb h.2)).trans ?_
    simp only [denote, ValueSort.value, Int64.le_iff_toInt_le]
  | lt a b iha ihb =>
    -- a strict bound is the negation of the opposite one
    refine (Term.eval_not (Term.eval_le (ihb h.2) (iha h.1))).trans ?_
    simp only [denote, ValueSort.value, Int64.le_iff_toInt_le, ← decide_not,
      Int.not_le]
  | equal a b iha ihb => exact Term.eval_equal (iha h.1) (ihb h.2)
  | ite c a b ihc iha ihb =>
    refine (Term.eval_ite (ihc h.1)).trans ?_
    rw [denote, iha h.2.1, ihb h.2.2]
    split <;> rfl
  | imply a b iha ihb =>
    refine (Term.eval_imply (iha h.1) (ihb h.2)).trans ?_
    rw [denote]
    cases a.denote m.valuation <;> cases b.denote m.valuation <;> rfl
  | iff a b iha ihb =>
    have hboth : [Term.imply a.term b.term, Term.imply b.term a.term].map (Term.eval m) =
        [!a.denote m.valuation || b.denote m.valuation,
          !b.denote m.valuation || a.denote m.valuation].map fun b => .ok (.bool b) := by
      simp only [List.map_cons, List.map_nil, Term.eval_imply (iha h.1) (ihb h.2),
        Term.eval_imply (ihb h.2) (iha h.1)]
    refine (Term.eval_conj hboth).trans ?_
    rw [denote]
    cases a.denote m.valuation <;> cases b.denote m.valuation <;> rfl

theorem holds_term (e : Expression .bool) (h : e.Bound m) :
    e.term.holds m = .ok (e.denote m.valuation) :=
  Term.holds_eq_ok_iff.mpr (eval_term e h)

/-- **Evaluation finds what expressions denote.** Under a model that binds its variables at their
sorts, an expression has a value of its sort, which is the one it denotes. So every Boolean
expression holds or does not hold, `<` is strict, equivalences compare truth values, and connectives
without operands have their units as values. -/
theorem eval_eq_denote (m : Model) :
    (∀ {s : ValueSort} (e : Expression s), e.Bound m →
      ∃ v, e.term.eval m = .ok v ∧ v.sort = s ∧ v = s.value (e.denote m.valuation)) ∧
    (∀ e : Expression .bool, e.Bound m → e.term.holds m = .ok (e.denote m.valuation)) ∧
    (∀ a b : Expression .num, a.Bound m → b.Bound m → (Term.lt a.term b.term).holds m =
      .ok (decide ((a.denote m.valuation).toInt < (b.denote m.valuation).toInt))) ∧
    (∀ a b : Expression .bool, a.Bound m → b.Bound m → (Term.iff a.term b.term).holds m =
      .ok (decide (a.denote m.valuation = b.denote m.valuation))) ∧
    (Term.conj []).eval m = .ok (.bool true) ∧ (Term.disj []).eval m = .ok (.bool false) ∧
    (Term.sum []).eval m = .ok (.num 0) := by
  refine ⟨fun {s} e h => ⟨_, eval_term e h, s.sort_value _, rfl⟩, holds_term,
    fun a b ha hb => holds_term (lt a b) ⟨ha, hb⟩, fun a b ha hb => ?_,
    eval_term (conj ![]) (fun i => i.elim0), eval_term (disj ![]) (fun i => i.elim0),
    eval_term (sum ![]) (fun i => i.elim0)⟩
  refine (holds_term (iff a b) ⟨ha, hb⟩).trans ?_
  rw [denote]
  cases a.denote m.valuation <;> cases b.denote m.valuation <;> rfl

/-- A model with a switch that is on and the largest number. -/
def brim : Model := fun name =>
  if name = "on" then some (.bool true) else if name = "top" then some (.num Int64.maxValue)
  else none

/-- Two truths, put as equivalent: the largest number and one sum up to less than an empty sum does,
and a switch is the conjunction of itself alone. -/
def overturned : Expression .bool :=
  iff (ite (disj ![]) (var "on") (lt (sum ![var "top", int 1]) (sum ![])))
    (equal (var "on") (conj ![var "on"]))

theorem eval_eq_denote_overturned :
    overturned.Bound brim ∧
      (∃ v, overturned.term.eval brim = .ok v ∧ v.sort = .bool ∧
        v = .bool (overturned.denote brim.valuation)) ∧
      overturned.term.holds brim = .ok true := by
  have hbound : overturned.Bound brim := by
    simp [overturned, Bound, brim, Value.sort, Fin.forall_fin_two]
  obtain ⟨heval, hholds, -⟩ := eval_eq_denote brim
  refine ⟨hbound, heval overturned hbound, (hholds overturned hbound).trans ?_⟩
  decide

end Expression

end WorstCase
