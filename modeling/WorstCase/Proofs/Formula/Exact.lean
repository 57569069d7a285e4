import WorstCase.Proofs.Formula.Holds

/-!
# Terms over the integers

The meaning of a term does not depend on what its numbers are, as long as they can be added,
multiplied and compared. `Term.valueIn` evaluates terms over any such numbers; a term without a
value has none, and the reasons for that are left aside.

* **Over 64-bit integers it is `Term.eval`** (`Term.valueIn_eq_eval`).
* **Over the integers it is exact** (`Term.exact`): nothing wraps around. This is the reading of
  solvers, in which a variable of sort `Int` is any integer.

The lemmas about exact values say, like those about `Term.eval`, when a term is true.
-/

namespace WorstCase

/-- A Boolean or a number. -/
inductive ValueIn (R : Type) where
  | bool (b : Bool)
  | num (n : R)
deriving DecidableEq

namespace ValueIn

variable {R : Type}

/-- The value as a Boolean. -/
def bool? : ValueIn R → Option Bool
  | .bool b => some b
  | .num _ => none

/-- The value as a number. -/
def num? : ValueIn R → Option R
  | .bool _ => none
  | .num n => some n

end ValueIn

/-! ### Evaluation over any numbers -/

section General

variable {R : Type} [Add R] [Zero R] [Mul R] [Neg R] [Sub R] [LE R] [DecidableLE R] [DecidableEq R]

/-- The value of an operator at the values of its operands. -/
def Operator.applyIn (op : Operator) (xs : List (Option (ValueIn R))) : Option (ValueIn R) :=
  match op, xs with
  | .not, x :: _ => do return .bool !(← x.bind (·.bool?))
  | .and, xs => do return .bool ((← xs.mapM (·.bind (·.bool?))).all id)
  | .or, xs => do return .bool ((← xs.mapM (·.bind (·.bool?))).any id)
  | .plus, xs => do return .num ((← xs.mapM (·.bind (·.num?))).foldl (· + ·) 0)
  | .times, x :: y :: _ => do return .num ((← x.bind (·.num?)) * (← y.bind (·.num?)))
  | .neg, x :: _ => do return .num (-(← x.bind (·.num?)))
  | .diff, x :: y :: _ => do return .num ((← x.bind (·.num?)) - (← y.bind (·.num?)))
  | .leq, x :: y :: _ => do
    let a ← x.bind (·.num?)
    let b ← y.bind (·.num?)
    return .bool (decide (a ≤ b))
  | .equal, x :: y :: _ => do
    match ← x, ← y with
    | .bool a, .bool b => return .bool (a == b)
    | .num a, .num b => return .bool (decide (a = b))
    | _, _ => none
  | .ite, c :: x :: y :: _ => do if ← c.bind (·.bool?) then x else y
  | .imply, x :: y :: _ => do
    if ← x.bind (·.bool?) then return .bool (← y.bind (·.bool?)) else return .bool true
  | _, _ => none

namespace Term

mutual

/-- The value of a term over numbers into which `lit` takes the literals. -/
def valueIn (lit : Int64 → R) (m : String → Option (ValueIn R)) : Term → Option (ValueIn R)
  | .var name => m name
  | .int n => some (.num (lit n))
  | .raw _ => none
  | .app op args => op.applyIn (valuesIn lit m args)

/-- The values of operands. -/
def valuesIn (lit : Int64 → R) (m : String → Option (ValueIn R)) :
    List Term → List (Option (ValueIn R))
  | [] => []
  | t :: ts => valueIn lit m t :: valuesIn lit m ts

end

variable {lit : Int64 → R} {m : String → Option (ValueIn R)}

@[simp]
theorem valueIn_var (name : String) : (Term.var name).valueIn lit m = m name := by
  rw [valueIn]

@[simp]
theorem valueIn_int (n : Int64) : (Term.int n).valueIn lit m = some (.num (lit n)) := by
  rw [valueIn]

theorem valuesIn_eq_map (ts : List Term) : valuesIn lit m ts = ts.map (valueIn lit m) := by
  induction ts with
  | nil => rw [valuesIn, List.map_nil]
  | cons t ts ih => rw [valuesIn, ih, List.map_cons]

theorem valueIn_app (op : Operator) (ts : List Term) :
    (Term.app op ts).valueIn lit m = op.applyIn (ts.map (valueIn lit m)) := by
  rw [valueIn, valuesIn_eq_map]

end Term

end General

/-! ### Over 64-bit integers -/

/-- A value as one over 64-bit integers. -/
def Value.general : Value → ValueIn Int64
  | .bool b => .bool b
  | .num n => .num n

/-- The value of an operand, if it has one. -/
def Operand.general (x : Operand) : Option (ValueIn Int64) :=
  x.value.toOption.map Value.general

theorem Operand.bool?_general (x : Operand) : x.general.bind (·.bool?) = x.asBool.toOption := by
  unfold general asBool
  rcases x.value with e | b | n <;> rfl

theorem Operand.num?_general (x : Operand) : x.general.bind (·.num?) = x.asNum.toOption := by
  unfold general asNum
  rcases x.value with e | b | n <;> rfl

theorem toOption_bind {ε α β : Type} (x : Except ε α) (f : α → Except ε β) :
    (x >>= f).toOption = x.toOption.bind fun a => (f a).toOption := by
  cases x <;> rfl

theorem Operand.mapM_bool?_general (xs : List Operand) :
    (xs.map Operand.general).mapM (·.bind (·.bool?)) = (Operand.allBool xs).toOption := by
  induction xs with
  | nil => rfl
  | cons x xs ih =>
    rw [List.map_cons, List.mapM_cons, ih, bool?_general, allBool, toOption_bind]
    refine congrArg _ (funext fun b => ?_)
    rw [toOption_bind]
    rfl

theorem Operand.mapM_num?_general (xs : List Operand) :
    (xs.map Operand.general).mapM (·.bind (·.num?)) = (Operand.allNum xs).toOption := by
  induction xs with
  | nil => rfl
  | cons x xs ih =>
    rw [List.map_cons, List.mapM_cons, ih, num?_general, allNum, toOption_bind]
    refine congrArg _ (funext fun b => ?_)
    rw [toOption_bind]
    rfl

/-- Operators do the same over 64-bit integers. -/
theorem Operator.applyIn_general (op : Operator) (xs : List Operand) :
    op.applyIn (xs.map Operand.general) = (op.apply xs).toOption.map Value.general := by
  cases op with
  | not => rcases xs with _ | ⟨⟨_, _ | _ | _⟩, _⟩ <;> rfl
  | neg => rcases xs with _ | ⟨⟨_, _ | _ | _⟩, _⟩ <;> rfl
  | times => rcases xs with _ | ⟨⟨_, _ | _ | _⟩, _ | ⟨⟨_, _ | _ | _⟩, _⟩⟩ <;> rfl
  | diff => rcases xs with _ | ⟨⟨_, _ | _ | _⟩, _ | ⟨⟨_, _ | _ | _⟩, _⟩⟩ <;> rfl
  | leq => rcases xs with _ | ⟨⟨_, _ | _ | _⟩, _ | ⟨⟨_, _ | _ | _⟩, _⟩⟩ <;> rfl
  | equal => rcases xs with _ | ⟨⟨_, _ | _ | _⟩, _ | ⟨⟨_, _ | _ | _⟩, _⟩⟩ <;> rfl
  | ite =>
    rcases xs with _ | ⟨⟨_, _ | (_ | _) | _⟩, _ | ⟨_, _ | ⟨_, _⟩⟩⟩ <;> rfl
  | imply =>
    rcases xs with _ | ⟨⟨_, _ | (_ | _) | _⟩, _ | ⟨⟨_, _ | _ | _⟩, _⟩⟩ <;> rfl
  | other code => rfl
  | and =>
    have hargs := Operand.mapM_bool?_general xs
    rw [applyIn, apply, hargs]
    rcases Operand.allBool xs with _ | bs <;> rfl
  | or =>
    have hargs := Operand.mapM_bool?_general xs
    rw [applyIn, apply, hargs]
    rcases Operand.allBool xs with _ | bs <;> rfl
  | plus =>
    have hargs := Operand.mapM_num?_general xs
    rw [applyIn, apply, hargs]
    rcases Operand.allNum xs with _ | ns <;> rfl

/-- **Over 64-bit integers the value of a term is that of `Term.eval`.** -/
theorem Term.valueIn_eq_eval (m : Model) (t : Term) :
    t.valueIn id (fun name => (m name).map Value.general) =
      (t.eval m).toOption.map Value.general := by
  match t with
  | .var name =>
    rw [valueIn_var, eval]
    rcases m name with _ | v <;> rfl
  | .int n => rw [valueIn_int, eval_int]; rfl
  | .raw text => rw [valueIn, eval]; rfl
  | .app op args =>
    have hargs : args.map (valueIn id fun name => (m name).map Value.general) =
        (args.map (operand m)).map Operand.general := by
      rw [List.map_map]
      exact List.map_congr_left fun t _ => valueIn_eq_eval m t
    rw [valueIn_app, eval_app, hargs, Operator.applyIn_general]

/-! ### Over the integers -/

/-- Values over the integers. -/
abbrev ExactValue := ValueIn ℤ

/-- Exact values for some variable names. -/
abbrev ExactModel := String → Option ExactValue

namespace Term

/-- The exact value of a term. -/
def exact (m : ExactModel) (t : Term) : Option ExactValue :=
  t.valueIn Int64.toInt m

variable {m : ExactModel} {a b c : Term}

@[simp] theorem exact_var (name : String) : (Term.var name).exact m = m name := valueIn_var name

@[simp]
theorem exact_int (n : Int64) : (Term.int n).exact m = some (.num n.toInt) := valueIn_int n

theorem exact_app (op : Operator) (ts : List Term) :
    (Term.app op ts).exact m = op.applyIn (ts.map (exact m)) :=
  valueIn_app op ts

/-- The value of an application depends on the values of its operands only. -/
theorem exact_app_congr {m' : ExactModel} {op : Operator} {ts : List Term}
    (h : ∀ t ∈ ts, t.exact m = t.exact m') :
    (Term.app op ts).exact m = (Term.app op ts).exact m' := by
  rw [exact_app, exact_app, List.map_congr_left h]

theorem exact_not {x : Bool} (ha : a.exact m = some (.bool x)) :
    (Term.not a).exact m = some (.bool !x) := by
  rw [Term.not, exact_app, List.map_singleton, ha]
  rfl

theorem exact_equal_iff : (Term.equal a b).exact m = some (.bool true) ↔
    ∃ v, a.exact m = some v ∧ b.exact m = some v := by
  rw [equal, exact_app, List.map_cons, List.map_singleton]
  rcases a.exact m with _ | v
  · simp [Operator.applyIn]
  rcases b.exact m with _ | w
  · simp [Operator.applyIn]
  rcases v with x | x <;> rcases w with y | y
  · simpa [Operator.applyIn] using eq_comm
  · simp [Operator.applyIn]
  · simp [Operator.applyIn]
  · simpa [Operator.applyIn] using eq_comm

theorem exact_ite {x : Bool} (hc : c.exact m = some (.bool x)) :
    (Term.ite c a b).exact m = if x then a.exact m else b.exact m := by
  rw [Term.ite, exact_app, List.map_cons, List.map_cons, List.map_singleton, hc]
  rfl

/-- The exact sum of terms with numeric values. -/
theorem exact_sum {ts : List Term} {ns : List ℤ}
    (h : ts.map (exact m) = ns.map fun n => some (.num n)) :
    (sum ts).exact m = some (.num ns.sum) := by
  have happ : (Term.app .plus ts).exact m = some (.num ns.sum) := by
    have hmap : (ts.map (exact m)).mapM (·.bind (·.num?)) = some ns := by
      rw [h]
      clear h
      induction ns with
      | nil => rfl
      | cons n ns ih =>
        rw [List.map_cons, List.mapM_cons, ih]
        rfl
    rw [exact_app, Operator.applyIn, hmap, List.sum_eq_foldl]
    rfl
  rcases ts with _ | ⟨t, _ | ⟨t', ts⟩⟩
  · exact happ
  · -- a single operand is not added to anything
    obtain ⟨n, rfl⟩ : ∃ n, ns = [n] := by
      rw [← List.length_eq_one_iff, ← List.length_map, ← h]
      rfl
    rw [sum, nary_singleton, (List.cons.inj h).1, List.sum_singleton]
  · exact happ

end Term

end WorstCase
