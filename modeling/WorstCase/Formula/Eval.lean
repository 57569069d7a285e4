import WorstCase.Formula.Term
import WorstCase.Text.Quoted

/-!
# Values of terms

A **model** gives values to variable names. `Term.eval` computes the value of a term under a
model: Booleans and 64-bit integers with wrapping arithmetic. Verbatim text, variables without
a value and operands of the wrong sort have no value; `EvalError` says which of these was met
first, operands being looked at from left to right.
-/

namespace WorstCase

/-- The value of a term. -/
inductive Value where
  | bool (b : Bool)
  | num (n : Int64)
deriving DecidableEq, Repr, Inhabited

/-- An assignment of values to some variable names. -/
abbrev Model := String → Option Value

/-- Why a term has no value. -/
inductive EvalError where
  | unbound (name : String)
  | verbatim (text : String)
  | notBoolean (term : String)
  | notNumeric (term : String)
  | mixedSorts (term : String)
  | unknownOperator (code : Nat)
  | missingOperand (term : String)
deriving DecidableEq, Repr

/-- The wording of an `EvalError`. -/
def EvalError.message (e : EvalError) : String :=
  "term not evaluable: " ++
    match e with
    | .unbound name => "unbound variable " ++ name
    | .verbatim text => "raw term " ++ Text.quoted text
    | .notBoolean term => term ++ " is not Boolean"
    | .notNumeric term => term ++ " is not numeric"
    | .mixedSorts term => "mixed sorts in " ++ term
    | .unknownOperator code => "unknown kind " ++ Decimal.text code
    | .missingOperand term => "missing operand in " ++ term

/-- An operand together with its value. -/
structure Operand where
  term : Term
  value : Except EvalError Value

namespace Operand

/-- The operand as a Boolean. -/
def asBool (x : Operand) : Except EvalError Bool :=
  match x.value with
  | .ok (.bool b) => .ok b
  | .ok (.num _) => .error (.notBoolean x.term.render)
  | .error e => .error e

/-- The operand as a number. -/
def asNum (x : Operand) : Except EvalError Int64 :=
  match x.value with
  | .ok (.num n) => .ok n
  | .ok (.bool _) => .error (.notNumeric x.term.render)
  | .error e => .error e

/-- Operands as Booleans, up to the first that is none. -/
def allBool : List Operand → Except EvalError (List Bool)
  | [] => .ok []
  | x :: xs => do
    let b ← x.asBool
    return b :: (← allBool xs)

/-- Operands as numbers, up to the first that is none. -/
def allNum : List Operand → Except EvalError (List Int64)
  | [] => .ok []
  | x :: xs => do
    let n ← x.asNum
    return n :: (← allNum xs)

end Operand

/-- The value of an operator at operands. Fixed-arity operators look at their first operands
only. -/
def Operator.apply (op : Operator) (xs : List Operand) : Except EvalError Value :=
  let self := (Term.app op (xs.map Operand.term)).render
  match op, xs with
  | .not, x :: _ => do return .bool !(← x.asBool)
  | .and, xs => do return .bool ((← Operand.allBool xs).all id)
  | .or, xs => do return .bool ((← Operand.allBool xs).any id)
  | .plus, xs => do return .num ((← Operand.allNum xs).foldl (· + ·) 0)
  | .times, x :: y :: _ => do
    let a ← x.asNum
    let b ← y.asNum
    return .num (a * b)
  | .neg, x :: _ => do return .num (-(← x.asNum))
  | .diff, x :: y :: _ => do
    let a ← x.asNum
    let b ← y.asNum
    return .num (a - b)
  | .leq, x :: y :: _ => do
    let a ← x.asNum
    let b ← y.asNum
    return .bool (decide (a ≤ b))
  | .equal, x :: y :: _ => do
    match ← x.value, ← y.value with
    | .bool a, .bool b => return .bool (a == b)
    | .num a, .num b => return .bool (a == b)
    | _, _ => throw (.mixedSorts self)
  | .ite, c :: x :: y :: _ => do if ← c.asBool then x.value else y.value
  | .imply, x :: y :: _ => do
    if ← x.asBool then return .bool (← y.asBool) else return .bool true
  | .other code, _ => throw (.unknownOperator code)
  | _, _ => throw (.missingOperand self)

namespace Term

mutual

/-- The value of a term under a model. -/
def eval (m : Model) : Term → Except EvalError Value
  | .var name =>
    match m name with
    | some v => .ok v
    | none => .error (.unbound name)
  | .int n => .ok (.num n)
  | .raw text => .error (.verbatim text)
  | .app op args => op.apply (evalArgs m args)

/-- Operands with their values under a model. -/
def evalArgs (m : Model) : List Term → List Operand
  | [] => []
  | t :: ts => ⟨t, eval m t⟩ :: evalArgs m ts

end

/-- Whether a Boolean term is true under a model. -/
def holds (m : Model) (t : Term) : Except EvalError Bool :=
  Operand.asBool ⟨t, t.eval m⟩

theorem evalArgs_eq_map (m : Model) (ts : List Term) :
    evalArgs m ts = ts.map fun t => ⟨t, t.eval m⟩ := by
  induction ts with
  | nil => simp [evalArgs]
  | cons t ts ih => simp [evalArgs, ih]

end Term

end WorstCase
