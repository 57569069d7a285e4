import WorstCase.Text.Decimal

/-!
# Terms

Terms of linear integer arithmetic with Boolean structure, as far as cost problems need them:
variables, integer literals, verbatim text, and applications of an operator to operands.

The constructors of this module (`conj`, `disj`, `sum`, `le`, …) build applications with the
right number of operands; an n-ary connective with a single operand **is** that operand.
`Term.render` prints a term in SMT-LIB prefix form.
-/

namespace WorstCase

/-- The operators of terms. -/
inductive Operator where
  | not
  | and
  | or
  | plus
  | times
  | neg
  | diff
  | leq
  | equal
  | ite
  | imply
  /-- An operator without a meaning here, known by its number only. -/
  | other (code : Nat)
deriving DecidableEq, Repr

/-- The symbol an operator is written with. -/
def Operator.symbol : Operator → String
  | .not => "not"
  | .and => "and"
  | .or => "or"
  | .plus => "+"
  | .times => "*"
  | .neg => "-"
  | .diff => "-"
  | .leq => "<="
  | .equal => "="
  | .ite => "ite"
  | .imply => "=>"
  | .other _ => "unknown"

/-- What an operator without operands is written as, where it has a unit. -/
def Operator.unit? : Operator → Option String
  | .and => some "true"
  | .or => some "false"
  | .plus => some "0"
  | _ => none

/-- Terms. -/
inductive Term where
  /-- A declared constant. -/
  | var (name : String)
  /-- An integer literal. -/
  | int (value : Int64)
  /-- Formatted text that is printed verbatim and has no value. -/
  | raw (text : String)
  /-- An operator applied to its operands. -/
  | app (op : Operator) (args : List Term)
deriving Repr, Inhabited

namespace Term

/-! ### Constructors -/

/-- An n-ary application; a single operand stands for itself. -/
def nary (op : Operator) : List Term → Term
  | [t] => t
  | ts => .app op ts

/-- The negation of `t`. -/
protected def not (t : Term) : Term := .app .not [t]

/-- The conjunction of terms. -/
def conj (ts : List Term) : Term := nary .and ts

/-- The disjunction of terms. -/
def disj (ts : List Term) : Term := nary .or ts

/-- The sum of terms. -/
def sum (ts : List Term) : Term := nary .plus ts

/-- The product of two terms. -/
def times (a b : Term) : Term := .app .times [a, b]

/-- The opposite of a term. -/
protected def neg (a : Term) : Term := .app .neg [a]

/-- The difference of two terms. -/
def diff (a b : Term) : Term := .app .diff [a, b]

/-- `a ≤ b`. -/
protected def le (a b : Term) : Term := .app .leq [a, b]

/-- `a < b`, which is the negation of `b ≤ a`. -/
protected def lt (a b : Term) : Term := Term.not (Term.le b a)

/-- `a = b`. -/
def equal (a b : Term) : Term := .app .equal [a, b]

/-- `a` if `c` holds, and `b` otherwise. -/
protected def ite (c a b : Term) : Term := .app .ite [c, a, b]

/-- `a` implies `b`. -/
def imply (a b : Term) : Term := .app .imply [a, b]

/-- `a` and `b` imply each other. -/
def iff (a b : Term) : Term := conj [imply a b, imply b a]

/-! ### Printing -/

/-- An integer literal; a negative one is the application of `-` to its absolute value. -/
def renderInt (n : Int) : String :=
  if n < 0 then "(- " ++ Decimal.text (-n) ++ ")" else Decimal.text n

mutual

/-- The SMT-LIB text of a term. -/
def render : Term → String
  | .var name => name
  | .int value => renderInt value.toInt
  | .raw text => text
  | .app op args =>
    match args, op.unit? with
    | [], some unit => unit
    | _, _ => "(" ++ op.symbol ++ renderArgs args ++ ")"

/-- The operands of an application, each after a space. -/
def renderArgs : List Term → String
  | [] => ""
  | t :: ts => " " ++ render t ++ renderArgs ts

end

@[simp] theorem nary_singleton (op : Operator) (t : Term) : nary op [t] = t := rfl

theorem nary_of_length_ne_one {op : Operator} {ts : List Term} (h : ts.length ≠ 1) :
    nary op ts = .app op ts := by
  unfold nary
  split
  · simp at h
  · rfl

end Term

end WorstCase
