import WorstCase.Text.Decimal

/-!
# Encodings

Three ways to state the costs of a graph as constraints, known to users by the numbers 0, 1
and 2.
-/

namespace WorstCase

/-- How costs are stated as constraints. -/
inductive Encoding where
  /-- Every cost variable is defined by an if-then-else on its selector, and the objective is
  their sum. -/
  | iteCosts
  /-- Costs are the weights of soft assertions on the negated selectors. -/
  | assertSoft
  /-- The differences of the cost variables of adjacent blocks are bounded, and the objective
  is the cost variable of the end. -/
  | differenceLogic
deriving DecidableEq, Repr

namespace Encoding

/-- The number of an encoding. -/
def code : Encoding → Int
  | .iteCosts => 0
  | .assertSoft => 1
  | .differenceLogic => 2

/-- The encoding with a number. -/
def ofCode? : Int → Option Encoding
  | 0 => some .iteCosts
  | 1 => some .assertSoft
  | 2 => some .differenceLogic
  | _ => none

/-- The name of an encoding. -/
def name : Encoding → String
  | .iteCosts => "default"
  | .assertSoft => "assert-soft"
  | .differenceLogic => "difference-logic"

/-- The name that goes with a number, known or not. -/
def codeName (code : Int) : String :=
  match ofCode? code with
  | some e => e.name
  | none => "encoding(" ++ Decimal.text code ++ ")"

/-- The message for a number that is none of the three, with the choices spelled out. -/
def unknownMessage (code : Int) : String :=
  "unknown encoding " ++ Decimal.text code ++
    " (0: default, 1: assert-soft, 2: difference logic)"

@[simp] theorem ofCode?_code (e : Encoding) : ofCode? e.code = some e := by
  cases e <;> rfl

theorem code_of_ofCode? {n : Int} {e : Encoding} (h : ofCode? n = some e) : n = e.code := by
  unfold ofCode? at h
  split at h <;> simp at h <;> subst h <;> rfl

end Encoding

end WorstCase
