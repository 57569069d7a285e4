import WorstCase.Text.Decimal

/-!
# Numerals

Integers as they are written in programs: an optional sign, then digits in base ten, or in base
two, eight or sixteen after a mark such as `0x`. A zero in front of other digits marks base eight,
too. Underscores may stand between digits, the mark counting as a digit.
-/

namespace WorstCase.Numeral

/-- The value of a digit in any base up to sixteen. -/
def digit? (c : Char) : Option Nat :=
  if '0' ≤ c ∧ c ≤ '9' then some (c.toNat - '0'.toNat)
  else if 'a' ≤ c ∧ c ≤ 'f' then some (c.toNat - 'a'.toNat + 10)
  else if 'A' ≤ c ∧ c ≤ 'F' then some (c.toNat - 'A'.toNat + 10)
  else none

/-- The base of a numeral without a sign, and what follows the mark of the base. -/
def base? : List Char → Option (Nat × List Char)
  | [] => none
  | '0' :: 'x' :: c :: s | '0' :: 'X' :: c :: s => some (16, c :: s)
  | '0' :: 'b' :: c :: s | '0' :: 'B' :: c :: s => some (2, c :: s)
  | '0' :: 'o' :: c :: s | '0' :: 'O' :: c :: s => some (8, c :: s)
  | '0' :: s => some (8, s)
  | s => some (10, s)

/-- Why a text stands for no integer of 64 bits. -/
inductive Error where
  | malformed
  | outOfRange
deriving DecidableEq, Repr

/-- The wording of an error. -/
def Error.message : Error → String
  | malformed => "invalid syntax"
  | outOfRange => "value out of range"

/-- The number that digits in a base continue. It stays below `2 ^ 64`. -/
def readDigits (base n : Nat) : List Char → Except Error Nat
  | [] => .ok n
  | c :: s =>
    match digit? c with
    | none => .error .malformed
    | some d =>
      if base ≤ d then .error .malformed
      else if base * n + d < 0x10000000000000000 then readDigits base (base * n + d) s
      else .error .outOfRange

/-- A number without a sign and without underscores. -/
def unsigned? (s : List Char) : Option Nat :=
  (base? s).bind fun (base, digits) => (readDigits base 0 digits).toOption

/-- Whether each underscore stands after a digit and before another one. -/
def areSpaced (afterDigit : Bool) : List Char → Bool
  | [] => true
  | ['_'] => false
  | '_' :: c :: s => afterDigit && c ≠ '_' && areSpaced true s
  | _ :: s => areSpaced true s

/-- A number without a sign. -/
def readNat (s : List Char) : Except Error Nat :=
  match base? s with
  | none => .error .malformed
  | some (base, digits) => do
    let n ← readDigits base 0 (digits.filter (· ≠ '_'))
    if areSpaced (base ≠ 10) digits then return n else throw .malformed

/-- An integer of 64 bits. -/
def read (s : String) : Except Error Int64 := do
  let (negative, n) ← (match s.toList with
    | '-' :: s => (readNat s).map (true, ·)
    | '+' :: s => (readNat s).map (false, ·)
    | s => (readNat s).map (false, ·))
  let value : Int := if negative then -(n : Int) else n
  if Decimal.fits64 value then return Int64.ofInt value else throw .outOfRange

end WorstCase.Numeral
