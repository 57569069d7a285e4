/-!
# Decimal integers

Reading and writing integers in decimal. `readInt` accepts an optional sign followed by at
least one digit and nothing else; `readInt64?` further asks that the value fits 64 bits. On
the writing side, digits may be grouped by three.
-/

namespace WorstCase.Decimal

/-! ### Reading -/

/-- The value of a digit. -/
def digit? (c : Char) : Option Nat :=
  if '0' ≤ c ∧ c ≤ '9' then some (c.toNat - '0'.toNat) else none

/-- The number that the digits `s` continue, if they are all digits. -/
def readDigits (n : Nat) : List Char → Option Nat
  | [] => some n
  | c :: s => (digit? c).bind fun d => readDigits (10 * n + d) s

/-- A non-empty run of digits. -/
def readNat? : List Char → Option Nat
  | [] => none
  | s => readDigits 0 s

/-- An integer with an optional sign. -/
def readInt? : List Char → Option Int
  | '-' :: s => (readNat? s).map fun n => -(n : Int)
  | '+' :: s => (readNat? s).map Int.ofNat
  | s => (readNat? s).map Int.ofNat

/-- Whether an integer fits 64 bits. -/
def fits64 (n : Int) : Bool :=
  decide (-0x8000000000000000 ≤ n) && decide (n < 0x8000000000000000)

/-- An integer in the 64-bit range, with an optional sign. -/
def readInt64? (s : List Char) : Option Int :=
  (readInt? s).filter fits64

/-- The integer in the 64-bit range that a text begins with: an optional sign and as many digits
as there are. What follows them is not looked at. -/
def prefixInt64? (s : List Char) : Option Int :=
  let (sign, rest) := match s with
    | '-' :: rest => (['-'], rest)
    | '+' :: rest => (['+'], rest)
    | rest => ([], rest)
  readInt64? (sign ++ rest.takeWhile fun c => (digit? c).isSome)

/-! ### Writing -/

/-- The digits of a number, without leading zeros. -/
def digits (n : Nat) : List Char :=
  Nat.toDigits 10 n

/-- An integer in decimal. -/
def chars (n : Int) : List Char :=
  if n < 0 then '-' :: digits n.natAbs else digits n.natAbs

/-- An integer in decimal. -/
def text (n : Int) : String :=
  String.ofList (chars n)

/-- Commas between groups of three digits, counted from the right; `s` is given last digit
first. -/
def commasFrom (k : Nat) : List Char → List Char
  | [] => []
  | c :: s => if k = 3 then ',' :: c :: commasFrom 1 s else c :: commasFrom (k + 1) s

/-- An integer in decimal with its digits grouped by three. -/
def grouped (n : Int) : String :=
  let body := (commasFrom 0 (digits n.natAbs).reverse).reverse
  String.ofList (if n < 0 then '-' :: body else body)

end WorstCase.Decimal
