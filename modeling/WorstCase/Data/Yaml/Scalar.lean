import WorstCase.Data.Base64
import WorstCase.Data.Yaml.Timestamp
import WorstCase.Text.Numeral

/-!
# Plain scalars in YAML

What a plain scalar stands for: nothing, a truth value, an integer, a float, a timestamp, or the
text itself. Integers may be written in bases two, eight, ten and sixteen and with underscores.
A tag may say what a scalar stands for, as long as it does.

Two more families of plain scalars are texts here but mean something else to other readers: the
old spellings of truth values such as `yes`, and numbers in base sixty such as `1:30`.
-/

namespace WorstCase.Yaml

/-- What a plain scalar stands for. -/
inductive Scalar where
  | null
  | bool (value : Bool)
  | int (value : Int)
  /-- A float, by its value in double precision. -/
  | float (value : Float)
  | timestamp
  | text (value : String)

/-- The tag of what a scalar stands for. -/
def Scalar.tag : Scalar → String
  | null => "!!null"
  | bool _ => "!!bool"
  | int _ => "!!int"
  | float _ => "!!float"
  | timestamp => "!!timestamp"
  | text _ => "!!str"

/-! ### Words -/

/-- The words that stand for nothing. -/
def nullWords : List String := ["", "~", "null", "Null", "NULL"]

/-- The words that are truth values. -/
def boolWord? : String → Option Bool
  | "true" | "True" | "TRUE" => some true
  | "false" | "False" | "FALSE" => some false
  | _ => none

/-- The old spellings of truth values that are still read as such where a truth value is due. -/
def oldBool? : String → Option Bool
  | "y" | "Y" | "yes" | "on" => some true
  | "n" | "N" | "no" | "off" => some false
  | _ => none

/-- Whether a text is an old spelling of a truth value. -/
def isOldBool (s : String) : Bool :=
  (oldBool? s).isSome || ["Yes", "YES", "On", "ON", "No", "NO", "Off", "OFF"].contains s

/-- The words for floats that are no numbers. -/
def floatWord? : String → Option Float
  | ".nan" | ".NaN" | ".NAN" => some (0.0 / 0.0)
  | ".inf" | ".Inf" | ".INF" | "+.inf" | "+.Inf" | "+.INF" => some (1.0 / 0.0)
  | "-.inf" | "-.Inf" | "-.INF" => some (-1.0 / 0.0)
  | _ => none

/-! ### Integers -/

/-- An integer with an optional sign. Negative ones fit 64 bits, and so do those with a sign;
others fit 64 bits without a sign. -/
def int? : List Char → Option Int
  | '-' :: s => (Numeral.unsigned? s).bind fun n =>
    if n ≤ 0x8000000000000000 then some (-(n : Int)) else none
  | '+' :: s => (Numeral.unsigned? s).bind fun n =>
    if n < 0x8000000000000000 then some (n : Int) else none
  | s => (Numeral.unsigned? s).map Int.ofNat

/-- Digits in a base after an optional sign, as an integer of 64 bits. -/
def signedDigits? (base : Nat) (s : List Char) : Option Int := do
  let (negative, digits) := match s with
    | '-' :: digits => (true, digits)
    | '+' :: digits => (false, digits)
    | digits => (false, digits)
  if digits.isEmpty then none
  let n ← (Numeral.readDigits base 0 digits).toOption
  let value : Int := if negative then -(n : Int) else n
  if Decimal.fits64 value then some value else none

/-- An integer whose sign stands after the mark of its base. -/
def lateSign? : List Char → Option Int
  | '0' :: 'b' :: s => signedDigits? 2 s
  | '0' :: 'o' :: s => signedDigits? 8 s
  | _ => none

/-! ### Floats -/

/-- The parts of a decimal float: its digits as a number, and the power of ten that scales it. -/
def floatParts? (s : List Char) : Option (Nat × Int) :=
  let whole := s.takeWhile Char.isDigit
  let rest := s.drop whole.length
  let (frac, rest, point) : List Char × List Char × Bool :=
    match rest with
    | '.' :: rest =>
      let frac := rest.takeWhile Char.isDigit
      (frac, rest.drop frac.length, true)
    | rest => ([], rest, false)
  let exponent : Option Int :=
    match rest with
    | [] => some 0
    | c :: rest =>
      if c = 'e' ∨ c = 'E' then
        match rest with
        | '-' :: ds => (Decimal.readNat? ds).map fun n => -(n : Int)
        | '+' :: ds => (Decimal.readNat? ds).map Int.ofNat
        | ds => (Decimal.readNat? ds).map Int.ofNat
      else none
  if whole.isEmpty ∧ (frac.isEmpty ∨ !point) then none
  else
    exponent.bind fun e =>
      (Decimal.readNat? (whole ++ frac)).map fun n => (n, e - (frac.length : Int))

/-- The float nearest to a number scaled by a power of ten. Scales beyond the range of floats
count as the ends of that range. -/
def scaled (n : Nat) (e : Int) : Float :=
  let bound : Int := 400 + Nat.log2 (n + 1)
  let e := if e < -bound then -bound else if bound < e then bound else e
  Float.ofScientific n (decide (e < 0)) e.natAbs

/-- A decimal float with an optional sign, if it is in range. -/
def float? (s : List Char) : Option Float :=
  let (negative, body) : Bool × List Char :=
    match s with
    | '-' :: s => (true, s)
    | '+' :: s => (false, s)
    | s => (false, s)
  (floatParts? body).bind fun (n, e) =>
    let f := scaled n e
    if f.isInf then none else some (if negative then -f else f)

/-- Whether each underscore of a text stands between two digits. -/
def underscoresApart : List Char → Bool
  | a :: '_' :: b :: rest => a.isDigit && b.isDigit && underscoresApart (b :: rest)
  | '_' :: _ => false
  | [_, '_'] => false
  | _ :: rest => underscoresApart rest
  | [] => true

/-- The integer part of a float, cut off toward zero. Values beyond 64 bits give the least
64-bit integer. -/
def truncate (f : Float) : Int64 :=
  let bits := f.toBits.toNat
  let e := bits / 0x10000000000000 % 0x800
  let m := bits % 0x10000000000000 + 0x10000000000000
  let size : Nat := if e < 1023 then 0 else if e < 1075 then m / Nat.pow 2 (1075 - e)
    else m * Nat.pow 2 (e - 1075)
  let n : Int := if bits < 0x8000000000000000 then (size : Int) else -(size : Int)
  if Decimal.fits64 n then Int64.ofInt n else Int64.minValue

/-! ### Base sixty -/

/-- Whether a text is a sequence of `:` and a number below sixty, followed by a fraction or by
nothing. -/
def sixtieths : (fuel : Nat) → List Char → Bool
  | 0, _ => false
  | fuel + 1, s =>
    match s with
    | ':' :: a :: rest =>
      let done (rest : List Char) : Bool :=
        match rest with
        | [] => true
        | '.' :: ds => ds.all fun c => c.isDigit || c = '_'
        | rest => sixtieths fuel rest
      let short := a.isDigit && done rest
      let long :=
        match rest with
        | b :: rest => '0' ≤ a && a ≤ '5' && b.isDigit && done rest
        | [] => false
      long || short
    | _ => false

/-- Whether a text is a number in base sixty. -/
def isBase60 (s : List Char) : Bool :=
  let body :=
    match s with
    | '-' :: s => s
    | '+' :: s => s
    | s => s
  match body with
  | c :: rest =>
    c.isDigit && sixtieths (rest.length + 1) (rest.dropWhile fun c => c.isDigit || c = '_')
  | [] => false

/-! ### Meaning -/

/-- What a plain scalar that begins like a number stands for. -/
def resolveNumber (s : List Char) : Scalar :=
  if isTimestamp s then .timestamp
  else
    let plain := s.filter (· ≠ '_')
    match int? plain, float? plain, lateSign? plain with
    | some n, _, _ => .int n
    | none, some f, _ => .float f
    | none, none, some n => .int n
    | none, none, none => .text (String.ofList s)

/-- What a plain scalar stands for. -/
def resolve (s : String) : Scalar :=
  if nullWords.contains s then .null
  else
    match boolWord? s, floatWord? s with
    | some b, _ => .bool b
    | none, some f => .float f
    | none, none =>
      match s.toList with
      | '.' :: rest =>
        if underscoresApart ('.' :: rest) then
          match float? (('.' :: rest).filter (· ≠ '_')) with
          | some f => .float f
          | none => .text s
        else .text s
      | c :: rest =>
        if c.isDigit || c = '+' || c = '-' then resolveNumber (c :: rest) else .text s
      | [] => .null

/-- What a scalar with a tag stands for, unless the tag is wrong. An integer may be called a float;
tags that say nothing about plain scalars leave the text. -/
def resolveAs (tag s : String) : Option Scalar :=
  match tag with
  | "!!str" => some (.text s)
  | "!!binary" => (Base64.decode? s.toList).map fun cs => .text (String.ofList cs)
  | "!!null" | "!!bool" | "!!int" | "!!float" | "!!timestamp" =>
    let r := resolve s
    if r.tag = tag then some r
    else
      match tag, r with
      | "!!float", .int n =>
        if Decimal.fits64 n then
          some (.float (if n < 0 then -(scaled n.natAbs 0) else scaled n.natAbs 0))
        else none
      | _, _ => none
  | _ => some (.text s)

/-- Whether a plain scalar is the text itself to every reader. -/
def isPlainText (s : String) : Bool :=
  (match resolve s with
    | .text _ => true
    | _ => false) &&
    !isOldBool s && !isBase60 s.toList

end WorstCase.Yaml
