import WorstCase.Text.Decimal

/-!
# Timestamps in YAML

Which plain scalars are dates or times: `2001-1-2`, `2001-01-02 3:04:05.6`, or the same with a
`T` or `t` in place of the space, or with several spaces, and a time zone at the end. Months,
days, hours, minutes and seconds have one digit or two, the year has four.
-/

namespace WorstCase.Yaml

/-- A number of one digit or two, and the rest. -/
def shortNumber? : List Char → Option (Nat × List Char)
  | a :: b :: rest =>
    match Decimal.digit? a, Decimal.digit? b with
    | some x, some y => some (10 * x + y, rest)
    | some x, none => some (x, b :: rest)
    | none, _ => none
  | [a] => (Decimal.digit? a).map (·, [])
  | [] => none

/-- A number of exactly two digits, and the rest. -/
def twoDigits? : List Char → Option (Nat × List Char)
  | a :: b :: rest => do return (10 * (← Decimal.digit? a) + (← Decimal.digit? b), rest)
  | _ => none

/-- The rest after a given character. -/
def after? (c : Char) : List Char → Option (List Char)
  | x :: rest => if x = c then some rest else none
  | [] => none

/-- The number of days in a month. -/
def daysIn (year month : Nat) : Nat :=
  if month = 2 then
    if year % 4 = 0 ∧ (year % 100 ≠ 0 ∨ year % 400 = 0) then 29 else 28
  else if month = 4 ∨ month = 6 ∨ month = 9 ∨ month = 11 then 30
  else 31

/-- The rest after a date. -/
def date? (s : List Char) : Option (List Char) := do
  let year ← Decimal.readNat? (s.take 4)
  if (s.takeWhile Char.isDigit).length ≠ 4 then none
  let rest ← after? '-' (s.drop 4)
  let (month, rest) ← shortNumber? rest
  let rest ← after? '-' rest
  let (day, rest) ← shortNumber? rest
  if 1 ≤ month ∧ month ≤ 12 ∧ 1 ≤ day ∧ day ≤ daysIn year month then some rest else none

/-- The rest after a fraction of a second, which may be missing. -/
def fraction (s : List Char) : List Char :=
  match s with
  | c :: d :: rest =>
    if (c = '.' ∨ c = ',') ∧ d.isDigit then (d :: rest).dropWhile Char.isDigit else s
  | _ => s

/-- The rest after a time of day. -/
def time? (s : List Char) : Option (List Char) := do
  let (hour, rest) ← shortNumber? s
  let rest ← after? ':' rest
  let (minute, rest) ← shortNumber? rest
  let rest ← after? ':' rest
  let (second, rest) ← shortNumber? rest
  if hour < 24 ∧ minute < 60 ∧ second < 60 then some (fraction rest) else none

/-- Whether a text is a time zone. -/
def isZone : List Char → Bool
  | ['Z'] => true
  | c :: rest =>
    (c = '+' || c = '-') &&
      (match twoDigits? rest with
        | some (hour, ':' :: rest) =>
          (match twoDigits? rest with
            | some (minute, []) => decide (hour ≤ 24) && decide (minute ≤ 60)
            | _ => false)
        | _ => false)
  | [] => false

/-- Whether a text is a date, or a date and a time. -/
def isTimestamp (s : List Char) : Bool :=
  match date? s with
  | none => false
  | some [] => true
  | some (c :: rest) =>
    if c = 'T' ∨ c = 't' then (time? rest).any isZone
    else if c = ' ' then (time? (rest.dropWhile (· = ' '))).any (·.isEmpty)
    else false

end WorstCase.Yaml
