import WorstCase.Data.Yaml.Source

/-!
# Tokens and scanners

A scanner turns the characters of a stream into tokens. It knows its place, the columns of the
blocks that are open, and the places where a **simple key** may have begun: a key without a
question mark is known as one only when its colon is found, on the same line and not too far away.
Until then the tokens after its beginning wait in a queue, because tokens are put in front of them
if the colon comes.

This module has the state of a scanner and its smallest moves.
-/

namespace WorstCase.Yaml

/-- The tokens of a stream. -/
inductive Token where
  | streamStart
  | streamEnd
  | versionDirective (major minor : Nat)
  | tagDirective (handle expansion : String)
  | documentStart
  | documentEnd
  | blockSequence
  | blockMapping
  | blockEnd
  | flowSequence
  | flowSequenceEnd
  | flowMapping
  | flowMappingEnd
  | blockEntry
  | flowEntry
  | key
  | value
  | alias (name : String)
  | anchor (name : String)
  | tag (handle suffix : String)
  | scalar (plain : Bool) (text : String)
deriving DecidableEq, Repr, Inhabited

/-- A place where a simple key may have begun. -/
structure SimpleKey where
  /-- Whether a colon may still make it a key. -/
  possible : Bool := false
  /-- Whether it must become a key. -/
  required : Bool := false
  /-- The number of the token that begins it. -/
  token : Nat := 0
  index : Nat := 0
  line : Nat := 0
  column : Nat := 0
deriving Repr, Inhabited

/-- The state of a scanner. -/
structure Scanner where
  source : Source
  /-- The number of characters before this place, and its line and column. -/
  index : Nat := 0
  line : Nat := 0
  column : Nat := 0
  /-- Whether nothing but blanks follow the last line break. -/
  fresh : Bool := false
  /-- Whether the first token is in the queue or taken. -/
  started : Bool := false
  /-- The column of the innermost block, and of those around it; `-1` is around all of them. -/
  indent : Int := -1
  outer : List Int := []
  /-- Whether a simple key may begin here. -/
  keyAllowed : Bool := true
  /-- The simple keys, one for the block and one for each open bracket, innermost first. -/
  keys : List SimpleKey := [{}]
  /-- The number of open brackets. -/
  flowLevel : Nat := 0
  /-- The tokens that hold the queue up, each with the number of brackets around it, last first. -/
  holding : List (Nat × Nat) := []
  /-- The number of tokens that have been taken, and those that have not. -/
  taken : Nat := 0
  queue : List Token := []

/-- Steps of a scanner, which fail where the stream cannot be read. -/
abbrev Scan := StateT Scanner Option

namespace Scanner

/-- The number of the next token. -/
def nextToken (s : Scanner) : Nat := s.taken + s.queue.length

/-- Tokens that hold the queue up, without the one of a number. -/
def released (number : Nat) : List (Nat × Nat) → List (Nat × Nat)
  | [] => []
  | (n, level) :: rest =>
    if n = number then rest
    else if n < number then (n, level) :: rest
    else (n, level) :: released number rest

/-- A scanner with a token put at the end of the queue, or in front of the token of a number. A
token that has been taken cannot be preceded. -/
def put (s : Scanner) (t : Token) (number : Option Nat) : Scanner :=
  match number with
  | none => { s with queue := s.queue ++ [t] }
  | some n =>
    if n < s.taken then { s with queue := s.queue ++ [t] }
    else { s with queue := s.queue.take (n - s.taken) ++ t :: s.queue.drop (n - s.taken) }

end Scanner

/-! ### Moves -/

namespace Scan

/-- Asks for characters. -/
def need (n : Nat) : Scan Unit := fun s =>
  (s.source.need n).map fun source => ((), { s with source })

/-- A bound on the number of characters to come. -/
def bound : Scan Nat := return (← get).source.size + 8

/-- The characters from here on. -/
def rest : Scan (List Char) := return (← get).source.rest

/-- Passes over characters of a line. -/
def skip (n : Nat) : Scan Unit := do
  need n
  modify fun s =>
    { s with
      source := s.source.drop n, index := s.index + n, column := s.column + n
      fresh := s.fresh && (s.source.rest.take n).all isBlank && (s.source.rest.take n).length = n }

/-- Passes over the characters of a class. -/
def skipWhile (p : Char → Bool) : Scan Unit := do
  skip ((← rest).takeWhile p).length
  need 1

/-- Reads the characters of a class. -/
def takeWhile (p : Char → Bool) : Scan (List Char) := do
  let found := (← rest).takeWhile p
  skip found.length
  need 1
  return found

/-- Passes over a line break, if there is one: what it stands for. -/
def lineBreak : Scan (List Char) := do
  need 2
  let pass (n : Nat) : Scan Unit := modify fun s =>
    { s with
      source := s.source.drop n, index := s.index + n, line := s.line + 1, column := 0
      fresh := true }
  match ← rest with
  | '\r' :: '\n' :: _ =>
    pass 2
    return ['\n']
  | c :: _ =>
    if isBreak c then
      pass 1
      return [if c.toNat = 0x2028 ∨ c.toNat = 0x2029 then c else '\n']
    else return []
  | [] => return []

/-- Whether the mark of a document's beginning or end stands here. -/
def atMarker : Scan Bool := do
  need 4
  let s ← get
  let text := s.source.rest
  return s.column == 0 && ("---".toList.isPrefixOf text || "...".toList.isPrefixOf text) &&
    atGap (text.drop 3)

/-- Puts a token at the end of the queue. -/
def emit (t : Token) : Scan Unit := modify (·.put t none)

end Scan

/-- The text that characters spell. -/
def textOf (cs : List Char) : String := String.ofList (Text.spell cs)

end WorstCase.Yaml
