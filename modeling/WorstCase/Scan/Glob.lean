import WorstCase.Text.Octets

/-!
# Globs

Patterns for paths, in which slashes divide components.

* `*` stands for any characters but slashes, and `?` for one such character.
* `**` as a whole component stands for any number of components, none included; elsewhere two
  stars are like one.
* `[abc]`, `[a-c]` stand for one of the characters; with `!` or `^` in front, for any other.
* `{a,b}` stands for one of the alternatives, which may be nested.
* A backslash takes the next character for itself.

Matching goes from left to right. Stars are tried with as few characters as possible first; where
the rest does not match, the last star takes one more character, and once it stands before a
slash, the last `**` takes one more component. That is enough, because what a later star or `**`
may take includes whatever an earlier one could leave over.

Commas divide alternatives also where they stand between brackets, so an alternative may be
**malformed** although the pattern is valid. Where this comes to light, matching ends without a
match: after a failure the rest of the pattern is looked through.
-/

namespace WorstCase.Glob

/-! ### Validity -/

/-- The text after the bracket that closes a class of characters, if there is one. -/
def afterClass : List Char → Option (List Char)
  | [] => none
  | ']' :: rest => some rest
  | '\\' :: _ :: rest => afterClass rest
  | _ :: rest => afterClass rest

/-- Whether a pattern is valid inside of so many open alternatives: classes are closed and not
empty, alternatives are closed, and no backslash stands at the end. -/
def isValidFrom : (fuel : Nat) → (depth : Nat) → List Char → Bool
  | 0, _, _ => false
  | fuel + 1, depth, pattern =>
    match pattern with
    | [] => depth == 0
    | '\\' :: rest => !rest.isEmpty && isValidFrom fuel depth (rest.drop 1)
    | '[' :: rest =>
      let members := match rest with
        | '!' :: rest | '^' :: rest => rest
        | rest => rest
      members.head? != some ']' && (afterClass members).any (isValidFrom fuel depth)
    | '\x7b' :: rest => isValidFrom fuel (depth + 1) rest
    | '\x7d' :: rest => depth != 0 && isValidFrom fuel (depth - 1) rest
    | _ :: rest => isValidFrom fuel depth rest

/-- Whether a text is a pattern. -/
def isValid (pattern : String) : Bool :=
  isValidFrom (pattern.length + 1) 0 pattern.toList

/-! ### Classes -/

/-- The member that may begin a range: any but the last of all characters. -/
def rangeStart? (c : Char) : Option Char :=
  if c.toNat = 0x10FFFF then none else some c

/-- Looks for a character among the members of a class: whether it is there, and where the search
stopped. `last` is the member before, which may begin a range. -/
def findInClass (c : Char) (last : Option Char) : List Char → Bool × List Char
  | [] => (false, [])
  | ']' :: rest => (false, ']' :: rest)
  | '\\' :: x :: rest => if x = c then (true, rest) else findInClass c (rangeStart? x) rest
  | x :: y :: rest =>
    if last.isSome ∧ x = '-' ∧ y ≠ ']' then
      match y, rest with
      | '\\', z :: rest =>
        if last.any (· ≤ c) ∧ c ≤ z then (true, rest) else findInClass c none rest
      | z, rest => if last.any (· ≤ c) ∧ c ≤ z then (true, rest) else findInClass c none rest
    else if x = c then (true, y :: rest)
    else findInClass c (rangeStart? x) (y :: rest)
  | [x] => (x = c, [])

/-- What a piece of a pattern says about the name. -/
inductive Verdict (α : Type) where
  /-- The piece matches. -/
  | fits (next : α)
  /-- The piece does not match; this is left of the pattern. -/
  | differs (rest : List Char)
  /-- The pattern is malformed. -/
  | malformed

/-- Whether a class, given by what follows its opening bracket, has a character. The pattern goes on
after the class. -/
def classHas (c : Char) (pattern : List Char) : Verdict (List Char) :=
  let (negated, members) := match pattern with
    | '!' :: rest | '^' :: rest => (true, rest)
    | rest => (false, rest)
  if members.isEmpty || members.head? == some ']' then .malformed
  else
    let (found, stopped) := findInClass c none members
    if found == negated then
      if stopped.isEmpty then .malformed else .differs stopped
    else
      match afterClass stopped with
      | some after => .fits after
      | none => .malformed

/-! ### Alternatives -/

/-- The text before and after the brace that closes alternatives, of which `depth` more are
open. -/
def closingBrace (depth : Nat) : List Char → Option (List Char × List Char)
  | [] => none
  | '\\' :: x :: rest => (closingBrace depth rest).map fun (a, b) => ('\\' :: x :: a, b)
  | '\x7b' :: rest => (closingBrace (depth + 1) rest).map fun (a, b) => ('\x7b' :: a, b)
  | '\x7d' :: rest =>
    if depth = 0 then some ([], rest)
    else (closingBrace (depth - 1) rest).map fun (a, b) => ('\x7d' :: a, b)
  | x :: rest => (closingBrace depth rest).map fun (a, b) => (x :: a, b)

/-- The alternatives between commas that are not inside of other alternatives. -/
def alternatives (depth : Nat) (current : List Char) : List Char → List (List Char)
  | [] => [current.reverse]
  | '\\' :: x :: rest => alternatives depth (x :: '\\' :: current) rest
  | x :: rest =>
    if x = ',' ∧ depth = 0 then current.reverse :: alternatives depth [] rest
    else
      alternatives (if x = '\x7b' then depth + 1 else if x = '\x7d' then depth - 1 else depth)
        (x :: current) rest

/-! ### Matching -/

/-- The patterns that stand for nothing without looking at alternatives. A pattern that ends with
`/**` stands for the directory too. -/
def emptyPatterns : List String := ["", "*", "**", "/**", "**/", "/**/"]

/-- The first answer that is not a failure, or a failure if there is none. -/
def firstDecided {α : Type} (decided : α → Option Bool) : List α → Option Bool
  | [] => some false
  | a :: rest =>
    match decided a with
    | some false => firstDecided decided rest
    | answer => answer

/-- The answer after a failure: `none` if the rest of the pattern is malformed. -/
def failed (rest : List Char) : Option Bool :=
  if isValidFrom (rest.length + 1) 0 rest then some false else none

/-- Whether the rest of a pattern stands for nothing, unless it is malformed. -/
def standsForNothing : (fuel : Nat) → List Char → Option Bool
  | 0, _ => none
  | fuel + 1, pattern =>
    if emptyPatterns.contains (String.ofList pattern) then some true
    else
      match pattern with
      | '\x7b' :: rest =>
        match closingBrace 0 rest with
        | some (inner, after) =>
          firstDecided (fun a => standsForNothing fuel (a ++ after)) (alternatives 0 [] inner)
        | none => none
      | _ => failed pattern

/-- A place to go back to. -/
structure Retry where
  /-- What has been read of the pattern since then, last character first. -/
  since : List Char
  /-- The name from there on. -/
  name : List Char

/-- A place to go back to, after more of the pattern is read. -/
def Retry.read (r : Retry) (chars : List Char) : Retry :=
  { r with since := chars.reverse ++ r.since }

/-- The last component boundary that is left in a name: what follows the next slash. -/
def afterSlash : List Char → Option (List Char)
  | [] => none
  | c :: rest => if c = '/' then some rest else afterSlash rest

/-- The state of matching. -/
structure Attempt where
  /-- Whether a component begins here. -/
  start : Bool
  /-- Whether a backslash stands before the rest of the pattern. -/
  afterBackslash : Bool := false
  /-- The last star and the last `**`. -/
  star : Option Retry
  components : Option Retry
  pattern : List Char
  name : List Char

namespace Attempt

/-- The attempt after some of the pattern and of the name is read. -/
def advance (a : Attempt) (chars : List Char) (start : Bool) (pattern name : List Char) :
    Attempt :=
  { start, pattern, name, star := a.star.map (·.read chars)
    components := a.components.map (·.read chars)
    afterBackslash := chars.getLast? == some '\\' }

/-- The attempt in which the last star takes one more character, or else the last `**` one more
component. -/
def retry? (a : Attempt) : Option Attempt :=
  let byComponent : Option Attempt :=
    a.components.bind fun r =>
      (afterSlash r.name).map fun name =>
        { start := true, star := none, components := some ⟨[], name⟩
          pattern := r.since.reverse ++ a.pattern, name }
  match a.star with
  | some ⟨since, c :: name⟩ =>
    if c = '/' then byComponent
    else
      some { start := false, star := some ⟨[], name⟩
             components := a.components.map fun r =>
               { r with since := r.since.drop since.length }
             pattern := since.reverse ++ a.pattern, name }
  | _ => byComponent

/-- The attempts that may follow from the next piece of the pattern and of the name, of which there
is more than one for alternatives. -/
def step (a : Attempt) (c : Char) (name : List Char) : Verdict (List Attempt) :=
  let single (chars rest : List Char) : Verdict (List Attempt) :=
    let a := a.advance chars false rest a.name
    .fits [{ a with star := some ⟨[], a.name⟩ }]
  match a.pattern with
  | [] => .differs []
  | '*' :: '*' :: '/' :: rest =>
    if a.start then
      .fits [{ start := true, star := none, components := some ⟨[], a.name⟩
               pattern := rest, name := a.name }]
    else single ['*', '*'] ('/' :: rest)
  | '*' :: '*' :: rest => single ['*', '*'] rest
  | '*' :: rest => single ['*'] rest
  | '?' :: rest =>
    if c = '/' then .differs a.pattern else .fits [a.advance ['?'] false rest name]
  | '[' :: rest =>
    match classHas c rest with
    | .fits after =>
      .fits [a.advance ('[' :: rest.take (rest.length - after.length)) false after name]
    | .differs rest => .differs rest
    | .malformed => .malformed
  | '\x7b' :: rest =>
    match closingBrace 0 rest with
    | some (inner, after) =>
      .fits ((alternatives 0 [] inner).map fun alt =>
        { a with start := true, pattern := alt ++ after })
    | none => .malformed
  | ['\\'] => .malformed
  | '\\' :: x :: rest =>
    if x = c then .fits [a.advance ['\\', x] (x = '/') rest name] else .differs a.pattern
  | x :: rest =>
    if x = c then .fits [a.advance [x] (x = '/') rest name]
    else .differs (if a.afterBackslash then '\\' :: a.pattern else a.pattern)

/-- Whether an attempt ends in a match, unless the pattern is malformed. -/
def succeeds : (fuel : Nat) → Attempt → Option Bool
  | 0, _ => none
  | fuel + 1, a =>
    match a.name with
    | [] => standsForNothing (a.pattern.length + 1) a.pattern
    | c :: name =>
      if a.start && a.pattern == ['*', '*'] then some true
      else
        match a.step c name with
        | .fits next => firstDecided (fun b => succeeds fuel b) next
        | .malformed => none
        | .differs rest =>
          match a.retry? with
          | some b => succeeds fuel b
          | none => failed rest

end Attempt

/-- Whether a pattern matches a path. -/
def isMatch (pattern name : String) : Bool :=
  let p := Text.readable pattern.toList
  let n := Text.readable name.toList
  Attempt.succeeds ((n.length + 2) * (n.length + 2) * (p.length + 2))
    { start := true, star := none, components := none, pattern := p, name := n } == some true

end WorstCase.Glob
