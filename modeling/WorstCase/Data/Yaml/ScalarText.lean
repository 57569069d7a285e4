import WorstCase.Data.Yaml.Token

/-!
# The text of scalars

Scalars are plain, between quotes, or blocks of lines. Inside of plain and quoted scalars a single
line break stands for a space, and of several breaks in a row the first one is dropped; blanks
around breaks say nothing. A block keeps its line breaks or folds them in the same way, and its
head tells what becomes of the breaks at its end.
-/

namespace WorstCase.Yaml

/-! ### Space inside scalars -/

/-- The space since the last character of a scalar, whose parts are held last character first. -/
structure Space where
  blanks : List Char := []
  /-- Whether a line has ended. -/
  broken : Bool := false
  /-- The first line break, unless it was escaped, and those after it. -/
  first : List Char := []
  more : List Char := []

namespace Space

/-- Whether there is no space. -/
def isEmpty (s : Space) : Bool := s.blanks.isEmpty && !s.broken

/-- What space stands for, last character first. -/
def folded (s : Space) : List Char :=
  if s.broken then
    if s.first == ['\n'] then if s.more.isEmpty then [' '] else s.more else s.more ++ s.first
  else s.blanks

end Space

namespace Scan

/-- Reads the blanks and line breaks from here on. A tab before column `floor` of a later line is
not allowed. -/
def space (floor : Int) : (fuel : Nat) → Space → Scan Space
  | 0, s => return s
  | fuel + 1, s => do
    need 1
    match ← rest with
    | [] => return s
    | c :: _ =>
      if isBlank c then
        if s.broken && c == '\t' && ((← get).column : Int) < floor then failure
        skip 1
        space floor fuel (if s.broken then s else { s with blanks := c :: s.blanks })
      else if isBreak c then
        let found ← lineBreak
        space floor fuel
          (if s.broken then { s with more := found ++ s.more }
            else { broken := true, first := found })
      else return s

/-! ### Quoted scalars -/

/-- The character of an escape, or the number of hexadecimal digits that follow. -/
def unescape : Char → Option (Char ⊕ Nat)
  | '0' => some (.inl (Char.ofNat 0))
  | 'a' => some (.inl (Char.ofNat 7))
  | 'b' => some (.inl (Char.ofNat 8))
  | 't' => some (.inl '\t')
  | '\t' => some (.inl '\t')
  | 'n' => some (.inl '\n')
  | 'v' => some (.inl (Char.ofNat 0x0B))
  | 'f' => some (.inl (Char.ofNat 0x0C))
  | 'r' => some (.inl '\r')
  | 'e' => some (.inl (Char.ofNat 0x1B))
  | ' ' => some (.inl ' ')
  | '"' => some (.inl '"')
  | '\'' => some (.inl '\'')
  | '\\' => some (.inl '\\')
  | 'N' => some (.inl (Char.ofNat 0x85))
  | '_' => some (.inl (Char.ofNat 0xA0))
  | 'L' => some (.inl (Char.ofNat 0x2028))
  | 'P' => some (.inl (Char.ofNat 0x2029))
  | 'x' => some (.inr 2)
  | 'u' => some (.inr 4)
  | 'U' => some (.inr 8)
  | _ => none

/-- The character of a number of hexadecimal digits. -/
def hexChar? (width : Nat) (s : List Char) : Option Char := do
  let digits ← (s.take width).mapM hexValue?
  let n := digits.foldl (fun n d => 16 * n + d) 0
  if digits.length = width ∧ n.isValidChar then some (Char.ofNat n) else none

/-- Reads a run of characters in a quoted scalar, up to a blank, a line break or the closing
quote. `out` holds what was read, last character first. The truth value tells whether an escaped
line break ended the run. -/
def quotedRun (single : Bool) : (fuel : Nat) → (out : List Char) → Scan (List Char × Bool)
  | 0, out => return (out, false)
  | fuel + 1, out => do
    need 2
    match ← rest with
    | [] => return (out, false)
    | c :: after =>
      if isGap c then return (out, false)
      else if single then
        if c == '\'' then
          if after.head? == some '\'' then
            skip 2
            quotedRun single fuel (c :: out)
          else return (out, false)
        else
          skip 1
          quotedRun single fuel (c :: out)
      else if c == '"' then return (out, false)
      else if c == '\\' then
        match after with
        | [] => failure
        | d :: digits =>
          if isBreak d then
            skip 1
            let _ ← lineBreak
            return (out, true)
          else
            match unescape d with
            | none => failure
            | some (.inl x) =>
              skip 2
              quotedRun single fuel (x :: out)
            | some (.inr width) =>
              match hexChar? width digits with
              | none => failure
              | some x =>
                skip (2 + width)
                quotedRun single fuel (x :: out)
      else
        skip 1
        quotedRun single fuel (c :: out)

/-- Reads a quoted scalar after its opening quote. `out` holds what was read, last character
first. -/
def quotedFrom (single : Bool) : (fuel : Nat) → (out : List Char) → Scan (List Char)
  | 0, _ => failure
  | fuel + 1, out => do
    if ← atMarker then failure
    if (← rest).isEmpty then failure
    let size ← bound
    let (out, escaped) ← quotedRun single size out
    need 1
    if (← rest).head? == some (if single then '\'' else '"') then
      skip 1
      return out.reverse
    let space ← space 0 size { broken := escaped }
    quotedFrom single fuel (space.folded ++ out)

/-- Reads a quoted scalar. -/
def quoted (single : Bool) : Scan (List Char) := do
  skip 1
  quotedFrom single (← bound) []

/-! ### Plain scalars -/

/-- Whether a plain scalar ends before these characters. -/
def endsPlain (flow : Bool) : List Char → Bool
  | [] => true
  | c :: after =>
    isGap c || (c == ':' && atGap after) || (flow && ",?[]\x7b\x7d".toList.contains c)

/-- Reads a run of characters in a plain scalar. -/
def plainRun (flow : Bool) : (fuel : Nat) → (out : List Char) → Scan (List Char)
  | 0, out => return out
  | fuel + 1, out => do
    match ← rest with
    | [] => return out
    | c :: after =>
      if endsPlain flow (c :: after) then return out
      else
        skip 1
        need 2
        plainRun flow fuel (c :: out)

/-- Reads a plain scalar whose later lines begin at column `floor` or later, with the space before
this place. `out` holds what was read, last character first. -/
def plainFrom (flow : Bool) (floor : Int) : (fuel : Nat) → (out : List Char) → Space →
    Scan (List Char × Space)
  | 0, out, space => return (out, space)
  | fuel + 1, out, before => do
    if ← atMarker then return (out, before)
    if (← rest).head? == some '#' then return (out, before)
    let run ← plainRun flow (← bound) []
    let (out, before) : List Char × Space :=
      if run.isEmpty then (out, before) else (run ++ before.folded ++ out, {})
    need 1
    if (← rest).head?.any fun c => isBlank c || isBreak c then
      let before ← space floor (← bound) before
      if !flow && ((← get).column : Int) < floor then return (out, before)
      plainFrom flow floor fuel out before
    else return (out, before)

/-- Reads a plain scalar. After a line break, a simple key may begin. -/
def plain : Scan (List Char) := do
  let s ← get
  let (out, space) ← plainFrom (s.flowLevel != 0) (s.indent + 1) (← bound) [] {}
  if space.broken then modify fun s => { s with keyAllowed := true }
  return out.reverse

/-! ### Block scalars -/

/-- What becomes of the line breaks at the end of a block. -/
inductive Chomping where
  | strip
  | clip
  | keep
deriving DecidableEq, Repr

/-- The sign of a treatment. -/
def chomping? : List Char → Option Chomping
  | '+' :: _ => some .keep
  | '-' :: _ => some .strip
  | _ => none

/-- Reads a sign of a treatment, if there is one. -/
def chompingSign : Scan (Option Chomping) := do
  need 1
  let sign := chomping? (← rest)
  if sign.isSome then skip 1
  return sign

/-- Reads a digit for the indent of a block, if there is one. -/
def indentSign : Scan Nat := do
  need 1
  match ← rest with
  | '0' :: _ => failure
  | c :: _ =>
    if c.isDigit then
      skip 1
      return c.toNat - '0'.toNat
    else return 0
  | [] => return 0

/-- Passes over the rest of a line, which may hold blanks and a comment. -/
def restOfLine : Scan Unit := do
  need 1
  skipWhile isBlank
  if (← rest).head? == some '#' then skipWhile fun c => !isBreak c
  if !atLineEnd (← rest) then failure
  let _ ← lineBreak

/-- Reads the head of a block: the treatment of its end, and the digit for its indent or zero. -/
def blockHead : Scan (Chomping × Nat) := do
  skip 1
  let head ← (match ← chompingSign with
    | some sign => return (sign, ← indentSign)
    | none => do
      let indent ← indentSign
      if indent = 0 then return (.clip, 0)
      else return ((← chompingSign).getD .clip, indent))
  restOfLine
  return head

/-- Passes over empty lines in a block whose indent is given, or not yet known if it is zero: their
line breaks, last first, and the widest indent. -/
def emptyLines (indent : Nat) : (fuel : Nat) → (breaks : List Char) → (widest : Nat) →
    Scan (List Char × Nat)
  | 0, breaks, widest => return (breaks, widest)
  | fuel + 1, breaks, widest => do
    need 1
    let spaces := ((← rest).takeWhile (· == ' ')).length
    let room := indent - (← get).column
    skip (if indent = 0 then spaces else min spaces room)
    need 1
    let column := (← get).column
    let widest := max widest column
    match ← rest with
    | [] => return (breaks, widest)
    | c :: _ =>
      if c == '\t' && (indent = 0 || column < indent) then failure
      else if isBreak c then
        let found ← lineBreak
        emptyLines indent fuel (found ++ breaks) widest
      else return (breaks, widest)

/-- Reads the lines of a block. `out` holds what was read, last character first; `lead` is the
break at the end of the last line, `breaks` are those of the empty lines after it, and `afterBlank`
tells whether that line began with a blank. -/
def blockLines (literal : Bool) (chomping : Chomping) (indent : Nat) : (fuel : Nat) →
    (out lead breaks : List Char) → (afterBlank : Bool) → Scan (List Char)
  | 0, _, _, _, _ => failure
  | fuel + 1, out, lead, breaks, afterBlank => do
    need 1
    let here ← rest
    if (← get).column == indent && !here.isEmpty then
      let blank := here.head?.any isBlank
      let joint : List Char :=
        if !literal && !afterBlank && !blank && lead == ['\n'] then
          if breaks.isEmpty then [' '] else []
        else lead
      let line ← takeWhile fun c => !isBreak c
      let lead ← lineBreak
      let out := line.reverse ++ breaks ++ joint ++ out
      let (breaks, _) ← emptyLines indent (← bound) [] 0
      blockLines literal chomping indent fuel out lead breaks blank
    else
      return (match chomping with
        | .strip => out
        | .clip => lead ++ out
        | .keep => breaks ++ lead ++ out).reverse

/-- Reads a block scalar. -/
def block (literal : Bool) : Scan (List Char) := do
  let (chomping, digit) ← blockHead
  let around := (← get).indent
  let given := if digit = 0 then 0 else (max around 0).toNat + digit
  let size ← bound
  let (breaks, widest) ← emptyLines given size [] 0
  let indent := if given = 0 then max widest (max (around + 1).toNat 1) else given
  blockLines literal chomping indent size [] [] breaks false

end Scan

end WorstCase.Yaml
