import WorstCase.Data.Yaml.Property

/-!
# Scanning YAML

The next token of a stream, one at a time. Columns open and close blocks: a dash, a question mark
or a key to the right of the innermost block opens another one, and whatever stands to the left of
a block closes it. Between brackets columns mean nothing.

A token is **deliverable** once two more tokens are known and it can no longer turn out to be the
beginning of a simple key. So what stands two tokens ahead must be readable, too.
-/

namespace WorstCase.Yaml

namespace Scan

/-! ### Simple keys -/

/-- The greatest distance between the beginning of a simple key and its colon. -/
def maxKeySize : Nat := 1024

/-- Whether a simple key may still become one. It is an error if it must but cannot. -/
def isAlive (k : SimpleKey) : Scan Bool := do
  let s ← get
  if !k.possible then return false
  else if k.line < s.line || k.index + maxKeySize < s.index then
    if k.required then failure
    return false
  else return true

/-- Gives up the innermost simple key. It is an error if it must become one. -/
def dropKey : Scan Unit := do
  let s ← get
  match s.keys with
  | k :: outer =>
    if k.possible then
      if k.required then failure
      set { s with
        keys := { k with possible := false } :: outer
        holding := Scanner.released k.token s.holding }
  | [] => return ()

/-- Notes that a simple key may begin here. In a block, one that begins at the column of the block
must become one. -/
def saveKey : Scan Unit := do
  let s ← get
  if s.keyAllowed then
    let k : SimpleKey :=
      { possible := true, required := s.flowLevel = 0 ∧ s.indent = s.column, token := s.nextToken
        index := s.index, line := s.line, column := s.column }
    dropKey
    modify fun s =>
      { s with
        keys := k :: s.keys.drop 1
        holding := (k.token, s.flowLevel) :: Scanner.released k.token s.holding }

/-! ### Blocks and brackets -/

/-- The greatest number of brackets or blocks inside of each other. -/
def maxLevel : Nat := 10000

/-- Opens a block at a column, unless there is one. Its token comes in front of the token of a
number. -/
def openBlock (column : Nat) (number : Option Nat) (t : Token) : Scan Unit := do
  let s ← get
  if s.flowLevel = 0 && s.indent < column then
    if maxLevel ≤ s.outer.length then failure
    set ({ s with indent := column, outer := s.indent :: s.outer }.put t number)

/-- A scanner after the blocks to the right of a column are closed. -/
def closed (column : Int) (s : Scanner) : List Int → Scanner
  | [] => s
  | indent :: outer =>
    if column < s.indent then closed column ({ s with indent, outer }.put .blockEnd none) outer
    else s

/-- Closes the blocks to the right of a column. -/
def closeBlocks (column : Int) : Scan Unit := modify fun s =>
  if s.flowLevel = 0 then closed column s s.outer else s

/-- Opens a bracket. -/
def openBracket (t : Token) : Scan Unit := do
  saveKey
  let s ← get
  if maxLevel ≤ s.flowLevel then failure
  set { s with
    keys := { token := s.nextToken, index := s.index, line := s.line, column := s.column } :: s.keys
    flowLevel := s.flowLevel + 1, keyAllowed := true }
  skip 1
  emit t

/-- Closes a bracket. -/
def closeBracket (t : Token) : Scan Unit := do
  dropKey
  modify fun s =>
    match s.keys with
    | k :: outer =>
      if outer.isEmpty then { s with keyAllowed := false }
      else
        { s with
          keys := outer, flowLevel := s.flowLevel - 1, keyAllowed := false
          holding := Scanner.released k.token s.holding }
    | [] => s
  skip 1
  emit t

/-! ### Comments -/

/-- The number of characters in which a comment or another one is looked for. -/
def lookahead : Nat := 512

/-- Passes over the comment at the end of a line. -/
def lineComment : Scan Unit := do
  let s ← get
  if s.fresh then return ()
  let text := s.source.rest
  let blanks := (text.takeWhile isBlank).length
  need (min (blanks + 1) lookahead)
  if blanks < lookahead && (text.drop blanks).head? == some '#' then
    skipWhile fun c => !isBreak c

/-- Passes over blanks and line breaks up to the place with so many characters before it. -/
def skipTo (place : Nat) : (fuel : Nat) → Scan Unit
  | 0 => return ()
  | fuel + 1 => do
    if place ≤ (← get).index then return ()
    if (← rest).head?.any isBreak then
      let _ ← lineBreak
    else skip 1
    skipTo place fuel

/-- Passes over a comment and over those on the lines after it. -/
def comments : (fuel : Nat) → Scan Unit
  | 0 => return ()
  | fuel + 1 => do
    skipWhile fun c => !isBreak c
    let text ← rest
    let space := (text.takeWhile fun c => isBlank c || c == '\n' || c == '\r').length
    need (max 2 (min (space + 1) lookahead))
    if 0 < space && space < lookahead && (text.drop space).head? == some '#' then
      skipTo ((← get).index + space) space
      comments fuel

/-! ### Gaps -/

/-- Passes over everything up to the next token. Tabs are passed over only where no key may begin.
The first character of a line is passed over if the source is marked. -/
def toNextToken : (fuel : Nat) → Scan Unit
  | 0 => return ()
  | fuel + 1 => do
    need 1
    if (← get).column = 0 && (← get).source.marked then skip 1
    need 1
    let s ← get
    let tabs := s.flowLevel ≠ 0 || !s.keyAllowed
    skipWhile fun c => c == ' ' || (tabs && c == '\t')
    if (← rest).head? == some '#' then comments (← bound)
    if (← rest).head?.any isBreak then
      let _ ← lineBreak
      modify fun s => if s.flowLevel = 0 then { s with keyAllowed := true } else s
      toNextToken fuel

/-! ### Tokens -/

/-- Ends the stream. -/
def streamEnd : Scan Unit := do
  modify fun s => if s.column = 0 then s else { s with column := 0, line := s.line + 1 }
  closeBlocks (-1)
  dropKey
  modify fun s => { s with keyAllowed := false }
  emit .streamEnd

/-- Begins or ends a document. -/
def marker (t : Token) : Scan Unit := do
  closeBlocks (-1)
  dropKey
  modify fun s => { s with keyAllowed := false }
  skip 3
  emit t

/-- Reads a directive. -/
def directiveLine : Scan Unit := do
  closeBlocks (-1)
  dropKey
  modify fun s => { s with keyAllowed := false }
  emit (← directive)

/-- Reads a sign, after which simple keys may begin or not. -/
def sign (allowed : Bool) (t : Token) : Scan Unit := do
  dropKey
  modify fun s => { s with keyAllowed := allowed }
  skip 1
  emit t

/-- Reads a dash. -/
def blockEntry : Scan Unit := do
  let s ← get
  if s.flowLevel = 0 then
    if !s.keyAllowed then failure
    openBlock s.column none .blockSequence
  sign true .blockEntry

/-- Reads a question mark. -/
def keySign : Scan Unit := do
  let s ← get
  if s.flowLevel = 0 then
    if !s.keyAllowed then failure
    openBlock s.column none .blockMapping
  sign (s.flowLevel = 0) .key

/-- Reads a colon, which may turn what stands before it into a simple key. -/
def valueSign : Scan Unit := do
  let s ← get
  let k := s.keys.headD {}
  if ← isAlive k then
    modify (·.put .key (some k.token))
    openBlock k.column (some k.token) .blockMapping
    modify fun s =>
      { s with
        keys := { k with possible := false } :: s.keys.drop 1
        holding := Scanner.released k.token s.holding, keyAllowed := false }
  else
    if s.flowLevel = 0 then
      if !s.keyAllowed then failure
      openBlock s.column none .blockMapping
    modify fun s => { s with keyAllowed := s.flowLevel = 0 }
  skip 1
  emit .value

/-- Reads something that may be a simple key. -/
def keyed (read : Scan Token) : Scan Unit := do
  saveKey
  modify fun s => { s with keyAllowed := false }
  emit (← read)

/-- Reads a block scalar. -/
def blockScalar (literal : Bool) : Scan Unit := do
  dropKey
  modify fun s => { s with keyAllowed := true }
  emit (.scalar false (textOf (← block literal)))

/-- Whether a plain scalar may begin here. -/
def beginsPlain (flow : Bool) : List Char → Bool
  | [] => false
  | '-' :: rest => !rest.head?.any isBlank
  | '?' :: rest | ':' :: rest => !flow && !atGap rest
  | c :: _ => !isGap c && !isIndicator c

/-- Reads the token that begins with these characters, within brackets or not. -/
def inner (flow : Bool) (text : List Char) : Scan Unit :=
  match text with
  | '[' :: _ => openBracket .flowSequence
  | '\x7b' :: _ => openBracket .flowMapping
  | ']' :: _ => closeBracket .flowSequenceEnd
  | '\x7d' :: _ => closeBracket .flowMappingEnd
  | ',' :: _ => sign true .flowEntry
  | '*' :: _ => keyed (return .alias (← anchorName))
  | '&' :: _ => keyed (return .anchor (← anchorName))
  | '!' :: _ => keyed tag
  | '\'' :: _ => keyed (return .scalar false (textOf (← quoted true)))
  | '"' :: _ => keyed (return .scalar false (textOf (← quoted false)))
  | c :: after =>
    if c == '-' && atGap after then blockEntry
    else if c == '?' && (flow || atGap after) then keySign
    else if c == ':' && (flow || atGap after) then valueSign
    else if c == '|' && !flow then blockScalar true
    else if c == '>' && !flow then blockScalar false
    else if beginsPlain flow (c :: after) then
      keyed (return .scalar true (textOf (← plain)))
    else failure
  | [] => failure

/-- Puts the next token into the queue, together with those of the blocks that it opens or
closes. -/
def fetch : Scan Unit := do
  need 1
  if !(← get).started then
    modify fun s => { s with started := true }
    emit .streamStart
  else
    toNextToken (← bound)
    closeBlocks (← get).column
    need 4
    let s ← get
    let text := s.source.rest
    if text.isEmpty then streamEnd
    else if s.column = 0 && text.head? == some '%' then directiveLine
    else if ← atMarker then
      marker (if text.head? == some '-' then .documentStart else .documentEnd)
    else
      inner (s.flowLevel ≠ 0) text
      if (← get).queue.getLast? ≠ some .blockEntry then lineComment

/-! ### The queue -/

/-- Whether the token in front may not be delivered yet. -/
def isHeld : Scan Bool := do
  let s ← get
  if (s.queue.drop 2).isEmpty then return true
  else
    match s.holding.lookup s.taken with
    | none => return false
    | some level => isAlive (s.keys.getD (s.flowLevel - level) {})

/-- Fetches tokens until the one in front may be delivered. -/
def fill : (fuel : Nat) → Scan Unit
  | 0 => failure
  | fuel + 1 => do
    if ← isHeld then
      fetch
      fill fuel

/-- The token in front. -/
def front : Scan Token := do
  fill (← bound)
  return (← get).queue.headD .streamEnd

/-- Takes the token in front. -/
def take : Scan Unit :=
  modify fun s => { s with taken := s.taken + 1, queue := s.queue.drop 1 }

end Scan

end WorstCase.Yaml
