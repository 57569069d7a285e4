import WorstCase.Data.Yaml.Node
import WorstCase.Data.Yaml.Scanner

/-!
# Reading YAML

The first document of a stream, made of its tokens. Lists and records are written in blocks or
between brackets. The parts of a record may be missing, and then nothing stands in their place.

Text after the first document is looked at only as far as the scanner has to.
-/

namespace WorstCase.Yaml

/-- What is known while a document is read. -/
structure Reader where
  scanner : Scanner
  /-- The handles of tags with their expansions. -/
  handles : List (String × String) := []
  /-- The numbers of the named nodes, those of the last ones first. -/
  names : List (String × Nat) := []
  /-- The named nodes by their numbers, as far as they have been read. -/
  named : List (Nat × Node) := []
  /-- The numbers of named nodes and of aliases that have been given away. -/
  nameCount : Nat := 0
  aliasCount : Nat := 0

/-- Steps of a reader. -/
abbrev Read := StateT Reader Option

namespace Read

/-! ### Tokens -/

/-- A step of the scanner. -/
def scan {α : Type} (step : Scan α) : Read α := fun r =>
  (step.run r.scanner).map fun (a, scanner) => (a, { r with scanner })

/-- The token in front. -/
def front : Read Token := scan Scan.front

/-- Takes the token in front, and gives the one after it. -/
def next : Read Token := do
  scan Scan.take
  front

/-! ### Directives -/

/-- The handles that every document has. -/
def standardHandles : List (String × String) := [("!", "!"), ("!!", Node.tagSpace)]

/-- Reads the directives of a document. -/
def directives : (fuel : Nat) → (versioned : Bool) → Read Unit
  | 0, _ => failure
  | fuel + 1, versioned => do
    match ← front with
    | .versionDirective major minor =>
      if versioned || major ≠ 1 || minor ≠ 1 then failure
      let _ ← next
      directives fuel true
    | .tagDirective handle expansion =>
      let r ← get
      if (r.handles.lookup handle).isSome then failure
      set { r with handles := r.handles ++ [(handle, expansion)] }
      let _ ← next
      directives fuel versioned
    | _ => modify fun r => { r with handles := r.handles ++ standardHandles }

/-! ### Properties -/

/-- What is said about a node before it. -/
structure Properties where
  anchor : Option String := none
  /-- The handle and the suffix of the tag. -/
  tag : Option (String × String) := none

/-- Reads the properties of a node: at most one anchor and one tag. -/
def properties : Read Properties := do
  match ← front with
  | .anchor name =>
    match ← next with
    | .tag handle suffix =>
      let _ ← next
      return { anchor := some name, tag := some (handle, suffix) }
    | _ => return { anchor := some name }
  | .tag handle suffix =>
    match ← next with
    | .anchor name =>
      let _ ← next
      return { anchor := some name, tag := some (handle, suffix) }
    | _ => return { tag := some (handle, suffix) }
  | _ => return {}

/-- The tag that a handle and a suffix stand for. -/
def expanded (handle suffix : String) : Read String := do
  if handle = "" then return suffix
  match (← get).handles.lookup handle with
  | some expansion =>
    let tag := expansion ++ suffix
    if tag = "" then failure
    return tag
  | none => failure

/-- Gives a number to an anchor. -/
def nameNode (name : String) : Read Nat := do
  let r ← get
  let n := r.nameCount
  set { r with names := (name, n) :: r.names, nameCount := n + 1 }
  return n

/-- An alias of a node that has been named. -/
def aliasOf (name : String) : Read Node := do
  let r ← get
  match r.names.lookup name with
  | some target =>
    set { r with aliasCount := r.aliasCount + 1 }
    return .alias r.aliasCount name target
  | none => failure

/-! ### Nodes -/

/-- A node of which nothing is written but its properties. -/
def bare (p : Properties) (tag : Option String) : Read Node :=
  if p.anchor.isSome || p.tag.isSome then return Node.ofScalar tag true "" else failure

mutual

/-- Reads a node. In a block it may be a block, and as the value of a key it may be a list whose
dashes stand at the column of the key. -/
def node : (fuel : Nat) → (block dashes : Bool) → Read Node
  | 0, _, _ => failure
  | fuel + 1, block, dashes => do
    match ← front with
    | .alias name =>
      scan Scan.take
      aliasOf name
    | _ =>
      let p ← properties
      let tag ← p.tag.mapM fun (handle, suffix) => expanded handle suffix
      let tag := tag.filter (· ≠ "!")
      let number ← p.anchor.mapM nameNode
      let n ← (do
        match ← front with
        | .scalar plain text =>
          scan Scan.take
          return Node.ofScalar tag plain text
        | .flowSequence =>
          scan Scan.take
          return .list (← flowItems fuel true [])
        | .flowMapping =>
          scan Scan.take
          return .record (← flowFields fuel true [])
        | .blockEntry =>
          if dashes then return .list (← dashItems fuel [])
          else bare p tag
        | .blockSequence =>
          if block then
            scan Scan.take
            return .list (← blockItems fuel [])
          else bare p tag
        | .blockMapping =>
          if block then
            scan Scan.take
            return .record (← blockFields fuel [])
          else bare p tag
        | _ => bare p tag)
      match number with
      | some k =>
        modify fun r => { r with named := (k, n) :: r.named }
        return n
      | none => return n

/-- Reads the items of a list in a block, up to its end; `items` holds those before, last first. -/
def blockItems : (fuel : Nat) → (items : List Node) → Read (List Node)
  | 0, _ => failure
  | fuel + 1, items => do
    match ← front with
    | .blockEntry =>
      let item ← (match ← next with
        | .blockEntry | .blockEnd => return Node.empty
        | _ => node fuel true false)
      blockItems fuel (item :: items)
    | .blockEnd =>
      scan Scan.take
      return items.reverse
    | _ => failure

/-- Reads the items of a list whose dashes stand at the column of a key. -/
def dashItems : (fuel : Nat) → (items : List Node) → Read (List Node)
  | 0, _ => failure
  | fuel + 1, items => do
    match ← front with
    | .blockEntry =>
      let item ← (match ← next with
        | .blockEntry | .key | .value | .blockEnd => return Node.empty
        | _ => node fuel true false)
      dashItems fuel (item :: items)
    | _ => return items.reverse

/-- Reads the fields of a record in a block, up to its end. -/
def blockFields : (fuel : Nat) → (fields : List (Node × Node)) → Read (List (Node × Node))
  | 0, _ => failure
  | fuel + 1, fields => do
    match ← front with
    | .key =>
      let key ← blockPart fuel
      let value ← (match ← front with
        | .value => blockPart fuel
        | _ => return Node.empty)
      blockFields fuel ((key, value) :: fields)
    | .blockEnd =>
      scan Scan.take
      return fields.reverse
    | _ => failure

/-- Reads a key or a value in a block after its sign. -/
def blockPart : (fuel : Nat) → Read Node
  | 0 => failure
  | fuel + 1 => do
    match ← next with
    | .key | .value | .blockEnd => return Node.empty
    | _ => node fuel true true

/-- Reads the items of a list in brackets, up to the closing one. -/
def flowItems : (fuel : Nat) → (first : Bool) → (items : List Node) → Read (List Node)
  | 0, _, _ => failure
  | fuel + 1, first, items => do
    let t ← (match ← front with
      | .flowSequenceEnd => return Token.flowSequenceEnd
      | .flowEntry => if first then return Token.flowEntry else next
      | t => if first then return t else failure)
    match t with
    | .flowSequenceEnd =>
      scan Scan.take
      return items.reverse
    | .key =>
      let item ← flowPair fuel
      flowItems fuel false (item :: items)
    | _ =>
      let item ← node fuel false false
      flowItems fuel false (item :: items)

/-- Reads a key and a value that are an item of a list in brackets. A sign that stands in the place
of the key is passed over. -/
def flowPair : (fuel : Nat) → Read Node
  | 0 => failure
  | fuel + 1 => do
    let key ← (match ← next with
      | .value | .flowEntry | .flowSequenceEnd => do
        scan Scan.take
        return Node.empty
      | _ => node fuel false false)
    let value ← (match ← front with
      | .value => do
        match ← next with
        | .flowEntry | .flowSequenceEnd => return Node.empty
        | _ => node fuel false false
      | _ => return Node.empty)
    return .record [(key, value)]

/-- Reads the fields of a record in braces, up to the closing one. -/
def flowFields : (fuel : Nat) → (first : Bool) → (fields : List (Node × Node)) →
    Read (List (Node × Node))
  | 0, _, _ => failure
  | fuel + 1, first, fields => do
    let t ← (match ← front with
      | .flowMappingEnd => return Token.flowMappingEnd
      | .flowEntry => if first then return Token.flowEntry else next
      | t => if first then return t else failure)
    match t with
    | .flowMappingEnd =>
      scan Scan.take
      return fields.reverse
    | .key =>
      let key ← (match ← next with
        | .value | .flowEntry | .flowMappingEnd => return Node.empty
        | _ => node fuel false false)
      let value ← (match ← front with
        | .value => do
          match ← next with
          | .flowEntry | .flowMappingEnd => return Node.empty
          | _ => node fuel false false
        | _ => return Node.empty)
      flowFields fuel false ((key, value) :: fields)
    | _ =>
      let key ← node fuel false false
      flowFields fuel false ((key, Node.empty) :: fields)

end

/-! ### Documents -/

/-- Reads the first document of a stream, if there is one. -/
def document (fuel : Nat) : Read (Option Node) := do
  match ← next with
  | .streamEnd => return none
  | .versionDirective .. | .tagDirective .. | .documentStart =>
    directives fuel false
    match ← front with
    | .documentStart =>
      let root ← (match ← next with
        | .versionDirective .. | .tagDirective .. | .documentStart | .documentEnd | .streamEnd =>
          return Node.empty
        | _ => node fuel true false)
      let _ ← front
      return some root
    | _ => failure
  | _ =>
    directives fuel false
    let root ← node fuel true false
    let _ ← front
    return some root

end Read

/-- Reads the first document of a text: `none` if it cannot be read, and `some none` if there is
none. -/
def read? (s : String) : Option (Option Document) := do
  let source := Source.ofText s
  let fuel := 8 * source.size + 64
  let (root, r) ← (do
    let _ ← Read.front
    Read.document fuel).run { scanner := { source } }
  return root.map fun root =>
    { root
      named := (List.range r.nameCount).map fun k => (r.named.lookup k).getD .empty }

end WorstCase.Yaml
