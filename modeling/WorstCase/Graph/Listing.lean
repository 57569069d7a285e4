import WorstCase.Graph.ReadError
import WorstCase.Text.Blank
import WorstCase.Text.Pieces

/-!
# Listings

A **listing** is the text of a flow graph: records that start with `BasicBlock`, a block
variable and a colon. The body of a record holds the cost of the block, its label, its declared
dominator and its branch instruction.

* The label is the word after `<label>:`, or else what stands before the colon on the second
  line.
* Exactly two variables hold `bd_`: the first is the start, the second the end.
* The successors are the blocks whose labels follow `label %` on the line of the first `br`.

Reading goes through the records twice: first for the variables and labels, which branches and
dominators refer to, then for the blocks and their edges, which cost nothing.
-/

namespace WorstCase

/-- One record of a listing. -/
structure Record where
  /-- The block variable. -/
  name : List Char
  label : List Char
  body : List Char
deriving DecidableEq, Repr

namespace Record

/-- What a record of a listing starts with. -/
def marker : List Char := "BasicBlock ".toList

/-- What the variables of the start and the end hold. -/
def dominantMark : List Char := "bd_".toList

/-- What the selector of the start holds instead. -/
def startMark : List Char := "bs_".toList

/-- The error in a listing with a fragment and a cause. -/
def error (fragment : List Char) (cause : ReadCause) : ReadError where
  kind := .listing
  fragment := String.ofList fragment
  cause := cause

/-- The label in the body of a record. -/
def labelOf? (body : List Char) : Option (List Char) :=
  let label :=
    match Text.cut? "<label>:".toList body with
    | some (_, rest) => (Text.words rest).head?.getD []
    | none =>
      match Text.cut? ['\n'] body with
      | some (_, rest) => Text.trim (rest.takeWhile (· ≠ ':'))
      | none => []
  if label.isEmpty then none else some label

/-- Reads the variable and the label of one record. -/
def read (text : List Char) : Except ReadError Record :=
  match Text.cut? [':'] text with
  | none => .error (error text (.malformed .missingColon))
  | some (before, body) =>
    let name := Text.trim before
    match uidOfVariable? name with
    | none => .error (error name (.badVariable (String.ofList name)))
    | some _ =>
      match labelOf? body with
      | none => .error (error text (.malformed .missingLabel))
      | some label => .ok { name, label, body }

/-- The records of a listing. -/
def readAll (text : List Char) : Except ReadError (List Record) :=
  ((Text.pieces marker (Text.trim text)).filter fun r => !Text.isBlankText r).mapM read

/-- The uid of a record. -/
def uid (r : Record) : Int :=
  (uidOfVariable? r.name).getD 0

/-- Whether the record is the start or the end. -/
def isDominant (r : Record) : Bool :=
  Text.occursIn dominantMark r.name

/-- The first record whose label or variable an earlier one has. -/
def repetition? (seen : List Record) : List Record → Option ReadError
  | [] => none
  | r :: rs =>
    if seen.any (·.label = r.label) then some (error r.label (.malformed .duplicateLabel))
    else if seen.any (·.name = r.name) then
      some (error r.name (.malformed .duplicateBlock))
    else repetition? (seen ++ [r]) rs

/-- The records of the start and the end. -/
def endpoints (records : List Record) : Except ReadError (Record × Record) :=
  match records.filter isDominant with
  | [start, stop] => .ok (start, stop)
  | found =>
    .error (error (", ".toList.intercalate (found.map (·.name)))
      (.malformed (.dominantBlocks found.length)))

/-- The selector of a block: the start, and the blocks `bd_0` and `bd_1`, have a selector in
start form. -/
def selector (r start : Record) : List Char :=
  let v :=
    if r.name = start.name then Text.replaceFirst dominantMark startMark r.name
    else r.name
  if v = dominantMark ++ ['0'] then startMark ++ ['0']
  else if v = dominantMark ++ ['1'] then startMark ++ ['1']
  else v

/-- The cost of a block: the first word of its body. -/
def cost (r : Record) : Except ReadError Int64 :=
  match Text.words r.body with
  | [] => .error (error r.name (.malformed .missingCost))
  | word :: _ =>
    match Decimal.readInt64? word with
    | some n => .ok (Int64.ofInt n)
    | none => .error (error word (.malformed .badCost))

/-- The uid of the declared dominator. -/
def dominator (records : List Record) (r : Record) : Except ReadError Int :=
  match Text.cut? "Dominator = ".toList r.body with
  | none => .error (error r.name (.malformed .missingDominator))
  | some (_, rest) =>
    let name := Text.trim (Text.firstLine rest)
    if name = "NULL".toList then .ok noDominator
    else
      match records.find? (·.name = name) with
      | some d => .ok d.uid
      | none => .error (error name .unknownBlock)

/-- The label that an operand of a branch names, if it names one. -/
def target? (operand : List Char) : Option (List Char) :=
  match Text.trim operand with
  | '%' :: c :: rest => some (Text.dropSuffix [','] (c :: rest))
  | _ => none

/-- The labels that the branch of a body names. -/
def targets (body : List Char) : List (List Char) :=
  match Text.cut? "br ".toList body with
  | some (_, rest) => (Text.pieces "label".toList (Text.firstLine rest)).filterMap target?
  | none => []

/-- The uids of the successors of a block. -/
def successors (records : List Record) (r : Record) : Except ReadError (List Int) :=
  (targets r.body).mapM fun label =>
    match records.find? (·.label = label) with
    | some d => .ok d.uid
    | none => .error (error label .unknownLabel)

/-- The block of a record, and the uids of its successors. -/
def block (records : List Record) (r start : Record) : Except ReadError (Block × List Int) := do
  let cost ← r.cost
  let dominator ← r.dominator records
  let block : Block :=
    { uid := r.uid
      label := String.ofList r.label
      selector := String.ofList (r.selector start)
      written := String.ofList r.name
      cost
      dominator }
  return (block, ← r.successors records)

end Record

namespace Graph

/-- Adds the blocks of records, and collects the edges out of them. -/
def addRecords (records : List Record) (start : Record) (g : Graph) :
    List Record → Except ReadError (Graph × List EdgeId)
  | [] => .ok (g, [])
  | r :: rs => do
    let (block, dsts) ← r.block records start
    match g.addBlock block with
    | .error e => .error (Record.error r.name (.malformed (.build e)))
    | .ok g =>
      let (g, edges) ← addRecords records start g rs
      return (g, dsts.map (fun dst => ⟨block.uid, dst⟩) ++ edges)

/-- Adds edges that cost nothing. -/
def addPlainEdges (g : Graph) : List EdgeId → Except ReadError Graph
  | [] => .ok g
  | id :: ids =>
    match g.addEdge { id } with
    | .error e => .error (Record.error id.text.toList (.malformed (.build e)))
    | .ok g => g.addPlainEdges ids

/-- Reads a listing. -/
def ofListing (text : String) : Except ReadError Graph := do
  let records ← Record.readAll text.toList
  if let some e := Record.repetition? [] records then throw e
  let (start, stop) ← Record.endpoints records
  let (g, edges) ← addRecords records start {} records
  let g ← g.addPlainEdges edges
  match g.setEndpoints start.uid stop.uid with
  | .ok g => return g
  | .error e =>
    throw (Record.error (start.name ++ ", ".toList ++ stop.name) (.malformed (.build e)))

end Graph

end WorstCase
