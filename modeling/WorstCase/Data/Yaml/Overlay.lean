import WorstCase.Data.Tree
import WorstCase.Data.Yaml.Read

/-!
# Laying YAML over values

How a document is laid over a value. Texts take scalars as they are written, numbers and truth
values take what scalars stand for; nothing leaves a value as it is, drops out of a list, and makes
a list absent. Lists replace all that was there.

The keys of a record differ, and those that are unknown are skipped with their values. The value of
the key `<<` is a record, or a list of records, whose fields count where the record has none of the
same name; of several such records the first one counts.
-/

namespace WorstCase.Yaml

/-- A node in its document. -/
structure Spot where
  node : Node
  /-- The named nodes of the document. -/
  named : Array Node
  /-- The numbers of the aliases that led here. -/
  via : List Nat := []
  /-- A bound on the number of records that are merged into each other. -/
  depth : Nat

namespace Spot

/-- Another node of the same document. -/
def withNode (s : Spot) (node : Node) : Spot := { s with node }

/-- The spot that an alias stands for; any other one stands for itself. An alias that leads to
itself is an error. -/
def follow (s : Spot) : Option Spot :=
  match s.node with
  | .alias number _ target =>
    if s.via.contains number then none
    else
      s.named[target]?.map fun node => { s with node, via := number :: s.via }
  | _ => some s

/-- What a scalar at a spot stands for. -/
def scalar? (s : Spot) : Option Scalar :=
  match s.node with
  | .scalar tag text => resolveAs tag text
  | _ => none

/-! ### Scalars -/

/-- The text of a spot, or `none` inside if it stands for nothing. -/
def text? (s : Spot) : Option (Option String) := do
  let s ← s.follow
  match s.node with
  | .scalar tag text =>
    match ← resolveAs tag text with
    | .null => return none
    | .text value => return some value
    | _ => return some text
  | _ => none

/-- A text laid over another. -/
def overText (old : String) (s : Spot) : Option String :=
  s.text?.map (·.getD old)

/-- The largest float that an integer is made of. -/
def largest : Float := Float.ofScientific 0x8000000000000000 false 0

/-- A 64-bit integer laid over another. A float loses its fraction. -/
def overInt (old : Int64) (s : Spot) : Option Int64 := do
  match ← (← s.follow).scalar? with
  | .null => return old
  | .int n => if Decimal.fits64 n then some (Int64.ofInt n) else none
  | .float f => if f ≤ largest then some (truncate f) else none
  | _ => none

/-- A truth value laid over another. The old spellings count, also between quotes. -/
def overBool (old : Bool) (s : Spot) : Option Bool := do
  match ← (← s.follow).scalar? with
  | .null => return old
  | .bool b => return b
  | .text value => oldBool? value
  | _ => none

/-- Whether a spot stands for nothing. -/
def isNull (s : Spot) : Option Bool := do
  let s ← s.follow
  match s.node with
  | .scalar tag text =>
    match ← resolveAs tag text with
    | .null => return true
    | _ => return false
  | _ => return false

/-! ### Lists -/

/-- A list laid over another: it replaces all of it, and items that stand for nothing are left
out. -/
def overList {α : Type} (blank : α) (lay : α → Spot → Option α) (_ : Shelf α) (s : Spot) :
    Option (Shelf α) := do
  let s ← s.follow
  match s.node with
  | .list items =>
    let spots ← (items.map s.withNode).filterM fun x => return !(← x.isNull)
    return { items := some (← spots.mapM (lay blank)) }
  | _ => if ← s.isNull then return {} else none

/-! ### Records -/

/-- What is known while records are laid over a value. -/
structure Layer (α : Type) where
  value : α
  /-- The names of the fields that have been met, where records are merged. -/
  met : Option (List String)
  /-- The names of the known fields of this record that have been met. -/
  done : List String := []

/-- A field laid over a value. -/
def layField {α : Type} (names : List String) (lay : α → String → Spot → Option α) (s : Spot)
    (l : Layer α) (field : Node × Node) : Option (Layer α) := do
  if field.1.isMerge then return l
  match ← (s.withNode field.1).text? with
  | none => return l
  | some name =>
    if l.met.any (·.contains name) then return l
    let l := { l with met := l.met.map (name :: ·) }
    if !names.contains name then return l
    if l.done.contains name then none
    return { l with value := ← lay l.value name (s.withNode field.2), done := name :: l.done }

/-- The names among the keys of a record. -/
def keyNames (s : Spot) (fields : List (Node × Node)) : List String :=
  fields.filterMap fun field => (s.withNode field.1).text?.join

/-- The records that are merged into a record. -/
def mergedSpots (s : Spot) : Node → Option (List Spot)
  | .list items => items.mapM fun x => record? (s.withNode x)
  | x => (record? (s.withNode x)).map ([·])
where
  /-- A spot that is a record, or an alias of one. -/
  record? (s : Spot) : Option Spot := do
    match s.node with
    | .record _ => return s
    | .alias _ _ target =>
      match s.named[target]? with
      | some (.record _) => return s
      | _ => none
    | _ => none

/-- A record laid over a value, with those that are merged into it. -/
def layRecord {α : Type} (names : List String) (lay : α → String → Spot → Option α) :
    (depth : Nat) → Spot → Layer α → Option (Layer α)
  | 0, _, _ => none
  | depth + 1, s, l => do
    let s ← s.follow
    match s.node with
    | .record fields =>
      if !Node.distinctKeys fields then none
      let l ← fields.foldlM (layField names lay s) { l with done := [] }
      match (fields.filter (·.1.isMerge)).getLast? with
      | none => return l
      | some (_, merged) =>
        let start := { l with met := some (l.met.getD (keyNames s fields)) }
        let last ← (← mergedSpots s merged).foldlM (fun l x => layRecord names lay depth x l) start
        return { l with value := last.value, met := l.met.bind fun _ => last.met }
    | _ => if ← s.isNull then return l else none

/-- A record laid over a value. -/
def overRecord {α : Type} (names : List String) (lay : α → String → Spot → Option α) (old : α)
    (s : Spot) : Option α :=
  (layRecord names lay s.depth s ⟨old, none, []⟩).map (·.value)

instance : Overlay Spot where
  overText := overText
  overInt := overInt
  overBool := overBool
  overList := overList
  overRecord := overRecord

end Spot

/-- The root of a document. -/
def Document.spot (d : Document) (size : Nat) : Spot :=
  { node := d.root, named := d.named.toArray, depth := size }

/-- The root of the first document of a text: `none` if it cannot be read, and `some none` if there
is none. -/
def spot? (s : String) : Option (Option Spot) :=
  (read? s).map (·.map fun d => d.spot (s.length + 2))

end WorstCase.Yaml
