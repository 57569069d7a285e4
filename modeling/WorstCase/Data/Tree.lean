import WorstCase.Text.Decimal
import WorstCase.Text.LetterCase

/-!
# Data trees

The data that reports, logs and settings are made of, before a format is chosen: nothing, truth
values, numbers, texts, lists and records. The fields of a record keep their order.

Data read from a file is **laid over** a value: what the data mentions replaces what is there, and
what it does not mention stays. Formats differ in which data fits which kind of value, so each
format says it once, for texts, integers, truth values, lists and records.

A file may give the same list twice. The items of the second one are read into the items that are
already there, so an item that leaves something out keeps it. A **shelf** is a list in that role.
It may be absent, and it remembers the items that an earlier, longer list left behind, because a
later list may reach their places again.

For data trees, nothing leaves a value as it is but makes a list absent; the items of a list are
laid over the items at the same places, including places that an earlier, longer list had; the
names of fields match up to letter case, the last of several fields of one name counts, and fields
with unknown names are skipped.
-/

namespace WorstCase

/-- A data tree. -/
inductive Datum where
  | null
  | bool (value : Bool)
  | int (value : Int)
  /-- A number that is not written as an integer, by its text. -/
  | number (literal : String)
  | text (value : String)
  | list (items : List Datum)
  | record (fields : List (String × Datum))
deriving Repr, Inhabited

/-- A list that may be absent. -/
def Datum.ofList? (absent : Datum) : Option (List Datum) → Datum
  | some items => .list items
  | none => absent

/-! ### Lists that are read more than once -/

/-- A list that others are read into. -/
structure Shelf (α : Type) where
  items : Option (List α) := none
  /-- The items at the places after the end of the list. -/
  behind : List α := []
deriving DecidableEq, Repr, Inhabited

namespace Shelf

/-- All places of a shelf, in order. -/
def places {α : Type} (s : Shelf α) : List α :=
  s.items.getD [] ++ s.behind

/-- A shelf with a new list at its front; the places after it stay. -/
def put {α : Type} (s : Shelf α) (items : List α) : Shelf α :=
  ⟨some items, s.places.drop items.length⟩

/-- Data laid over the items at the same places; where there is none, over `blank`. -/
def lay {α δ : Type} (blank : α) (merge : α → δ → Option α) : List α → List δ → Option (List α)
  | _, [] => some []
  | old, x :: xs => do
    let y ← merge (old.head?.getD blank) x
    return y :: (← lay blank merge (old.drop 1) xs)

/-- A shelf after a list of data is laid over it. -/
def layOver {α δ : Type} (blank : α) (merge : α → δ → Option α) (s : Shelf α) (data : List δ) :
    Option (Shelf α) :=
  (lay blank merge s.places data).map s.put

@[simp] theorem items_put {α : Type} (s : Shelf α) (items : List α) :
    (s.put items).items = some items := rfl

end Shelf

/-! ### Laying data over values -/

/-- Data that can be laid over values; `none` means that the data does not fit. -/
class Overlay (δ : Type) where
  overText : String → δ → Option String
  overInt : Int64 → δ → Option Int64
  overBool : Bool → δ → Option Bool
  /-- A list laid over another one, given what a new item is laid over. -/
  overList {α : Type} (blank : α) (lay : α → δ → Option α) : Shelf α → δ → Option (Shelf α)
  /-- A record laid over a value, given the names of its fields. -/
  overRecord {α : Type} (names : List String) (lay : α → String → δ → Option α) : α → δ → Option α

namespace Datum

/-- A text laid over another. -/
def overText (old : String) : Datum → Option String
  | .null => some old
  | .text s => some s
  | _ => none

/-- A 64-bit integer laid over another. -/
def overInt (old : Int64) : Datum → Option Int64
  | .null => some old
  | .int n => if Decimal.fits64 n then some (Int64.ofInt n) else none
  | _ => none

/-- A truth value laid over another. -/
def overBool (old : Bool) : Datum → Option Bool
  | .null => some old
  | .bool b => some b
  | _ => none

/-- A list laid over another. An empty list leaves nothing behind. -/
def overList {α : Type} (blank : α) (lay : α → Datum → Option α) (old : Shelf α) :
    Datum → Option (Shelf α)
  | .null => some {}
  | .list [] => some ⟨some [], []⟩
  | .list items => old.layOver blank lay items
  | _ => none

/-- A record laid over a value, field by field. -/
def overRecord {α : Type} (names : List String) (lay : α → String → Datum → Option α) (old : α) :
    Datum → Option α
  | .null => some old
  | .record fields =>
    fields.foldlM (fun a (key, x) =>
      match names.find? fun name => Text.foldCase name = Text.foldCase key with
      | some name => lay a name x
      | none => some a) old
  | _ => none

instance : Overlay Datum where
  overText := overText
  overInt := overInt
  overBool := overBool
  overList := overList
  overRecord := overRecord

end Datum

end WorstCase
