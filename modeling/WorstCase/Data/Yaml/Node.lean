import WorstCase.Data.Yaml.Scalar

/-!
# YAML documents

What a YAML document holds: scalars, lists and records. A scalar keeps its text beside its tag,
because what is made of it depends on where it is put: a text takes any scalar as it is written,
while a number or a truth value looks at its meaning. An alias stands for a node that is named
elsewhere in the document, perhaps for one that it is in, so the nodes with names are kept in a
list of their own.
-/

namespace WorstCase.Yaml

/-- A node of a document. -/
inductive Node where
  | scalar (tag text : String)
  | list (items : List Node)
  | record (fields : List (Node × Node))
  /-- The named node of a number. Every alias has a number of its own. -/
  | alias (number : Nat) (name : String) (target : Nat)
deriving Inhabited

/-- A document: its root, and the nodes with names in the order of their numbers. -/
structure Document where
  root : Node
  named : List Node

namespace Node

/-- What stands in front of the tags of this language. -/
def tagSpace : String := "tag:yaml.org,2002:"

/-- A tag in its short form. -/
def shortTag (tag : String) : String :=
  if tagSpace.toList.isPrefixOf tag.toList then
    "!!" ++ String.ofList (tag.toList.drop tagSpace.length)
  else tag

/-- The sign of a key whose value is merged into the record. -/
def mergeSign : String := "<<"

/-- A scalar with a tag, which may be missing. One that is not plain stands for its text. -/
def ofScalar (tag : Option String) (plain : Bool) (text : String) : Node :=
  match tag with
  | some tag => .scalar (shortTag tag) text
  | none =>
    .scalar (if !plain then "!!str" else if text = mergeSign then "!!merge" else (resolve text).tag)
      text

/-- A scalar with nothing written. -/
def empty : Node := ofScalar none true ""

/-- Whether a key asks for its value to be merged into the record. -/
def isMerge : Node → Bool
  | .scalar tag text => text = mergeSign && tag = "!!merge"
  | _ => false

/-- Whether two keys look the same. -/
def isSameKey : Node → Node → Bool
  | .scalar _ a, .scalar _ b => a = b
  | .list _, .list _ => true
  | .record _, .record _ => true
  | .alias _ a _, .alias _ b _ => a = b
  | _, _ => false

/-- Whether no two keys of a record look the same. -/
def distinctKeys : List (Node × Node) → Bool
  | [] => true
  | (k, _) :: rest => !(rest.any fun (l, _) => k.isSameKey l) && distinctKeys rest

end Node

end WorstCase.Yaml
