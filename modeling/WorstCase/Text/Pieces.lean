/-!
# Searching, cutting and comparing texts

The operations by which line-oriented formats are taken apart: the first occurrence of a
separator, the two sides of it, and all the pieces between separators. Every operation scans
its text once, from the left; separators never overlap.

The **distance** of two texts is the number of elements that must be put in, taken out or exchanged
to turn one into the other. The distances from one list to all beginnings of another form a row,
and a row follows from the one before.
-/

namespace WorstCase.Text

/-! ### Occurrences -/

/-- The position of the first occurrence of `sep`, counting from `n`. -/
def positionFrom (sep : List Char) (n : Nat) : List Char → Option Nat
  | [] => if sep.isEmpty then some n else none
  | c :: s => if sep.isPrefixOf (c :: s) then some n else positionFrom sep (n + 1) s

/-- The number of characters before the first occurrence of `sep`. -/
def position? (sep s : List Char) : Option Nat :=
  positionFrom sep 0 s

/-- Whether `sep` occurs in a text. -/
def occursIn (sep s : List Char) : Bool :=
  (position? sep s).isSome

/-- What stands before and after the first occurrence of `sep`. -/
def cut? (sep s : List Char) : Option (List Char × List Char) :=
  (position? sep s).map fun n => (s.take n, s.drop (n + sep.length))

/-- What stands before and after the last occurrence of `sep`. -/
def cutLast? (sep s : List Char) : Option (List Char × List Char) :=
  (cut? sep.reverse s.reverse).map fun (after, before) => (before.reverse, after.reverse)

/-- The text up to its first line break. -/
def firstLine (s : List Char) : List Char :=
  s.takeWhile (· ≠ '\n')

/-! ### Pieces -/

/-- The pieces of a text, where `piece` holds the characters (last first) of the piece that is
being read and `skip` counts the characters of a separator that are still to be passed over. -/
def piecesFrom (sep : List Char) (skip : Nat) (piece : List Char) : List Char → List (List Char)
  | [] => [piece.reverse]
  | c :: s =>
    match skip with
    | k + 1 => piecesFrom sep k piece s
    | 0 =>
      if sep.isPrefixOf (c :: s) then piece.reverse :: piecesFrom sep (sep.length - 1) [] s
      else piecesFrom sep 0 (c :: piece) s

/-- The pieces of a text between the occurrences of the non-empty separator `sep`. A text
without the separator is one piece. -/
def pieces (sep s : List Char) : List (List Char) :=
  piecesFrom sep 0 [] s

/-- Texts joined by a separator. -/
def joinWith (sep : String) (parts : List String) : String :=
  sep.intercalate parts

/-- A text with the first occurrence of `old` replaced by `new`. -/
def replaceFirst (old new s : List Char) : List Char :=
  match cut? old s with
  | some (before, after) => before ++ new ++ after
  | none => s

/-- A text without a given beginning, if it has it. -/
def dropPrefix (start s : List Char) : List Char :=
  if start.isPrefixOf s then s.drop start.length else s

/-- A text without a given ending, if it has it. -/
def dropSuffix (ending s : List Char) : List Char :=
  if ending.isSuffixOf s then s.take (s.length - ending.length) else s

/-! ### The same on strings -/

/-- Whether `sep` occurs in `s`. -/
def contains (s sep : String) : Bool :=
  occursIn sep.toList s.toList

/-- The pieces of `s` between the occurrences of `sep`. -/
def split (s sep : String) : List String :=
  (pieces sep.toList s.toList).map String.ofList

/-! ### Edit distance -/

/-- The rest of a row for a list that goes on with `c`, given the distances to the left and above
to the left, the elements of the other list and the rest of the row before. -/
def rowFrom {α : Type} [DecidableEq α] (c : α) (left diagonal : Nat) : List α → List Nat → List Nat
  | t :: ts, up :: ups =>
    let here := if c = t then diagonal else 1 + min (min up left) diagonal
    here :: rowFrom c here up ts ups
  | _, _ => []

/-- The row for a list of length `n` that goes on with `c`. -/
def nextRow {α : Type} [DecidableEq α] (other : List α) (n : Nat) (row : List Nat) (c : α) :
    List Nat :=
  match row with
  | [] => []
  | diagonal :: ups => (n + 1) :: rowFrom c (n + 1) diagonal other ups

/-- The number of changes that turn one list into the other. -/
def distance {α : Type} [DecidableEq α] (s t : List α) : Nat :=
  let (_, row) := s.foldl (fun (n, row) c => (n + 1, nextRow t n row c))
    (0, List.range (t.length + 1))
  row.getLast?.getD 0

end WorstCase.Text
