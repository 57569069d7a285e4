import WorstCase.Files.Path

/-!
# Trackers

A tracker remembers, for each input, what its problem was generated from: a digest of everything
that the problem depends on, and where the problem was written. Inputs are known by their clean
absolute paths. The entries stand in the order of their inputs, one for each input, so that two
trackers with the same entries are equal.
-/

namespace WorstCase

/-- What is remembered of one input. -/
structure TrackerEntry where
  input : String := ""
  digest : String := ""
  output : String := ""
  /-- When the problem was generated, in seconds since 1970. -/
  built : Int64 := 0
deriving DecidableEq, Repr, Inhabited

/-- A tracker. -/
structure Tracker where
  entries : List TrackerEntry := []
deriving DecidableEq, Repr, Inhabited

namespace Tracker

/-- Puts an entry in its place, instead of the one with the same input. -/
def insertEntry (e : TrackerEntry) : List TrackerEntry → List TrackerEntry
  | [] => [e]
  | x :: rest =>
    if e.input = x.input then e :: rest
    else if e.input < x.input then e :: x :: rest
    else x :: insertEntry e rest

/-- The entry of an input. -/
def find? (t : Tracker) (input : String) : Option TrackerEntry :=
  t.entries.find? fun e => e.input = input

/-- Remembers an entry. -/
def record (t : Tracker) (e : TrackerEntry) : Tracker :=
  { entries := insertEntry e t.entries }

/-- Drops an input. -/
def forget (t : Tracker) (input : String) : Tracker :=
  { entries := t.entries.filter fun e => e.input ≠ input }

/-- Drops all inputs but those to keep. -/
def prune (t : Tracker) (keep : List String) : Tracker :=
  { entries := t.entries.filter fun e => keep.contains e.input }

/-- The number of inputs. -/
def size (t : Tracker) : Nat := t.entries.length

/-- The inputs, in order. -/
def inputs (t : Tracker) : List String := t.entries.map (·.input)

/-- The tracker with these entries; of several for one input, the last one counts. -/
def ofEntries (entries : List TrackerEntry) : Tracker :=
  entries.foldl record {}

/-- What speaks for generating the problem of an input again. -/
inductive Freshness where
  /-- It was never generated, or from something else. -/
  | stale
  /-- Nothing, as long as the output is still there. -/
  | ifPresent (output : String)
  | fresh
deriving DecidableEq, Repr

/-- Whether the problem of an input is the one that a digest stands for. -/
def freshness (t : Tracker) (input digest : String) : Freshness :=
  match t.find? input with
  | none => .stale
  | some e =>
    if e.digest ≠ digest then .stale else if e.output = "" then .fresh else .ifPresent e.output

@[simp] theorem size_empty : ({} : Tracker).size = 0 := rfl

end Tracker

end WorstCase
