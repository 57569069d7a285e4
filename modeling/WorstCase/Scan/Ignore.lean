import WorstCase.Files.Path
import WorstCase.Scan.Glob
import WorstCase.Text.Blank
import WorstCase.Text.Lines
import WorstCase.Text.Quoted

/-!
# Ignore files

An ignore file lists patterns of paths that a scan leaves out, one per line. Empty lines and
lines that begin with `#` say nothing.

* A pattern with `!` in front takes paths in again.
* A pattern with a slash at its end matches directories only.
* A pattern with another slash is meant from the directory of the ignore file on; any other
  pattern matches at every depth below it.

Of the patterns that match a path, the last one decides.
-/

namespace WorstCase.Scan

/-- A pattern of an ignore file. -/
structure IgnorePattern where
  /-- The glob that is matched against paths from the root of the scan. -/
  glob : String
  /-- Whether the pattern takes paths in again. -/
  negated : Bool
  directoriesOnly : Bool
deriving DecidableEq, Repr

/-- Why an ignore file is not used. -/
inductive IgnoreError where
  /-- A line is no pattern. -/
  | pattern (line : String)
  /-- A line is too long. -/
  | tooLong
deriving DecidableEq, Repr

/-- The wording of an error. -/
def IgnoreError.message : IgnoreError → String
  | pattern line => "invalid ignore pattern " ++ Text.quoted line
  | tooLong => Text.Lines.tooLongMessage

namespace IgnorePattern

/-- The pattern on a line of the ignore file in the directory `base`, which is given from the root
of the scan on and is empty for the root itself. -/
def parse (line base : String) : Except IgnoreError IgnorePattern :=
  let text := line.toList
  let negated := text.head? = some '!'
  let text := Text.dropPrefix ['!'] text
  let directoriesOnly := text.getLast? = some '/'
  let text := Text.dropSuffix ['/'] text
  let anchored := text.contains '/'
  let text := Text.dropPrefix ['/'] text
  let glob := (if anchored then "" else "**/") ++ String.ofList text
  let glob := if base = "" then glob else Path.join [base, glob]
  if Glob.isValid glob then .ok { glob, negated, directoriesOnly } else .error (.pattern line)

/-- Whether a pattern matches a path from the root of the scan on. The path of a directory ends
with a slash. -/
def isMatch (p : IgnorePattern) (path : String) : Bool :=
  let text := path.toList
  (!p.directoriesOnly || text.getLast? = some '/') &&
    Glob.isMatch p.glob (String.ofList (Text.dropSuffix ['/'] text))

end IgnorePattern

/-- Whether a path is ignored. -/
def ignores (patterns : List IgnorePattern) (path : String) : Bool :=
  patterns.foldl (fun ignored p => if p.isMatch path then !p.negated else ignored) false

/-- The patterns of lines. -/
def ignoreLines (base : String) : List (List Char) → Except IgnoreError (List IgnorePattern)
  | [] => .ok []
  | line :: lines => do
    let text := Text.trim line
    if text.isEmpty || text.head? = some '#' then ignoreLines base lines
    else
      let p ← IgnorePattern.parse (String.ofList text) base
      return p :: (← ignoreLines base lines)

/-- The patterns of an ignore file in the directory `base`. -/
def ignorePatterns (contents base : String) : Except IgnoreError (List IgnorePattern) := do
  let lines := Text.Lines.read contents.toList
  let patterns ← ignoreLines base lines.lines
  if lines.tooLong then .error .tooLong else return patterns

end WorstCase.Scan
