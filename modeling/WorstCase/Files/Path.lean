import WorstCase.Text.Pieces

/-!
# Paths

Paths are texts; slashes divide them into components. The operations are **lexical**: they look
at the text only, never at files. A clean path has no empty component, no component `.`, and
`..` only at its beginning; a clean absolute path has no `..` at all.
-/

namespace WorstCase.Path

/-! ### Components -/

/-- Whether a path starts at the root of the file system. -/
def isAbsolute (p : String) : Bool :=
  p.toList.head? = some '/'

/-- The components of a path, the empty ones included. -/
def components (p : String) : List String :=
  Text.split p "/"

/-- Puts a component on top of the components before it, last first. An absolute path stays at
the root where it would go above it. -/
def push (absolute : Bool) (stack : List String) (c : String) : List String :=
  if c = "" ∨ c = "." then stack
  else if c = ".." then
    match stack with
    | [] => if absolute then [] else [".."]
    | top :: rest => if top = ".." then ".." :: stack else rest
  else c :: stack

/-- The components of a path once it is clean. -/
def cleanComponents (p : String) : List String :=
  ((components p).foldl (push (isAbsolute p)) []).reverse

/-- The path with these components. -/
def ofComponents (absolute : Bool) (cs : List String) : String :=
  let body := Text.joinWith "/" cs
  if absolute then "/" ++ body else if cs.isEmpty then "." else body

/-- A path in its clean form. -/
def clean (p : String) : String :=
  ofComponents (isAbsolute p) (cleanComponents p)

/-- The clean path made of parts, of which the empty ones are left out. -/
def join (parts : List String) : String :=
  match parts.filter (· ≠ "") with
  | [] => ""
  | parts => clean (Text.joinWith "/" parts)

/-- The clean absolute path of `p`, seen from the directory `here`. -/
def absolute (here p : String) : String :=
  if isAbsolute p then clean p else join [here, p]

/-! ### Names -/

/-- What stands before and after the last slash; the first part keeps it. -/
def splitLast (p : String) : String × String :=
  let name := (p.toList.reverse.takeWhile (· ≠ '/')).reverse
  (String.ofList (p.toList.take (p.length - name.length)), String.ofList name)

/-- The last component of a path. -/
def base (p : String) : String :=
  if p = "" then "."
  else
    let body := (p.toList.reverse.dropWhile (· = '/')).reverse
    if body.isEmpty then "/" else (splitLast (String.ofList body)).2

/-- The clean path of the directory that a path is in. -/
def directory (p : String) : String :=
  clean (splitLast p).1

/-- The end of a path from the last dot of its last component on. -/
def extension (p : String) : String :=
  let name := (splitLast p).2.toList
  match Text.cutLast? ['.'] name with
  | some (_, after) => String.ofList ('.' :: after)
  | none => ""

/-- A path without its extension. -/
def dropExtension (p : String) : String :=
  String.ofList (p.toList.take (p.length - (extension p).length))

/-- The text of the path of the parent directory, if there is one below the root: the path
without slashes at its end, without its last component, and without one more slash. -/
def parentText? (p : String) : Option String :=
  let body := p.toList.reverse.dropWhile (· = '/')
  match body.dropWhile (· ≠ '/') with
  | _ :: rest => if rest.isEmpty then none else some (String.ofList rest.reverse)
  | [] => none

end WorstCase.Path
