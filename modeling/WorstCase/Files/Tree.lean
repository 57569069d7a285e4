import WorstCase.Ascending
import WorstCase.Files.Error
import WorstCase.Files.Path

/-!
# File trees

A file tree is a list of what is at which path, a path being the list of its components from the
root on. Regular files have contents, links have a target, and directories are entries of their
own. The operations find their way through links, as a file system does:

* a relative path or target starts at the directory where it is looked at;
* a file is written through links, so that it is created where a dangling link points to;
* the directories on the way to a file must be there.
-/

namespace WorstCase

/-- What is at a path. -/
inductive FileEntry where
  | file (contents : ByteArray)
  | directory
  | link (target : String)

/-- What kind of thing is at a path, as a listing shows it. -/
inductive FileKind where
  | file (size : Nat)
  | directory
  | other
deriving DecidableEq, Repr

/-- The kind of an entry. -/
def FileEntry.kind : FileEntry → FileKind
  | .file contents => .file contents.size
  | .directory => .directory
  | .link _ => .other

/-- A file tree. -/
structure Files where
  entries : List (List String × FileEntry) := []

namespace Files

/-- What is at a path. The root is a directory. -/
def entry? (fs : Files) (place : List String) : Option FileEntry :=
  if place.isEmpty then some .directory else fs.entries.lookup place

/-- A tree in which something is put at a path. -/
def put (fs : Files) (place : List String) (e : FileEntry) : Files :=
  { entries := (place, e) :: fs.entries.filter (·.1 ≠ place) }

/-- A tree without what is at a path and below it. -/
def erase (fs : Files) (place : List String) : Files :=
  { entries := fs.entries.filter fun (p, _) => !place.isPrefixOf p }

/-! ### Finding the way -/

/-- Where a path leads: to an entry, or to a place in a directory where nothing is. -/
structure Location where
  place : List String
  entry : Option FileEntry

/-- What a path is followed for. -/
inductive Purpose where
  /-- To find what is there, through a link at the end. -/
  | look
  /-- To find what is there, be it a link. -/
  | inspect
  /-- To write a file, through a link at the end. -/
  | create
  /-- To make a directory. -/
  | makeDirectory
deriving DecidableEq, Repr

/-- The number of links that are followed on one way. -/
def maxLinks : Nat := 40

/-- The number of octets that a component may have. -/
def maxName : Nat := 255

/-- The number of octets that no path may reach. -/
def maxPath : Nat := 4096

/-- Whether a link with these components after it is not followed. A slash at the end asks for
what is behind the link, unless a directory is to be made there. -/
def Purpose.stopsAtLink (purpose : Purpose) (rest : List String) : Bool :=
  (rest.isEmpty && (purpose = .inspect || purpose = .makeDirectory)) ||
    (purpose = .makeDirectory && rest.all (· = ""))

/-- Follows components from the directory `here`. The name of a file to write has no slash at its
end. From a link on, the way is left to `follow`. -/
def walkWith (fs : Files) (purpose : Purpose)
    (follow : List String → List String → Except FileCause Location) (here : List String) :
    List String → Except FileCause Location
  | [] => .ok ⟨here, some .directory⟩
  | c :: rest =>
    if c = "" ∨ c = "." then fs.walkWith purpose follow here rest
    else if c = ".." then fs.walkWith purpose follow here.dropLast rest
    else
      let next := here ++ [c]
      let isLast := rest.all (· = "")
      if purpose = .create ∧ isLast ∧ !rest.isEmpty then .error .isDirectory
      else if maxName < c.length then .error .nameTooLong
      else
        match fs.entry? next with
        | none => if isLast then .ok ⟨next, none⟩ else .error .missing
        | some .directory => fs.walkWith purpose follow next rest
        | some (.file contents) =>
          if rest.isEmpty ∨ (isLast ∧ purpose = .makeDirectory) then
            .ok ⟨next, some (.file contents)⟩
          else .error .notDirectory
        | some (.link target) =>
          if purpose.stopsAtLink rest then .ok ⟨next, some (.link target)⟩
          else follow (if Path.isAbsolute target then [] else here) (Path.components target ++ rest)

/-- Follows components from the directory `here`, through so many links at most. -/
def walk (fs : Files) (purpose : Purpose) :
    (links : Nat) → (here todo : List String) → Except FileCause Location
  | 0 => fs.walkWith purpose fun _ _ => .error .tooManyLinks
  | links + 1 => fs.walkWith purpose (fs.walk purpose links)

/-- Where a path leads, seen from the directory `here`. -/
def locate (fs : Files) (purpose : Purpose) (here : List String) (path : String) :
    Except FileCause Location :=
  if path = "" then .error .missing
  else if path.toList.contains '\x00' then .error .invalid
  else if maxPath ≤ path.length then .error .nameTooLong
  else
    fs.walk purpose maxLinks (if Path.isAbsolute path then [] else here) (Path.components path)

/-- What a path leads to. -/
def find? (fs : Files) (here : List String) (path : String) : Option FileEntry :=
  match fs.locate .look here path with
  | .ok l => l.entry
  | .error _ => none

/-! ### Operations -/

/-- The contents of the file that a path leads to. -/
def read (fs : Files) (here : List String) (path : String) : Except FileError ByteArray :=
  match fs.locate .look here path with
  | .error cause => .error ⟨.openFile, path, cause⟩
  | .ok ⟨_, none⟩ => .error ⟨.openFile, path, .missing⟩
  | .ok ⟨_, some (.file contents)⟩ => .ok contents
  | .ok ⟨_, some _⟩ => .error ⟨.readFile, path, .isDirectory⟩

/-- The tree after contents are written to the file that a path leads to. -/
def write (fs : Files) (here : List String) (path : String) (contents : ByteArray) :
    Except FileError Files :=
  match fs.locate .create here path with
  | .error cause => .error ⟨.openFile, path, cause⟩
  | .ok ⟨_, some .directory⟩ => .error ⟨.openFile, path, .isDirectory⟩
  | .ok ⟨place, _⟩ => .ok (fs.put place (.file contents))

/-- The tree after a directory is made. -/
def makeDirectory (fs : Files) (here : List String) (path : String) : Except FileError Files :=
  match fs.locate .makeDirectory here path with
  | .error cause => .error ⟨.makeDirectory, path, cause⟩
  | .ok ⟨place, none⟩ => .ok (fs.put place .directory)
  | .ok ⟨_, some .directory⟩ => .ok fs
  | .ok ⟨_, some _⟩ => .error ⟨.makeDirectory, path, .occupied⟩

/-- Makes a directory together with those that it is in. What has been made stays if a later one
cannot be made. -/
def makeDirectories (fs : Files) (here : List String) :
    (fuel : Nat) → (path : String) → Files × Except FileError Unit
  | 0, _ => (fs, .ok ())
  | fuel + 1, path =>
    match fs.find? here path with
    | some .directory => (fs, .ok ())
    | some _ => (fs, .error ⟨.makeDirectory, path, .notDirectory⟩)
    | none =>
      let (fs, r) :=
        match Path.parentText? path with
        | some parent => fs.makeDirectories here fuel parent
        | none => (fs, .ok ())
      match r with
      | .error e => (fs, .error e)
      | .ok () =>
        match fs.makeDirectory here path with
        | .ok fs => (fs, .ok ())
        | .error e => (fs, .error e)

/-! ### Listing -/

/-- Whether a path comes before another one, component by component. -/
def pathLe : List String → List String → Bool
  | [], _ => true
  | _ :: _, [] => false
  | a :: as, b :: bs => if a = b then pathLe as bs else decide (a < b)

/-- Everything below a directory, by its path from there, in the order of a walk: a directory
comes before what is in it, and siblings are in the order of their names. Nothing is listed
where a path leads to no directory or to a link. -/
def listing (fs : Files) (here : List String) (path : String) : List (List String × FileKind) :=
  match fs.locate .inspect here path with
  | .ok ⟨place, some .directory⟩ =>
    sortBy (fun a b => pathLe a.1 b.1)
      ((fs.entries.filter fun (p, _) => place.isPrefixOf p && p ≠ place).map fun (p, e) =>
        (p.drop place.length, e.kind))
  | _ => []

end Files

end WorstCase
