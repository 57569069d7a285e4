import WorstCase.Files.Tree
import WorstCase.Text.Octets

/-!
# Scripts

A script is a program that works with files, as data: each step names an operation and says how
to go on with its answer. What a script does is told by running it, either on a `World` (a file
tree in memory, with what surrounds it) or on the files of the machine. Scripts that share a
state of type `σ` look at it and update it in single steps, so that the steps of several scripts
can be interleaved.
-/

namespace WorstCase

/-- A moment: its date and time as text, and the seconds since 1970. -/
structure Moment where
  text : String
  seconds : Int64
deriving DecidableEq, Repr, Inhabited

/-- Where a program writes to. -/
inductive Channel where
  | output
  | errors
deriving DecidableEq, Repr

/-- A program that works with files and ends with a value. -/
inductive Script (σ α : Type) : Type where
  | done (value : α)
  /-- Reads a file. -/
  | read (path : String) (next : Except FileError ByteArray → Script σ α)
  /-- Writes a file, in the place of what it held. -/
  | write (path : String) (contents : ByteArray) (next : Except FileError Unit → Script σ α)
  /-- Makes a directory and those it is in. -/
  | makeDirectories (path : String) (next : Except FileError Unit → Script σ α)
  /-- Asks what a path leads to. -/
  | kind (path : String) (next : Option FileKind → Script σ α)
  /-- Lists what is below a directory. -/
  | listing (path : String) (next : List (List String × FileKind) → Script σ α)
  /-- Asks for the working directory. -/
  | here (next : String → Script σ α)
  /-- Asks for the environment variables. -/
  | environment (next : List (String × String) → Script σ α)
  /-- Asks for the time. -/
  | now (next : Moment → Script σ α)
  /-- Writes to a channel. -/
  | put (channel : Channel) (bytes : ByteArray) (next : Script σ α)
  /-- Looks at the state. -/
  | look (next : σ → Script σ α)
  /-- Updates the state. -/
  | update (f : σ → σ) (next : Script σ α)

namespace Script

variable {σ α β : Type}

/-- Goes on with another script. -/
def bind : Script σ α → (α → Script σ β) → Script σ β
  | done a, f => f a
  | read p k, f => read p fun r => (k r).bind f
  | write p c k, f => write p c fun r => (k r).bind f
  | makeDirectories p k, f => makeDirectories p fun r => (k r).bind f
  | kind p k, f => kind p fun r => (k r).bind f
  | listing p k, f => listing p fun r => (k r).bind f
  | here k, f => here fun r => (k r).bind f
  | environment k, f => environment fun r => (k r).bind f
  | now k, f => now fun r => (k r).bind f
  | put c b k, f => put c b (k.bind f)
  | look k, f => look fun r => (k r).bind f
  | update g k, f => update g (k.bind f)

instance : Monad (Script σ) where
  pure := done
  bind := bind

/-! ### Single steps -/

/-- Reads a file. -/
def readFile (path : String) : Script σ (Except FileError ByteArray) := read path done

/-- Writes a file. -/
def writeFile (path : String) (contents : ByteArray) : Script σ (Except FileError Unit) :=
  write path contents done

/-- Makes a directory and those it is in. -/
def makeDirs (path : String) : Script σ (Except FileError Unit) := makeDirectories path done

/-- What a path leads to. -/
def kindOf (path : String) : Script σ (Option FileKind) := kind path done

/-- Whether a path leads to a regular file. -/
def isFile (path : String) : Script σ Bool :=
  kind path fun k => done (match k with
    | some (.file _) => true
    | _ => false)

/-- What is below a directory. -/
def listOf (path : String) : Script σ (List (List String × FileKind)) := listing path done

/-- The working directory. -/
def workingDirectory : Script σ String := here done

/-- The environment variables. -/
def environmentVariables : Script σ (List (String × String)) := environment done

/-- The time. -/
def time : Script σ Moment := now done

/-- Writes bytes to a channel. -/
def emit (channel : Channel) (bytes : ByteArray) : Script σ Unit := put channel bytes (done ())

/-- Writes a text to a channel. -/
def print (channel : Channel) (s : String) : Script σ Unit := emit channel (Text.toBytes s)

/-- The state. -/
def state : Script σ σ := look done

/-- Changes the state. -/
def modify (f : σ → σ) : Script σ Unit := update f (done ())

end Script

/-! ### Running in memory -/

/-- A file tree with what surrounds it. -/
structure World where
  files : Files := {}
  /-- The working directory. -/
  here : List String := []
  environment : List (String × String) := []
  moment : Moment := ⟨"", 0⟩
  /-- What has been written to the channels. -/
  output : ByteArray := ByteArray.empty
  errors : ByteArray := ByteArray.empty

namespace World

/-- Adds to a channel. -/
def put (w : World) : Channel → ByteArray → World
  | .output, bytes => { w with output := w.output ++ bytes }
  | .errors, bytes => { w with errors := w.errors ++ bytes }

/-- Writes a file. -/
def write (w : World) (path : String) (contents : ByteArray) : Except FileError Unit × World :=
  match w.files.write w.here path contents with
  | .ok files => (.ok (), { w with files })
  | .error e => (.error e, w)

/-- Makes a directory and those it is in. -/
def makeDirectories (w : World) (path : String) : Except FileError Unit × World :=
  let (files, r) := w.files.makeDirectories w.here (path.length + 1) path
  (r, { w with files })

end World

/-- Runs a script in a world: its value, the state and the world that it leaves. -/
def Script.run {σ α : Type} : Script σ α → σ → World → α × σ × World
  | done a, s, w => (a, s, w)
  | read p k, s, w => (k (w.files.read w.here p)).run s w
  | write p c k, s, w =>
    let (r, w) := w.write p c
    (k r).run s w
  | makeDirectories p k, s, w =>
    let (r, w) := w.makeDirectories p
    (k r).run s w
  | kind p k, s, w => (k ((w.files.find? w.here p).map FileEntry.kind)).run s w
  | listing p k, s, w => (k (w.files.listing w.here p)).run s w
  | here k, s, w => (k (Path.ofComponents true w.here)).run s w
  | environment k, s, w => (k w.environment).run s w
  | now k, s, w => (k w.moment).run s w
  | put c b k, s, w => k.run s (w.put c b)
  | look k, s, w => (k s).run s w
  | update f k, s, w => k.run (f s) w

end WorstCase
