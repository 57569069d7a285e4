import WorstCase.Ascending
import WorstCase.Data.Json.Write
import WorstCase.Files.Script
import WorstCase.Text.Blank
import WorstCase.Text.LetterCase
import WorstCase.Text.Pieces
import WorstCase.Text.Quoted

/-!
# Logging

A record is a message with arguments, which are read as pairs of a name and a value. A record is
written as one line of text, or as a JSON object whose keys are in order.

* Records are logged at one of four **levels**, from details for debugging to errors. A logger
  drops the records below its threshold; a threshold is any number, so that it can let everything
  or nothing through.
* With an odd number of arguments, the first one is a value of its own, named `arg`.
* A pair whose name is not a text is dropped.
* In JSON, a name that is taken gets the prefix `field.`.
* A script logs a record by asking for the time and writing to the channel for errors.
-/

/-! ### Levels -/

namespace WorstCase.Log

/-- The level of a record. -/
inductive Level where
  | debug
  | info
  | warn
  | error
deriving DecidableEq, Repr, Inhabited

namespace Level

/-- The place of a level in their order. -/
def rank : Level → Int
  | debug => 0
  | info => 1
  | warn => 2
  | error => 3

/-- The name of a level. -/
def name : Level → String
  | debug => "DEBUG"
  | info => "INFO"
  | warn => "WARN"
  | error => "ERROR"

/-- All levels. -/
def all : List Level := [debug, info, warn, error]

/-- The level at a place in their order. -/
def ofRank? (n : Int) : Option Level :=
  all.find? fun l => l.rank = n

/-- The name of a threshold. -/
def rankName (n : Int) : String :=
  match ofRank? n with
  | some l => l.name
  | none => "UNKNOWN"

/-- The level that a user names, in any letter case; no name means information. -/
def parse? (s : String) : Option Level :=
  match Text.upper (Text.trimmed s) with
  | "DEBUG" => some debug
  | "INFO" | "" => some info
  | "WARN" | "WARNING" => some warn
  | "ERROR" => some error
  | _ => none

/-- What is said about a name that is no level. -/
def unknownMessage (s : String) : String :=
  "unknown log level " ++ Text.quoted s

end Level

/-! ### Records -/

/-- An argument of a record. -/
inductive Value where
  | null
  | bool (value : Bool)
  | int (value : Int)
  /-- A number that is not a number. -/
  | nan
  | text (value : String)
  /-- A value that is shown by a text but is not a text itself. -/
  | shown (text : String)
  | list (items : List Value)
deriving Repr, Inhabited

namespace Value

/-- How a value is shown. -/
def display : Value → String
  | null => "<nil>"
  | bool b => if b then "true" else "false"
  | int n => Decimal.text n
  | nan => "NaN"
  | text s => s
  | shown s => s
  | list items => "[" ++ Text.joinWith " " (items.map display) ++ "]"

/-- A value in JSON. There is no JSON for what is not a number. -/
def tree? : Value → Option Datum
  | null => some .null
  | bool b => some (.bool b)
  | int n => some (.int n)
  | nan => none
  | text s => some (.text s)
  | v => some (.text v.display)

end Value

/-- A log record. -/
structure Record where
  level : Level
  message : String
  args : List Value := []

/-- The pairs of names and values among arguments of even number. -/
def pairs : List Value → List (String × Value)
  | .text name :: value :: rest => (name, value) :: pairs rest
  | _ :: _ :: rest => pairs rest
  | _ => []

/-- The named values of arguments. -/
def named (args : List Value) : List (String × Value) :=
  match args with
  | [] => []
  | first :: rest => if args.length % 2 = 0 then pairs args else ("arg", first) :: pairs rest

/-! ### Text -/

/-- A named value in text. The name `arg` is not shown in front of the first value. -/
def pairText (isFirst : Bool) (name : String) (value : Value) : String :=
  " " ++ (if name = "arg" && isFirst then "" else name ++ "=") ++ value.display

/-- The message of a record with its named values. -/
def Record.text (r : Record) : String :=
  match named r.args with
  | [] => r.message
  | (name, value) :: rest =>
    r.message ++ pairText true name value ++
      String.join (rest.map fun (name, value) => pairText false name value)

/-- A record as a line of text. -/
def Record.textLine (r : Record) (time : String) : String :=
  "[" ++ time ++ "] " ++ r.level.name ++ ": " ++ r.text ++ "\n"

/-! ### JSON -/

/-- A list of fields with a field put in the place of the one of its name, or at the end. -/
def putField (fields : List (String × Value)) (name : String) (value : Value) :
    List (String × Value) :=
  if fields.any (·.1 = name) then
    fields.map fun (n, v) => if n = name then (n, value) else (n, v)
  else fields ++ [(name, value)]

/-- The fields of a record. -/
def Record.fields (r : Record) (time : String) : List (String × Value) :=
  (named r.args).foldl
    (fun fields (name, value) =>
      putField fields (if fields.any (·.1 = name) then "field." ++ name else name) value)
    [("timestamp", .text time), ("level", .text r.level.name), ("message", .text r.message)]

/-- Fields as a JSON object with its keys in order. -/
def sortedObject (fields : List (String × Datum)) : String :=
  Json.compact (.record (sortBy (fun a b => decide (a.1 ≤ b.1)) fields))

/-- A record as a line of JSON. If a value has no JSON, the line says so instead. -/
def Record.jsonLine (r : Record) (time : String) : String :=
  let fields? := (r.fields time).mapM fun (name, value) => value.tree?.map fun t => (name, t)
  sortedObject (fields?.getD
    [("level", .text r.level.name), ("message", .text r.message),
      ("error", .text "json: unsupported value: NaN")]) ++ "\n"

/-! ### Loggers -/

/-- What a logger lets through, and how it writes it. -/
structure Logger where
  threshold : Int := Level.info.rank
  json : Bool := false
deriving Repr, Inhabited

/-- What a logger writes for a record at a time: nothing, if the record is below the
threshold. -/
def Logger.write (l : Logger) (time : String) (r : Record) : String :=
  if r.level.rank < l.threshold then ""
  else if l.json then r.jsonLine time
  else r.textLine time

/-! ### Logging from scripts -/

/-- Logs a record, if there is a logger. -/
def say {σ : Type} (logger : Option Logger) (r : Record) : Script σ Unit :=
  match logger with
  | none => return ()
  | some l => do
    let line := l.write (← Script.time).text r
    if line = "" then return () else Script.print .errors line

/-- Logs a message with named values. -/
def sayAt {σ : Type} (logger : Option Logger) (level : Level) (message : String)
    (fields : List (String × Value)) : Script σ Unit :=
  say logger { level, message, args := fields.flatMap fun (name, value) => [.text name, value] }

end WorstCase.Log
