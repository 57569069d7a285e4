import WorstCase.Settings.Assignments
import WorstCase.Settings.Basic

/-!
# Loading settings

Settings come from several places, each of which is laid over those before it: the defaults, the
file of the user, the file of the project, and the environment. A file of assignments next to the
project adds variables to the environment, except those that are set already. A file of settings
that does not exist changes nothing, unless the user asked for it.
-/

namespace WorstCase.Settings

/-- Why settings cannot be loaded or saved. -/
inductive Error where
  /-- The file that was asked for does not exist. -/
  | missing (cause : FileError)
  | readFile (path : String) (cause : FileError)
  /-- A file holds no settings. -/
  | malformed (path : String)
  /-- The file of assignments cannot be used. -/
  | assignments (path : String)
  /-- The value of a variable is no integer. -/
  | notInteger (name value : String)
  | invalid (cause : Invalid)
  | makeDirectory (directory : String) (cause : FileError)
  | writeFile (path : String) (cause : FileError)
deriving DecidableEq, Repr

/-- The wording of an error. -/
def Error.message : Error → String
  | missing cause => cause.message
  | readFile path cause => "failed to read config file " ++ path ++ ": " ++ cause.message
  | malformed path => "failed to parse config file " ++ path ++ ": yaml: malformed document"
  | assignments path => "failed to load " ++ path ++ ": malformed file"
  | notInteger name value => name ++ ": not an integer: " ++ Text.quoted value
  | invalid cause => cause.message
  | makeDirectory directory cause =>
    "failed to create directory " ++ directory ++ ": " ++ cause.message
  | writeFile path cause => "failed to write config file " ++ path ++ ": " ++ cause.message

/-! ### The environment -/

/-- The truth value of a variable. -/
def truth (value : String) : Bool :=
  ["true", "1", "yes", "on"].contains (Text.lower (Text.trimmed value))

/-- The integer of a variable: the one that its value begins with. -/
def integer? (value : String) : Option Int64 :=
  (Decimal.prefixInt64? (Text.trim value.toList)).map Int64.ofInt

/-- The items of a list between commas; empty ones are left out. -/
def items (value : String) : List String :=
  ((Text.split value ",").map Text.trimmed).filter (· ≠ "")

/-- Settings after a variable of this name, with a value that is not empty, is laid over them. -/
def overVariable (s : Settings) (name value : String) : Except Error Settings :=
  let number (set : Int64 → Settings) : Except Error Settings :=
    match integer? value with
    | some n => .ok (set n)
    | none => .error (.notInteger name value)
  match name with
  | "WCET_ENCODING" => number fun encoding => { s with encoding }
  | "WCET_TIMEOUT" => number fun timeout => { s with timeout }
  | "WCET_NO_SUMMARIES" => .ok { s with noSummaries := truth value }
  | "WCET_RECURSIVE_CUTS" => .ok { s with recursiveCuts := truth value }
  | "WCET_EDGE_IMPLIES_NODES" => .ok { s with edgeImpliesNodes := truth value }
  | "WCET_PRODUCE_MODELS" => .ok { s with produceModels := truth value }
  | "WCET_REPORT_FORMAT" => .ok { s with reportFormat := value }
  | "WCET_INCLUDE" => .ok { s with patterns := items value }
  | "WCET_CACHE_DIR" => .ok { s with cacheDirectory := value }
  | "WCET_VERBOSE" => .ok { s with verbose := truth value }
  | "WCET_LOG_JSON" => .ok { s with logJson := truth value }
  | _ => .ok s

/-- The names of the variables, in the order in which they are laid over settings. -/
def variableNames : List String :=
  ["WCET_ENCODING", "WCET_TIMEOUT", "WCET_NO_SUMMARIES", "WCET_RECURSIVE_CUTS",
    "WCET_EDGE_IMPLIES_NODES", "WCET_PRODUCE_MODELS", "WCET_REPORT_FORMAT", "WCET_INCLUDE",
    "WCET_CACHE_DIR", "WCET_VERBOSE", "WCET_LOG_JSON"]

/-- Settings after the environment is laid over them. An empty value says nothing. -/
def overEnvironment (s : Settings) (env : List (String × String)) : Except Error Settings :=
  variableNames.foldlM (fun s name =>
    match env.lookup name with
    | none | some "" => .ok s
    | some value => s.overVariable name value) s

/-- Settings that are valid. -/
def validated (s : Settings) : Except Error Settings :=
  match s.invalid? with
  | none => .ok s
  | some cause => .error (.invalid cause)

/-! ### Files -/

variable {σ : Type}

/-- The path of the settings of the project. -/
def projectPath : String := ".wcet/config.yaml"

/-- The path of the settings of the user. -/
def userPath (env : List (String × String)) : String :=
  match env.lookup "HOME" with
  | none | some "" => projectPath
  | some home => Path.join [home, ".wcet", "config.yaml"]

/-- Settings after a file is laid over them. -/
def overFile (s : Settings) (path : String) : Script σ (Except Error Settings) := do
  match ← Script.readFile path with
  | .error e =>
    return .error (if e.cause = .missing then .missing e else .readFile path e)
  | .ok bytes =>
    return match s.overYaml? (Text.ofBytes bytes) with
      | some s => .ok s
      | none => .error (.malformed path)

/-- Settings after a file is laid over them, if it exists. -/
def overOptionalFile (s : Settings) (path : String) : Script σ (Except Error Settings) := do
  match ← s.overFile path with
  | .error (.missing _) => return .ok s
  | r => return r

/-- The path of the file of assignments. -/
def assignmentsPath : String := ".env"

/-- A variable as the environment takes it: a value with a zero octet is refused, and the variable
then counts as empty. -/
def taken (pair : String × String) : String × String :=
  if pair.2.toList.contains '\x00' then (pair.1, "") else pair

/-- The environment with the variables of the file of assignments, if it exists. -/
def extendedEnvironment (env : List (String × String)) :
    Script σ (Except Error (List (String × String))) := do
  match ← Script.kindOf assignmentsPath with
  | none => return .ok env
  | some _ =>
    match ← Script.readFile assignmentsPath with
    | .error _ => return .error (.assignments assignmentsPath)
    | .ok bytes =>
      return match Assignments.parse? (Text.ofBytes bytes) with
        | some vars => .ok (env ++ vars.map taken)
        | none => .error (.assignments assignmentsPath)

/-- The settings of the environment over those of a file. -/
def finish (s : Settings) (env : List (String × String)) : Except Error Settings := do
  validated (← s.overEnvironment env)

/-- The settings in force where the user asks for no file. -/
def load : Script σ (Except Error Settings) := do
  let env ← Script.environmentVariables
  match ← ({} : Settings).overOptionalFile (userPath env) with
  | .error e => return .error e
  | .ok s =>
    match ← s.overOptionalFile projectPath with
    | .error e => return .error e
    | .ok s =>
      match ← extendedEnvironment env with
      | .error e => return .error e
      | .ok env => return s.finish env

/-- The settings in force where the user asks for a file. -/
def loadFile (path : String) : Script σ (Except Error Settings) := do
  match ← ({} : Settings).overFile path with
  | .error e => return .error e
  | .ok s => return s.finish (← Script.environmentVariables)

/-- Writes settings to a file. -/
def save (s : Settings) (path : String) : Script σ (Except Error Unit) := do
  let directory := Path.directory path
  match ← Script.makeDirs directory with
  | .error e => return .error (.makeDirectory directory e)
  | .ok () =>
    match ← Script.writeFile path (Text.toBytes s.yaml) with
    | .error e => return .error (.writeFile path e)
    | .ok () => return .ok ()

end WorstCase.Settings
