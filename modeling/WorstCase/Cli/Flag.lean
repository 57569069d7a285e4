import WorstCase.Text.Numeral
import WorstCase.Text.Pieces
import WorstCase.Text.Quoted

/-!
# Flags

The words of a command line are flags, values of flags and plain words.

* A long flag is `--name` or `--name=value`, a short one `-n`, `-nvalue` or `-n=value`. Several
  short flags can stand in one word as long as they need no value.
* A truth flag without a value is true. Other flags without a value take the next word.
* After the word `--` all words are plain.
* A flag that is given several times has its last value.
-/

namespace WorstCase.Cli

/-- What a flag is set to. -/
inductive FlagKind where
  | text
  | int
  | truth
deriving DecidableEq, Repr

/-- A flag that a command knows. -/
structure Flag where
  name : String
  short : Option Char := none
  kind : FlagKind := .text
deriving DecidableEq, Repr

/-- The value of a flag. -/
inductive FlagValue where
  | text (value : String)
  | int (value : Int64)
  | truth (value : Bool)
deriving DecidableEq, Repr

/-- Why words are not understood. -/
inductive FlagError where
  | malformed (word : String)
  | unknown (name : String)
  /-- No short flag has this letter, with which the rest of a word begins. -/
  | unknownShort (letter : Char) (rest : String)
  | needsValue (name : String)
  | needsValueShort (letter : Char) (rest : String)
  | badInt (flag : Flag) (value : String) (cause : Numeral.Error)
  | badTruth (flag : Flag) (value : String)
deriving DecidableEq, Repr

/-- A flag as messages name it. -/
def Flag.title (f : Flag) : String :=
  match f.short with
  | some letter => "-" ++ letter.toString ++ ", --" ++ f.name
  | none => "--" ++ f.name

/-- The letter that is shown for an octet: the first octet that spells it, which is itself only
among the first 128. -/
def shownLetter (letter : Char) : Char :=
  (Text.utf8 letter).headD letter

/-- The wording of an error. -/
def FlagError.message : FlagError → String
  | malformed word => "bad flag syntax: " ++ word
  | unknown name => "unknown flag: --" ++ name
  | unknownShort letter rest =>
    "unknown shorthand flag: " ++
      Text.quotedAlone (shownLetter letter) ++ " in -" ++ rest
  | needsValue name => "flag needs an argument: --" ++ name
  | needsValueShort letter rest =>
    "flag needs an argument: " ++ Text.quotedAlone letter ++ " in -" ++ rest
  | badInt flag value cause => invalid flag value "ParseInt" cause.message
  | badTruth flag value => invalid flag value "ParseBool" Numeral.Error.malformed.message
where
  /-- What is wrong with the value of a flag. -/
  invalid (flag : Flag) (value reader cause : String) : String :=
    "invalid argument " ++ Text.quoted value ++ " for " ++ Text.quoted flag.title ++
      " flag: strconv." ++ reader ++ ": parsing " ++ Text.quoted value ++ ": " ++ cause

/-! ### Values -/

/-- The truth value that a text stands for. -/
def truth? : String → Option Bool
  | "1" | "t" | "T" | "true" | "True" | "TRUE" => some true
  | "0" | "f" | "F" | "false" | "False" | "FALSE" => some false
  | _ => none

/-- The value of a flag from its text. -/
def Flag.value (f : Flag) (s : String) : Except FlagError FlagValue :=
  match f.kind with
  | .text => .ok (.text s)
  | .int =>
    match Numeral.read s with
    | .ok n => .ok (.int n)
    | .error e => .error (.badInt f s e)
  | .truth =>
    match truth? s with
    | some b => .ok (.truth b)
    | none => .error (.badTruth f s)

/-- The text of the value that a flag has if none is given. -/
def Flag.implied? (f : Flag) : Option String :=
  if f.kind = .truth then some "true" else none

/-! ### Words -/

/-- A flag that takes the next word, and the error if there is none. -/
structure Pending where
  flag : Flag
  missing : FlagError

/-- What a word is. -/
inductive Reading where
  | plain
  /-- All words that follow are plain. -/
  | stop
  /-- Flags with their values; the last flag may take the next word. -/
  | flags (values : List (String × FlagValue)) (pending : Option Pending)

/-- Reads a long flag, given without the hyphens. -/
def readLong (flags : List Flag) (s : List Char) : Except FlagError Reading := do
  if s.head? = some '-' || s.head? = some '=' then
    throw (.malformed (String.ofList ('-' :: '-' :: s)))
  let (name, value) : String × Option String :=
    match Text.cut? ['='] s with
    | some (name, value) => (String.ofList name, some (String.ofList value))
    | none => (String.ofList s, none)
  match flags.find? (·.name = name) with
  | none => throw (.unknown name)
  | some flag =>
    match value <|> flag.implied? with
    | some text => return .flags [(name, ← flag.value text)] none
    | none => return .flags [] (some ⟨flag, .needsValue name⟩)

/-- Reads short flags, given without the hyphen. -/
def readShort (flags : List Flag) (s : List Char) : Except FlagError Reading :=
  match s with
  | [] => .ok (.flags [] none)
  | letter :: rest =>
    match flags.find? (·.short = some letter) with
    | none => .error (.unknownShort letter (String.ofList s))
    | some flag =>
      match rest, flag.implied? with
      | '=' :: c :: value, _ =>
        (flag.value (String.ofList (c :: value))).map fun v => .flags [(flag.name, v)] none
      | _, some text => do
        let v ← flag.value text
        match ← readShort flags rest with
        | .flags values pending => return .flags ((flag.name, v) :: values) pending
        | r => return r
      | [], none => .ok (.flags [] (some ⟨flag, .needsValueShort letter (String.ofList s)⟩))
      | _, none => (flag.value (String.ofList rest)).map fun v => .flags [(flag.name, v)] none

/-- Reads a word. A word that begins with `-test.` says nothing. -/
def readWord (flags : List Flag) (word : String) : Except FlagError Reading :=
  match word.toList with
  | ['-', '-'] => .ok .stop
  | '-' :: '-' :: s => readLong flags s
  | ['-'] => .ok .plain
  | '-' :: s =>
    if "test.".toList.isPrefixOf s then .ok (.flags [] none) else readShort flags s
  | _ => .ok .plain

/-! ### Command lines -/

/-- The words of a command line, understood. -/
structure Arguments where
  /-- The flags that are given, in order. -/
  values : List (String × FlagValue) := []
  /-- The plain words. -/
  words : List String := []
deriving DecidableEq, Repr

/-- Reads words. The first word that is not understood decides about the error. -/
def parse (flags : List Flag) : List String → Except FlagError Arguments
  | [] => .ok {}
  | word :: rest => do
    match ← readWord flags word with
    | .plain =>
      let a ← parse flags rest
      return { a with words := word :: a.words }
    | .stop => return { words := rest }
    | .flags values none =>
      let a ← parse flags rest
      return { a with values := values ++ a.values }
    | .flags values (some pending) =>
      match rest with
      | [] => throw pending.missing
      | text :: rest =>
        let value ← pending.flag.value text
        let a ← parse flags rest
        return { a with values := values ++ (pending.flag.name, value) :: a.values }

namespace Arguments

/-- The value of a flag, if it is given. -/
def value? (a : Arguments) (name : String) : Option FlagValue :=
  a.values.reverse.lookup name

/-- The text that a flag is set to; without it, nothing. -/
def text (a : Arguments) (name : String) : String :=
  match a.value? name with
  | some (.text s) => s
  | _ => ""

/-- The integer that a flag is set to; without it, the given one. -/
def intOr (a : Arguments) (name : String) (otherwise : Int64) : Int64 :=
  match a.value? name with
  | some (.int n) => n
  | _ => otherwise

/-- The truth value that a flag is set to; without it, the given one. -/
def truthOr (a : Arguments) (name : String) (otherwise : Bool) : Bool :=
  match a.value? name with
  | some (.truth b) => b
  | _ => otherwise

end Arguments

end WorstCase.Cli
