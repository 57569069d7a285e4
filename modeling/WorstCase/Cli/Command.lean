import WorstCase.Cli.Flag
import WorstCase.Text.LetterCase
import WorstCase.Text.Pieces

/-!
# Commands

What the program can be asked to do. The first plain word of a command line names the command.
Where it stands is found out before the flags of the command are known, with the flags that all
commands share: any other flag without a value counts as one that takes the next word.
-/

namespace WorstCase.Cli

/-- The commands. -/
inductive Command where
  | generate
  | inspect
  | doctor
  | batch
  | init
  | help
deriving DecidableEq, Repr

namespace Command

/-- The name of a command. -/
def name : Command → String
  | generate => "generate"
  | inspect => "inspect"
  | doctor => "doctor"
  | batch => "batch"
  | init => "init"
  | help => "help"

/-- All commands. -/
def all : List Command := [generate, inspect, doctor, batch, init, help]

/-- The command of a name. -/
def ofName? (s : String) : Option Command :=
  all.find? fun c => c.name = s

/-! ### Flags -/

/-- The flags that all commands share. -/
def sharedFlags : List Flag :=
  [⟨"config", none, .text⟩, ⟨"verbose", none, .truth⟩, ⟨"log-json", none, .truth⟩]

/-- The flag that asks for help. -/
def helpFlag : Flag := ⟨"help", some 'h', .truth⟩

/-- The flags of the pipeline. -/
def pipelineFlags : List Flag :=
  [⟨"encoding", some 'e', .int⟩, ⟨"timeout", some 't', .int⟩, ⟨"no-summaries", none, .truth⟩,
    ⟨"recursive-cuts", none, .truth⟩, ⟨"edge-implies-nodes", none, .truth⟩,
    ⟨"produce-models", none, .truth⟩]

/-- The flags for files that change a graph. -/
def graphFlags : List Flag :=
  [⟨"matching", none, .text⟩, ⟨"cuts", none, .text⟩]

/-- The flag for a format. -/
def formatFlag : Flag := ⟨"format", some 'f', .text⟩

/-- The flags of a command itself. -/
def ownFlags : Command → List Flag
  | generate =>
    pipelineFlags ++ graphFlags ++
      [⟨"smt-matching", none, .text⟩, ⟨"print-longest-syntactic", none, .text⟩,
        ⟨"print-cuts-list", none, .text⟩, ⟨"output", some 'o', .text⟩, ⟨"report", none, .text⟩,
        formatFlag]
  | inspect => pipelineFlags ++ graphFlags ++ [formatFlag]
  | doctor => [formatFlag]
  | batch =>
    pipelineFlags ++
      [⟨"output-dir", some 'o', .text⟩, ⟨"force", none, .truth⟩, ⟨"jobs", some 'j', .int⟩]
  | init | help => []

/-- The flags of a command. -/
def flags (c : Command) : List Flag :=
  c.ownFlags ++ sharedFlags ++ [helpFlag]

/-! ### Plain words -/

/-- How many plain words a command takes. -/
inductive Arity where
  | exactly (count : Nat)
  | between (least most : Nat)
  | any
deriving DecidableEq, Repr

/-- Whether a number of words is right. -/
def Arity.allows : Arity → Nat → Bool
  | exactly count, n => n = count
  | between least most, n => least ≤ n && n ≤ most
  | any, _ => true

/-- How many words are right, in words. -/
def Arity.text : Arity → String
  | exactly count => Decimal.text count
  | between least most => "between " ++ Decimal.text least ++ " and " ++ Decimal.text most
  | any => "any number of"

/-- How many plain words a command takes. -/
def arity : Command → Arity
  | generate | inspect | doctor => .exactly 1
  | batch => .between 0 1
  | init | help => .any

/-! ### Finding the command -/

/-- Whether a word is a flag that takes the next word, as far as the shared flags tell. -/
def takesNext (word : String) : Bool :=
  match word.toList with
  | '-' :: '-' :: s =>
    !s.contains '=' && !sharedFlags.any fun f => f.name = String.ofList s && f.kind = .truth
  | ['-', c] => c ≠ '='
  | _ => false

/-- The plain words of a command line. A flag that takes the last word ends them. -/
def plainWords : List String → List String
  | [] => []
  | word :: rest =>
    if word = "--" then []
    else if takesNext word then
      match rest with
      | [] => []
      | _ :: rest => plainWords rest
    else if word = "" || word.toList.head? = some '-' then plainWords rest
    else word :: plainWords rest

/-- A command line without the plain word that names the command. -/
def withoutName (name : String) : List String → List String
  | [] => []
  | word :: rest =>
    if word = "--" then word :: rest
    else if takesNext word then
      match rest with
      | [] => [word]
      | value :: rest => word :: value :: withoutName name rest
    else if word = name then rest
    else word :: withoutName name rest

/-- The command that a command line names, if it names one, with the other words. The error is a
name that no command has. -/
def find (words : List String) : Except String (Option Command × List String) :=
  match plainWords words with
  | [] => .ok (none, words)
  | name :: _ =>
    match ofName? name with
    | some c => .ok (some c, withoutName name words)
    | none => .error name

/-! ### Suggestions -/

/-- The names that may be suggested, in order. -/
def suggestible : List String :=
  ["batch", "completion", "doctor", "generate", "init", "inspect"]

/-- The names that are suggested for an unknown one: those that are not far from it, and those
that begin with it. -/
def suggestions (name : String) : List String :=
  let name := (Text.lower name).toList
  suggestible.filter fun c => Text.distance name c.toList ≤ 2 || name.isPrefixOf c.toList

end Command

end WorstCase.Cli
