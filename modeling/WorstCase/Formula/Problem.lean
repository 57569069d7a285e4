import WorstCase.Formula.Term
import WorstCase.Text.LetterCase
import WorstCase.Text.Pieces

/-!
# Optimization problems

A `Problem` collects what a solver is handed: options, declarations, hard assertions, weighted
soft assertions, objectives and trailing comments, each in the order in which they were added.

* **Declarations and hard assertions are sets of texts**: adding a text a second time changes
  nothing.
* **Soft assertions accumulate**: stating one twice doubles its weight.
* An option keeps its first position and its last value.

`Problem.render` prints the whole in SMT-LIB form.
-/

namespace WorstCase

/-- The sorts of declared constants. -/
inductive TermSort where
  | int
  | real
  | bool
  /-- Any other sort, by name. -/
  | named (name : String)
deriving DecidableEq, Repr

/-- The name of a sort. -/
def TermSort.name : TermSort → String
  | .int => "Int"
  | .real => "Real"
  | .bool => "Bool"
  | .named name => name

/-- A declaration: its text, and the constant it declares unless it was given as text. -/
structure Declaration where
  text : String
  constant : Option (String × TermSort) := none
deriving DecidableEq, Repr

/-- The declaration of a constant. -/
def Declaration.ofConstant (name : String) (sort : TermSort) : Declaration where
  text := "(declare-fun " ++ name ++ " () " ++ sort.name ++ ")"
  constant := some (name, sort)

/-- A hard assertion: its text, and the term it asserts unless it was given as text. -/
structure Assertion where
  text : String
  term : Option Term := none
deriving Repr

/-- A soft assertion: violating `term` adds `weight` to the penalty of `group`. -/
structure SoftAssertion where
  term : Term
  weight : Int64
  group : String
deriving Repr

/-- Whether an objective is to be made large or small. -/
inductive Goal where
  | maximize
  | minimize
deriving DecidableEq, Repr

/-- The command that states an objective. -/
def Goal.command : Goal → String
  | .maximize => "maximize"
  | .minimize => "minimize"

/-- An objective with its local bounds. -/
structure Objective where
  goal : Goal
  term : Term
  lower : Option Int64 := none
  upper : Option Int64 := none
deriving Repr

/-- An optimization problem under construction. -/
structure Problem where
  /-- How terms are printed. -/
  printer : Term → String := Term.render
  /-- The number of constants that were given a fresh name. -/
  freshNames : Nat := 0
  options : List (String × String) := []
  declarations : List Declaration := []
  assertions : List Assertion := []
  softAssertions : List SoftAssertion := []
  objectives : List Objective := []
  comments : List String := []

namespace Problem

/-- A problem with nothing in it, printed like `p`. -/
def reset (p : Problem) : Problem :=
  { printer := p.printer }

/-! ### Options -/

/-- Options with `name` set to `value`. -/
def putOption (name value : String) : List (String × String) → List (String × String)
  | [] => [(name, value)]
  | (n, v) :: rest => if n = name then (n, value) :: rest else (n, v) :: putOption name value rest

/-- Sets an option; its value is kept in lower case. -/
def setOption (p : Problem) (name value : String) : Problem :=
  { p with options := putOption name (Text.lower value) p.options }

/-- The value of an option. -/
def option? (p : Problem) (name : String) : Option String :=
  p.options.lookup name

/-! ### Declarations -/

/-- Adds a declaration unless its text is there. -/
def addDeclaration (p : Problem) (d : Declaration) : Problem :=
  if p.declarations.any (·.text = d.text) then p
  else { p with declarations := p.declarations ++ [d] }

/-- Adds a declaration given as text. -/
def declareText (p : Problem) (text : String) : Problem :=
  p.addDeclaration { text }

/-- Declares a constant. -/
def declare (p : Problem) (name : String) (sort : TermSort) : Problem :=
  p.addDeclaration (.ofConstant name sort)

/-- Declares a constant under a fresh internal name, and returns the name. -/
def declareFresh (p : Problem) (sort : TermSort) : String × Problem :=
  let name := "var_" ++ Decimal.text p.freshNames
  (name, { p with freshNames := p.freshNames + 1 }.declare name sort)

/-! ### Assertions -/

/-- Adds a hard assertion unless its text is there. -/
def addAssertion (p : Problem) (a : Assertion) : Problem :=
  if p.assertions.any (·.text = a.text) then p
  else { p with assertions := p.assertions ++ [a] }

/-- Asserts a term. -/
def assert (p : Problem) (t : Term) : Problem :=
  p.addAssertion { text := "(assert " ++ p.printer t ++ ")", term := some t }

/-- Adds an assertion given as text, which is made an assertion if it does not hold one. -/
def assertText (p : Problem) (text : String) : Problem :=
  p.addAssertion { text := if Text.contains text "assert" then text else "(assert " ++ text ++ ")" }

/-- The asserted terms, leaving out assertions given as text. -/
def assertedTerms (p : Problem) : List Term :=
  p.assertions.filterMap (·.term)

/-- Adds a soft assertion. -/
def assertSoft (p : Problem) (s : SoftAssertion) : Problem :=
  { p with softAssertions := p.softAssertions ++ [s] }

/-- Adds an objective. -/
def addObjective (p : Problem) (o : Objective) : Problem :=
  { p with objectives := p.objectives ++ [o] }

/-- Adds a comment that is printed after the problem. -/
def addComment (p : Problem) (text : String) : Problem :=
  { p with comments := p.comments ++ ["; " ++ text] }

/-! ### Printing -/

/-- The text of a soft assertion. -/
def softText (p : Problem) (s : SoftAssertion) : String :=
  "(assert-soft " ++ p.printer s.term ++ " :weight " ++ Decimal.text s.weight.toInt ++
    " :id " ++ s.group ++ ")"

/-- The text of a local bound of an objective. -/
def boundText (p : Problem) (keyword : String) : Option Int64 → String
  | some n => " " ++ keyword ++ " " ++ p.printer (.int n)
  | none => ""

/-- The text of an objective. -/
def objectiveText (p : Problem) (o : Objective) : String :=
  "(" ++ o.goal.command ++ " " ++ p.printer o.term ++ p.boundText ":local-lb" o.lower ++
    p.boundText ":local-ub" o.upper ++ ")"

/-- The text of an option. -/
def optionText (o : String × String) : String :=
  "(set-option :" ++ o.1 ++ " " ++ o.2 ++ ")"

/-- The commands that ask for a model, commented out unless models were asked for. -/
def modelRequest (p : Problem) : List String :=
  if p.option? "produce-models" = some "true" then ["(set-model -1)", "(get-model)"]
  else [";(set-model -1)", ";(get-model)"]

/-- The lines of a printed problem. -/
def lines (p : Problem) : List String :=
  p.options.map optionText ++ p.declarations.map (·.text) ++ p.assertions.map (·.text) ++
    p.softAssertions.map p.softText ++ p.objectives.map p.objectiveText ++ ["(check-sat)"] ++
    p.modelRequest ++ [";(get-info :all-statistics)"] ++ p.comments

/-- The text of a problem, each line ended by a line feed. -/
def render (p : Problem) : String :=
  String.join (p.lines.map (· ++ "\n"))

end Problem

end WorstCase
