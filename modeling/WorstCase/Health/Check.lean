import WorstCase.Health.Toolkit
import WorstCase.Text.Pieces

/-!
# Health checks

A health check tests what the generation of problems relies on: the graph has no loops, the end
is reachable, the declared dominators dominate. Some findings are errors, because generation
fails or goes wrong on such a graph; others are warnings. A graph is **healthy** if no finding
is an error.

The checks search in a mirror of the graph and know nothing of how that is done, see
`WorstCase.Health.Toolkit`.
-/

namespace WorstCase.Health

/-- How bad a finding is. -/
inductive Status where
  | ok
  | warn
  | error
deriving DecidableEq, Repr

/-- The name of a status. -/
def Status.name : Status → String
  | .ok => "ok"
  | .warn => "warn"
  | .error => "error"

/-- What is checked. -/
inductive Check where
  | acyclic
  | reachability
  | deadEnds
  | dominators
  | endBlock
deriving DecidableEq, Repr

/-- The name of a check. -/
def Check.name : Check → String
  | .acyclic => "acyclic"
  | .reachability => "reachability"
  | .deadEnds => "dead-ends"
  | .dominators => "dominators"
  | .endBlock => "end-block"

/-- A declared dominator that is not the immediate one. -/
structure Misdeclared where
  uid : Int
  declared : Int
  immediate : Int
deriving DecidableEq, Repr

/-- What a check found. -/
inductive Detail where
  | selfLoops (uids : List Int)
  | loops (components : List (List Int))
  | unsorted (message : String)
  | endUnreachable
  | unreachable (uids : List Int)
  | deadEnds (uids : List Int)
  | notDominating (blocks : List Misdeclared)
  | notImmediate (blocks : List Misdeclared)
  | noEnd
  | endSuccessors (count : Nat)
deriving DecidableEq, Repr

/-- How bad it is. -/
def Detail.status : Detail → Status
  | .selfLoops _ | .loops _ | .unsorted _ | .endUnreachable | .notDominating _ | .noEnd => .error
  | .unreachable _ | .deadEnds _ | .notImmediate _ | .endSuccessors _ => .warn

/-- The labels of blocks by ascending uid, separated by commas. -/
def labelList (g : Graph) (uids : List Int) : String :=
  Text.joinWith ", " ((sortBy (fun a b => decide (a ≤ b)) uids).map g.labelOf)

/-- The text about a misdeclared dominator. -/
def Misdeclared.text (g : Graph) (m : Misdeclared) : String :=
  g.labelOf m.uid ++ " (declared " ++ g.labelOf m.declared ++ ", immediate " ++
    g.labelOf m.immediate ++ ")"

/-- The wording of a `Detail`. -/
def Detail.text (g : Graph) : Detail → String
  | .selfLoops uids => "self loop on " ++ labelList g uids
  | .loops components =>
    let parts := components.map fun uids => "\x7b" ++ labelList g uids ++ "\x7d"
    "loop through " ++ Text.joinWith " " (sortBy (fun a b => decide (a ≤ b)) parts)
  | .unsorted message => message
  | .endUnreachable =>
    "end block " ++ g.labelOf g.stop ++ " is not reachable from start block " ++
      g.labelOf g.start
  | .unreachable uids => "unreachable from start: " ++ labelList g uids
  | .deadEnds uids => "pruned, cannot reach end: " ++ labelList g uids
  | .notDominating blocks =>
    "not dominating: " ++ Text.joinWith "; " (blocks.map (·.text g))
  | .notImmediate blocks =>
    "not immediate: " ++ Text.joinWith "; " (blocks.map (·.text g))
  | .noEnd => "no end block"
  | .endSuccessors count =>
    "end block " ++ g.labelOf g.stop ++ " has " ++ Decimal.text count ++ " successors"

/-- The outcome of one check: nothing, or what is wrong. -/
structure Finding where
  check : Check
  detail : Option Detail := none
deriving DecidableEq, Repr

/-- The status of a finding. -/
def Finding.status (f : Finding) : Status :=
  match f.detail with
  | some d => d.status
  | none => .ok

/-- The wording of a finding, empty if there is nothing to say. -/
def Finding.text (g : Graph) (f : Finding) : String :=
  match f.detail with
  | some d => d.text g
  | none => ""

/-! ### The five checks -/

section

variable {t : Toolkit}

/-- The graph has no loops, not even of a block with itself. -/
def checkAcyclic (m : Mirror t) : Option Detail :=
  match m.selfLoops, t.sortError? m.forward with
  | [], none => none
  | [], some (.unorderable components) => some (.loops components)
  | [], some (.other message) => some (.unsorted message)
  | uids, _ => some (.selfLoops uids)

/-- The end, and every other block, can be reached from the start. -/
def checkReachability (g : Graph) (m : Mirror t) : Option Detail :=
  let seen := t.walk m.forward g.start
  if !seen.contains g.stop then some .endUnreachable
  else
    match g.uids.filter fun uid => !seen.contains uid with
    | [] => none
    | uids => some (.unreachable uids)

/-- Every block that can be reached from the start reaches the end. -/
def checkDeadEnds (g : Graph) (m : Mirror t) : Option Detail :=
  let fromStart := t.walk m.forward g.start
  let toEnd := t.walk m.backward g.stop
  match g.uids.filter fun uid => fromStart.contains uid && !toEnd.contains uid with
  | [] => none
  | uids => some (.deadEnds uids)

/-- The blocks whose declared dominator is not the immediate one, each with whether the
declared dominator dominates at all. -/
def misdeclared (g : Graph) (m : Mirror t) : List (Misdeclared × Bool) :=
  let tree := t.dominators g.start m.forward
  let reachable := t.walk m.forward g.start
  g.sortedBlocks.filterMap fun b =>
    if b.uid = g.start || !reachable.contains b.uid then none
    else
      match t.dominatorOf? tree b.uid with
      | none => none
      | some immediate =>
        if b.dominator = immediate then none
        else
          some ({ uid := b.uid, declared := b.dominator, immediate },
            climbs tree b.dominator (g.blocks.length + 1) b.uid)

/-- Declared dominators are immediate dominators. One that dominates without being immediate
only makes cuts looser. -/
def checkDominators (g : Graph) (m : Mirror t) : Option Detail :=
  let found := misdeclared g m
  match found.filter (!·.2), found.filter (·.2) with
  | [], [] => none
  | [], loose => some (.notImmediate (loose.map (·.1)))
  | wrong, _ => some (.notDominating (wrong.map (·.1)))

end

/-- There is an end, and control does not go on from it. -/
def checkEnd (g : Graph) : Option Detail :=
  match g.block? g.stop with
  | none => some .noEnd
  | some stop =>
    match (g.succs stop.uid).length with
    | 0 => none
    | n => some (.endSuccessors n)

/-- All findings about a graph. -/
def findings (t : Toolkit) (g : Graph) : List Finding :=
  let m := Mirror.ofGraph t g
  [ { check := .acyclic, detail := checkAcyclic m }
  , { check := .reachability, detail := checkReachability g m }
  , { check := .deadEnds, detail := checkDeadEnds g m }
  , { check := .dominators, detail := checkDominators g m }
  , { check := .endBlock, detail := checkEnd g } ]

/-! ### Examinations -/

/-- A finding in words. -/
structure Remark where
  check : String
  status : Status
  /-- What is wrong, empty if nothing is. -/
  detail : String
deriving DecidableEq, Repr

/-- An examined graph: its size, and what was found. -/
structure Examination where
  blocks : Nat
  edges : Nat
  remarks : List Remark
deriving DecidableEq, Repr

/-- The message if there is no graph to examine. -/
def noGraphMessage : String := "graph is nil"

/-- Examines a graph in mirrors of a toolkit. -/
def examineWith (t : Toolkit) (g : Graph) : Examination where
  blocks := g.blocks.length
  edges := g.edges.length
  remarks := (findings t g).map fun f =>
    { check := f.check.name, status := f.status, detail := f.text g }

/-- Examines a graph. -/
def examine (g : Graph) : Examination := examineWith .standard g

/-- Whether an examined graph is healthy. -/
def Examination.isHealthy (e : Examination) : Bool :=
  e.remarks.all fun r => r.status ≠ .error

end WorstCase.Health
