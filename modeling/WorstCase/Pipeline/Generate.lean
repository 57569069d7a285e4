import WorstCase.Graph.CutFile
import WorstCase.Graph.LabelMap
import WorstCase.Graph.Listing
import WorstCase.Graph.Matching
import WorstCase.Graph.Summary
import WorstCase.Log.Record
import WorstCase.Pipeline.Error

/-!
# Generating problems

The pipeline from a combined input to an optimization problem. Its stages are functions on the
problem and the graph:

1. the header is loaded into a new problem, and the listing is read;
2. a matching file gives new costs;
3. cuts are added: those between blocks and their dominators, then those of a file, then the
   recursive ones, and at last the one from the start to the end;
4. the problem is emitted in an encoding, and options are set.

The script around the stages reads the files that they need, logs what they did, and writes the
files that show the graph, which happens before the problem is emitted. A run that was canceled
stops before stage 3 and before stage 4.
-/

namespace WorstCase

/-- What the pipeline does. Empty file names stand for no file. -/
structure PipelineOptions where
  /-- The number of the encoding. -/
  encoding : Int := 0
  edgeImpliesNodes : Bool := false
  noSummaries : Bool := false
  recursiveCuts : Bool := false
  /-- In seconds; zero and less mean that there is none. -/
  timeout : Int64 := 0
  produceModels : Bool := false
  matchingFile : String := ""
  cutsFile : String := ""
  /-- Where the labels of the blocks are written. -/
  labelMapFile : String := ""
  /-- Where a longest path is written. -/
  longestPathFile : String := ""
  /-- Where the cuts are written. -/
  cutListFile : String := ""
deriving DecidableEq, Repr, Inhabited

/-- A generated problem, with the graph that it encodes. -/
structure Generated where
  problem : Problem
  graph : Graph
  stats : EmitStats
  /-- The contents of the input, unpacked. -/
  contents : ByteArray := ByteArray.empty
  /-- The numbers of cuts that were added for dominators and on request. -/
  dominatorCuts : Nat := 0
  semanticCuts : Nat := 0

namespace Pipeline

/-! ### Stages -/

/-- Loads the header and reads the listing of an input. -/
def start (input : Combined) : Except GenerateError (Problem × Graph) := do
  let problem ← (match ({} : Problem).loadHeader input.header with
    | (_, some e) => .error (.header e)
    | (problem, none) => .ok problem)
  let graph ← (Graph.ofListing input.listing).mapError .listing
  return (problem, graph)

/-- Gives costs by the contents of a matching file. -/
def withMatching (g : Graph) (contents : ByteArray) : Except GenerateError Graph :=
  match g.applyMatching (Text.ofBytes contents) with
  | (g, none) => .ok g
  | (_, some e) => .error (.matching e)

/-- The result of adding cuts, unless it failed. -/
def cutsOf (run : CutRun) : Except GenerateError (Graph × Nat) :=
  match run.failure with
  | none => .ok (run.graph, run.added)
  | some e => .error (.cut e)

/-- Adds the cuts on request, and the one from the start to the end. The contents of a cuts file
may be given. -/
def withRequestedCuts (o : PipelineOptions) (g : Graph) (contents : Option ByteArray) :
    Except GenerateError (Graph × Nat) := do
  let ofFile ← (match contents with
    | some bytes => (g.readCuts (Text.ofBytes bytes)).mapError .cuts
    | none => .ok [])
  let recursive ← (if o.recursiveCuts then g.recursiveCuts.mapError .graph else .ok [])
  let (g, semantic) ← cutsOf (g.addSemanticCuts (ofFile ++ recursive))
  let (g, _) ← g.addGlobalCut.mapError .graph
  return (g, semantic)

/-- Emits the problem and sets its options. -/
def finish (o : PipelineOptions) (p : Problem) (g : Graph) :
    Except GenerateError (Problem × EmitStats) :=
  match g.emit p o.encoding o.edgeImpliesNodes with
  | (_, .error e) => .error (.emit o.encoding e)
  | (p, .ok stats) =>
    let p := if 0 < o.timeout then
        p.setOption "timeout" (Decimal.text o.timeout.toInt ++ ".0") else p
    let p := if o.produceModels then p.setOption "produce-models" "true" else p
    .ok (p, stats)

/-! ### Files -/

variable {σ : Type}

/-- Scripts that may fail to generate a problem. -/
abbrev Run (σ α : Type) := ExceptT GenerateError (Script σ) α

/-- The answer of a script, or its error as one of the pipeline. -/
def orFail {ε α : Type} (wrap : ε → GenerateError) (s : Script σ (Except ε α)) : Run σ α :=
  ExceptT.mk do return (← s).mapError wrap

/-- The result of a stage that needs no files. -/
def orThrow {α : Type} (r : Except GenerateError α) : Run σ α :=
  ExceptT.mk (pure r)

/-- Logs what a stage did. -/
def note (logger : Option Log.Logger) (message : String) (fields : List (String × Log.Value)) :
    Run σ Unit :=
  ExceptT.lift (Log.sayAt logger .debug message fields)

/-- Creates a file, and the directory that it is in, and fills it. The file is created even if
its contents cannot be computed. -/
def writeFile (path : String) (contents : Except Violation String) : Run σ Unit := do
  let directory := Path.directory path
  if directory ≠ "." then
    orFail (.makeDirectory directory) (Script.makeDirs directory)
  let text := match contents with
    | .ok s => s
    | .error _ => ""
  orFail (fun e => .createFile ⟨path, e⟩) (Script.writeFile path (Text.toBytes text))
  match contents with
  | .ok _ => return ()
  | .error v => throw (.contents path v)

/-- The files that show the graph, with their contents. -/
def exports (o : PipelineOptions) (g : Graph) : List (String × Except Violation String) :=
  [(o.labelMapFile, .ok g.labelMap), (o.longestPathFile, g.longestPathText),
    (o.cutListFile, .ok g.cutList)].filter (·.1 ≠ "")

/-- Writes files and logs each of them. -/
def writeAll (logger : Option Log.Logger) :
    List (String × Except Violation String) → Run σ Unit
  | [] => return ()
  | (path, contents) :: rest => do
    writeFile path contents
    note logger "wrote dump" [("file", .text path)]
    writeAll logger rest

/-! ### The pipeline -/

/-- The graph with the costs of the matching file, if there is one. -/
def matchingStage (o : PipelineOptions) (logger : Option Log.Logger) (g : Graph) :
    Run σ Graph := do
  if o.matchingFile = "" then return g
  let contents ← orFail .matchingFile (Input.read o.matchingFile)
  let g ← orThrow (withMatching g contents)
  note logger "applied matching" [("file", .text o.matchingFile)]
  return g

/-- The graph with all cuts, and the numbers of those for dominators and on request. -/
def cutsStage (o : PipelineOptions) (logger : Option Log.Logger) (g : Graph) :
    Run σ (Graph × Nat × Nat) := do
  if o.noSummaries then return (g, 0, 0)
  let (g, dominator) ← orThrow (cutsOf g.addDominatorCuts)
  let contents ← (if o.cutsFile = "" then return none
    else do return some (← orFail .cutsFile (Input.read o.cutsFile)))
  let (g, semantic) ← orThrow (withRequestedCuts o g contents)
  note logger "added cuts" [("dominator", .int dominator), ("semantic", .int semantic),
    ("total", .int g.cuts.length)]
  return (g, dominator, semantic)

/-- Fails if the run was canceled. -/
def checkpoint (canceled : Bool) : Run σ Unit :=
  if canceled then throw .canceled else return ()

/-- Generates the problem of an input that has been taken apart. -/
def generate (o : PipelineOptions) (logger : Option Log.Logger) (canceled : Bool)
    (input : Combined) : Run σ Generated := do
  let (problem, graph) ← orThrow (start input)
  note logger "parsed graph" [("nodes", .int graph.blocks.length),
    ("edges", .int graph.edges.length)]
  let graph ← matchingStage o logger graph
  checkpoint canceled
  let (graph, dominatorCuts, semanticCuts) ← cutsStage o logger graph
  writeAll logger (exports o graph)
  checkpoint canceled
  let (problem, stats) ← orThrow (finish o problem graph)
  note logger "emitted problem" [("encoding", .shown stats.encoding.name),
    ("cuts", .int stats.cuts), ("longest_path", .int stats.longest.toInt),
    ("paths", .text (Decimal.text stats.paths))]
  return { problem, graph, stats, dominatorCuts, semanticCuts }

/-- Generates the problem of the input in a file. -/
def generateFile (o : PipelineOptions) (logger : Option Log.Logger) (canceled : Bool)
    (path : String) : Run σ Generated := do
  let (input, contents) ← orFail .input (Input.readCombined path)
  let generated ← orFail (.within path) (generate o logger canceled input).run
  return { generated with contents }

/-- Writes a problem to a file, or to the output if no file is named. -/
def writeProblem (p : Problem) (path : String) : Run σ Unit :=
  if path = "" then ExceptT.lift (Script.print .output p.render) else writeFile path (.ok p.render)

end Pipeline

end WorstCase
