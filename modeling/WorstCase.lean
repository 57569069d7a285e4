import WorstCase.Archive.Gzip
import WorstCase.Archive.Inflate
import WorstCase.Archive.Unpack
import WorstCase.Archive.Zstd
import WorstCase.Ascending
import WorstCase.Batch.Job
import WorstCase.Batch.Run
import WorstCase.Cli.Command
import WorstCase.Cli.Error
import WorstCase.Cli.Flag
import WorstCase.Cli.Run
import WorstCase.Data.Base64
import WorstCase.Data.Json.Read
import WorstCase.Data.Json.Write
import WorstCase.Data.Msgpack
import WorstCase.Data.Tree
import WorstCase.Data.Yaml.Character
import WorstCase.Data.Yaml.Node
import WorstCase.Data.Yaml.Overlay
import WorstCase.Data.Yaml.Property
import WorstCase.Data.Yaml.Read
import WorstCase.Data.Yaml.Scalar
import WorstCase.Data.Yaml.ScalarText
import WorstCase.Data.Yaml.Scanner
import WorstCase.Data.Yaml.Source
import WorstCase.Data.Yaml.Timestamp
import WorstCase.Data.Yaml.Token
import WorstCase.Data.Yaml.Write
import WorstCase.Digest
import WorstCase.Encoding.Basic
import WorstCase.Encoding.Emit
import WorstCase.Files.Error
import WorstCase.Files.Path
import WorstCase.Files.Script
import WorstCase.Files.Tree
import WorstCase.Formula.Eval
import WorstCase.Formula.Header
import WorstCase.Formula.Problem
import WorstCase.Formula.Term
import WorstCase.Graph.Basic
import WorstCase.Graph.Cut
import WorstCase.Graph.CutFile
import WorstCase.Graph.LabelMap
import WorstCase.Graph.Listing
import WorstCase.Graph.LongestPath
import WorstCase.Graph.Matching
import WorstCase.Graph.ReadError
import WorstCase.Graph.Summary
import WorstCase.Graph.Sweep
import WorstCase.Health.Check
import WorstCase.Health.Present
import WorstCase.Health.Structure
import WorstCase.Health.Toolkit
import WorstCase.Input.Read
import WorstCase.Log.Record
import WorstCase.Main
import WorstCase.Pipeline.Error
import WorstCase.Pipeline.Generate
import WorstCase.Proofs.Ascending
import WorstCase.Proofs.Batch.Course
import WorstCase.Proofs.Batch.DigestInput
import WorstCase.Proofs.Batch.Errand
import WorstCase.Proofs.Batch.History
import WorstCase.Proofs.Batch.Interleaving
import WorstCase.Proofs.Batch.Material
import WorstCase.Proofs.Batch.Output
import WorstCase.Proofs.Batch.Passage
import WorstCase.Proofs.Batch.Plain
import WorstCase.Proofs.Batch.Sharing
import WorstCase.Proofs.Batch.Turn
import WorstCase.Proofs.Batch.UpToDate
import WorstCase.Proofs.Data.Json
import WorstCase.Proofs.Data.Msgpack
import WorstCase.Proofs.Encoding.AssertSoft
import WorstCase.Proofs.Encoding.BlockTexts
import WorstCase.Proofs.Encoding.ClosedProblem
import WorstCase.Proofs.Encoding.DifferenceLogic
import WorstCase.Proofs.Encoding.DifferenceTerms
import WorstCase.Proofs.Encoding.Emission
import WorstCase.Proofs.Encoding.ExactCosts
import WorstCase.Proofs.Encoding.Generation
import WorstCase.Proofs.Encoding.IteCosts
import WorstCase.Proofs.Encoding.Names
import WorstCase.Proofs.Encoding.PathModel
import WorstCase.Proofs.Encoding.RecordOrder
import WorstCase.Proofs.Encoding.Reordered
import WorstCase.Proofs.Encoding.Selections
import WorstCase.Proofs.Encoding.Unreachable
import WorstCase.Proofs.Files.Corridor
import WorstCase.Proofs.Files.Crew
import WorstCase.Proofs.Files.Delivery
import WorstCase.Proofs.Files.Growth
import WorstCase.Proofs.Files.Missing
import WorstCase.Proofs.Files.Operations
import WorstCase.Proofs.Files.Path
import WorstCase.Proofs.Files.Script
import WorstCase.Proofs.Files.Unlinked
import WorstCase.Proofs.Files.Upkeep
import WorstCase.Proofs.Files.Walk
import WorstCase.Proofs.Formula.Asserted
import WorstCase.Proofs.Formula.Declared
import WorstCase.Proofs.Formula.Exact
import WorstCase.Proofs.Formula.Expression
import WorstCase.Proofs.Formula.Holds
import WorstCase.Proofs.Formula.Penalty
import WorstCase.Proofs.Formula.Phrase
import WorstCase.Proofs.Graph.Acceptance
import WorstCase.Proofs.Graph.Agreement
import WorstCase.Proofs.Graph.Arrival
import WorstCase.Proofs.Graph.Branch
import WorstCase.Proofs.Graph.Charge
import WorstCase.Proofs.Graph.Closure
import WorstCase.Proofs.Graph.Coherence
import WorstCase.Proofs.Graph.Current
import WorstCase.Proofs.Graph.CutFile
import WorstCase.Proofs.Graph.Cutting
import WorstCase.Proofs.Graph.DeadEnd
import WorstCase.Proofs.Graph.DeclaredChain
import WorstCase.Proofs.Graph.Dominance
import WorstCase.Proofs.Graph.Enclosure
import WorstCase.Proofs.Graph.Extension
import WorstCase.Proofs.Graph.Insertion
import WorstCase.Proofs.Graph.LabelMap
import WorstCase.Proofs.Graph.Listing
import WorstCase.Proofs.Graph.LongestPath
import WorstCase.Proofs.Graph.MatchingLine
import WorstCase.Proofs.Graph.Outline
import WorstCase.Proofs.Graph.Outlook
import WorstCase.Proofs.Graph.PathCount
import WorstCase.Proofs.Graph.Progress
import WorstCase.Proofs.Graph.Recharge
import WorstCase.Proofs.Graph.RecordOrder
import WorstCase.Proofs.Graph.RecordText
import WorstCase.Proofs.Graph.Region
import WorstCase.Proofs.Graph.Registry
import WorstCase.Proofs.Graph.Reordered
import WorstCase.Proofs.Graph.RoundTrip
import WorstCase.Proofs.Graph.Settle
import WorstCase.Proofs.Graph.Successors
import WorstCase.Proofs.Graph.Sweep
import WorstCase.Proofs.Graph.Tiling
import WorstCase.Proofs.Graph.Valid
import WorstCase.Proofs.Graph.Verdict
import WorstCase.Proofs.Graph.Walk
import WorstCase.Proofs.Graph.Waypoint
import WorstCase.Proofs.Graph.Worklist
import WorstCase.Proofs.Health.CleanBill
import WorstCase.Proofs.Health.Findings
import WorstCase.Proofs.Health.Mirror
import WorstCase.Proofs.Health.Structure
import WorstCase.Proofs.Health.Toolkit
import WorstCase.Proofs.Outcome
import WorstCase.Proofs.Pipeline.Reading
import WorstCase.Proofs.Report.RoundTrip
import WorstCase.Proofs.Scan.Confinement
import WorstCase.Proofs.Scan.Scope
import WorstCase.Proofs.Scan.Sighting
import WorstCase.Proofs.Settings.Numbers
import WorstCase.Proofs.Store.Calls
import WorstCase.Proofs.Store.Index
import WorstCase.Proofs.Store.Linked
import WorstCase.Proofs.Store.Refinement
import WorstCase.Proofs.Store.Search
import WorstCase.Proofs.Text.Blank
import WorstCase.Proofs.Text.Decimal
import WorstCase.Proofs.Text.Lines
import WorstCase.Proofs.Text.Octets
import WorstCase.Proofs.Text.Pieces
import WorstCase.Proofs.Text.Symbols
import WorstCase.Proofs.Text.Tokens
import WorstCase.Proofs.Text.Trimmed
import WorstCase.Proofs.Tracker.Remembered
import WorstCase.Proofs.Tracker.Stored
import WorstCase.Report.Basic
import WorstCase.Report.Data
import WorstCase.Report.Format
import WorstCase.Report.Packed
import WorstCase.Scan.Glob
import WorstCase.Scan.Ignore
import WorstCase.Scan.Walk
import WorstCase.Settings.Assignments
import WorstCase.Settings.Basic
import WorstCase.Settings.Load
import WorstCase.Store.Basic
import WorstCase.Store.Search
import WorstCase.Store.Update
import WorstCase.Text.Blank
import WorstCase.Text.Decimal
import WorstCase.Text.LetterCase
import WorstCase.Text.Lines
import WorstCase.Text.Numeral
import WorstCase.Text.Octets
import WorstCase.Text.Pieces
import WorstCase.Text.Printable
import WorstCase.Text.Quoted
import WorstCase.Tracker.Basic
import WorstCase.Tracker.Store
