import WorstCase.Data.Msgpack
import WorstCase.Report.Basic

/-!
# Packed reports

A report in MessagePack: a map in the order of the fields. Sizes are written in the shortest
form, costs in eight bytes. Reading skips unknown fields; the last of several fields of one name
counts, where the cuts of an earlier one shine through later ones that leave something out.
-/

namespace WorstCase

/-- A cut entry as a MessagePack value. -/
def CutEntry.packed (c : CutEntry) : Msg :=
  .map [(.ofText "var", .ofText c.name), (.ofText "head", .ofText c.head),
    (.ofText "tail", .ofText c.tail), (.ofText "cost", .int64 c.cost)]

/-- A field read into a cut entry. -/
def CutEntry.putPacked (c : CutEntry) : String × Msg → Option CutEntry
  | ("var", m) => m.asText?.map fun name => { c with name }
  | ("head", m) => m.asText?.map fun head => { c with head }
  | ("tail", m) => m.asText?.map fun tail => { c with tail }
  | ("cost", m) => m.asInt?.map fun cost => { c with cost }
  | _ => some c

/-- A MessagePack value read into a cut entry. -/
def CutEntry.overPacked (c : CutEntry) : Msg → Option CutEntry :=
  Msg.overRecord CutEntry.fieldNames {} CutEntry.putPacked c

namespace Report

/-- A list as a MessagePack value. -/
def packedList (items : Option (List Msg)) : Msg :=
  match items with
  | some items => .array items
  | none => .nil

/-- A field that is left out if its text is empty. -/
def packedOptional (name value : String) : List (Msg × Msg) :=
  if value = "" then [] else [(.ofText name, .ofText value)]

/-- A report as a MessagePack value. -/
def packed (r : Report) : Msg :=
  .map (packedOptional "input" r.input ++ packedOptional "digest" r.digest ++
    packedOptional "encoding" r.encoding ++
    [ (.ofText "nodes", .int r.blocks.toInt)
    , (.ofText "edges", .int r.edges.toInt)
    , (.ofText "start", .ofText r.start)
    , (.ofText "end", .ofText r.stop)
    , (.ofText "longest_path", .int64 r.longestPath)
    , (.ofText "path", packedList (r.path.map (·.map Msg.ofText)))
    , (.ofText "paths", .ofText r.paths)
    , (.ofText "paths_digits", .int r.pathDigits.toInt)
    , (.ofText "cuts", packedList (r.cuts.map (·.map CutEntry.packed))) ])

end Report

/-- A field read into a report. -/
def ReportDraft.putPacked (r : ReportDraft) : String × Msg → Option ReportDraft
  | ("input", m) => m.asText?.map fun input => { r with input }
  | ("digest", m) => m.asText?.map fun digest => { r with digest }
  | ("encoding", m) => m.asText?.map fun encoding => { r with encoding }
  | ("nodes", m) => m.asInt?.map fun blocks => { r with blocks }
  | ("edges", m) => m.asInt?.map fun edges => { r with edges }
  | ("start", m) => m.asText?.map fun start => { r with start }
  | ("end", m) => m.asText?.map fun stop => { r with stop }
  | ("longest_path", m) => m.asInt?.map fun longestPath => { r with longestPath }
  | ("path", m) => (m.overTexts r.path).map fun path => { r with path }
  | ("paths", m) => m.asText?.map fun paths => { r with paths }
  | ("paths_digits", m) => m.asInt?.map fun pathDigits => { r with pathDigits }
  | ("cuts", m) => (m.overShelf {} CutEntry.overPacked r.cutsShelf).map r.withCuts
  | _ => some r

namespace Report

/-- A report from a MessagePack value. -/
def ofPacked? (m : Msg) : Option Report :=
  (m.overRecord fieldNames {} ReportDraft.putPacked {}).map (·.toReport)

/-- The bytes of a packed report. -/
def packedBytes (r : Report) : List UInt8 :=
  r.packed.encode

/-- A report from its packed bytes. -/
def ofPackedBytes? (bytes : List UInt8) : Option Report :=
  (Msg.decode? bytes).bind ofPacked?

end Report

end WorstCase
