import WorstCase.Proofs.Data.Json
import WorstCase.Proofs.Data.Msgpack
import WorstCase.Report.Format

/-!
# Reports are read as they were written

A report that is written as JSON or MessagePack is read back as it is, absent lists included
(`Report.read_write`). JSON asks that all texts spell characters, since stray octets are replaced.
MessagePack takes any octets, but counts the octets of a text and the items of a list in no more
than four bytes. It has room for a report up to that size (`Report.Carried`), and what is read from
it never exceeds it (`Report.carried_of_read`), so a longer path is lost
(`Report.not_read_write_vast`).

Both readers lay the fields of a record over an empty report, one after the other, so it suffices
that each field is read back and that a field that was left out is empty.
-/

namespace WorstCase

open Text

/-! ### Texts and lists -/

/-- All texts of a cut entry have a property. -/
structure CutEntry.All (P : String → Prop) (c : CutEntry) : Prop where
  name : P c.name
  head : P c.head
  tail : P c.tail

/-- All texts of a report have a property. -/
structure Report.All (P : String → Prop) (r : Report) : Prop where
  input : P r.input
  digest : P r.digest
  encoding : P r.encoding
  start : P r.start
  stop : P r.stop
  path : ∀ s ∈ r.path.getD [], P s
  paths : P r.paths
  cuts : ∀ c ∈ r.cuts.getD [], c.All P

/-- The texts of a report spell characters. -/
abbrev Report.Spelled (r : Report) : Prop := r.All IsSpelled

/-- MessagePack has room for a report. -/
structure Report.Carried (r : Report) : Prop where
  texts : r.All Msg.Carries
  path_length : (r.path.getD []).length < 2 ^ 32
  cuts_length : (r.cuts.getD []).length < 2 ^ 32

/-! ### JSON -/

namespace Datum

theorem overText_text (old s : String) : overText old (.text s) = some s := rfl

theorem overInt_toInt (old n : Int64) : overInt old (.int n.toInt) = some n := by
  rw [overInt, if_pos (Decimal.fits64_toInt n), Int64.ofInt_toInt]

/-- A list is read back over an absent one. -/
theorem overList_ofList? {α : Type} {blank : α} {lay : α → Datum → Option α} {f : α → Datum}
    {list : Option (List α)} (h : ∀ x ∈ list.getD [], lay blank (f x) = some x) :
    overList blank lay {} (.ofList? .null (list.map (·.map f))) = some ⟨list, []⟩ := by
  rcases list with _ | items
  · rfl
  rcases items with _ | ⟨x, items⟩
  · rfl
  · have hlay : Shelf.lay blank lay [] ((x :: items).map f) = some (x :: items) := Msg.lay_map h
    rw [List.map_cons] at hlay
    simp [ofList?, overList, Shelf.layOver, Shelf.places, hlay, Shelf.put]

variable {α : Type} {names : List String} {lay : α → String → Datum → Option α} {old : α}
  {key : String} {fields : List (String × Datum)}

/-- The fields of a record are laid over a value one after the other. -/
theorem overRecord_cons (x : Datum)
    (hkey : (names.find? fun name => foldCase name = foldCase key) = some key) :
    overRecord names lay old (.record ((key, x) :: fields)) =
      (lay old key x).bind fun a => overRecord names lay a (.record fields) := by
  simp only [overRecord, List.foldlM_cons, hkey]
  rfl

theorem overRecord_cons_of_lay {x : Datum} {new : α}
    (hkey : (names.find? fun name => foldCase name = foldCase key) = some key)
    (hlay : lay old key x = some new) :
    overRecord names lay old (.record ((key, x) :: fields)) =
      overRecord names lay new (.record fields) := by
  rw [overRecord_cons _ hkey, hlay, Option.bind_some]

theorem overRecord_nil : overRecord names lay old (.record []) = some old := rfl

/-- A text that was left out is read back over a value that has none. -/
theorem overRecord_optionalField {s : String} (new : α)
    (hkey : (names.find? fun name => foldCase name = foldCase key) = some key)
    (hlay : lay old key (.text s) = some new) (hempty : s = "" → new = old) :
    overRecord names lay old (.record (Report.optionalField key s ++ fields)) =
      overRecord names lay new (.record fields) := by
  rw [Report.optionalField]
  split_ifs with hs
  · rw [List.nil_append, hempty hs]
  · rw [List.singleton_append, overRecord_cons_of_lay hkey hlay]

end Datum

/-- Field names are found as they are. -/
theorem Report.find?_fieldNames : ∀ key ∈ Report.fieldNames,
    (Report.fieldNames.find? fun name => foldCase name = foldCase key) = some key := by
  decide +kernel

theorem CutEntry.find?_fieldNames : ∀ key ∈ CutEntry.fieldNames,
    (CutEntry.fieldNames.find? fun name => foldCase name = foldCase key) = some key := by
  decide +kernel

/-- **A cut entry is read back.** -/
theorem CutEntry.overlaid?_tree (c : CutEntry) : CutEntry.overlaid? {} c.tree = some c := by
  have hname := CutEntry.find?_fieldNames
  rw [CutEntry.overlaid?, CutEntry.tree]
  simp only [Overlay.overRecord, Datum.overRecord_cons _ (hname _ (show "var" ∈ _ by decide)),
    Datum.overRecord_cons _ (hname _ (show "head" ∈ _ by decide)),
    Datum.overRecord_cons _ (hname _ (show "tail" ∈ _ by decide)),
    Datum.overRecord_cons _ (hname _ (show "cost" ∈ _ by decide)), Datum.overRecord_nil,
    CutEntry.overField, Overlay.overText, Overlay.overInt, Datum.overText_text, Datum.overInt_toInt,
    Option.map_some, Option.bind_some]

/-- A cut entry whose texts spell characters can be written. -/
theorem CutEntry.All.writable_tree {c : CutEntry} (h : c.All IsSpelled) (levels : Nat) :
    Json.Writable (levels + 1) c.tree := by
  refine .record ?_ ?_
  · simp only [List.forall_mem_cons, List.not_mem_nil, false_implies, implies_true, and_true]
    exact ⟨isSpelled_of_lt (by decide), isSpelled_of_lt (by decide), isSpelled_of_lt (by decide),
      isSpelled_of_lt (by decide)⟩
  · simp only [List.forall_mem_cons, List.not_mem_nil, false_implies, implies_true, and_true]
    exact ⟨.text h.name, .text h.head, .text h.tail, .int _⟩

namespace Report

/-- Fields that are read over a draft. -/
def readOver (old : ReportDraft) (fields : List (String × Datum)) : Option ReportDraft :=
  Datum.overRecord fieldNames ReportDraft.overField old (.record fields)

section Fields

variable {old new : ReportDraft} {key s : String} {n : Int64} {fields : List (String × Datum)}

theorem readOver_text (hkey : key ∈ fieldNames) (hfield : old.overField key (Datum.text s) = some new) :
    readOver old ((key, .text s) :: fields) = readOver new fields :=
  Datum.overRecord_cons_of_lay (find?_fieldNames key hkey) hfield

/-- A text that was left out is read back over a draft that has none. -/
theorem readOver_optionalField (hkey : key ∈ fieldNames)
    (hfield : old.overField key (Datum.text s) = some new) (hempty : s = "" → new = old) :
    readOver old (optionalField key s ++ fields) = readOver new fields :=
  Datum.overRecord_optionalField new (find?_fieldNames key hkey) hfield hempty

theorem readOver_int (hkey : key ∈ fieldNames) {before : Int64} {put : Int64 → ReportDraft}
    (hfield : old.overField key (Datum.int n.toInt) =
      (Datum.overInt before (.int n.toInt)).map put) :
    readOver old ((key, .int n.toInt) :: fields) = readOver (put n) fields := by
  refine Datum.overRecord_cons_of_lay (find?_fieldNames key hkey) ?_
  rw [hfield, Datum.overInt_toInt, Option.map_some]

/-- A list is read back over an absent one. -/
theorem readOver_ofList? {α : Type} (hkey : key ∈ fieldNames) {blank : α}
    {lay : α → Datum → Option α} {f : α → Datum} {list : Option (List α)}
    {put : Shelf α → ReportDraft}
    (hfield : old.overField key (Datum.ofList? .null (list.map (·.map f))) =
      (Datum.overList blank lay {} (.ofList? .null (list.map (·.map f)))).map put)
    (h : ∀ x ∈ list.getD [], lay blank (f x) = some x) :
    readOver old ((key, .ofList? .null (list.map (·.map f))) :: fields) =
      readOver (put ⟨list, []⟩) fields := by
  refine Datum.overRecord_cons_of_lay (find?_fieldNames key hkey) ?_
  rw [hfield, Datum.overList_ofList? h, Option.map_some]

end Fields

/-- **The fields of a report are read back**, one after the other. -/
theorem readOver_tree (r : Report) : readOver {} (r.tree .null) = some { toReport := r } := by
  rw [tree, List.append_assoc, List.append_assoc]
  -- input, digest and encoding may be left out
  refine Eq.trans (readOver_optionalField (by decide) rfl fun h => by rw [h]) ?_
  refine Eq.trans (readOver_optionalField (by decide) rfl fun h => by rw [h]) ?_
  refine Eq.trans (readOver_optionalField (by decide) rfl fun h => by rw [h]) ?_
  -- nodes and edges, start and end
  refine Eq.trans (readOver_int (by decide) rfl) ?_
  refine Eq.trans (readOver_int (by decide) rfl) ?_
  refine Eq.trans (readOver_text (by decide) rfl) ?_
  refine Eq.trans (readOver_text (by decide) rfl) ?_
  -- the longest path and what it goes through
  refine Eq.trans (readOver_int (by decide) rfl) ?_
  refine Eq.trans (readOver_ofList? (by decide) rfl fun _ _ => rfl) ?_
  -- the number of paths and its digits
  refine Eq.trans (readOver_text (by decide) rfl) ?_
  refine Eq.trans (readOver_int (by decide) rfl) ?_
  refine Eq.trans (readOver_ofList? (by decide) rfl fun c _ => c.overlaid?_tree) ?_
  exact Datum.overRecord_nil

theorem ofData?_tree (r : Report) : ofData? (Datum.record (r.tree .null)) = some r :=
  congrArg (Option.map ReportDraft.toReport) (readOver_tree r)

/-- A list of writable items can be written. -/
theorem writable_list {α : Type} {f : α → Datum} {list : Option (List α)} {levels : Nat}
    (h : ∀ x ∈ list.getD [], Json.Writable levels (f x)) :
    Json.Writable (levels + 1) (.ofList? .null (list.map (·.map f))) := by
  rcases list with _ | items
  · exact .null
  · refine .list fun d hd => ?_
    obtain ⟨x, hx, rfl⟩ := List.mem_map.mp hd
    exact h x hx

theorem forall_mem_optionalField {P : String × Datum → Prop} {name value : String}
    (h : P (name, .text value)) : ∀ f ∈ optionalField name value, P f := by
  intro f hf
  unfold optionalField at hf
  split at hf
  · exact absurd hf List.not_mem_nil
  · obtain rfl := List.mem_singleton.mp hf
    exact h

/-- A report whose texts spell characters can be written. -/
theorem Spelled.writable_tree {r : Report} (h : r.Spelled) (levels : Nat) :
    Json.Writable (levels + 3) (.record (r.tree .null)) := by
  have hcuts : ∀ c ∈ r.cuts.getD [], Json.Writable (levels + 1) c.tree :=
    fun c hc => (h.cuts c hc).writable_tree levels
  have hfields : ∀ f ∈ r.tree .null, IsSpelled f.1 ∧ Json.Writable (levels + 2) f.2 := by
    have hname : ∀ key ∈ fieldNames, IsSpelled key := fun key hkey =>
      isSpelled_of_lt ((show ∀ key ∈ fieldNames, ∀ c ∈ key.toList, c.toNat < 128 by decide) key hkey)
    rw [tree]
    simp only [List.forall_mem_append, List.forall_mem_cons, List.not_mem_nil, false_implies,
      implies_true, and_true]
    refine ⟨⟨⟨?_, ?_⟩, ?_⟩, ⟨hname _ (by decide), .int _⟩, ⟨hname _ (by decide), .int _⟩,
      ⟨hname _ (by decide), .text h.start⟩, ⟨hname _ (by decide), .text h.stop⟩,
      ⟨hname _ (by decide), .int _⟩,
      ⟨hname _ (by decide), writable_list fun s hs => .text (h.path s hs)⟩,
      ⟨hname _ (by decide), .text h.paths⟩, ⟨hname _ (by decide), .int _⟩,
      ⟨hname _ (by decide), writable_list hcuts⟩⟩
    · exact forall_mem_optionalField ⟨hname "input" (by decide), .text h.input⟩
    · exact forall_mem_optionalField ⟨hname "digest" (by decide), .text h.digest⟩
    · exact forall_mem_optionalField ⟨hname "encoding" (by decide), .text h.encoding⟩
  exact .record (fun f hf => (hfields f hf).1) fun f hf => (hfields f hf).2

/-- **A report is read back from JSON.** -/
theorem Spelled.ofJson?_json {r : Report} (h : r.Spelled) : ofJson? r.json = some r := by
  have hwritable : Json.Writable Json.maxDepth (.record (r.tree .null)) :=
    h.writable_tree (Json.maxDepth - 3)
  rw [ofJson?, json, Json.indented, hwritable.read?_write, Option.bind_some, ofData?_tree]

/-- The JSON of a report consists of octets. -/
theorem Spelled.isOctets_json {r : Report} (h : r.Spelled) : IsOctets r.json := by
  obtain ⟨cs, hcs⟩ := (h.writable_tree 0).exists_reads (some 0)
  have hbreak : "\n".toList = spell ['\n'] := by
    rw [spell_of_lt (by decide)]
    rfl
  have htext : r.json.toList = spell (cs ++ ['\n']) := by
    rw [json, Json.indented, String.toList_append, hcs.spelled, hbreak, spell_append]
  intro c hc
  rw [htext] at hc
  exact toNat_lt_of_mem_spell hc

/-! ### MessagePack -/

end Report

open Msg

/-- A list is packed as the reader expects it. -/
theorem Report.fits_packedList {α : Type} {f : α → Msg} {list : Option (List α)}
    (hlen : (list.getD []).length < 2 ^ 32) (h : ∀ x ∈ list.getD [], Fits (f x)) :
    Fits (Report.packedList (list.map (·.map f))) := by
  rcases list with _ | items
  · exact .nil
  · refine .array (by simpa using hlen) fun m hm => ?_
    obtain ⟨x, hx, rfl⟩ := List.mem_map.mp hm
    exact h x hx

theorem Report.reread_packedList {α : Type} {f : α → Msg} {list : Option (List α)}
    (h : ∀ x ∈ list.getD [], reread (f x) = f x) :
    reread (Report.packedList (list.map (·.map f))) = Report.packedList (list.map (·.map f)) := by
  rcases list with _ | items
  · rfl
  · have hitems : rereadItems (items.map f) = items.map f := by
      rw [rereadItems_eq, List.map_map]
      exact List.map_congr_left h
    exact (reread_array _).trans (congrArg Msg.array hitems)

namespace CutEntry

/-- The fields of a cut entry by their names. -/
def named (c : CutEntry) : List (String × Msg) :=
  [("var", .ofText c.name), ("head", .ofText c.head), ("tail", .ofText c.tail),
    ("cost", .int64 c.cost)]

theorem packed_eq (c : CutEntry) : c.packed = ofNamed c.named := rfl

theorem carries_of_mem_named {c : CutEntry} : ∀ f ∈ c.named, Carries f.1 := by
  simp only [named, List.forall_mem_cons, List.not_mem_nil, false_implies, implies_true, and_true]
  decide

theorem All.fits_packed {c : CutEntry} (h : c.All Carries) : Fits c.packed := by
  refine fits_ofNamed (by simp [named]) carries_of_mem_named ?_
  simp only [named, List.forall_mem_cons, List.not_mem_nil, false_implies, implies_true, and_true]
  exact ⟨fits_ofText h.name, fits_ofText h.head, fits_ofText h.tail, .int64 _⟩

theorem reread_packed (c : CutEntry) : reread c.packed = c.packed := by
  rw [packed_eq, reread_ofNamed]
  rfl

/-- **A cut entry is read back.** -/
theorem All.overPacked {c : CutEntry} (h : c.All Carries) :
    CutEntry.overPacked {} c.packed = some c := by
  rw [CutEntry.overPacked, packed_eq, overRecord_ofNamed carries_of_mem_named]
  simp [named, CutEntry.putPacked, asText?_ofText h.name, asText?_ofText h.head,
    asText?_ofText h.tail, asInt?]

/-- What is read into a cut entry keeps to what the format has room for. -/
theorem All.of_overPacked {c c' : CutEntry} {m : Msg} (hc : c.All Carries) (hm : Fits m)
    (h : CutEntry.overPacked c m = some c') : c'.All Carries := by
  refine hm.overRecord_preserves ⟨carries_empty, carries_empty, carries_empty⟩ hc ?_ h
  intro c c' f hc hf h
  unfold putPacked at h
  split at h
  · obtain ⟨s, hs, rfl⟩ := Option.map_eq_some_iff.mp h
    exact { hc with name := hf.carries hs }
  · obtain ⟨s, hs, rfl⟩ := Option.map_eq_some_iff.mp h
    exact { hc with head := hf.carries hs }
  · obtain ⟨s, hs, rfl⟩ := Option.map_eq_some_iff.mp h
    exact { hc with tail := hf.carries hs }
  · obtain ⟨n, -, rfl⟩ := Option.map_eq_some_iff.mp h
    exact { hc with }
  · obtain rfl := Option.some_inj.mp h
    exact hc

end CutEntry

namespace Report

/-- A field that is left out if its text is empty. -/
def namedOptional (name value : String) : List (String × Msg) :=
  if value = "" then [] else [(name, .ofText value)]

/-- The fields of a report by their names. -/
def named (r : Report) : List (String × Msg) :=
  namedOptional "input" r.input ++ (namedOptional "digest" r.digest ++
    (namedOptional "encoding" r.encoding ++
    [ ("nodes", .int r.blocks.toInt)
    , ("edges", .int r.edges.toInt)
    , ("start", .ofText r.start)
    , ("end", .ofText r.stop)
    , ("longest_path", .int64 r.longestPath)
    , ("path", packedList (r.path.map (·.map Msg.ofText)))
    , ("paths", .ofText r.paths)
    , ("paths_digits", .int r.pathDigits.toInt)
    , ("cuts", packedList (r.cuts.map (·.map CutEntry.packed))) ]))

theorem packed_eq (r : Report) : r.packed = ofNamed r.named := by
  have hoptional : ∀ name value, packedOptional name value =
      (namedOptional name value).map fun f => (ofText f.1, f.2) := by
    intro name value
    rw [packedOptional, namedOptional]
    split <;> rfl
  rw [packed, named, ofNamed]
  simp only [hoptional, List.map_append, List.append_assoc]
  rfl

theorem forall_mem_namedOptional {P : String × Msg → Prop} {name value : String}
    (h : P (name, .ofText value)) : ∀ f ∈ namedOptional name value, P f := by
  intro f hf
  unfold namedOptional at hf
  split at hf
  · exact absurd hf List.not_mem_nil
  · obtain rfl := List.mem_singleton.mp hf
    exact h

theorem reread_namedOptional (name value : String) :
    (namedOptional name value).map (fun f => (f.1, reread f.2)) = namedOptional name value := by
  rw [namedOptional]
  split <;> rfl

/-- A text that was left out is read back over a value that has none. -/
theorem foldlM_namedOptional {α : Type} {put : α → String × Msg → Option α} {name value : String}
    {old : α} (new : α) (hput : put old (name, .ofText value) = some new)
    (hempty : value = "" → new = old) (fields : List (String × Msg)) :
    (namedOptional name value ++ fields).foldlM put old = fields.foldlM put new := by
  rw [namedOptional]
  split_ifs with hvalue
  · rw [List.nil_append, hempty hvalue]
  · rw [List.singleton_append, List.foldlM_cons, hput]
    rfl

theorem carries_of_mem_named {r : Report} : ∀ f ∈ r.named, Carries f.1 := by
  simp only [named, List.forall_mem_append, List.forall_mem_cons, List.not_mem_nil, false_implies,
    implies_true, and_true]
  exact ⟨forall_mem_namedOptional (show Carries "input" by decide),
    forall_mem_namedOptional (show Carries "digest" by decide),
    forall_mem_namedOptional (show Carries "encoding" by decide), by decide⟩

theorem fits_int64 (n : Int64) : Fits (.int n.toInt) := by
  have hlow := n.le_toInt
  have hhigh := n.toInt_lt
  exact .int (by omega) (by omega)

theorem Carried.fits_packed {r : Report} (h : r.Carried) : Fits r.packed := by
  rw [packed_eq]
  refine fits_ofNamed ?_ carries_of_mem_named ?_
  · have hone : ∀ name value, (namedOptional name value).length ≤ 1 := by
      intro name value
      rw [namedOptional]
      split <;> simp
    have h₁ := hone "input" r.input
    have h₂ := hone "digest" r.digest
    have h₃ := hone "encoding" r.encoding
    simp only [named, List.length_append, List.length_cons, List.length_nil]
    omega
  · simp only [named, List.forall_mem_append, List.forall_mem_cons, List.not_mem_nil,
      false_implies, implies_true, and_true]
    exact ⟨forall_mem_namedOptional (fits_ofText h.texts.input),
      forall_mem_namedOptional (fits_ofText h.texts.digest),
      forall_mem_namedOptional (fits_ofText h.texts.encoding), fits_int64 _, fits_int64 _,
      fits_ofText h.texts.start, fits_ofText h.texts.stop, .int64 _,
      fits_packedList h.path_length fun s hs => fits_ofText (h.texts.path s hs),
      fits_ofText h.texts.paths, fits_int64 _,
      fits_packedList h.cuts_length fun c hc => (h.texts.cuts c hc).fits_packed⟩

/-- The path is read back. -/
theorem overTexts_packedList {list : Option (List String)} (h : ∀ s ∈ list.getD [], Carries s) :
    overTexts none (packedList (list.map (·.map Msg.ofText))) = some list := by
  rcases list with _ | items
  · rfl
  · have hitems : (items.map ofText).mapM asText? = some items := by
      induction items with
      | nil => rfl
      | cons s items ih =>
        rw [List.map_cons, List.mapM_cons, ih fun x hx => h x (List.mem_cons_of_mem _ hx),
          asText?_ofText (h s List.mem_cons_self)]
        rfl
    exact congrArg (Option.map some) hitems

/-- The cuts are read back. -/
theorem overShelf_packedList {list : Option (List CutEntry)}
    (h : ∀ c ∈ list.getD [], c.All Carries) :
    overShelf {} CutEntry.overPacked {} (packedList (list.map (·.map CutEntry.packed))) =
      some ⟨list, []⟩ := by
  rcases list with _ | items
  · rfl
  · have hlay : Shelf.lay {} CutEntry.overPacked [] (items.map CutEntry.packed) = some items :=
      lay_map fun c hc => (h c hc).overPacked
    simp [packedList, overShelf, Shelf.layOver, Shelf.places, hlay, Shelf.put]

/-- **The fields of a report are read back** from the values that its packed form is read as. -/
theorem Carried.ofPacked?_reread {r : Report} (h : r.Carried) :
    ofPacked? (reread r.packed) = some r := by
  have hpath := overTexts_packedList h.texts.path
  have hcuts := overShelf_packedList h.texts.cuts
  have hread : r.named.map (fun f => (f.1, reread f.2)) =
      namedOptional "input" r.input ++ (namedOptional "digest" r.digest ++
        (namedOptional "encoding" r.encoding ++
        [ ("nodes", reread (.int r.blocks.toInt))
        , ("edges", reread (.int r.edges.toInt))
        , ("start", .ofText r.start)
        , ("end", .ofText r.stop)
        , ("longest_path", .int64 r.longestPath)
        , ("path", packedList (r.path.map (·.map Msg.ofText)))
        , ("paths", .ofText r.paths)
        , ("paths_digits", reread (.int r.pathDigits.toInt))
        , ("cuts", packedList (r.cuts.map (·.map CutEntry.packed))) ])) := by
    simp only [named, List.map_append, reread_namedOptional, List.map_cons, List.map_nil,
      reread_ofText, reread_int64, reread_packedList fun s _ => reread_ofText s,
      reread_packedList fun c _ => CutEntry.reread_packed c]
  have hnames : ∀ f ∈ r.named.map (fun f => (f.1, reread f.2)), Carries f.1 := by
    intro f hf
    obtain ⟨f', hf', rfl⟩ := List.mem_map.mp hf
    exact carries_of_mem_named f' hf'
  have hinput : ReportDraft.putPacked {} ("input", .ofText r.input) = some { input := r.input } := by
    simp [ReportDraft.putPacked, asText?_ofText h.texts.input]
  have hdigest : ReportDraft.putPacked { input := r.input } ("digest", .ofText r.digest) =
      some { input := r.input, digest := r.digest } := by
    simp [ReportDraft.putPacked, asText?_ofText h.texts.digest]
  have hencoding : ReportDraft.putPacked { input := r.input, digest := r.digest }
      ("encoding", .ofText r.encoding) =
      some { input := r.input, digest := r.digest, encoding := r.encoding } := by
    simp [ReportDraft.putPacked, asText?_ofText h.texts.encoding]
  have hfold : (r.named.map fun f => (f.1, reread f.2)).foldlM ReportDraft.putPacked {} =
      some { toReport := r } := by
    rw [hread, foldlM_namedOptional _ hinput fun he => by rw [he],
      foldlM_namedOptional _ hdigest fun he => by rw [he],
      foldlM_namedOptional _ hencoding fun he => by rw [he]]
    simp only [List.foldlM_cons, List.foldlM_nil, ReportDraft.putPacked, asInt?_reread_int,
      Int64.ofInt_toInt, asText?_ofText h.texts.start, asText?_ofText h.texts.stop,
      asText?_ofText h.texts.paths, asInt?_int64, hpath, ReportDraft.cutsShelf, hcuts,
      ReportDraft.withCuts, Option.map_some, Option.bind_eq_bind, Option.bind_some, Option.pure_def]
  rw [ofPacked?, packed_eq, reread_ofNamed, overRecord_ofNamed hnames, hfold]
  rfl

/-- **A report is read back from MessagePack.** -/
theorem Carried.ofPackedBytes?_packedBytes {r : Report} (h : r.Carried) :
    ofPackedBytes? r.packedBytes = some r := by
  have hdecode := h.fits_packed.decode?_encode []
  rw [List.append_nil] at hdecode
  rw [ofPackedBytes?, packedBytes, hdecode, Option.bind_some, h.ofPacked?_reread]

end Report

/-- What a draft keeps to while a report is read into it: MessagePack has room for the report, and
for the cuts that an earlier list left behind. -/
structure ReportDraft.Carried (d : ReportDraft) : Prop where
  report : d.toReport.Carried
  behind : ∀ c ∈ d.cutsBehind, c.All Carries

namespace ReportDraft

variable {d d' : ReportDraft}

theorem carried_empty : ReportDraft.Carried {} :=
  ⟨⟨⟨carries_empty, carries_empty, carries_empty, carries_empty, carries_empty, by simp,
    carries_empty, by simp⟩, by simp, by simp⟩, by simp⟩

/-- A path that is read is one that the format has room for. -/
theorem Carried.withPath {m : Msg} {path : Option (List String)} (hd : d.Carried) (hm : Fits m)
    (h : m.overTexts d.path = some path) : ReportDraft.Carried { d with path } := by
  cases hm with
  | nil =>
    obtain rfl := Option.some_inj.mp h
    exact hd
  | @array items hlong hitems =>
    obtain ⟨texts, htexts, rfl⟩ := Option.map_eq_some_iff.mp h
    have hpath : ∀ s ∈ texts, Carries s := by
      intro s hs
      obtain ⟨m, hm, hs⟩ := exists_mem_of_mapM htexts hs
      exact (hitems m hm).carries hs
    have hlen : texts.length < 2 ^ 32 := by
      rwa [length_mapM htexts]
    exact ⟨⟨{ hd.report.texts with path := hpath }, hlen, hd.report.cuts_length⟩, hd.behind⟩
  | _ => simp [overTexts] at h

/-- Cuts that are read are ones that the format has room for. -/
theorem Carried.withCuts {m : Msg} {shelf : Shelf CutEntry} (hd : d.Carried) (hm : Fits m)
    (h : m.overShelf {} CutEntry.overPacked d.cutsShelf = some shelf) :
    (d.withCuts shelf).Carried := by
  have hold : ∀ c ∈ d.cutsShelf.places, c.All Carries := fun c hc =>
    (List.mem_append.mp hc).elim (hd.report.texts.cuts c) (hd.behind c)
  have hplaces : ∀ c ∈ shelf.places, c.All Carries :=
    hm.overShelf_preserves ⟨carries_empty, carries_empty, carries_empty⟩ hold
      CutEntry.All.of_overPacked h
  have hlen : (shelf.items.getD []).length < 2 ^ 32 := by
    cases hm with
    | nil =>
      obtain rfl := Option.some_inj.mp h
      simp
    | array hlong _ =>
      obtain ⟨front, hlay, rfl⟩ := Option.map_eq_some_iff.mp h
      rwa [Shelf.items_put, Option.getD_some, length_lay hlay]
    | _ => simp [overShelf] at h
  exact ⟨⟨{ hd.report.texts with cuts := fun c hc => hplaces c (List.mem_append_left _ hc) },
    hd.report.path_length, hlen⟩, fun c hc => hplaces c (List.mem_append_right _ hc)⟩

/-- A text that is read keeps to what the format has room for. -/
theorem Carried.withTexts (hd : d.Carried) {r : Report} (htexts : r.All Carries)
    (hpath : r.path = d.path) (hcuts : r.cuts = d.cuts) :
    ReportDraft.Carried { d with toReport := r } :=
  ⟨⟨htexts, hpath ▸ hd.report.path_length, hcuts ▸ hd.report.cuts_length⟩, hd.behind⟩

/-- **What is read into a draft keeps to what the format has room for.** -/
theorem Carried.putPacked {f : String × Msg} (hd : d.Carried) (hf : Fits f.2)
    (h : d.putPacked f = some d') : d'.Carried := by
  have htexts := hd.report.texts
  unfold ReportDraft.putPacked at h
  split at h
  case h_13 =>
    -- an unknown field
    obtain rfl := Option.some_inj.mp h
    exact hd
  all_goals obtain ⟨x, hx, rfl⟩ := Option.map_eq_some_iff.mp h
  · exact hd.withTexts { htexts with input := hf.carries hx } rfl rfl
  · exact hd.withTexts { htexts with digest := hf.carries hx } rfl rfl
  · exact hd.withTexts { htexts with encoding := hf.carries hx } rfl rfl
  · exact hd.withTexts { htexts with } rfl rfl
  · exact hd.withTexts { htexts with } rfl rfl
  · exact hd.withTexts { htexts with start := hf.carries hx } rfl rfl
  · exact hd.withTexts { htexts with stop := hf.carries hx } rfl rfl
  · exact hd.withTexts { htexts with } rfl rfl
  · exact hd.withPath hf hx
  · exact hd.withTexts { htexts with paths := hf.carries hx } rfl rfl
  · exact hd.withTexts { htexts with } rfl rfl
  · exact hd.withCuts hf hx

end ReportDraft

namespace Report

/-- **What is read from packed bytes has room in them**, whoever wrote them. -/
theorem carried_of_ofPackedBytes? {bytes : List UInt8} {r : Report}
    (h : ofPackedBytes? bytes = some r) : r.Carried := by
  obtain ⟨m, hm, h⟩ := Option.bind_eq_some_iff.mp h
  obtain ⟨d, hd, rfl⟩ := Option.map_eq_some_iff.mp h
  have hcarried : d.Carried := (fits_of_decode? hm).overRecord_preserves
    ReportDraft.carried_empty ReportDraft.carried_empty ReportDraft.Carried.putPacked hd
  exact hcarried.report

/-! ### Formats -/

theorem toList_write_msgpack (r : Report) : (r.write .msgpack).toList = r.packedBytes := by
  rw [write, toList_eq_data_toList]

theorem read_msgpack (bytes : ByteArray) :
    read bytes "msgpack" =
      match ofPackedBytes? bytes.toList with
      | some r => .ok r
      | none => .error (.malformed .msgpack) := by
  have hname : ReportFormat.ofName? "msgpack" = some .msgpack := by decide
  cases hread : ofPackedBytes? bytes.toList <;> simp only [read, hname, hread]

/-- MessagePack has room for every report that is read from it, whoever wrote it. -/
theorem carried_of_read {bytes : ByteArray} {r : Report} (h : read bytes "msgpack" = .ok r) :
    r.Carried := by
  rw [read_msgpack] at h
  split at h
  · rename_i hread
    obtain rfl := Except.ok.inj h
    exact carried_of_ofPackedBytes? hread
  · cases h

/-- **Reports round-trip.** A report whose texts spell characters is read back from JSON. It is read
back from MessagePack exactly if that has room for it: no text and no list has 2 ^ 32 or more
octets or items. -/
theorem read_write {r : Report} (h : r.Spelled) :
    read (r.write .json) "json" = .ok r ∧
      (read (r.write .msgpack) "msgpack" = .ok r ↔ r.Carried) := by
  constructor
  · have hname : ReportFormat.ofName? "json" = some .json := by decide
    rw [read, hname]
    simp only [write, ofBytes_toBytes h.isOctets_json, h.ofJson?_json]
  · refine ⟨carried_of_read, fun hcarried => ?_⟩
    rw [read_msgpack, toList_write_msgpack, hcarried.ofPackedBytes?_packedBytes]

/-- A report with texts that have to be escaped, integers at the ends of their range, an empty list
and a list with an empty text. -/
def awkward : Report where
  input := "a<b>&\"c\\\n"
  encoding := spelled (String.ofList [Char.ofNat 0x2028, Char.ofNat 0xFFFD, Char.ofNat 0x1F600])
  blocks := -2147483649
  edges := 4294967296
  longestPath := -9223372036854775808
  path := some ["", "BB-1"]
  pathDigits := -33
  cuts := some [{ name := "c_0_2", cost := 9223372036854775807 }]

theorem read_write_awkward :
    read (awkward.write .json) "json" = .ok awkward ∧
      read (awkward.write .msgpack) "msgpack" = .ok awkward := by
  have hspelled : awkward.Spelled := by
    have hempty : IsSpelled "" := isSpelled_of_lt (by decide)
    refine ⟨isSpelled_of_lt (by decide), hempty, ⟨_, String.toList_ofList⟩, hempty, hempty, ?_,
      hempty, ?_⟩
    · simp only [awkward, Option.getD_some, List.forall_mem_cons, List.not_mem_nil, false_implies,
        implies_true, and_true]
      exact ⟨hempty, isSpelled_of_lt (by decide)⟩
    · simp only [awkward, Option.getD_some, List.forall_mem_cons, List.not_mem_nil, false_implies,
        implies_true, and_true]
      exact ⟨isSpelled_of_lt (by decide), hempty, hempty⟩
  have hcarried : awkward.Carried := by
    refine ⟨⟨by decide, by decide, by decide +kernel, by decide, by decide, by decide, by decide, ?_⟩,
      by decide, by decide⟩
    simp only [awkward, Option.getD_some, List.forall_mem_cons, List.not_mem_nil, false_implies,
      implies_true, and_true]
    exact ⟨by decide, by decide, by decide⟩
  exact ⟨(read_write hspelled).1, (read_write hspelled).2.mpr hcarried⟩

/-- A report whose path goes through so many blocks without labels. -/
def vast (length : Nat) : Report where
  path := some (List.replicate length "")

theorem spelled_vast (length : Nat) : (vast length).Spelled := by
  have hempty : IsSpelled "" := isSpelled_of_lt (by decide)
  refine ⟨hempty, hempty, hempty, hempty, hempty, fun s hs => ?_, hempty, by simp [vast]⟩
  obtain rfl := List.eq_of_mem_replicate hs
  exact hempty

theorem length_path_vast (length : Nat) : ((vast length).path.getD []).length = length :=
  List.length_replicate

/-- **A path of 2 ^ 32 blocks is not read back** from MessagePack, not even up to absent lists: its
length is announced in four bytes, which hold 0. -/
theorem not_read_write_vast :
    (vast (2 ^ 32)).Spelled ∧ Msg.arrayHead (2 ^ 32) = [0xDD, 0, 0, 0, 0] ∧
      ∀ r, read ((vast (2 ^ 32)).write .msgpack) "msgpack" = .ok r →
        r.path.getD [] ≠ (vast (2 ^ 32)).path.getD [] := by
  refine ⟨spelled_vast _, by decide, fun r hr hpath => ?_⟩
  have hlen := (carried_of_read hr).path_length
  rw [hpath, length_path_vast] at hlen
  exact lt_irrefl _ hlen

end Report

end WorstCase
