import WorstCase.Graph.LabelMap
import WorstCase.Proofs.Encoding.Emission
import WorstCase.Proofs.Graph.Acceptance
import WorstCase.Proofs.Text.Lines
import WorstCase.Proofs.Text.Trimmed

/-!
# Label maps are read back

A label map has a line for each block: the variable of the block as the listing writes it, a comma,
and the label. Reading looks at the line again in its own way. It trims it, cuts it at the first
comma, takes the uid out of the variable, and refuses labels and uids that an earlier line has.

Nothing of this can go wrong with a graph that comes from a listing (`LabelMap.read_labelMap`):

* variables and labels are trimmed, so **trimming a line changes nothing**, whatever characters it
  holds (`LabelMap.trim_content_line`);
* the variable holds no comma, so the line is cut behind it, and the label may hold any;
* the uid of a block is the one in its variable, and **neither uids nor labels repeat**.
-/

namespace WorstCase

namespace Record

variable {text : List Char} {records : List Record} {r : Record}

theorem isTrimmed_of_labelOf? {body label : List Char} (h : labelOf? body = some label) :
    Text.IsTrimmed label := by
  rw [labelOf?, Option.ite_none_left_eq_some] at h
  obtain ⟨-, hsome⟩ := h
  rw [← Option.some_inj.mp hsome]
  split
  · rename_i rest _
    rcases hwords : Text.words rest with _ | ⟨w, ws⟩
    · exact Text.isTrimmed_nil
    · exact Text.isTrimmed_of_mem_words (hwords ▸ List.mem_cons_self)
  · split
    · exact Text.isTrimmed_trim _
    · exact Text.isTrimmed_nil

/-- The variable and the label of a record are trimmed. -/
theorem isTrimmed_of_readAll (h : readAll text = .ok records) (hr : r ∈ records) :
    Text.IsTrimmed r.name ∧ Text.IsTrimmed r.label := by
  obtain ⟨t, -, ht⟩ := exists_mem_left_of_forall₂ (mapM_eq_ok_iff.mp h) hr
  unfold read at ht
  split at ht
  · simp at ht
  dsimp only at ht
  split at ht
  · simp at ht
  split at ht
  · simp at ht
  rename_i label hlabel
  obtain rfl := Except.ok.inj ht
  exact ⟨Text.isTrimmed_trim _, isTrimmed_of_labelOf? hlabel⟩

end Record

namespace LabelMap

variable {name label line : List Char} {known : List (String × Int)} {uid : Int} {n : Nat}

/-! ### Lines -/

/-- The carriage return that a line reader takes away is a blank. -/
theorem trim_content (line : List Char) : Text.trim (Text.content line) = Text.trim line := by
  by_cases h : ['\r'] <:+ line
  · obtain ⟨rest, rfl⟩ := h
    have hblank : Text.isBlankText ['\r'] = true := by decide
    rw [Text.content, Text.dropSuffix_append, Text.trim_append_blank hblank]
  · rw [Text.content, Text.dropSuffix_of_not_suffix h]

/-- **A line comes through reading unchanged.** -/
theorem trim_content_line (hname : Text.IsTrimmed name) (hne : name ≠ [])
    (hlabel : Text.IsTrimmed label) (hlabelNe : label ≠ []) :
    Text.trim (Text.content (name ++ ',' :: label)) = name ++ ',' :: label := by
  rw [trim_content, (hname.append_cons (by decide) hne hlabel hlabelNe).trim_eq]

/-- **Reading a line** whose label and uid are new. -/
theorem readLine_eq_ok (hcomma : ',' ∉ name) (hlabel : label ≠ [])
    (huid : uidOfVariable? name = some uid) (hfresh : String.ofList label ∉ known.map (·.1))
    (hfreshUid : uid ∉ known.map (·.2)) :
    readLine known n (name ++ ',' :: label) = .ok (String.ofList label, uid) := by
  have hknown : known.any (·.1 = String.ofList label) = false := by
    rw [List.any_eq_false]
    exact fun entry hentry => by simpa using fun heq => hfresh (List.mem_map.mpr ⟨entry, hentry, heq⟩)
  have hfind : known.find? (·.2 = uid) = none := by
    rw [List.find?_eq_none]
    exact fun entry hentry => by
      simpa using fun heq => hfreshUid (List.mem_map.mpr ⟨entry, hentry, heq⟩)
  unfold readLine
  simp [Text.cut?_append_cons_self hcomma, hlabel, huid, hknown, hfind]

/-- A block whose line can be read. -/
structure Legible (b : Block) : Prop where
  written_trimmed : Text.IsTrimmed b.written.toList
  written_ne : b.written.toList ≠ []
  label_trimmed : Text.IsTrimmed b.label.toList
  label_ne : b.label.toList ≠ []
  uid : uidOfVariable? b.written.toList = some b.uid
  comma_notMem : ',' ∉ b.written.toList

/-- The line of a block in a label map. -/
def lineOf (b : Block) : List Char :=
  b.written.toList ++ ',' :: b.label.toList

/-- **Reading the lines of blocks** gives their labels and uids, in the order of the lines. -/
theorem readLines_map_lineOf {blocks : List Block} (hblocks : ∀ b ∈ blocks, Legible b)
    (hlabels : (known.map (·.1) ++ blocks.map (·.label)).Nodup)
    (huids : (known.map (·.2) ++ blocks.map (·.uid)).Nodup) :
    readLines known n (blocks.map fun b => Text.content (lineOf b)) =
      .ok (known ++ blocks.map fun b => (b.label, b.uid)) := by
  induction blocks generalizing known n with
  | nil => simp [readLines]
  | cons b blocks ih =>
    rw [List.forall_mem_cons] at hblocks
    obtain ⟨hb, hrest⟩ := hblocks
    have hline : Text.trim (Text.content (lineOf b)) = lineOf b :=
      trim_content_line hb.written_trimmed hb.written_ne hb.label_trimmed hb.label_ne
    have hnew : b.label ∉ known.map (·.1) := fun h =>
      (List.nodup_append.mp hlabels).2.2 _ h _ List.mem_cons_self rfl
    have hnewUid : b.uid ∉ known.map (·.2) := fun h =>
      (List.nodup_append.mp huids).2.2 _ h _ List.mem_cons_self rfl
    have hread : readLine known n (lineOf b) = .ok (b.label, b.uid) := by
      rw [← String.ofList_toList (s := b.label)] at hnew
      rw [lineOf, readLine_eq_ok hb.comma_notMem hb.label_ne hb.uid hnew hnewUid,
        String.ofList_toList]
    have hne : (lineOf b).isEmpty = false := by
      simp [lineOf]
    rw [List.map_cons, readLines]
    simp only [hline, hne, hread, bind, Except.bind]
    rw [if_neg Bool.false_ne_true, ih hrest (by simpa using hlabels) (by simpa using huids)]
    simp

/-! ### Label maps -/

theorem toList_labelMap (g : Graph) :
    g.labelMap.toList = (g.sortedBlocks.map lineOf).flatMap (· ++ ['\n']) := by
  simp [Graph.labelMap, String.toList_join, List.flatMap_map, lineOf]

/-- The blocks of a listing are legible. -/
theorem legible_of_ofListing {text : String} {g : Graph} (h : Graph.ofListing text = .ok g)
    {b : Block} (hb : b ∈ g.blocks) (hcomma : ',' ∉ b.written.toList) : Legible b := by
  obtain ⟨records, hread, hg⟩ := Graph.wellFormed_of_ofListing h
  obtain ⟨r, hr, hdescribes⟩ := exists_mem_left_of_forall₂ hg.blocks hb
  obtain ⟨hname, hlabel⟩ := Record.isTrimmed_of_readAll hread hr
  have hwritten : b.written.toList = r.name := by rw [hdescribes.written, String.toList_ofList]
  have hlabelled : b.label.toList = r.label := by rw [hdescribes.label, String.toList_ofList]
  exact
    { written_trimmed := hwritten ▸ hname
      written_ne := hwritten ▸ Record.name_ne_nil_of_readAll hread r hr
      label_trimmed := hlabelled ▸ hlabel
      label_ne := hlabelled ▸ Record.label_ne_nil_of_readAll hread r hr
      uid := hwritten ▸ hdescribes.uid
      comma_notMem := hcomma }

/-- **A label map is read back.** What is read from the label map of a graph that comes from a
listing are the labels of the graph with their uids, each label once, as long as no variable holds a
comma, no line feed stands in a variable or a label, and every line is short enough for a reader.
Labels may hold commas, blanks and any characters. -/
theorem read_labelMap {text : String} {g : Graph} (h : Graph.ofListing text = .ok g)
    (hwritten : ∀ b ∈ g.blocks, ',' ∉ b.written.toList ∧ '\n' ∉ b.written.toList)
    (hlabel : ∀ b ∈ g.blocks, '\n' ∉ b.label.toList)
    (hshort : ∀ b ∈ g.blocks, (b.written ++ "," ++ b.label).length < Text.Lines.room) :
    ∃ entries, read g.labelMap = .ok entries ∧ entries.Perm g.labels ∧
      (entries.map (·.1)).Nodup := by
  obtain ⟨records, -, hg⟩ := Graph.wellFormed_of_ofListing h
  have hperm := (Graph.valid_of_ofListing h).sortedBlocks_perm
  have hrows : Text.rows g.labelMap.toList = g.sortedBlocks.map lineOf := by
    rw [toList_labelMap, ← List.append_nil (List.flatMap _ _), Text.rows_flatMap, Text.rows_nil,
      List.append_nil]
    intro line hline
    obtain ⟨b, hb, rfl⟩ := List.mem_map.mp hline
    have hb := hperm.mem_iff.mp hb
    simp [lineOf, (hwritten b hb).2, hlabel b hb]
  have hroom : ∀ row ∈ Text.rows g.labelMap.toList, row.length < Text.Lines.room := by
    rw [hrows]
    intro line hline
    obtain ⟨b, hb, rfl⟩ := List.mem_map.mp hline
    have hb := hshort b (hperm.mem_iff.mp hb)
    rwa [← String.length_toList, String.toList_append, String.toList_append, List.append_assoc]
      at hb
  have hlabels : (g.sortedBlocks.map (·.label)).Nodup := (hperm.map _).nodup_iff.mpr hg.labels_nodup
  have huids : (g.sortedBlocks.map (·.uid)).Nodup := (hperm.map _).nodup_iff.mpr hg.uids_nodup
  have hlegible : ∀ b ∈ g.sortedBlocks, Legible b := fun b hb =>
    legible_of_ofListing h (hperm.mem_iff.mp hb) (hwritten b (hperm.mem_iff.mp hb)).1
  have hread : readLines [] 1 (g.sortedBlocks.map fun b => Text.content (lineOf b)) =
      .ok (g.sortedBlocks.map fun b => (b.label, b.uid)) :=
    readLines_map_lineOf hlegible hlabels huids
  refine ⟨g.sortedBlocks.map fun b => (b.label, b.uid), ?_, ?_, ?_⟩
  · rw [read, Text.Lines.read_of_short hroom, hrows, List.map_map]
    simp only [Function.comp_def, hread]
    rfl
  · have hall : g.blocks.filter (·.label ≠ "") = g.blocks :=
      List.filter_eq_self.mpr fun b hb => decide_eq_true (hg.label_ne b hb)
    rw [Graph.labels, hall]
    exact hperm.map _
  · rwa [List.map_map]

/-- A listing with a label that holds a comma, blanks and a character of two octets. -/
def labelledText : String :=
  "BasicBlock bd_0: 1
    A, or \xc3\xa9: Dominator = NULL
    br label %M, label %B
  BasicBlock b_-7_x: 2
    M: Dominator = bd_0
    br label %B
  BasicBlock bd_01: 4
    B: Dominator = b_-7_x
    ret void"

theorem read_labelMap_labelled : ∃ g, Graph.ofListing labelledText = .ok g ∧
    g.labels = [("A, or \xc3\xa9", 0), ("M", -7), ("B", 1)] ∧
    ∃ entries, read g.labelMap = .ok entries ∧ entries.Perm g.labels ∧
      (entries.map (·.1)).Nodup := by
  have haccepted : (Graph.ofListing labelledText).toOption.any (fun g => decide
      (g.labels = [("A, or \xc3\xa9", 0), ("M", -7), ("B", 1)] ∧
        (∀ b ∈ g.blocks, ',' ∉ b.written.toList ∧ '\n' ∉ b.written.toList) ∧
        (∀ b ∈ g.blocks, '\n' ∉ b.label.toList) ∧
        ∀ b ∈ g.blocks, (b.written ++ "," ++ b.label).length < Text.Lines.room)) = true := by
    rw [Graph.ofListing, labelledText, String.toList_ofList]
    decide +kernel
  obtain ⟨g, hg, hall⟩ := (Option.any_eq_true _ _).mp haccepted
  obtain ⟨hlabels, hwritten, hlabel, hshort⟩ := of_decide_eq_true hall
  have hg := ok_of_toOption_eq_some hg
  exact ⟨g, hg, hlabels, read_labelMap hg hwritten hlabel hshort⟩

end LabelMap

end WorstCase
