import WorstCase.Proofs.Graph.Branch

/-!
# What is accepted as a listing

A listing may be any text. Records are found by searching for letters, and uids are read from the
middle of block variables, signs and leading zeros included, so that different variables may denote
the same uid. Even so the verdict on a text is clear (`Graph.ofListing_verdict`).

* **What is accepted is well formed** (`Graph.WellFormed`). There is one block for each record, in
  the order of the records, and all that the graph refers to is there.
* **What is refused has a fault of a listing** (`Record.IsFault`): a malformed record, an unknown
  label or an unknown block variable. Of the errors in building a graph only one can occur, that two
  variables denote the same uid; labels and variables that repeat are found before, and edges and
  endpoints lead to blocks that have all been added (`Graph.exists_plainEdges_of_addRecords`).
-/

namespace WorstCase

namespace Record

variable {records : List Record} {r start : Record} {e : ReadError}

/-! ### Faults -/

/-- What can be wrong with the records of a listing, each by itself or next to the others. -/
inductive Fault : ReadCause → Prop
  | missingColon : Fault (.malformed .missingColon)
  | missingLabel : Fault (.malformed .missingLabel)
  | duplicateLabel : Fault (.malformed .duplicateLabel)
  | duplicateBlock : Fault (.malformed .duplicateBlock)
  | dominantBlocks {n : Nat} (h : n ≠ 2) : Fault (.malformed (.dominantBlocks n))
  | missingCost : Fault (.malformed .missingCost)
  | badCost : Fault (.malformed .badCost)
  | missingDominator : Fault (.malformed .missingDominator)
  | unknownLabel : Fault .unknownLabel
  | unknownBlock : Fault .unknownBlock
  | badVariable (name : String) : Fault (.badVariable name)

/-- An error in a listing for such a cause. -/
def IsFault (e : ReadError) : Prop :=
  ∃ fragment cause, Fault cause ∧ e = error fragment cause

theorem isFault_error {fragment : List Char} {cause : ReadCause} (h : Fault cause) :
    IsFault (error fragment cause) :=
  ⟨fragment, cause, h, rfl⟩

/-- **The wording of an error in a listing** begins with one of three causes. -/
theorem exists_message_error (fragment : List Char) (cause : ReadCause) :
    ∃ what ∈ ["malformed record", "unknown label", "unknown block variable"], ∃ rest,
      (error fragment cause).message = "parse cfg: " ++ what ++ ": " ++ rest := by
  have hmessage : (error fragment cause).message =
      "parse cfg: " ++ cause.message ++ ": " ++ Text.quoted (.ofList fragment) :=
    congrArg (· ++ cause.message ++ ": " ++ Text.quoted (.ofList fragment))
      (by decide : "parse " ++ "cfg" ++ "" ++ ": " = "parse cfg: ")
  rw [hmessage]
  cases cause with
  | malformed what =>
    refine ⟨"malformed record", by simp, what.message ++ ": " ++ Text.quoted (.ofList fragment), ?_⟩
    have hcause : (ReadCause.malformed what).message = "malformed record" ++ ": " ++ what.message :=
      congrArg (· ++ what.message) (by decide)
    simp only [hcause, String.append_assoc]
  | unknownLabel => exact ⟨"unknown label", by simp, Text.quoted (.ofList fragment), rfl⟩
  | unknownBlock => exact ⟨"unknown block variable", by simp, Text.quoted (.ofList fragment), rfl⟩
  | badVariable name =>
    refine ⟨"unknown block variable", by simp,
      Text.quoted name ++ ": " ++ Text.quoted (.ofList fragment), ?_⟩
    have hcause : (ReadCause.badVariable name).message =
        "unknown block variable" ++ ": " ++ Text.quoted name :=
      congrArg (· ++ Text.quoted name) (by decide)
    simp only [hcause, String.append_assoc]

/-- An error in a listing in which different variables denote the same uid. -/
def IsClash (text : List Char) (e : ReadError) : Prop :=
  ∃ records, readAll text = .ok records ∧ ∃ r ∈ records, ∃ s ∈ records,
    s.name ≠ r.name ∧ s.uid = r.uid ∧
      e = error r.name (.malformed (.build (.duplicateBlock r.uid)))

theorem isFault_of_read {text : List Char} (h : read text = .error e) : IsFault e := by
  unfold read at h
  split at h
  · exact Except.error.inj h ▸ isFault_error .missingColon
  dsimp only at h
  split at h
  · exact Except.error.inj h ▸ isFault_error (.badVariable _)
  split at h
  · exact Except.error.inj h ▸ isFault_error .missingLabel
  · simp at h

theorem isFault_of_readAll {text : List Char} (h : readAll text = .error e) : IsFault e := by
  obtain ⟨t, -, ht⟩ := exists_of_mapM_eq_error h
  exact isFault_of_read ht

theorem isFault_of_repetition? {seen rs : List Record} (h : repetition? seen rs = some e) :
    IsFault e := by
  induction rs generalizing seen with
  | nil => simp [repetition?] at h
  | cons r rs ih =>
    rw [repetition?] at h
    split_ifs at h
    · exact Option.some.inj h ▸ isFault_error .duplicateLabel
    · exact Option.some.inj h ▸ isFault_error .duplicateBlock
    · exact ih h

theorem isFault_of_endpoints (h : endpoints records = .error e) : IsFault e := by
  unfold endpoints at h
  split at h
  · simp at h
  · rename_i hfound
    refine Except.error.inj h ▸ isFault_error (.dominantBlocks fun hlength => ?_)
    obtain ⟨a, b, hab⟩ := List.length_eq_two.mp hlength
    exact hfound a b hab

theorem isFault_of_cost (h : r.cost = .error e) : IsFault e := by
  unfold cost at h
  split at h
  · exact Except.error.inj h ▸ isFault_error .missingCost
  split at h
  · simp at h
  · exact Except.error.inj h ▸ isFault_error .badCost

theorem isFault_of_dominator (h : r.dominator records = .error e) : IsFault e := by
  unfold dominator at h
  split at h
  · exact Except.error.inj h ▸ isFault_error .missingDominator
  dsimp only at h
  split at h
  · simp at h
  split at h
  · simp at h
  · exact Except.error.inj h ▸ isFault_error .unknownBlock

theorem isFault_of_successors (h : r.successors records = .error e) : IsFault e := by
  obtain ⟨label, -, hlabel⟩ := exists_of_mapM_eq_error h
  split at hlabel
  · simp at hlabel
  · exact Except.error.inj hlabel ▸ isFault_error .unknownLabel

theorem isFault_of_block (h : r.block records start = .error e) : IsFault e := by
  obtain hcost | ⟨_, -, h⟩ := bind_eq_error_iff.mp h
  · exact isFault_of_cost hcost
  obtain hdom | ⟨_, -, h⟩ := bind_eq_error_iff.mp h
  · exact isFault_of_dominator hdom
  obtain hsucc | ⟨_, -, h⟩ := bind_eq_error_iff.mp h
  · exact isFault_of_successors hsucc
  · exact absurd h pure_ne_error

/-- Uids that are read can be read. -/
theorem uidOfVariable?_of_readAll {text : List Char} (h : readAll text = .ok records)
    (hr : r ∈ records) : uidOfVariable? r.name = some r.uid := by
  obtain ⟨t, -, ht⟩ := exists_mem_left_of_forall₂ (mapM_eq_ok_iff.mp h) hr
  unfold read at ht
  split at ht
  · simp at ht
  dsimp only at ht
  split at ht
  · simp at ht
  rename_i huid
  split at ht
  · simp at ht
  obtain rfl := Except.ok.inj ht
  exact huid.trans (by simp [uid, huid])

/-- The successors of a block are blocks of records. -/
theorem exists_uid_of_successors {uids : List Int} (h : r.successors records = .ok uids) {u : Int}
    (hu : u ∈ uids) : ∃ s ∈ records, s.uid = u := by
  obtain ⟨label, -, hlabel⟩ := exists_mem_left_of_forall₂ (mapM_eq_ok_iff.mp h) hu
  rcases hfind : records.find? (·.label = label) with _ | s
  · simp [hfind] at hlabel
  · exact ⟨s, List.mem_of_find?_eq_some hfind, by simpa [hfind] using hlabel⟩

end Record

namespace Graph

variable {records rs : List Record} {start stop : Record} {g g' : Graph} {e : ReadError}

/-! ### Building the graph of records -/

/-- Only a uid that is taken keeps a record from being added, where labels do not repeat. -/
theorem addRecords_eq_error
    (hlabels : (g.blocks.map (·.label) ++ rs.map fun r => String.ofList r.label).Nodup)
    (h : addRecords records start g rs = .error e) :
    (∃ r ∈ rs, r.block records start = .error e) ∨
      ∃ before r after, rs = before ++ r :: after ∧
        e = Record.error r.name (.malformed (.build (.duplicateBlock r.uid))) ∧
        r.uid ∈ g.blocks.map (·.uid) ++ before.map Record.uid := by
  induction rs generalizing g with
  | nil => simp [addRecords] at h
  | cons r rs ih =>
    obtain hb | ⟨⟨block, dsts⟩, hb, h⟩ := bind_eq_error_iff.mp h
    · exact .inl ⟨r, List.mem_cons_self, hb⟩
    have huid : block.uid = r.uid := Record.uid_of_block hb
    have hlabel : block.label = String.ofList r.label := Record.label_of_block hb
    dsimp only at h
    by_cases htaken : block.uid ∈ g.blocks.map (·.uid)
    · rw [addBlock, if_pos (block?_isSome_iff.mpr htaken)] at h
      refine .inr ⟨[], r, rs, rfl, ?_, List.mem_append_left _ (huid ▸ htaken)⟩
      rw [← Except.error.inj h, huid]
    have hfresh : block.label ∉ g.blocks.map (·.label) := fun hmem => by
      rw [List.nodup_append] at hlabels
      exact hlabels.2.2 _ hmem _ (List.mem_map_of_mem List.mem_cons_self) hlabel
    rw [addBlock_of_fresh htaken hfresh] at h
    obtain hr | ⟨_, -, h⟩ := bind_eq_error_iff.mp h
    · have hnext : (block.named.label : String) = String.ofList r.label := hlabel
      rcases ih (by simpa [hnext] using hlabels) hr with ⟨s, hs, hblock⟩ |
          ⟨before, s, after, rfl, he, hs⟩
      · exact .inl ⟨s, List.mem_cons_of_mem _ hs, hblock⟩
      · refine .inr ⟨r :: before, s, after, rfl, he, ?_⟩
        have hnamed : block.named.uid = r.uid := huid
        simpa [hnamed] using hs
    · exact absurd h pure_ne_error

/-- **Edges and endpoints cannot fail** once all records have been added. -/
theorem exists_plainEdges_of_addRecords {ids : List EdgeId}
    (hends : records.filter Record.isDominant = [start, stop])
    (h : addRecords records start {} records = .ok (g, ids)) :
    ∃ g₁ g₂, g.addPlainEdges ids = .ok g₁ ∧ g₁.setEndpoints start.uid stop.uid = .ok g₂ := by
  obtain ⟨entries, hentries, hg, hids⟩ := addRecords_eq_ok h
  have hknown : ∀ r ∈ records, r.uid ∈ g.blocks.map (·.uid) := fun r hr => by
    obtain ⟨entry, hentry, hblock⟩ := exists_mem_right_of_forall₂ hentries hr
    rw [hg, ← Record.uid_of_block hblock]
    exact List.mem_map.mpr ⟨entry.1.named, List.mem_map_of_mem hentry, rfl⟩
  have hjoin : ∀ id ∈ ids, id.src ∈ g.blocks.map (·.uid) ∧ id.dst ∈ g.blocks.map (·.uid) := by
    intro id hid
    obtain ⟨entry, hentry, hsrc, hdst⟩ := mem_namedEdges.mp (hids ▸ hid)
    obtain ⟨r, hr, hblock⟩ := exists_mem_left_of_forall₂ hentries hentry
    obtain ⟨_, _, uids, -, -, hsucc, rfl⟩ := Record.block_eq_ok_iff.mp hblock
    obtain ⟨s, hs, hsuid⟩ := Record.exists_uid_of_successors hsucc hdst
    exact ⟨hsrc ▸ hknown r hr, hsuid ▸ hknown s hs⟩
  have hdominant : ∀ r ∈ [start, stop], r.uid ∈ g.blocks.map (·.uid) := fun r hr =>
    hknown r (List.mem_of_mem_filter (hends ▸ hr))
  exact ⟨_, _, addPlainEdges_of_known hjoin, setEndpoints_of_known (hdominant start (by simp))
    (hdominant stop (by simp))⟩

/-! ### Verdicts -/

/-- A block as a record describes it. The uid is the one that is read from the variable. -/
structure Describes (records : List Record) (r : Record) (b : Block) : Prop where
  uid : uidOfVariable? r.name = some b.uid
  label : b.label = String.ofList r.label
  written : b.written = String.ofList r.name
  cost : r.cost = .ok b.cost
  dominator : r.dominator records = .ok b.dominator

/-- What every graph is like that is read from records. -/
structure WellFormed (records : List Record) (g : Graph) : Prop where
  /-- There is one block for each record, in their order. -/
  blocks : List.Forall₂ (Describes records) records g.blocks
  uids_nodup : (g.blocks.map (·.uid)).Nodup
  labels_nodup : (g.blocks.map (·.label)).Nodup
  label_ne : ∀ b ∈ g.blocks, b.label ≠ ""
  dominator : ∀ b ∈ g.blocks, b.dominator = noDominator ∨ g.Known b.dominator
  start_known : g.Known g.start
  stop_known : g.Known g.stop
  start_ne_stop : g.start ≠ g.stop
  edges_nodup : (g.edges.map (·.id)).Nodup
  edge_known : ∀ e ∈ g.edges, g.Known e.id.src ∧ g.Known e.id.dst
  edge_cost : ∀ e ∈ g.edges, e.cost = 0
  cuts : g.cuts = []

theorem Lists.describes {entries : List (Block × List Int)}
    (hl : Lists records start stop entries g) {text : List Char}
    (hread : Record.readAll text = .ok records) :
    List.Forall₂ (Describes records) records g.blocks := by
  have hmem := (List.forall₂_and_left (p := (· ∈ records)) _ _).mpr ⟨fun r hr => hr, hl.parsed⟩
  rw [hl.blocks, List.forall₂_map_right_iff]
  refine hmem.imp fun r entry h => ?_
  obtain ⟨hr, hblock⟩ := h
  have hname : String.ofList r.name ≠ "" := by
    simpa [← String.toList_inj] using Record.name_ne_nil_of_readAll hread r hr
  obtain ⟨cost, dominator, uids, hcost, hdom, -, rfl⟩ := Record.block_eq_ok_iff.mp hblock
  exact ⟨Record.uidOfVariable?_of_readAll hread hr, rfl, if_neg hname, hcost, hdom⟩

/-- **What is accepted is well formed.** -/
theorem wellFormed_of_ofListing {text : String} (h : ofListing text = .ok g) :
    ∃ records, Record.readAll text.toList = .ok records ∧ WellFormed records g := by
  obtain ⟨records, start, stop, entries, hread, hl⟩ := lists_of_ofListing h
  have hg := valid_of_ofListing h
  have hdescribes := hl.describes hread
  refine ⟨records, hread, hdescribes, hg.uids_nodup, ?_, fun b hb => ?_, fun b hb => ?_,
    hl.start_known, hl.stop_known, hl.start_ne_stop hg, hg.ids_nodup,
    fun e he => hg.ends_known _ (List.mem_map_of_mem he), hl.edge_cost, hl.cuts⟩
  · rw [hl.blocks, List.map_map]
    exact hl.labels_nodup
  · obtain ⟨r, hr, hb⟩ := exists_mem_left_of_forall₂ hdescribes hb
    rw [hb.label, ne_eq, ← String.toList_inj]
    simpa using Record.label_ne_nil_of_readAll hread r hr
  · obtain ⟨r, hr, hb⟩ := exists_mem_left_of_forall₂ hdescribes hb
    refine (Record.dominator_eq_ok hb.dominator).imp_right fun hs => ?_
    obtain ⟨s, hs, hsuid⟩ := hs
    rw [Known, hl.uids_eq, ← hsuid]
    exact List.mem_map_of_mem hs

/-- **What is refused has a fault or a clash.** -/
theorem isFault_or_isClash_of_ofListing {text : String} (h : ofListing text = .error e) :
    Record.IsFault e ∨ Record.IsClash text.toList e := by
  obtain hread | ⟨records, hrecords, h⟩ := bind_eq_error_iff.mp h
  · exact .inl (Record.isFault_of_readAll hread)
  dsimp only at h
  split at h
  · rename_i hrepetition
    exact .inl (throw_eq_error_iff.mp h ▸ Record.isFault_of_repetition? hrepetition)
  rename_i hrepetition
  have hfresh : Record.repetition? [] records = none :=
    Option.eq_none_iff_forall_ne_some.mpr hrepetition
  obtain hends | ⟨⟨start, stop⟩, hends, h⟩ := bind_eq_error_iff.mp h
  · exact .inl (Record.isFault_of_endpoints hends)
  obtain ⟨hlabels, hnames⟩ :=
    Record.nodup_of_repetition?_eq_none hfresh List.nodup_nil List.nodup_nil
  obtain hadd | ⟨⟨g₁, ids⟩, hadd, h⟩ := bind_eq_error_iff.mp h
  · have hlabels' : (records.map fun r => String.ofList r.label).Nodup := by
      have hmap := hlabels.map fun _ _ => String.ofList_injective
      rw [List.nil_append, List.map_map] at hmap
      exact hmap
    rcases addRecords_eq_error (by simpa using hlabels') hadd with ⟨r, -, hblock⟩ |
        ⟨before, r, after, rfl, he, htaken⟩
    · exact .inl (Record.isFault_of_block hblock)
    · obtain ⟨s, hs, hsuid⟩ := List.mem_map.mp htaken
      refine .inr ⟨_, hrecords, r, by simp, s, by simp [hs], fun hname => ?_, hsuid, he⟩
      rw [List.nil_append, List.map_append, List.map_cons] at hnames
      exact (List.nodup_append.mp hnames).2.2 _ (List.mem_map_of_mem hs) _ List.mem_cons_self hname
  obtain ⟨g₂, g₃, hedges, hset⟩ := exists_plainEdges_of_addRecords (endpoints_eq_ok hends) hadd
  simp [hedges, hset, bind, Except.bind, pure, Except.pure] at h

/-- **What becomes of a listing.** If it is accepted, its graph is well formed. If it is refused,
there is a fault in its records, or two different variables denote the same uid; no other error
of building a graph ever shows, and the error is worded as one of three causes. -/
theorem ofListing_verdict (text : String) :
    (∀ g, ofListing text = .ok g →
      ∃ records, Record.readAll text.toList = .ok records ∧ WellFormed records g) ∧
    ∀ e, ofListing text = .error e →
      (Record.IsFault e ∨ Record.IsClash text.toList e) ∧
        (∀ b, e.cause = .malformed (.build b) → ∃ uid, b = .duplicateBlock uid) ∧
        ∃ what ∈ ["malformed record", "unknown label", "unknown block variable"], ∃ rest,
          e.message = "parse cfg: " ++ what ++ ": " ++ rest := by
  refine ⟨fun g h => wellFormed_of_ofListing h, fun e h => ?_⟩
  have hverdict := isFault_or_isClash_of_ofListing h
  refine ⟨hverdict, ?_⟩
  rcases hverdict with ⟨fragment, cause, hfault, rfl⟩ | ⟨records, -, r, -, s, -, -, -, rfl⟩
  · exact ⟨fun b hb => by cases hfault <;> simp [Record.error] at hb,
      Record.exists_message_error fragment cause⟩
  · refine ⟨fun b hb => ⟨r.uid, ?_⟩, Record.exists_message_error _ _⟩
    simpa [Record.error] using hb.symm

/-- A listing with a signed uid, a uid with a leading zero and a dominator that is no endpoint. -/
def signedText : String :=
  "BasicBlock bd_0: 1
    A: Dominator = NULL
    br label %M, label %B
  BasicBlock b_-7_x: 2
    M: Dominator = bd_0
    br label %B
  BasicBlock bd_01: 4
    B: Dominator = b_-7_x
    ret void"

/-- A listing whose variables differ, though not in the uids that they denote. -/
def clashingText : String :=
  "BasicBlock bd_0: 1
    A: Dominator = NULL
    br label %B
  BasicBlock bd_+0: 4
    B: Dominator = bd_0
    ret void"

theorem ofListing_verdict_signed :
    (∃ g, ofListing signedText = .ok g ∧ g.blocks.map (·.uid) = [0, -7, 1] ∧
      ∃ records, Record.readAll signedText.toList = .ok records ∧ WellFormed records g) ∧
    ∃ e, ofListing clashingText = .error e ∧
      (Record.IsFault e ∨ Record.IsClash clashingText.toList e) := by
  have haccepted : (ofListing signedText).toOption.map (fun g => g.blocks.map (·.uid)) =
      some [0, -7, 1] := by
    rw [ofListing, signedText, String.toList_ofList]
    decide +kernel
  have hrefused : (ofListing clashingText).toOption = none := by
    rw [ofListing, clashingText, String.toList_ofList]
    decide +kernel
  obtain ⟨g, hg, huids⟩ := Option.map_eq_some_iff.mp haccepted
  refine ⟨⟨g, ok_of_toOption_eq_some hg, huids,
    (ofListing_verdict signedText).1 g (ok_of_toOption_eq_some hg)⟩, ?_⟩
  rcases he : ofListing clashingText with e | g'
  · exact ⟨e, rfl, ((ofListing_verdict clashingText).2 e he).1⟩
  · simp [he, Except.toOption] at hrefused

end Graph

end WorstCase
