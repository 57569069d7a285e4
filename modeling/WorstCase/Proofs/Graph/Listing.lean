import WorstCase.Proofs.Graph.Walk
import Mathlib.Data.List.Forall2

/-!
# What listings describe

Reading a listing goes through the records twice and can fail at every record. If it succeeds, the
graph follows from the records alone: `Graph.Lists` says how its blocks, arcs, endpoints and costs
come from them, and `Graph.lists_of_ofListing` that every listing that is read gives such a graph.

* Every record gives one block, in order, and every edge leads from the block of a record to one of
  the successors that its branch names; edges cost nothing and there are no cuts.
* Conversely, a listing is read if its records give blocks with different uids and labels, and
  their edges join these blocks (`Graph.ofListing_of_parsed`).
* The start and the end are different blocks of the graph (`Graph.Lists.start_ne_stop`,
  `Graph.Lists.start_known`, `Graph.Lists.stop_known`).
-/

namespace WorstCase

section Forall₂

variable {α β : Type} {R : α → β → Prop} {l : List α} {l' : List β}

theorem exists_mem_right_of_forall₂ (h : List.Forall₂ R l l') {a : α} (ha : a ∈ l) :
    ∃ b ∈ l', R a b := by
  induction h with
  | nil => exact absurd ha List.not_mem_nil
  | @cons a' b l l' hab _ ih =>
    rcases List.mem_cons.mp ha with rfl | ha
    · exact ⟨b, List.mem_cons_self, hab⟩
    · obtain ⟨b', hb', hR⟩ := ih ha
      exact ⟨b', List.mem_cons_of_mem _ hb', hR⟩

theorem exists_mem_left_of_forall₂ (h : List.Forall₂ R l l') {b : β} (hb : b ∈ l') :
    ∃ a ∈ l, R a b :=
  exists_mem_right_of_forall₂ h.flip hb

end Forall₂

namespace Record

variable {records : List Record} {r start : Record} {entry : Block × List Int}

/-! ### The block of a record -/

/-- **What a record gives**, and when. -/
theorem block_eq_ok_iff :
    r.block records start = .ok entry ↔
      ∃ cost dominator uids, r.cost = .ok cost ∧ r.dominator records = .ok dominator ∧
        r.successors records = .ok uids ∧
        entry =
          ({ uid := r.uid
             label := String.ofList r.label
             selector := String.ofList (r.selector start)
             written := String.ofList r.name
             cost
             dominator }, uids) := by
  rw [block, bind_eq_ok_iff]
  simp only [bind_eq_ok_iff, pure_eq_ok_iff, exists_and_left, eq_comm (b := entry)]

theorem uid_of_block (h : r.block records start = .ok entry) : entry.1.uid = r.uid := by
  obtain ⟨_, _, _, -, -, -, rfl⟩ := block_eq_ok_iff.mp h
  rfl

theorem label_of_block (h : r.block records start = .ok entry) :
    entry.1.label = String.ofList r.label := by
  obtain ⟨_, _, _, -, -, -, rfl⟩ := block_eq_ok_iff.mp h
  rfl

/-- What is read of a branch: the line behind the first `br`. -/
theorem targets_of_cut? {body rest : List Char}
    (h : (Text.cut? "br ".toList body).map Prod.snd = some rest) :
    targets body = (Text.pieces "label".toList (Text.firstLine rest)).filterMap target? := by
  obtain ⟨⟨before, after⟩, hcut, rfl⟩ := Option.map_eq_some_iff.mp h
  simp only [targets, hcut]

theorem dominator_of_block (h : r.block records start = .ok entry) :
    r.dominator records = .ok entry.1.dominator := by
  obtain ⟨_, _, _, -, hdom, -, rfl⟩ := block_eq_ok_iff.mp h
  exact hdom

end Record

namespace Graph

/-- How a graph comes from records: `entries` are the blocks of the records with their
successors. -/
structure Lists (records : List Record) (start stop : Record) (entries : List (Block × List Int))
    (g : Graph) : Prop where
  fresh : Record.repetition? [] records = none
  endpoints : records.filter Record.isDominant = [start, stop]
  parsed : List.Forall₂ (fun r entry => r.block records start = .ok entry) records entries
  blocks : g.blocks = entries.map (·.1.named)
  arc_iff : ∀ {a c : Int}, g.Arc a c ↔ ∃ entry ∈ entries, entry.1.uid = a ∧ c ∈ entry.2
  edge_cost : ∀ e ∈ g.edges, e.cost = 0
  cuts : g.cuts = []
  start_eq : g.start = start.uid
  stop_eq : g.stop = stop.uid

/-! ### Reading -/

/-- Adding records appends their blocks and collects the edges out of them. -/
theorem addRecords_eq_ok {records : List Record} {start : Record} {rs : List Record}
    {g g' : Graph} {ids : List EdgeId} (h : addRecords records start g rs = .ok (g', ids)) :
    ∃ entries, List.Forall₂ (fun r entry => r.block records start = .ok entry) rs entries ∧
      g' = { g with blocks := g.blocks ++ entries.map (·.1.named) } ∧
      ids = entries.flatMap fun entry => entry.2.map fun dst => ⟨entry.1.uid, dst⟩ := by
  induction rs generalizing g g' ids with
  | nil =>
    obtain ⟨rfl, rfl⟩ := Prod.mk.inj (Except.ok.inj h)
    exact ⟨[], .nil, by simp, rfl⟩
  | cons r rs ih =>
    obtain ⟨block, dsts, g₁, edges, hb, ha, hr, rfl⟩ := addRecords_cons_eq_ok_iff.mp h
    obtain ⟨entries, hentries, rfl, rfl⟩ := ih hr
    obtain ⟨-, rfl⟩ := addBlock_eq_ok ha
    exact ⟨(block, dsts) :: entries, .cons hb hentries, by simp, by simp⟩

/-- Adding plain edges adds edges that cost nothing, with the given identifiers. -/
theorem addPlainEdges_eq_ok {ids : List EdgeId} {g g' : Graph}
    (h : g.addPlainEdges ids = .ok g') :
    g' = { g with edges := g'.edges } ∧
      (∀ {id}, id ∈ g'.edges.map (·.id) ↔ id ∈ g.edges.map (·.id) ∨ id ∈ ids) ∧
      ∀ e ∈ g'.edges, e ∈ g.edges ∨ e.cost = 0 := by
  induction ids generalizing g with
  | nil =>
    obtain rfl := Except.ok.inj h
    exact ⟨rfl, by simp, fun e he => .inl he⟩
  | cons id ids ih =>
    obtain ⟨g₁, he, h⟩ := addPlainEdges_cons_eq_ok_iff.mp h
    obtain ⟨hframe, hids, hcost⟩ := ih h
    unfold addEdge at he
    split_ifs at he with hold
    · -- the edge is there already
      obtain rfl := Except.ok.inj he
      refine ⟨hframe, fun {id'} => ?_, hcost⟩
      rw [hids, List.mem_cons]
      have hmem := edge?_isSome_iff.mp hold
      constructor
      · exact Or.imp_right .inr
      · rintro (h' | rfl | h')
        · exact .inl h'
        · exact .inl hmem
        · exact .inr h'
    · obtain rfl := Except.ok.inj he
      refine ⟨hframe, fun {id'} => ?_, fun e he' => ?_⟩
      · rw [hids, List.map_append, List.mem_append, List.map_singleton, List.mem_singleton,
          List.mem_cons, or_assoc]
      · rcases hcost e he' with hmem | hzero
        · rcases List.mem_append.mp hmem with hmem | hmem
          · exact .inl hmem
          · obtain rfl := List.mem_singleton.mp hmem
            exact .inr rfl
        · exact .inr hzero

theorem endpoints_eq_ok {records : List Record} {start stop : Record}
    (h : Record.endpoints records = .ok (start, stop)) :
    records.filter Record.isDominant = [start, stop] := by
  unfold Record.endpoints at h
  split at h
  · rename_i first second hfilter
    obtain ⟨rfl, rfl⟩ := Prod.mk.inj (Except.ok.inj h)
    exact hfilter
  · simp at h

/-- **Every listing that is read describes its graph.** -/
theorem lists_of_ofListing {text : String} {g : Graph} (h : ofListing text = .ok g) :
    ∃ records start stop entries, Record.readAll text.toList = .ok records ∧
      Lists records start stop entries g := by
  obtain ⟨records, start, stop, g₁, ids, g₂, hrecords, hfresh, hends, hadd, hedges, hset⟩ :=
    ofListing_eq_ok_iff.mp h
  obtain ⟨entries, hentries, rfl, rfl⟩ := addRecords_eq_ok hadd
  obtain ⟨hframe, hids, hcost⟩ := addPlainEdges_eq_ok hedges
  obtain rfl := setEndpoints_eq_ok hset
  refine ⟨records, start, stop, entries, hrecords, hfresh, endpoints_eq_ok hends, hentries, ?_,
    fun {a c} => ?_, fun e he => (hcost e he).resolve_left List.not_mem_nil, ?_, rfl, rfl⟩
  · rw [hframe]
    simp
  · refine hids.trans ?_
    simp only [List.map_nil, List.not_mem_nil, false_or, List.mem_flatMap, List.mem_map,
      EdgeId.mk.injEq]
    refine exists_congr fun entry => and_congr_right fun _ => ?_
    constructor
    · rintro ⟨dst, hdst, ha, rfl⟩
      exact ⟨ha, hdst⟩
    · rintro ⟨ha, hc⟩
      exact ⟨c, hc, ha, rfl⟩
  · rw [hframe]

section Readable

variable {records : List Record} {start stop : Record} {g : Graph}

/-! ### Records that can be read -/

theorem addBlock_of_fresh {b : Block} (huid : b.uid ∉ g.blocks.map (·.uid))
    (hlabel : b.label ∉ g.blocks.map (·.label)) :
    g.addBlock b = .ok { g with blocks := g.blocks ++ [b.named] } := by
  have hnone : ¬ (g.uid? b.label).isSome := by
    rw [uid?, Option.isSome_map, List.find?_isSome]
    rintro ⟨x, hx, hfound⟩
    simp only [decide_eq_true_eq] at hfound
    exact hlabel (List.mem_map.mpr ⟨x, hx, hfound.2⟩)
  rw [addBlock, if_neg (mt block?_isSome_iff.mp huid), if_neg hnone]

theorem not_isNone_of_known {u : Int} (h : u ∈ g.blocks.map (·.uid)) : ¬ (g.block? u).isNone := by
  rw [Option.isNone_iff_eq_none, ← ne_eq, ← Option.isSome_iff_ne_none]
  exact block?_isSome_iff.mpr h

theorem setEndpoints_of_known {a b : Int} (ha : a ∈ g.blocks.map (·.uid))
    (hb : b ∈ g.blocks.map (·.uid)) :
    g.setEndpoints a b = .ok { g with start := a, stop := b } := by
  rw [setEndpoints, if_neg (not_isNone_of_known ha), if_neg (not_isNone_of_known hb)]

/-- Blocks with different uids and labels can be added. -/
theorem addRecords_of_parsed {rs : List Record} {entries : List (Block × List Int)}
    (hparsed : List.Forall₂ (fun r entry => r.block records start = .ok entry) rs entries)
    (huids : (g.blocks.map (·.uid) ++ entries.map (·.1.uid)).Nodup)
    (hlabels : (g.blocks.map (·.label) ++ entries.map (·.1.label)).Nodup) :
    addRecords records start g rs =
      .ok ({ g with blocks := g.blocks ++ entries.map (·.1.named) },
        entries.flatMap fun entry => entry.2.map fun dst => ⟨entry.1.uid, dst⟩) := by
  induction hparsed generalizing g with
  | nil => simp [addRecords]
  | @cons r entry rs entries hr _ ih =>
    have hnew : ∀ {κ : Type} {known : List κ} {k : κ} {ks : List κ},
        (known ++ k :: ks).Nodup → k ∉ known := fun hnd hk =>
      (List.nodup_append.mp hnd).2.2 _ hk _ List.mem_cons_self rfl
    have hrest := ih (g := { g with blocks := g.blocks ++ [entry.1.named] })
      (by simpa [Block.named] using huids) (by simpa [Block.named] using hlabels)
    rw [List.map_cons, List.append_cons, List.flatMap_cons]
    exact addRecords_cons_eq_ok_iff.mpr ⟨entry.1, entry.2, _, _, hr,
      addBlock_of_fresh (hnew huids) (hnew hlabels), hrest, rfl⟩

/-- Edges between known blocks can be added, each of them once. -/
theorem addPlainEdges_of_known {ids : List EdgeId}
    (h : ∀ id ∈ ids, id.src ∈ g.blocks.map (·.uid) ∧ id.dst ∈ g.blocks.map (·.uid)) :
    g.addPlainEdges ids =
      .ok { g with edges := g.edges ++
              (ids.removeAll (g.edges.map (·.id))).eraseDups.map fun id => { id } } := by
  induction ids generalizing g with
  | nil => simp [addPlainEdges]
  | cons id ids ih =>
    obtain ⟨⟨hsrc, hdst⟩, hrest⟩ := List.forall_mem_cons.mp h
    rw [addPlainEdges, addEdge]
    by_cases hold : (g.edge? id.src id.dst).isSome
    · have hmem : id ∈ g.edges.map (·.id) := edge?_isSome_iff.mp hold
      rw [if_pos hold, List.cons_removeAll, if_neg (by simpa using hmem)]
      exact ih hrest
    · have hmem : id ∉ g.edges.map (·.id) := fun hmem => hold (edge?_isSome_iff.mpr hmem)
      have hremove : ids.removeAll (g.edges.map (·.id) ++ [id]) =
          (ids.removeAll (g.edges.map (·.id))).filter fun id' => !id' == id := by
        simp [List.removeAll, List.filter_filter, beq_eq_decide, Bool.and_comm]
      have hstep := ih (g := { g with edges := g.edges ++ [{ id }] }) hrest
      simp only [List.map_append, List.map_singleton, hremove] at hstep
      rw [if_neg hold, if_neg (not_isNone_of_known hsrc), if_neg (not_isNone_of_known hdst),
        List.cons_removeAll, if_pos (by simpa using hmem), List.eraseDups_cons]
      simp only [hstep, List.map_cons, List.append_assoc, List.singleton_append]

/-- **A listing is read if its records give blocks** and their edges join them. The graph consists
of these blocks and edges in the order of the records, repeated edges once. -/
theorem ofListing_of_parsed {text : String} {entries : List (Block × List Int)}
    (hread : Record.readAll text.toList = .ok records)
    (hfresh : Record.repetition? [] records = none)
    (hends : records.filter Record.isDominant = [start, stop])
    (hparsed : List.Forall₂ (fun r entry => r.block records start = .ok entry) records entries)
    (huids : (entries.map (·.1.uid)).Nodup) (hlabels : (entries.map (·.1.label)).Nodup)
    (hknown : ∀ entry ∈ entries, ∀ dst ∈ entry.2, dst ∈ entries.map (·.1.uid)) :
    ofListing text =
      .ok { blocks := entries.map (·.1.named)
            edges := (entries.flatMap fun entry =>
              entry.2.map fun dst => (⟨entry.1.uid, dst⟩ : EdgeId)).eraseDups.map fun id => { id }
            start := start.uid
            stop := stop.uid } := by
  let ids : List EdgeId :=
    entries.flatMap fun entry => entry.2.map fun dst => ⟨entry.1.uid, dst⟩
  let built : Graph := { blocks := entries.map (·.1.named) }
  have hbuilt : built.blocks.map (·.uid) = entries.map (·.1.uid) := by
    rw [List.map_map]
    rfl
  have hids : ∀ id ∈ ids,
      id.src ∈ built.blocks.map (·.uid) ∧ id.dst ∈ built.blocks.map (·.uid) := fun id hid => by
    obtain ⟨entry, hentry, hid⟩ := List.mem_flatMap.mp hid
    obtain ⟨dst, hdst, rfl⟩ := List.mem_map.mp hid
    rw [hbuilt]
    exact ⟨List.mem_map.mpr ⟨entry, hentry, rfl⟩, hknown entry hentry dst hdst⟩
  have hedges := addPlainEdges_of_known hids
  have hdominant : ∀ r ∈ [start, stop], r.uid ∈ built.blocks.map (·.uid) := fun r hr => by
    rw [← hends] at hr
    obtain ⟨entry, hentry, hr⟩ :=
      exists_mem_right_of_forall₂ hparsed (List.mem_of_mem_filter hr)
    rw [hbuilt, ← Record.uid_of_block hr]
    exact List.mem_map.mpr ⟨entry, hentry, rfl⟩
  refine ofListing_eq_ok_iff.mpr ⟨records, start, stop, built, ids, _, hread, hfresh, ?_,
    addRecords_of_parsed hparsed huids hlabels, hedges, ?_⟩
  · rw [Record.endpoints, hends]
  · have hset := fun edges => setEndpoints_of_known (g := { built with edges })
      (hdominant start (by simp)) (hdominant stop (by simp))
    rw [hset]
    simp [built, ids]

end Readable

/-! ### Endpoints -/

namespace Lists

variable {records : List Record} {start stop : Record} {entries : List (Block × List Int)}
  {g : Graph}

theorem entries_uids (hl : Lists records start stop entries g) :
    g.blocks.map (·.uid) = entries.map (·.1.uid) := by
  rw [hl.blocks, List.map_map]
  rfl

/-- The blocks carry the uids of the records. -/
theorem uids_eq (hl : Lists records start stop entries g) :
    g.blocks.map (·.uid) = records.map Record.uid := by
  rw [hl.entries_uids, ← List.forall₂_eq_eq_eq, List.forall₂_map_left_iff, List.forall₂_map_right_iff]
  exact hl.parsed.flip.imp fun _ _ => Record.uid_of_block

theorem start_known (hl : Lists records start stop entries g) :
    g.start ∈ g.blocks.map (·.uid) := by
  have hmem : start ∈ records.filter Record.isDominant := by simp [hl.endpoints]
  rw [hl.uids_eq, hl.start_eq]
  exact List.mem_map_of_mem (List.mem_of_mem_filter hmem)

theorem stop_known (hl : Lists records start stop entries g) :
    g.stop ∈ g.blocks.map (·.uid) := by
  have hmem : stop ∈ records.filter Record.isDominant := by simp [hl.endpoints]
  rw [hl.uids_eq, hl.stop_eq]
  exact List.mem_map_of_mem (List.mem_of_mem_filter hmem)

/-- The start and the end are different blocks: no two records have the same uid. -/
theorem start_ne_stop (hl : Lists records start stop entries g) (hg : g.Valid) :
    g.start ≠ g.stop := by
  have hnd : (records.map Record.uid).Nodup := hl.uids_eq ▸ hg.uids_nodup
  have hsub : ((records.filter Record.isDominant).map Record.uid).Nodup :=
    hnd.sublist (List.filter_sublist.map _)
  rw [hl.endpoints] at hsub
  rw [hl.start_eq, hl.stop_eq]
  simpa using hsub

end Lists

end Graph

end WorstCase
