import WorstCase.Proofs.Graph.RecordText

/-!
# Listings in another order

Two listings have the **same records** when the same is read from their records in some order, and
the start and the end are named in the same order (`Record.SameRecords`). Records find each other by
variables and labels that do not repeat, so every record gives the same block in both
(`Record.SameRecords.exists_entries`), and if one listing is read then so is the other, into a
reordered graph (`Graph.exists_reordered`).

`Record.Reorders` states the same of texts: the parts between the markers are the same up to order
and to the blanks around them. Joining records in any order gives such texts
(`Record.reorders_join`).
-/

namespace WorstCase

/-! ### Runs over lists -/

/-- Two lists are related through a third. -/
theorem forall₂_of_forall₂ {α β γ : Type} {R : α → β → Prop} {S : α → γ → Prop} {T : β → γ → Prop}
    (hT : ∀ a b c, R a b → S a c → T b c) {as : List α} {bs : List β} {cs : List γ}
    (hR : List.Forall₂ R as bs) (hS : List.Forall₂ S as cs) : List.Forall₂ T bs cs := by
  induction hR generalizing cs with
  | nil =>
    obtain rfl := List.forall₂_nil_left_iff.mp hS
    exact .nil
  | cons hab _ ih =>
    obtain ⟨c, cs, hac, hrest, rfl⟩ := List.forall₂_cons_left_iff.mp hS
    exact .cons (hT _ _ _ hab hac) (ih hrest)

section MapM

variable {ε α β : Type} {f : α → Except ε β} {l l' : List α} {bs : List β}

/-- What is computed for all elements is computed for them in any order. -/
theorem exists_mapM_of_perm (hl : l.Perm l') (h : l.mapM f = .ok bs) :
    ∃ bs', l'.mapM f = .ok bs' ∧ bs.Perm bs' := by
  obtain ⟨bs', hbs', hperm⟩ := List.perm_comp_forall₂ hl.symm (mapM_eq_ok_iff.mp h)
  exact ⟨bs', mapM_eq_ok_iff.mpr hbs', hperm.symm⟩

/-- Runs over a list end alike if they do so at every element. -/
theorem endAlike_mapM {ε' α' β' : Type} {k : α → α'} {f' : α' → Except ε' β'} {R : β' → β → Prop}
    (h : ∀ a, EndAlike R (f' (k a)) (f a)) (l : List α) :
    EndAlike (List.Forall₂ R) ((l.map k).mapM f') (l.mapM f) := by
  induction l with
  | nil => exact .ok .nil
  | cons a l ih =>
    rw [List.map_cons, List.mapM_cons, List.mapM_cons]
    refine (h a).bind fun b' b _ _ hb => ?_
    exact ih.bind fun bs' bs _ _ hbs => .ok (.cons hb hbs)

end MapM

namespace Record

variable {records records' : List Record} {r r' start start' : Record}

/-! ### Records in another order -/

/-- The same is read from `records'` as from `records`, in some order. -/
structure SameRecords (records records' : List Record) : Prop where
  gists : (records.map gist).Perm (records'.map gist)
  endpoints :
    (records'.filter isDominant).map (·.name) = (records.filter isDominant).map (·.name)

theorem name_ne_nil_of_readAll {text : List Char} (h : readAll text = .ok records) :
    ∀ r ∈ records, r.name ≠ [] := fun r hr => by
  obtain ⟨t, -, ht⟩ := exists_mem_left_of_forall₂ (mapM_eq_ok_iff.mp h) hr
  exact (read_spec ht).2

/-- Records with the same gist are alike, where the dominator is found. -/
theorem alike_of_gist_eq (hnames : ∀ s ∈ records, s.name ≠ []) (hgist : r'.gist = r.gist) {d : Int}
    (hd : r.dominator records = .ok d) : r.Alike r' := by
  obtain ⟨name, hname, hne⟩ : ∃ name, r.dominatorName? = some name ∧ name ≠ [] := by
    unfold dominator at hd
    unfold dominatorName?
    generalize "Dominator = ".toList = mark at hd ⊢
    rcases hcut : Text.cut? mark r.body with _ | ⟨before, rest⟩
    · simp [hcut] at hd
    refine ⟨_, rfl, fun hempty => ?_⟩
    simp only [hcut, hempty] at hd
    rw [if_neg (by decide)] at hd
    rcases hfind : records.find? (·.name = []) with _ | s
    · simp [hfind] at hd
    · have hs : s.name = [] := by simpa using List.find?_some hfind
      exact hnames s (List.mem_of_find?_eq_some hfind) hs
  have hfilter : r'.dominatorName?.filter (· ≠ []) = some name := by
    rw [show r'.dominatorName?.filter (· ≠ []) = r.dominatorName?.filter (· ≠ []) from
      congrArg Gist.dominator hgist, hname]
    simp [hne]
  have hname' : r'.dominatorName? = some name := (Option.filter_eq_some_iff.mp hfilter).1
  exact ⟨congrArg Gist.name hgist, congrArg Gist.label hgist, congrArg Gist.cost hgist,
    hname'.trans hname.symm, congrArg Gist.targets hgist⟩

/-- Records with different labels and variables repeat nothing. -/
theorem repetition?_eq_none {seen rs : List Record} (hlabels : ((seen ++ rs).map (·.label)).Nodup)
    (hnames : ((seen ++ rs).map (·.name)).Nodup) : repetition? seen rs = none := by
  induction rs generalizing seen with
  | nil => rfl
  | cons r rs ih =>
    have hnew : ∀ {κ : Type} [DecidableEq κ] (key : Record → κ),
        ((seen ++ r :: rs).map key).Nodup → seen.any (key · = key r) = false := by
      intro κ _ key hnd
      rw [List.any_eq_false]
      intro s hs
      rw [List.map_append, List.nodup_append] at hnd
      simpa using hnd.2.2 _ (List.mem_map_of_mem hs) _ (by simp)
    rw [repetition?, if_neg (by simp [hnew (·.label) hlabels]),
      if_neg (by simp [hnew (·.name) hnames])]
    exact ih (by simpa using hlabels) (by simpa using hnames)

namespace SameRecords

/-- Whatever is a part of the gist is the same up to order. -/
theorem perm_map (h : SameRecords records records') {κ : Type} (key : Gist → κ) :
    (records.map fun r => key r.gist).Perm (records'.map fun r => key r.gist) := by
  simpa [Function.comp_def] using h.gists.map key

/-- The endpoints have the same names. -/
theorem exists_endpoints (h : SameRecords records records') {stop : Record}
    (hends : records.filter isDominant = [start, stop]) :
    ∃ start' stop', records'.filter isDominant = [start', stop'] ∧ start'.name = start.name ∧
      stop'.name = stop.name := by
  have hnames := h.endpoints
  rw [hends, List.map_cons, List.map_cons, List.map_nil, List.map_eq_cons_iff] at hnames
  obtain ⟨start', rest, hends', hstart, hrest⟩ := hnames
  obtain ⟨stop', rest', rfl, hstop, hnil⟩ := List.map_eq_cons_iff.mp hrest
  obtain rfl := List.map_eq_nil_iff.mp hnil
  exact ⟨start', stop', hends', hstart, hstop⟩

/-- Records repeat nothing in any order. -/
theorem repetition?_eq_none (h : SameRecords records records')
    (hfresh : repetition? [] records = none) : repetition? [] records' = none := by
  obtain ⟨hlabels, hnames⟩ := nodup_of_repetition?_eq_none hfresh List.nodup_nil List.nodup_nil
  exact Record.repetition?_eq_none ((h.perm_map Gist.label).nodup_iff.mp hlabels)
    ((h.perm_map Gist.name).nodup_iff.mp hnames)

/-- References find records with the same uid. -/
theorem find?_eq_some (h : SameRecords records records') (key : Gist → List Char)
    (hnd : (records.map fun r => key r.gist).Nodup) {k : List Char} {s : Record}
    (hs : records.find? (key ·.gist = k) = some s) :
    ∃ s', records'.find? (key ·.gist = k) = some s' ∧ s'.uid = s.uid := by
  obtain ⟨s', hs', hgist⟩ := List.mem_map.mp
    (h.gists.mem_iff.mp (List.mem_map_of_mem (List.mem_of_find?_eq_some hs)))
  have hk : key s.gist = k := by simpa using List.find?_some hs
  have hname : s'.name = s.name := congrArg Gist.name hgist
  refine ⟨s', (find?_key_eq_some_iff ((h.perm_map key).nodup_iff.mp hnd)).mpr ⟨hs', ?_⟩, ?_⟩
  · rw [hgist, hk]
  · rw [uid, hname, uid]

/-- **Records give the same blocks in any order.** -/
theorem exists_entries (h : SameRecords records records') (hnonempty : ∀ s ∈ records, s.name ≠ [])
    (hfresh : repetition? [] records = none) (hstart : start'.name = start.name)
    {entries : List (Block × List Int)}
    (hparsed : List.Forall₂ (fun r entry => r.block records start = .ok entry) records entries) :
    ∃ entries', entries.Perm entries' ∧
      List.Forall₂ (fun r entry => r.block records' start' = .ok entry) records' entries' := by
  obtain ⟨hlabels, hnames⟩ := nodup_of_repetition?_eq_none hfresh List.nodup_nil List.nodup_nil
  have hblock : ∀ {r r' : Record} {entry : Block × List Int}, r'.gist = r.gist →
      r.block records start = .ok entry → r'.block records' start' = .ok entry := fun hgist hb =>
    (alike_of_gist_eq hnonempty hgist (dominator_of_block hb)).block_eq_ok
      (h.find?_eq_some Gist.label hlabels) (h.find?_eq_some Gist.name hnames)
      hstart hb
  -- the records of the first listing, in the order of the second
  have hgists : List.Forall₂ (fun said r => gist r = said) (records'.map gist) records' :=
    List.forall₂_map_left_iff.mpr (List.forall₂_same.mpr fun _ _ => rfl)
  obtain ⟨mid, hmid, hperm⟩ := List.perm_comp_forall₂ h.gists hgists
  have hsame : List.Forall₂ (fun r entry => r.block records' start' = .ok entry) mid entries := by
    refine forall₂_of_forall₂ ?_ (List.forall₂_map_left_iff.mp hmid) hparsed
    exact fun _ _ _ => hblock
  obtain ⟨entries', hentries', hperm'⟩ := List.perm_comp_forall₂ hperm.symm hsame
  exact ⟨entries', hperm'.symm, hentries'⟩

end SameRecords

end Record

namespace Graph

variable {records : List Record} {start stop : Record} {g : Graph}

/-! ### Listings that are read -/

/-- Graphs with the same entries and endpoints are reordered. -/
theorem Lists.reordered {records' : List Record} {start' stop' : Record}
    {entries entries' : List (Block × List Int)} {g' : Graph}
    (hl : Lists records start stop entries g) (hl' : Lists records' start' stop' entries' g')
    (hg : g.Valid) (hg' : g'.Valid) (hperm : entries.Perm entries')
    (hstart : start'.name = start.name) (hstop : stop'.name = stop.name) : Reordered g g' where
  valid := hg
  blocks := by
    rw [hl.blocks, hl'.blocks]
    exact hperm.map _
  edges := by
    rw [List.perm_ext_iff_of_nodup (.of_map _ hg.ids_nodup) (.of_map _ hg'.ids_nodup)]
    intro e
    rw [hl.mem_edges_iff, hl'.mem_edges_iff, hl.arc_iff, hl'.arc_iff]
    simp only [hperm.mem_iff]
  cuts := by rw [hl.cuts, hl'.cuts]
  start := by rw [hl.start_eq, hl'.start_eq, Record.uid, hstart, Record.uid]
  stop := by rw [hl.stop_eq, hl'.stop_eq, Record.uid, hstop, Record.uid]

/-- The labels of a listing that is read do not repeat. -/
theorem Lists.labels_nodup {entries : List (Block × List Int)}
    (hl : Lists records start stop entries g) : (entries.map (·.1.label)).Nodup := by
  have heq : entries.map (·.1.label) = (records.map (·.label)).map String.ofList := by
    rw [← List.forall₂_eq_eq_eq, List.map_map, List.forall₂_map_left_iff,
      List.forall₂_map_right_iff]
    exact hl.parsed.flip.imp fun _ _ => Record.label_of_block
  rw [heq]
  exact (Record.nodup_of_repetition?_eq_none hl.fresh List.nodup_nil List.nodup_nil).1.map
    fun _ _ => String.ofList_injective

/-- The successors that the entries name are among their blocks. -/
theorem Lists.successors_known {entries : List (Block × List Int)}
    (hl : Lists records start stop entries g) (hg : g.Valid) :
    ∀ entry ∈ entries, ∀ dst ∈ entry.2, dst ∈ entries.map (·.1.uid) := by
  intro entry hentry dst hdst
  have harc : g.Arc entry.1.uid dst := hl.arc_iff.mpr ⟨entry, hentry, rfl, hdst⟩
  rw [← hl.entries_uids]
  exact (hg.arc_known harc).2

/-- **A listing with the same records is read as well**, into a reordered graph. -/
theorem exists_reordered {text text' : String} {records' : List Record}
    (hread : Record.readAll text.toList = .ok records)
    (hread' : Record.readAll text'.toList = .ok records')
    (h : Record.SameRecords records records') (hg : ofListing text = .ok g) :
    ∃ g', ofListing text' = .ok g' ∧ Reordered g g' := by
  obtain ⟨_, start, stop, entries, hrecords, hl⟩ := lists_of_ofListing hg
  obtain rfl := Except.ok.inj (hread.symm.trans hrecords)
  have hv := valid_of_ofListing hg
  obtain ⟨start', stop', hends', hstart, hstop⟩ := h.exists_endpoints hl.endpoints
  obtain ⟨entries', hperm, hparsed'⟩ :=
    h.exists_entries (Record.name_ne_nil_of_readAll hread) hl.fresh hstart hl.parsed
  have hknown' : ∀ entry ∈ entries', ∀ dst ∈ entry.2, dst ∈ entries'.map (·.1.uid) :=
    fun entry hentry dst hdst => (hperm.map _).mem_iff.mp
      (hl.successors_known hv entry (hperm.mem_iff.mpr hentry) dst hdst)
  obtain ⟨g', hg'⟩ : ∃ g', ofListing text' = .ok g' :=
    ⟨_, ofListing_of_parsed hread' (h.repetition?_eq_none hl.fresh) hends' hparsed'
      ((hperm.map _).nodup_iff.mp (hl.entries_uids ▸ hv.uids_nodup))
      ((hperm.map _).nodup_iff.mp hl.labels_nodup) hknown'⟩
  obtain ⟨_, start'', stop'', entries'', hrecords', hl'⟩ := lists_of_ofListing hg'
  obtain rfl := Except.ok.inj (hread'.symm.trans hrecords')
  obtain ⟨rfl, rfl⟩ : start' = start'' ∧ stop' = stop'' := by
    simpa using hends'.symm.trans hl'.endpoints
  obtain rfl : entries' = entries'' := by
    refine List.right_unique_forall₂' (fun r a b ha hb => ?_) hparsed' hl'.parsed
    exact Except.ok.inj (ha.symm.trans hb)
  exact ⟨g', hg', hl.reordered hl' hv (valid_of_ofListing hg') hperm hstart hstop⟩

end Graph

namespace Record

variable {text text' : List Char} {records : List Record}

/-! ### Texts with the same records -/

/-- Two texts consist of the same records in different orders. Those of the start and the end keep
their order. -/
structure Reorders (text text' : List Char) : Prop where
  perm : (texts text).Perm (texts text')
  endpoints : (texts text').filter namesEndpoint = (texts text).filter namesEndpoint

namespace Reorders

theorem symm (h : Reorders text text') : Reorders text' text :=
  ⟨h.perm.symm, h.endpoints.symm⟩

end Reorders

theorem readAll_texts (text : List Char) :
    EndAlike (List.Forall₂ fun r r' => r'.gist = r.gist) ((texts text).mapM read) (readAll text) :=
  endAlike_mapM read_trim _

theorem map_gist_eq {rs rs' : List Record}
    (h : List.Forall₂ (fun r r' : Record => r'.gist = r.gist) rs rs') :
    rs'.map gist = rs.map gist := by
  rw [← List.forall₂_eq_eq_eq, List.forall₂_map_left_iff, List.forall₂_map_right_iff]
  exact h.flip

/-- Records that name the endpoints are read from texts that do. -/
theorem filter_isDominant_of_mapM {ts : List (List Char)} {rs : List Record}
    (h : ts.mapM read = .ok rs) :
    (ts.filter namesEndpoint).mapM read = .ok (rs.filter isDominant) := by
  rw [mapM_eq_ok_iff] at h ⊢
  refine List.rel_filter (fun t r hread => ?_) h
  obtain ⟨⟨before, hcut, hname⟩, -⟩ := read_spec hread
  simp only [namesEndpoint, hcut, isDominant, hname]

/-- **The same is read from texts with the same records.** -/
theorem Reorders.exists_readAll (h : Reorders text text') (hread : readAll text = .ok records) :
    ∃ records', readAll text' = .ok records' ∧ SameRecords records records' := by
  obtain ⟨e, e', -, he⟩ | ⟨core, _, hcore, hread₁, hgists⟩ := (readAll_texts text).results
  · exact absurd (hread.symm.trans he) (by simp)
  obtain rfl := Except.ok.inj (hread.symm.trans hread₁)
  obtain ⟨core', hcore', hperm⟩ := exists_mapM_of_perm h.perm hcore
  obtain ⟨e, e', he, -⟩ | ⟨_, records', hcore₁, hread', hgists'⟩ := (readAll_texts text').results
  · exact absurd (hcore'.symm.trans he) (by simp)
  obtain rfl := Except.ok.inj (hcore'.symm.trans hcore₁)
  refine ⟨records', hread', ?_, ?_⟩
  · rw [map_gist_eq hgists, map_gist_eq hgists']
    exact hperm.map _
  · have hnames : ∀ {rs rs' : List Record}, rs'.map gist = rs.map gist →
        rs'.map (·.name) = rs.map (·.name) := fun heq => by
      simpa [Function.comp_def, gist] using congrArg (List.map Gist.name) heq
    have hcores : core'.filter isDominant = core.filter isDominant := by
      have hfilter := filter_isDominant_of_mapM hcore'
      rw [h.endpoints, filter_isDominant_of_mapM hcore] at hfilter
      exact (Except.ok.inj hfilter).symm
    calc (records'.filter isDominant).map (·.name)
        = (core'.filter isDominant).map (·.name) := by
          rw [map_name_filter_isDominant, hnames (map_gist_eq hgists'), map_name_filter_isDominant]
      _ = (records.filter isDominant).map (·.name) := by
          rw [hcores, map_name_filter_isDominant, ← hnames (map_gist_eq hgists),
            map_name_filter_isDominant]

/-- **Joining records in another order** reorders a text. -/
theorem reorders_join {bodies bodies' : List (List Char)} (hbodies : ∀ t ∈ bodies, IsBody t)
    (hperm : bodies.Perm bodies')
    (hends : bodies'.filter namesEndpoint = bodies.filter namesEndpoint) :
    Reorders (join bodies) (join bodies') := by
  have hbodies' : ∀ t ∈ bodies', IsBody t := fun t ht => hbodies t (hperm.mem_iff.mpr ht)
  have hfilter : ∀ ts : List (List Char),
      (ts.map Text.trim).filter namesEndpoint = (ts.filter namesEndpoint).map Text.trim := by
    intro ts
    rw [List.filter_map]
    exact congrArg (List.map Text.trim) (List.filter_congr fun t _ => namesEndpoint_trim t)
  constructor
  · rw [texts_join hbodies, texts_join hbodies']
    exact hperm.map _
  · rw [texts_join hbodies, texts_join hbodies', hfilter, hfilter, hends]

end Record

namespace Graph

/-- **Listings with the same records are read into reordered graphs**, or neither is read. -/
theorem ofListing_reordered {text text' : String}
    (h : Record.Reorders text.toList text'.toList) :
    EndAlike Reordered (ofListing text) (ofListing text') := by
  have hto : ∀ {text text' : String} {g : Graph}, Record.Reorders text.toList text'.toList →
      ofListing text = .ok g → ∃ g', ofListing text' = .ok g' ∧ Reordered g g' := fun h hg => by
    obtain ⟨records, -, -, -, hread, -⟩ := lists_of_ofListing hg
    obtain ⟨records', hread', hsame⟩ := h.exists_readAll hread
    exact exists_reordered hread hread' hsame hg
  refine .of_forall_ok (fun g => hto h) fun g' hg' => ?_
  obtain ⟨g, hg, -⟩ := hto h.symm hg'
  exact ⟨g, hg⟩

end Graph

end WorstCase
