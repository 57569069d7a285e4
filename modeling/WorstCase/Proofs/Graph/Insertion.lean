import WorstCase.Proofs.Graph.Extension
import WorstCase.Proofs.Graph.Listing

/-!
# Listings with one more record

Two records are **alike** if they have the same variable and label and the same is read from their
bodies, whatever else stands there. Labels and variables do not repeat in a listing that is read, so
where a record is inserted anywhere into a listing, all other records refer to the same blocks as
before (`Record.Alike.block_eq_ok`). None of them refers to the new one, since the listing without
it is read too. So the graph is extended by one block that no other block leads to
(`Graph.extends_of_inserted`).
-/

namespace WorstCase

/-! ### Lists with an element inserted -/

theorem mem_inserted {α : Type} {l l' : List α} {a b : α} :
    b ∈ l ++ a :: l' ↔ b = a ∨ b ∈ l ++ l' := by
  simp only [List.mem_append, List.mem_cons]
  exact or_left_comm

theorem nodup_map_of_inserted {α κ : Type} {key : α → κ} {l l' : List α} {a : α}
    (h : ((l ++ a :: l').map key).Nodup) :
    key a ∉ (l ++ l').map key ∧ ((l ++ l').map key).Nodup := by
  rw [List.map_append, List.map_cons, List.nodup_middle, List.nodup_cons] at h
  rw [List.map_append]
  exact h

namespace Record

variable {records records' rs : List Record} {r r' start start' : Record}

/-! ### How records refer to each other -/

/-- In a listing that is read labels and variables do not repeat. -/
theorem nodup_of_repetition?_eq_none {seen : List Record} (h : repetition? seen rs = none)
    (hlabels : (seen.map (·.label)).Nodup) (hnames : (seen.map (·.name)).Nodup) :
    ((seen ++ rs).map (·.label)).Nodup ∧ ((seen ++ rs).map (·.name)).Nodup := by
  induction rs generalizing seen with
  | nil =>
    rw [List.append_nil]
    exact ⟨hlabels, hnames⟩
  | cons r rs ih =>
    rw [repetition?] at h
    split_ifs at h with hl hn
    have happend : ∀ {κ : Type} (key : Record → κ), (seen.map key).Nodup →
        (∀ s ∈ seen, key s ≠ key r) → ((seen ++ [r]).map key).Nodup := by
      intro κ key hnd hne
      rw [List.map_append, List.map_singleton, List.nodup_append]
      refine ⟨hnd, List.nodup_singleton _, fun a ha b hb => ?_⟩
      obtain ⟨s, hs, rfl⟩ := List.mem_map.mp ha
      rw [List.mem_singleton.mp hb]
      exact hne s hs
    have hrest :=
      ih h (happend _ hlabels (by simpa using hl)) (happend _ hnames (by simpa using hn))
    rwa [List.append_assoc] at hrest

theorem dominator_eq_ok {d : Int} (h : r.dominator records = .ok d) :
    d = noDominator ∨ ∃ s ∈ records, s.uid = d := by
  unfold dominator at h
  split at h
  · simp at h
  simp only at h
  split at h
  · exact .inl (Except.ok.inj h).symm
  split at h
  · rename_i s hfind
    exact .inr ⟨s, List.mem_of_find?_eq_some hfind, Except.ok.inj h⟩
  · simp at h

/-- The variable that a record declares as its dominator. -/
def dominatorName? (r : Record) : Option (List Char) :=
  (Text.cut? "Dominator = ".toList r.body).map fun (_, rest) => Text.trim (Text.firstLine rest)

/-- Two records from which the same is read. -/
structure Alike (r r' : Record) : Prop where
  name : r'.name = r.name
  label : r'.label = r.label
  cost : (Text.words r'.body).head? = (Text.words r.body).head?
  dominator : r'.dominatorName? = r.dominatorName?
  targets : targets r'.body = targets r.body

instance : DecidableRel Alike := fun r r' =>
  decidable_of_iff (r'.name = r.name ∧ r'.label = r.label ∧
      (Text.words r'.body).head? = (Text.words r.body).head? ∧
      r'.dominatorName? = r.dominatorName? ∧ targets r'.body = targets r.body)
    ⟨fun ⟨h₁, h₂, h₃, h₄, h₅⟩ => ⟨h₁, h₂, h₃, h₄, h₅⟩,
      fun ⟨h₁, h₂, h₃, h₄, h₅⟩ => ⟨h₁, h₂, h₃, h₄, h₅⟩⟩

/-- A listing has the record `x` more than another, apart from what is not read. -/
def Inserted (x : Record) (text text' : List Char) : Prop :=
  ∃ records rs rs', readAll text = .ok records ∧ readAll text' = .ok (rs ++ x :: rs') ∧
    List.Forall₂ Alike records (rs ++ rs')

/-- Whether a listing has one record more than another can be decided where the place of the record
is known. -/
theorem exists_inserted {text text' : List Char} (i : Nat) {uid : Int}
    (h : ∃ records ∈ (readAll text).toOption, ∃ records' ∈ (readAll text').toOption,
      List.Forall₂ Alike records (records'.eraseIdx i) ∧ ∃ x ∈ records'[i]?, x.uid = uid) :
    ∃ x : Record, x.Inserted text text' ∧ x.uid = uid := by
  obtain ⟨records, hread, records', hread', hsame, x, hx, hu⟩ := h
  obtain ⟨hi, rfl⟩ := List.getElem?_eq_some_iff.mp hx
  refine ⟨records'[i], ⟨records, records'.take i, records'.drop (i + 1), ?_, ?_, ?_⟩, hu⟩
  · exact ok_of_toOption_eq_some hread
  · rw [List.getElem_cons_drop, List.take_append_drop]
    exact ok_of_toOption_eq_some hread'
  · rwa [← List.eraseIdx_eq_take_drop_succ]

namespace Alike

theorem uid_eq (h : r.Alike r') : r'.uid = r.uid := by
  rw [uid, h.name, uid]

theorem cost_eq_ok (h : r.Alike r') {n : Int64} (hn : r.cost = .ok n) : r'.cost = .ok n := by
  have hwords := h.cost
  unfold Record.cost at hn ⊢
  rcases hw : Text.words r.body with _ | ⟨word, words⟩
  · simp [hw] at hn
  rcases hw' : Text.words r'.body with _ | ⟨word', words'⟩
  · simp [hw, hw'] at hwords
  obtain rfl : word' = word := by simpa [hw, hw'] using hwords
  simp only [hw] at hn ⊢
  split at hn
  · exact hn
  · simp at hn

section Listing

variable (hlabel : ∀ {label s}, records.find? (·.label = label) = some s →
    ∃ s', records'.find? (·.label = label) = some s' ∧ s'.uid = s.uid)
  (hname : ∀ {name s}, records.find? (·.name = name) = some s →
    ∃ s', records'.find? (·.name = name) = some s' ∧ s'.uid = s.uid)

include hname in
theorem dominator_eq_ok (h : r.Alike r') {d : Int} (hd : r.dominator records = .ok d) :
    r'.dominator records' = .ok d := by
  have hdom := h.dominator
  unfold dominatorName? at hdom
  unfold Record.dominator at hd ⊢
  generalize "Dominator = ".toList = mark at hdom hd ⊢
  rcases hc : Text.cut? mark r.body with _ | ⟨before, rest⟩
  · simp [hc] at hd
  rcases hc' : Text.cut? mark r'.body with _ | ⟨before', rest'⟩
  · simp [hc, hc'] at hdom
  have hrest : Text.trim (Text.firstLine rest') = Text.trim (Text.firstLine rest) := by
    simpa [hc, hc'] using hdom
  simp only [hc, hrest] at hd ⊢
  split_ifs at hd ⊢
  · exact hd
  split at hd
  · rename_i s hs
    obtain ⟨s', hs', huid⟩ := hname hs
    rw [hs', ← Except.ok.inj hd, ← huid]
  · simp at hd

include hlabel in
theorem successors_eq_ok (h : r.Alike r') {uids : List Int}
    (hs : r.successors records = .ok uids) : r'.successors records' = .ok uids := by
  rw [successors, h.targets]
  refine mapM_eq_ok_of_imp (fun label uid hfind => ?_) hs
  split at hfind
  · rename_i s hs
    obtain ⟨s', hs', huid⟩ := hlabel hs
    rw [hs', ← Except.ok.inj hfind, ← huid]
  · simp at hfind

include hlabel hname in
/-- **Records that are alike give the same block** in listings that resolve references alike. -/
theorem block_eq_ok (h : r.Alike r') (hstart : start'.name = start.name)
    {entry : Block × List Int} (hb : r.block records start = .ok entry) :
    r'.block records' start' = .ok entry := by
  have hselector : r'.selector start' = r.selector start := by
    rw [selector, h.name, hstart, selector]
  obtain ⟨cost, d, uids, hcost, hdom, hsucc, rfl⟩ := block_eq_ok_iff.mp hb
  refine block_eq_ok_iff.mpr ⟨cost, d, uids, h.cost_eq_ok hcost, h.dominator_eq_ok hname hdom,
    h.successors_eq_ok hlabel hsucc, ?_⟩
  rw [h.uid_eq, h.label, h.name, hselector]

end Listing

end Alike

theorem map_eq_of_alike {κ : Type} {key : Record → κ} (hkey : ∀ {r r'}, r.Alike r' → key r' = key r)
    (h : List.Forall₂ Alike records records') : records'.map key = records.map key := by
  induction h with
  | nil => rfl
  | cons hr _ ih => rw [List.map_cons, List.map_cons, ih, hkey hr]

/-- Whether a record is the start or the end depends on its variable. -/
theorem map_name_filter_isDominant (rs : List Record) :
    (rs.filter isDominant).map (·.name) =
      (rs.map (·.name)).filter (Text.occursIn dominantMark) := by
  rw [List.filter_map]
  rfl

/-- **A listing with one more record resolves references alike.** -/
theorem find?_inserted {κ : Type} [DecidableEq κ] {key : Record → κ} {rs' : List Record}
    {x : Record} (hkey : ∀ {r r'}, r.Alike r' → key r' = key r)
    (hsame : List.Forall₂ Alike records (rs ++ rs')) (hnd : ((rs ++ x :: rs').map key).Nodup)
    {k : κ} {s : Record} (hs : records.find? (key · = k) = some s) :
    ∃ s', (rs ++ x :: rs').find? (key · = k) = some s' ∧ s'.uid = s.uid := by
  obtain ⟨s', hs', halike⟩ := exists_mem_right_of_forall₂ hsame (List.mem_of_find?_eq_some hs)
  have hk : key s = k := by simpa using List.find?_some hs
  refine ⟨s', (find?_key_eq_some_iff hnd).mpr ⟨mem_inserted.mpr (.inr hs'), ?_⟩, halike.uid_eq⟩
  rw [hkey halike, hk]

end Record

namespace Graph

namespace Lists

variable {records : List Record} {start stop : Record} {entries : List (Block × List Int)}
  {g : Graph}

theorem mem_entries_iff (hl : Lists records start stop entries g) {entry : Block × List Int} :
    entry ∈ entries ↔ ∃ r ∈ records, r.block records start = .ok entry := by
  constructor
  · exact exists_mem_left_of_forall₂ hl.parsed
  · rintro ⟨r, hr, hentry⟩
    obtain ⟨entry', hmem, hentry'⟩ := exists_mem_right_of_forall₂ hl.parsed hr
    rwa [Except.ok.inj (hentry.symm.trans hentry')]

/-- The edges are the arcs, at no cost. -/
theorem mem_edges_iff (hl : Lists records start stop entries g) {e : Edge} :
    e ∈ g.edges ↔ e.cost = 0 ∧ g.Arc e.id.src e.id.dst := by
  constructor
  · exact fun he => ⟨hl.edge_cost e he, List.mem_map_of_mem he⟩
  · rintro ⟨hcost, harc⟩
    obtain ⟨e', he', hid⟩ := List.mem_map.mp harc
    have heq : e' = e := by
      rcases e with ⟨id, cost⟩
      rcases e' with ⟨id', cost'⟩
      simp only [Edge.mk.injEq]
      exact ⟨hid, (hl.edge_cost _ he').trans hcost.symm⟩
    rwa [← heq]

/-- Declared dominators are blocks. -/
theorem dominator_known (hl : Lists records start stop entries g) {b : Block} (hb : b ∈ g.blocks)
    (hdom : b.dominator ≠ noDominator) : b.dominator ∈ g.blocks.map (·.uid) := by
  rw [hl.blocks] at hb
  obtain ⟨entry, hentry, rfl⟩ := List.mem_map.mp hb
  obtain ⟨r, -, hr⟩ := hl.mem_entries_iff.mp hentry
  obtain ⟨s, hs, huid⟩ :=
    (Record.dominator_eq_ok (Record.dominator_of_block hr)).resolve_left hdom
  rw [hl.uids_eq]
  exact List.mem_map.mpr ⟨s, hs, huid⟩

end Lists

section Inserted

variable {records rs rs' : List Record} {x start stop start' stop' : Record}
  {entries entries' : List (Block × List Int)} {g g' : Graph}
  (hl : Lists records start stop entries g)
  (hl' : Lists (rs ++ x :: rs') start' stop' entries' g')
  (hsame : List.Forall₂ Record.Alike records (rs ++ rs'))

include hl hl' hsame

/-- The start and the end are not new. -/
theorem endpoints_of_inserted : start'.name = start.name ∧ stop'.name = stop.name := by
  have hnames : ((rs ++ rs').filter Record.isDominant).map (·.name) =
      (records.filter Record.isDominant).map (·.name) := by
    rw [Record.map_name_filter_isDominant, Record.map_name_filter_isDominant,
      Record.map_eq_of_alike Record.Alike.name hsame]
  have hends := hl'.endpoints
  rw [hl.endpoints, List.filter_append] at hnames
  rw [List.filter_append] at hends
  by_cases hdom : x.isDominant = true
  · have hlen := congrArg List.length hnames
    have hlen' := congrArg List.length hends
    rw [List.filter_cons_of_pos hdom] at hlen'
    simp only [List.map_append, List.length_append, List.length_map, List.length_cons,
      List.length_nil] at hlen hlen'
    omega
  · rw [List.filter_cons_of_neg hdom] at hends
    rw [hends] at hnames
    simpa using hnames

/-- Other records give the same blocks as before. -/
theorem block_of_inserted {r r' : Record} {entry : Block × List Int} (h : r.Alike r')
    (hb : r.block records start = .ok entry) :
    r'.block (rs ++ x :: rs') start' = .ok entry := by
  obtain ⟨hlabels, hnames⟩ :=
    Record.nodup_of_repetition?_eq_none hl'.fresh List.nodup_nil List.nodup_nil
  exact h.block_eq_ok (Record.find?_inserted Record.Alike.label hsame hlabels)
    (Record.find?_inserted Record.Alike.name hsame hnames) (endpoints_of_inserted hl hl' hsame).1 hb

/-- The inserted record gives the only block that is new. -/
theorem exists_entry_of_inserted :
    ∃ entry, x.block (rs ++ x :: rs') start' = .ok entry ∧
      ∀ {e}, e ∈ entries' ↔ e = entry ∨ e ∈ entries := by
  obtain ⟨entry, -, hentry⟩ :=
    exists_mem_right_of_forall₂ hl'.parsed (mem_inserted.mpr (.inl rfl))
  refine ⟨entry, hentry, fun {e} => ?_⟩
  rw [hl'.mem_entries_iff, hl.mem_entries_iff]
  constructor
  · rintro ⟨r', hr', he⟩
    rcases mem_inserted.mp hr' with rfl | hr'
    · exact .inl (Except.ok.inj (he.symm.trans hentry))
    · -- the record was read before, with the same result
      obtain ⟨r, hr, halike⟩ := exists_mem_left_of_forall₂ hsame hr'
      obtain ⟨old, -, hold⟩ := exists_mem_right_of_forall₂ hl.parsed hr
      obtain rfl := Except.ok.inj ((block_of_inserted hl hl' hsame halike hold).symm.trans he)
      exact .inr ⟨r, hr, hold⟩
  · rintro (rfl | ⟨r, hr, he⟩)
    · exact ⟨x, mem_inserted.mpr (.inl rfl), hentry⟩
    · obtain ⟨r', hr', halike⟩ := exists_mem_right_of_forall₂ hsame hr
      exact ⟨r', mem_inserted.mpr (.inr hr'), block_of_inserted hl hl' hsame halike he⟩

theorem uid_notMem_of_inserted (hg' : g'.Valid) : x.uid ∉ g.blocks.map (·.uid) := by
  have hnd := hg'.uids_nodup
  rw [hl'.uids_eq] at hnd
  rw [hl.uids_eq, ← Record.map_eq_of_alike Record.Alike.uid_eq hsame]
  exact (nodup_map_of_inserted hnd).1

/-- Arcs that do not leave the new block are the same as before. -/
theorem arc_iff_of_inserted {a c : Int} (ha : a ≠ x.uid) : g'.Arc a c ↔ g.Arc a c := by
  obtain ⟨entry, hentry, hentries⟩ := exists_entry_of_inserted hl hl' hsame
  have huid : entry.1.uid = x.uid := Record.uid_of_block hentry
  rw [hl'.arc_iff, hl.arc_iff]
  refine exists_congr fun e => ?_
  rw [hentries]
  refine ⟨fun ⟨he, ha', hc⟩ => ⟨he.resolve_left ?_, ha', hc⟩, fun ⟨he, h⟩ => ⟨.inr he, h⟩⟩
  rintro rfl
  exact ha (ha'.symm.trans huid)

/-- **A record that is inserted adds a block that nothing leads to**, unless it branches to
itself. -/
theorem extends_of_inserted (hg : g.Valid) (hg' : g'.Valid) (hself : ¬ g'.Arc x.uid x.uid) :
    ∃ b, b.uid = x.uid ∧ g.Extends g' b := by
  obtain ⟨hstart, hstop⟩ := endpoints_of_inserted hl hl' hsame
  obtain ⟨entry, hentry, hentries⟩ := exists_entry_of_inserted hl hl' hsame
  have huid : entry.1.uid = x.uid := Record.uid_of_block hentry
  have hnew := uid_notMem_of_inserted hl hl' hsame hg'
  have harc : ∀ {a c}, a ≠ x.uid → (g'.Arc a c ↔ g.Arc a c) := arc_iff_of_inserted hl hl' hsame
  refine ⟨entry.1.named, huid, hg, hg', ?_, fun {b} => ?_, fun {e} he => ?_, fun {a} h => ?_, ?_,
    ?_⟩
  · exact huid ▸ hnew
  · rw [hl'.blocks, hl.blocks, List.mem_map, List.mem_map]
    simp only [hentries, or_and_right, exists_or, exists_eq_left]
    exact or_congr_left eq_comm
  · have hne : e.id.src ≠ x.uid := fun h => he (h.trans huid.symm)
    rw [hl'.mem_edges_iff, hl.mem_edges_iff, harc hne]
  · replace h : g'.Arc a x.uid := huid ▸ h
    by_cases ha : a = x.uid
    · subst ha
      exact hself h
    · exact hnew (hg.arc_known ((harc ha).mp h)).2
  · rw [hl'.start_eq, hl.start_eq, Record.uid, hstart, Record.uid]
  · rw [hl'.stop_eq, hl.stop_eq, Record.uid, hstop, Record.uid]

end Inserted

end Graph

end WorstCase
