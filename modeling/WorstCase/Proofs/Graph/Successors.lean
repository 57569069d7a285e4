import WorstCase.Proofs.Graph.Coherence
import WorstCase.Proofs.Graph.RecordOrder

/-!
# The successors that a listing names

A listing that is read has, for every record, the edges to the blocks that its branch names, in the
order of the records and of the names, each of them once (`Graph.Lists.edges_eq`). So the successors
of a block are what its own branch names (`Graph.Lists.succs_eq`), its predecessors are the blocks
whose branches name it (`Graph.Lists.preds_eq`), and a name finds the block with this label
(`Graph.Lists.successors_uid?`).
-/

namespace WorstCase

/-! ### First occurrences -/

section EraseDups

variable {α β : Type} [DecidableEq α] [DecidableEq β]

theorem filter_eraseDups (p : α → Bool) (l : List α) :
    l.eraseDups.filter p = (l.filter p).eraseDups := by
  induction hn : l.length using Nat.strongRecOn generalizing l with
  | ind n ih =>
    subst hn
    cases l with
    | nil => rfl
    | cons a l =>
      have hlength : (l.filter fun b => !b == a).length < (a :: l).length :=
        Nat.lt_succ_of_le (List.length_filter_le _ _)
      have hswap : (l.filter fun b => !b == a).filter p = (l.filter p).filter fun b => !b == a :=
        List.filter_comm _ _ _
      rw [List.eraseDups_cons]
      by_cases ha : p a = true
      · rw [List.filter_cons_of_pos ha, List.filter_cons_of_pos ha, List.eraseDups_cons,
          ih _ hlength _ rfl, hswap]
      · have hne : (l.filter p).filter (fun b => !b == a) = l.filter p := by
          refine List.filter_eq_self.mpr fun b hb => ?_
          have hbp : p b = true := (List.mem_filter.mp hb).2
          simpa using fun h : b = a => ha (h ▸ hbp)
        rw [List.filter_cons_of_neg ha, List.filter_cons_of_neg ha, ih _ hlength _ rfl, hswap, hne]

theorem eraseDups_map {f : α → β} (hf : Function.Injective f) (l : List α) :
    (l.map f).eraseDups = l.eraseDups.map f := by
  induction hn : l.length using Nat.strongRecOn generalizing l with
  | ind n ih =>
    subst hn
    cases l with
    | nil => rfl
    | cons a l =>
      have hlength : (l.filter fun b => !b == a).length < (a :: l).length :=
        Nat.lt_succ_of_le (List.length_filter_le _ _)
      have hfilter : (l.map f).filter (fun b => !b == f a) = (l.filter fun b => !b == a).map f := by
        rw [List.filter_map]
        refine congrArg (List.map f) (List.filter_congr fun b _ => ?_)
        simp [hf.eq_iff, beq_eq_decide]
      rw [List.map_cons, List.eraseDups_cons, List.eraseDups_cons, List.map_cons, hfilter,
        ih _ hlength _ rfl]

theorem eraseDups_eq_singleton {a : α} {l : List α} (hne : l ≠ []) (h : ∀ b ∈ l, b = a) :
    l.eraseDups = [a] := by
  obtain ⟨b, l, rfl⟩ := List.exists_cons_of_ne_nil hne
  rw [List.forall_mem_cons] at h
  obtain ⟨rfl, hrest⟩ := h
  have hnil : l.filter (fun c => !c == b) = [] :=
    List.filter_eq_nil_iff.mpr fun c hc => by simp [hrest c hc]
  rw [List.eraseDups_cons, hnil]
  rfl

end EraseDups

namespace Graph

variable {records : List Record} {start stop : Record} {entries : List (Block × List Int)}
  {g : Graph} {text : String}

/-! ### The edges that records name -/

/-- The edges that branches name, in the order of the records and with repetitions. -/
def namedEdges (entries : List (Block × List Int)) : List EdgeId :=
  entries.flatMap fun entry => entry.2.map fun dst => ⟨entry.1.uid, dst⟩

theorem mem_namedEdges {id : EdgeId} :
    id ∈ namedEdges entries ↔ ∃ entry ∈ entries, entry.1.uid = id.src ∧ id.dst ∈ entry.2 := by
  rw [namedEdges, List.mem_flatMap]
  refine exists_congr fun entry => and_congr_right fun _ => ?_
  rw [List.mem_map]
  constructor
  · rintro ⟨dst, hdst, rfl⟩
    exact ⟨rfl, hdst⟩
  · rintro ⟨hsrc, hdst⟩
    exact ⟨id.dst, hdst, by rw [hsrc]⟩

/-- The edges out of a block are named by its own record. -/
theorem filter_src_namedEdges (hnd : (entries.map (·.1.uid)).Nodup) {entry : Block × List Int}
    (hentry : entry ∈ entries) :
    (namedEdges entries).filter (·.src = entry.1.uid) =
      entry.2.map fun dst => ⟨entry.1.uid, dst⟩ := by
  induction entries with
  | nil => exact absurd hentry List.not_mem_nil
  | cons e es ih =>
    rw [List.map_cons, List.nodup_cons] at hnd
    rw [namedEdges, List.flatMap_cons, ← namedEdges, List.filter_append]
    by_cases he : e.1.uid = entry.1.uid
    · -- no other record has this uid
      obtain rfl : entry = e :=
        (List.mem_cons.mp hentry).resolve_right fun hrest => hnd.1 (he ▸ List.mem_map_of_mem hrest)
      have hrest : (namedEdges es).filter (·.src = entry.1.uid) = [] := by
        refine List.filter_eq_nil_iff.mpr fun id hid hsrc => ?_
        obtain ⟨e', he', huid, -⟩ := mem_namedEdges.mp hid
        exact hnd.1 (List.mem_map.mpr ⟨e', he', huid.trans (of_decide_eq_true hsrc)⟩)
      have hown : (entry.2.map fun dst => (⟨entry.1.uid, dst⟩ : EdgeId)).filter
          (·.src = entry.1.uid) = entry.2.map fun dst => ⟨entry.1.uid, dst⟩ :=
        List.filter_eq_self.mpr fun id hid => by
          obtain ⟨dst, -, rfl⟩ := List.mem_map.mp hid
          exact decide_eq_true rfl
      rw [hown, hrest, List.append_nil]
    · have hentry' : entry ∈ es :=
        (List.mem_cons.mp hentry).resolve_left fun h => he (h ▸ rfl)
      have hnil : (e.2.map fun dst => (⟨e.1.uid, dst⟩ : EdgeId)).filter
          (·.src = entry.1.uid) = [] :=
        List.filter_eq_nil_iff.mpr fun id hid hsrc => by
          obtain ⟨dst, -, rfl⟩ := List.mem_map.mp hid
          exact he (of_decide_eq_true hsrc)
      rw [hnil, List.nil_append, ih hnd.2 hentry']

/-- Every record that names a block gives one edge into it. -/
theorem eraseDups_filter_dst_namedEdges (hnd : (entries.map (·.1.uid)).Nodup) (uid : Int) :
    ((namedEdges entries).filter (·.dst = uid)).eraseDups =
      (entries.filter (uid ∈ ·.2)).map fun entry => ⟨entry.1.uid, uid⟩ := by
  induction entries with
  | nil => rfl
  | cons e es ih =>
    rw [List.map_cons, List.nodup_cons] at hnd
    rw [namedEdges, List.flatMap_cons, ← namedEdges, List.filter_append]
    by_cases hmem : uid ∈ e.2
    · have hown : ((e.2.map fun dst => (⟨e.1.uid, dst⟩ : EdgeId)).filter
          (·.dst = uid)).eraseDups = [⟨e.1.uid, uid⟩] := by
        refine eraseDups_eq_singleton (List.ne_nil_of_mem
          (List.mem_filter.mpr ⟨List.mem_map_of_mem hmem, decide_eq_true rfl⟩)) fun id hid => ?_
        obtain ⟨hid, hdst⟩ := List.mem_filter.mp hid
        obtain ⟨dst, -, rfl⟩ := List.mem_map.mp hid
        exact congrArg _ (of_decide_eq_true hdst)
      -- no later record names an edge out of this block
      have hrest : ((namedEdges es).filter (·.dst = uid)).removeAll
          ((e.2.map fun dst => (⟨e.1.uid, dst⟩ : EdgeId)).filter (·.dst = uid)) =
            (namedEdges es).filter (·.dst = uid) := by
        refine List.filter_eq_self.mpr fun id hid => ?_
        obtain ⟨e', he', huid, -⟩ := mem_namedEdges.mp (List.mem_filter.mp hid).1
        have hnot : id ∉ (e.2.map fun dst => (⟨e.1.uid, dst⟩ : EdgeId)).filter (·.dst = uid) := by
          intro hin
          obtain ⟨dst, -, rfl⟩ := List.mem_map.mp (List.mem_filter.mp hin).1
          exact hnd.1 (List.mem_map.mpr ⟨e', he', huid⟩)
        rw [Bool.not_eq_true', List.elem_eq_mem, decide_eq_false_iff_not]
        exact hnot
      rw [List.eraseDups_append, hown, hrest, ih hnd.2,
        List.filter_cons_of_pos (by simpa using hmem)]
      rfl
    · have hnil : (e.2.map fun dst => (⟨e.1.uid, dst⟩ : EdgeId)).filter (·.dst = uid) = [] := by
        refine List.filter_eq_nil_iff.mpr fun id hid hdst => hmem ?_
        obtain ⟨dst, hd, rfl⟩ := List.mem_map.mp hid
        exact of_decide_eq_true hdst ▸ hd
      rw [hnil, List.nil_append, ih hnd.2, List.filter_cons_of_neg (by simpa using hmem)]

namespace Lists

/-! ### Edges -/

theorem entries_uids_nodup (hl : Lists records start stop entries g)
    (hg : ofListing text = .ok g) : (entries.map (·.1.uid)).Nodup :=
  hl.entries_uids ▸ (valid_of_ofListing hg).uids_nodup

/-- **The edges of a listing that is read**: those that its branches name, each once. -/
theorem edges_eq (hl : Lists records start stop entries g) (hg : ofListing text = .ok g)
    (hread : Record.readAll text.toList = .ok records) :
    g.edges = (namedEdges entries).eraseDups.map fun id => { id } := by
  have hknown : ∀ entry ∈ entries, ∀ dst ∈ entry.2, dst ∈ entries.map (·.1.uid) := by
    intro entry hentry dst hdst
    have harc : g.Arc entry.1.uid dst := hl.arc_iff.mpr ⟨entry, hentry, rfl, hdst⟩
    exact hl.entries_uids ▸ ((valid_of_ofListing hg).arc_known harc).2
  have hlisted := ofListing_of_parsed hread hl.fresh hl.endpoints hl.parsed
    (hl.entries_uids_nodup hg) hl.labels_nodup hknown
  exact congrArg Graph.edges (Except.ok.inj (hg.symm.trans hlisted))

/-- **The successors of a block** are what its own record names. -/
theorem succs_eq (hl : Lists records start stop entries g) (hg : ofListing text = .ok g)
    (hread : Record.readAll text.toList = .ok records) {entry : Block × List Int}
    (hentry : entry ∈ entries) : g.succs entry.1.uid = entry.2.eraseDups := by
  have hinj : Function.Injective fun dst => (⟨entry.1.uid, dst⟩ : EdgeId) := fun a b h =>
    (EdgeId.mk.inj h).2
  rw [succs, hl.edges_eq hg hread, List.filter_map, List.map_map]
  calc _ = ((namedEdges entries).eraseDups.filter (·.src = entry.1.uid)).map EdgeId.dst := rfl
    _ = (entry.2.map fun dst => (⟨entry.1.uid, dst⟩ : EdgeId)).eraseDups.map EdgeId.dst := by
        rw [filter_eraseDups, filter_src_namedEdges (hl.entries_uids_nodup hg) hentry]
    _ = entry.2.eraseDups := by
        rw [eraseDups_map hinj, List.map_map, Function.comp_def, List.map_id']

/-- **The predecessors of a block** are the blocks whose records name it, in the order of the
records. -/
theorem preds_eq (hl : Lists records start stop entries g) (hg : ofListing text = .ok g)
    (hread : Record.readAll text.toList = .ok records) (uid : Int) :
    g.preds uid = (entries.filter (uid ∈ ·.2)).map (·.1.uid) := by
  rw [preds, hl.edges_eq hg hread, List.filter_map, List.map_map]
  calc _ = ((namedEdges entries).eraseDups.filter (·.dst = uid)).map EdgeId.src := rfl
    _ = (entries.filter (uid ∈ ·.2)).map (·.1.uid) := by
        rw [filter_eraseDups, eraseDups_filter_dst_namedEdges (hl.entries_uids_nodup hg),
          List.map_map]
        rfl

/-! ### Names -/

/-- The block of a record is found by its label. -/
theorem uid?_label (hl : Lists records start stop entries g) (hg : ofListing text = .ok g)
    {s : Record} (hs : s ∈ records) (hne : s.label ≠ []) :
    g.uid? (String.ofList s.label) = some s.uid := by
  obtain ⟨entry, hentry, hblock⟩ := exists_mem_right_of_forall₂ hl.parsed hs
  refine ((coherent_of_ofListing hg).uid?_iff _ _).mpr
    (mem_labels.mpr ⟨?_, entry.1.named, ?_, ?_, ?_⟩)
  · simpa [← String.toList_inj] using hne
  · rw [hl.blocks]
    exact List.mem_map.mpr ⟨entry, hentry, rfl⟩
  · exact Record.label_of_block hblock
  · exact Record.uid_of_block hblock

/-- **Names find the blocks with these labels.** -/
theorem successors_uid? (hl : Lists records start stop entries g) (hg : ofListing text = .ok g)
    (hlabels : ∀ s ∈ records, s.label ≠ []) {r : Record} {uids : List Int}
    (h : r.successors records = .ok uids) :
    (Record.targets r.body).map (fun x => g.uid? (String.ofList x)) = uids.map some := by
  rw [Record.successors, mapM_eq_ok_iff] at h
  rw [← List.forall₂_eq_eq_eq, List.forall₂_map_left_iff, List.forall₂_map_right_iff]
  refine h.imp fun x uid hx => ?_
  rcases hfind : records.find? (·.label = x) with _ | s
  · simp [hfind] at hx
  · have hs := List.mem_of_find?_eq_some hfind
    have hlabel : s.label = x := by simpa using List.find?_some hfind
    simp only [hfind, Except.ok.injEq] at hx
    rw [← hlabel, hl.uid?_label hg hs (hlabels s hs), hx]

end Lists

end Graph

end WorstCase
