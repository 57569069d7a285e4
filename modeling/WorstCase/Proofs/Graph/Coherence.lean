import WorstCase.Proofs.Graph.Cutting

/-!
# Coherent graphs

A graph is **coherent** when uids, labels, edge identifiers and cut identifiers do not repeat, edges
join blocks, and the endpoints are both unknown or both blocks (`Graph.Coherent`). Adding blocks and
edges, naming the endpoints, matching files and cuts keep a graph coherent; matching files change
costs only, so they do also where they stop half-way. Hence every graph that can arise is coherent
(`Graph.Built.coherent`), and in a coherent graph labels and uids determine each other
(`Graph.Coherent.uid?_iff`).
-/

namespace WorstCase

namespace Graph

variable {g g' : Graph}

/-! ### What all steps keep -/

/-- The uid of a block of the graph. -/
def Known (g : Graph) (uid : Int) : Prop :=
  uid ∈ g.blocks.map (·.uid)

/-- A graph is **coherent** when nothing repeats, edges join blocks, and the endpoints are known
together. -/
structure Coherent (g : Graph) : Prop where
  valid : g.Valid
  labels_nodup : (g.labels.map (·.1)).Nodup
  cutIds_nodup : (g.cuts.map (·.id)).Nodup
  endpoints : (g.start = noDominator ∧ g.stop = noDominator) ∨ (g.Known g.start ∧ g.Known g.stop)

theorem coherent_empty : ({} : Graph).Coherent where
  valid := valid_empty
  labels_nodup := List.nodup_nil
  cutIds_nodup := List.nodup_nil
  endpoints := .inl ⟨rfl, rfl⟩

theorem mem_labels {l : String} {u : Int} :
    (l, u) ∈ g.labels ↔ l ≠ "" ∧ ∃ b ∈ g.blocks, b.label = l ∧ b.uid = u := by
  simp only [labels, List.mem_map, List.mem_filter, decide_eq_true_eq, Prod.mk.injEq]
  constructor
  · rintro ⟨b, ⟨hb, hl⟩, rfl, rfl⟩
    exact ⟨hl, b, hb, rfl, rfl⟩
  · rintro ⟨hl, b, hb, rfl, rfl⟩
    exact ⟨b, ⟨hb, hl⟩, rfl, rfl⟩

theorem uid?_eq_none_iff {l : String} : g.uid? l = none ↔ l ∉ g.labels.map (·.1) := by
  simp only [uid?, Option.map_eq_none_iff, List.find?_eq_none, List.mem_map, Prod.exists,
    exists_and_right, exists_eq_right, mem_labels, decide_eq_true_eq]
  constructor
  · rintro h ⟨u, hl, b, hb, rfl, -⟩
    exact h b hb ⟨hl, rfl⟩
  · rintro h b hb ⟨hl, rfl⟩
    exact h ⟨b.uid, hl, b, hb, rfl, rfl⟩

/-- A block that is added has a new label, or none. -/
theorem label_fresh_of_addBlock {b : Block} (h : g.addBlock b = .ok g') :
    b.label ∉ g.labels.map (·.1) := by
  unfold Graph.addBlock at h
  split_ifs at h with hu hl
  exact uid?_eq_none_iff.mp (by simpa [Option.isSome_iff_ne_none] using hl)

theorem Coherent.addBlock (hg : g.Coherent) {b : Block} (h : g.addBlock b = .ok g') :
    g'.Coherent := by
  have hvalid := hg.valid.addBlock h
  have hfresh := label_fresh_of_addBlock h
  obtain ⟨-, rfl⟩ := addBlock_eq_ok h
  refine ⟨hvalid, ?_, hg.cutIds_nodup, hg.endpoints.imp_right fun hends => ?_⟩
  · have hlabel : b.named.label = b.label := rfl
    simp only [labels, List.filter_append, List.map_append]
    refine List.nodup_append.mpr ⟨hg.labels_nodup, ?_, fun l hl l' hl' => ?_⟩
    · by_cases hempty : b.label = "" <;> simp [hlabel, hempty]
    · by_cases hempty : b.label = ""
      · simp [hlabel, hempty] at hl'
      · obtain rfl : l' = b.label := by simpa [hlabel, hempty] using hl'
        rintro rfl
        exact hfresh hl
  · simp only [Known, List.map_append, List.mem_append]
    exact ⟨.inl hends.1, .inl hends.2⟩

theorem Coherent.addEdge (hg : g.Coherent) {e : Edge} (h : g.addEdge e = .ok g') :
    g'.Coherent := by
  have hvalid := hg.valid.addEdge h
  obtain rfl | ⟨-, -, -, rfl⟩ := addEdge_eq_ok h
  · exact hg
  · exact ⟨hvalid, hg.labels_nodup, hg.cutIds_nodup, hg.endpoints⟩

theorem Coherent.setEndpoints (hg : g.Coherent) {start stop : Int}
    (h : g.setEndpoints start stop = .ok g') : g'.Coherent := by
  have hvalid := hg.valid.setEndpoints h
  unfold Graph.setEndpoints at h
  split_ifs at h with hstart hstop
  have hknown : g.Known start ∧ g.Known stop :=
    ⟨block?_isSome_iff.mp (by simpa [Option.isSome_iff_ne_none] using hstart),
      block?_isSome_iff.mp (by simpa [Option.isSome_iff_ne_none] using hstop)⟩
  obtain rfl := Except.ok.inj h
  exact ⟨hvalid, hg.labels_nodup, hg.cutIds_nodup, .inr hknown⟩

/-- Blocks may change, but for their uids and labels. -/
theorem Coherent.mapBlocks (hg : g.Coherent) (f : Block → Block)
    (hf : ∀ b, (f b).uid = b.uid ∧ (f b).label = b.label) :
    ({ g with blocks := g.blocks.map f } : Graph).Coherent := by
  have huids : (g.blocks.map f).map (·.uid) = g.blocks.map (·.uid) := by
    rw [List.map_map]
    exact List.map_congr_left fun b _ => (hf b).1
  have hlabels : ({ g with blocks := g.blocks.map f } : Graph).labels = g.labels := by
    simp only [labels, List.filter_map, List.map_map, Function.comp_def, hf]
  refine ⟨hg.valid.congr huids rfl, ?_, hg.cutIds_nodup, ?_⟩
  · rw [hlabels]
    exact hg.labels_nodup
  · simp only [Known, huids]
    exact hg.endpoints

theorem Coherent.applyMatching (hg : g.Coherent) (text : String) :
    (g.applyMatching text).1.Coherent := by
  refine applyMatching_preserves (P := Coherent) (fun {g uid cost} hg => ?_)
    (fun {g id cost} hg => ?_) (fun {g named} hg => ?_) hg text
  · exact hg.mapBlocks _ fun b => by split <;> exact ⟨rfl, rfl⟩
  · exact ⟨hg.valid.setEdgeCost id cost, hg.labels_nodup, hg.cutIds_nodup, hg.endpoints⟩
  · exact hg.mapBlocks _ fun b => by split <;> exact ⟨rfl, rfl⟩

theorem Coherent.withCut (hg : g.Coherent) {id : CutId} (r : LongestPath)
    (hnone : g.cut? id.head id.tail = none) : (g.withCut id r).Coherent := by
  refine ⟨hg.valid.congr rfl rfl, hg.labels_nodup, ?_, hg.endpoints⟩
  rw [Graph.withCut, List.map_append, List.map_singleton, List.nodup_append_comm,
    List.singleton_append, List.nodup_cons]
  refine ⟨fun hmem => ?_, hg.cutIds_nodup⟩
  have hsome : (g.cut? id.head id.tail).isSome := find?_key_isSome_iff.mpr hmem
  rw [hnone] at hsome
  exact Bool.false_ne_true hsome

/-- Listings are read by such steps. -/
theorem coherent_of_ofListing {text : String} (h : ofListing text = .ok g) : g.Coherent :=
  ofListing_preserves (fun hg h => hg.addBlock h) (fun hg h => hg.addEdge h)
    (fun hg h => hg.setEndpoints h) coherent_empty h

/-- A graph that changes its cuts or names its endpoints stays coherent. -/
theorem Coherent.annotate (hg : g.Coherent) (h : g.Annotates g') : g'.Coherent := by
  have hcut : ∀ {g : Graph} {id : CutId} {r : LongestPath}, g.Coherent →
      g.longestPath id.head id.tail = .ok r → g.cut? id.head id.tail = none →
        (g.withCut id r).Coherent := fun hg _ hnone => hg.withCut _ hnone
  cases h with
  | cut h =>
    obtain rfl | ⟨r, -, hnone, rfl⟩ := addCut_eq_ok h
    · exact hg
    · exact hg.withCut r hnone
  | dominatorCuts => exact addCuts_preserves hcut hg
  | semanticCuts => exact addCuts_preserves hcut hg
  | globalCut h =>
    obtain ⟨-, rfl | ⟨hnone, rfl⟩⟩ := addGlobalCut_eq_ok h
    · exact hg
    · exact hg.withCut _ hnone
  | endpoints h => exact hg.setEndpoints h

/-- **Every graph that can arise is coherent.** -/
theorem Built.coherent (hg : g.Built) : g.Coherent := by
  induction hg with
  | empty => exact coherent_empty
  | listing h => exact coherent_of_ofListing h
  | block _ h ih => exact ih.addBlock h
  | edge _ h ih => exact ih.addEdge h
  | matching _ text ih => exact ih.applyMatching text
  | annotate _ h ih => exact ih.annotate h

/-! ### What can be read off -/

theorem Valid.succs_nodup (hg : g.Valid) (x : Int) : (g.succs x).Nodup := by
  have hids : ((g.edges.filter (·.id.src = x)).map (·.id)).Nodup :=
    hg.ids_nodup.sublist (List.filter_sublist.map _)
  refine (List.nodup_map_iff_inj_on hids.of_map).mpr fun e he e' he' hdst => ?_
  -- two edges out of `x` to the same destination have the same identifier
  refine List.inj_on_of_nodup_map hids he he' ?_
  rw [List.mem_filter, decide_eq_true_eq] at he he'
  rcases hid : e.id with ⟨s, d⟩
  rcases hid' : e'.id with ⟨s', d'⟩
  simp_all

/-- In a list without repetitions, whatever is there occurs once. -/
theorem count_eq_ite {l : List Int} (hl : l.Nodup) (x : Int) {p : Prop} [Decidable p]
    (h : x ∈ l ↔ p) : l.count x = if p then 1 else 0 := by
  by_cases hx : x ∈ l
  · rw [if_pos (h.mp hx), List.count_eq_one_of_mem hl hx]
  · rw [if_neg (mt h.mpr hx), List.count_eq_zero_of_not_mem hx]

theorem Coherent.uid?_iff (hg : g.Coherent) (l : String) (uid : Int) :
    g.uid? l = some uid ↔ (l, uid) ∈ g.labels := by
  constructor
  · intro h
    obtain ⟨b, hb, rfl⟩ := Option.map_eq_some_iff.mp h
    have hl : b.label ≠ "" ∧ b.label = l := by simpa using List.find?_some hb
    exact mem_labels.mpr ⟨hl.2 ▸ hl.1, b, List.mem_of_find?_eq_some hb, hl.2, rfl⟩
  · intro h
    rcases hu : g.uid? l with _ | uid'
    · exact absurd (List.mem_map.mpr ⟨_, h, rfl⟩) (uid?_eq_none_iff.mp hu)
    · obtain ⟨b, hb, rfl⟩ := Option.map_eq_some_iff.mp hu
      have hl : b.label ≠ "" ∧ b.label = l := by simpa using List.find?_some hb
      have hmem : (l, b.uid) ∈ g.labels :=
        mem_labels.mpr ⟨hl.2 ▸ hl.1, b, List.mem_of_find?_eq_some hb, hl.2, rfl⟩
      have heq := List.inj_on_of_nodup_map hg.labels_nodup hmem h rfl
      rw [(Prod.mk.inj heq).2]

end Graph

end WorstCase
