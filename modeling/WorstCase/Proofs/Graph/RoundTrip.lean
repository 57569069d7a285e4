import WorstCase.Proofs.Graph.Outline
import WorstCase.Proofs.Graph.Successors

/-!
# Listings of blocks

Blocks that are written as a listing are read again as they are (`Graph.ofListing_render`): the
graph has a block for each, in the order of the listing, and an edge to every block that a branch
names.
The blocks may be in any order, so dominators and targets may be listed behind the blocks that name
them. They are found because every record is read before the first reference is followed
(`Outline.exists_readAll_render`), by a variable or a label that no other block has.
-/

namespace WorstCase

namespace Outline

/-! ### The graph of outlines -/

/-- The uids of the blocks that a branch names. -/
def dsts (os : List Outline) (o : Outline) : List Int :=
  o.exit.targets.filterMap fun x => (os.find? (·.label = x)).map fun o => (o.var.uid : Int)

/-- The selector of a block is its variable, in start form for the start and the blocks `bd_0` and
`bd_1`. -/
def selector (start o : Outline) : List Char :=
  if o.var = start.var ∨ o.var.dominant = true ∧ o.var.uid ≤ 1 then
    "bs_".toList ++ Decimal.chars o.var.uid
  else o.var.text

/-- The uid of the declared dominator. -/
def dominatorUid (o : Outline) : Int :=
  match o.dominator with
  | some v => v.uid
  | none => noDominator

/-- The block of an outline. -/
def block (start o : Outline) : Block where
  uid := o.var.uid
  label := String.ofList o.label.chars
  selector := String.ofList (selector start o)
  written := String.ofList o.var.text
  cost := o.cost
  dominator := o.dominatorUid

/-- The graph of outlines: their blocks, and each edge to a target once, at no cost. -/
def graph (os : List Outline) (start stop : Outline) : Graph where
  blocks := os.map (block start)
  edges := (os.flatMap fun o =>
    (o.dsts os).map fun dst => (⟨o.var.uid, dst⟩ : EdgeId)).eraseDups.map fun id => { id }
  cuts := []
  start := start.var.uid
  stop := stop.var.uid

/-- When outlines describe a graph: different uids and labels, two blocks that are the start and the
end, and nothing named that is not listed. -/
structure Listed (os : List Outline) (start stop : Outline) : Prop where
  uids : (os.map (·.var.uid)).Nodup
  labels : (os.map (·.label)).Nodup
  endpoints : os.filter (·.var.dominant) = [start, stop]
  dominators : ∀ o ∈ os, ∀ v ∈ o.dominator, v ∈ os.map (·.var)
  targets : ∀ o ∈ os, ∀ x ∈ o.exit.targets, x ∈ os.map (·.label)

/-- The blocks of outlines with the uids that their branches name. -/
def entries (os : List Outline) (start : Outline) : List (Block × List Int) :=
  os.map fun o => (block start o, o.dsts os)

variable {os : List Outline} {start stop o : Outline} {records : List Record} {r s : Record}

/-! ### Records with the gist of outlines -/

theorem name_eq (h : r.gist = o.gist) : r.name = o.var.text :=
  congrArg Record.Gist.name h

theorem label_eq (h : r.gist = o.gist) : r.label = o.label.chars :=
  congrArg Record.Gist.label h

theorem uid_eq (h : r.gist = o.gist) : r.uid = o.var.uid := by
  rw [Record.uid, name_eq h, Variable.uidOfVariable?_text, Option.getD_some]

theorem cost_eq (h : r.gist = o.gist) : r.cost = .ok o.cost := by
  have hhead : (Text.words r.body).head? = some (Decimal.chars o.cost.toInt) :=
    congrArg Record.Gist.cost h
  obtain ⟨rest, hwords⟩ := List.head?_eq_some_iff.mp hhead
  rw [Record.cost, hwords]
  simp only [Decimal.readInt64?_chars (Decimal.fits64_toInt _), Int64.ofInt_toInt]

/-- A record is found by what its gist says if the outline is. -/
theorem exists_find?_eq (hgists : records.map Record.gist = os.map gist) (p : Record.Gist → Bool)
    (h : os.find? (fun o => p o.gist) = some o) :
    ∃ r, records.find? (fun r => p r.gist) = some r ∧ r.gist = o.gist := by
  have hfind := congrArg (List.find? p) hgists
  rw [List.find?_map, List.find?_map] at hfind
  have hsome : (records.find? (p ∘ Record.gist)).map Record.gist = some o.gist := by
    rw [hfind]
    exact congrArg (Option.map gist) h
  exact Option.map_eq_some_iff.mp hsome

theorem Label.chars_injective {x y : Label} (h : x.chars = y.chars) : x = y := by
  cases x
  cases y
  congr

theorem dominatorText_of_some {v : Variable} (h : o.dominator = some v) :
    o.dominatorText = v.text := by
  rw [dominatorText, h]

/-- The declared dominator is found by its variable. -/
theorem dominator_eq (hl : Listed os start stop) (ho : o ∈ os)
    (hgists : records.map Record.gist = os.map gist) (h : r.gist = o.gist) :
    r.dominator records = .ok o.dominatorUid := by
  have hname : r.dominatorName? = some o.dominatorText := by
    have hgist : r.dominatorName?.filter (· ≠ []) = some o.dominatorText :=
      congrArg Record.Gist.dominator h
    exact (Option.filter_eq_some_iff.mp hgist).1
  obtain ⟨⟨before, rest⟩, hcut, htrim⟩ := Option.map_eq_some_iff.mp hname
  simp only at htrim
  rw [Record.dominator, hcut]
  simp only [htrim]
  rcases hd : o.dominator with _ | v
  · rw [dominatorText, dominatorUid, hd, if_pos rfl]
  · -- a variable has a uid, so it is not taken for a missing dominator
    have hnull : v.text ≠ "NULL".toList := by
      intro hnull
      have huid := v.uidOfVariable?_text
      rw [hnull, show uidOfVariable? "NULL".toList = none from by decide] at huid
      exact absurd huid (by simp)
    obtain ⟨o', ho', hv⟩ := List.mem_map.mp (hl.dominators o ho v hd)
    obtain ⟨found, hfound⟩ : ∃ found, os.find? (fun o => o.gist.name = v.text) = some found :=
      Option.isSome_iff_exists.mp (List.find?_isSome.mpr ⟨o', ho', by simp [gist, hv]⟩)
    have hvar : found.var = v := by
      have hsame := List.find?_some hfound
      exact Variable.text_injective (of_decide_eq_true hsame)
    obtain ⟨s, hs, hgist⟩ := exists_find?_eq hgists (fun γ => γ.name = v.text) hfound
    have hs' : records.find? (·.name = v.text) = some s := hs
    rw [dominatorText_of_some hd, dominatorUid, hd, if_neg hnull]
    simp only [hs', uid_eq hgist, hvar]

/-- The targets of a branch are found by their labels. -/
theorem successors_eq (hl : Listed os start stop) (ho : o ∈ os)
    (hgists : records.map Record.gist = os.map gist) (h : r.gist = o.gist) :
    r.successors records = .ok (o.dsts os) := by
  have htargets : Record.targets r.body = o.exit.targets.map (·.chars) :=
    congrArg Record.Gist.targets h
  have hfound : ∀ x ∈ o.exit.targets, ∃ o', os.find? (·.label = x) = some o' := by
    intro x hx
    obtain ⟨o', ho', hlabel⟩ := List.mem_map.mp (hl.targets o ho x hx)
    exact Option.isSome_iff_exists.mp (List.find?_isSome.mpr ⟨o', ho', by simp [hlabel]⟩)
  rw [Record.successors, htargets, mapM_eq_ok_iff, List.forall₂_map_left_iff, dsts]
  -- target by target
  generalize o.exit.targets = xs at hfound
  induction xs with
  | nil => exact .nil
  | cons x xs ih =>
    rw [List.forall_mem_cons] at hfound
    obtain ⟨⟨o', ho'⟩, hrest⟩ := hfound
    have hchars : os.find? (fun o => decide (o.gist.label = x.chars)) = some o' := by
      rw [← ho']
      refine congrArg (os.find? ·) (funext fun o => decide_eq_decide.mpr ?_)
      exact ⟨Label.chars_injective, fun hx => congrArg Label.chars hx⟩
    obtain ⟨s, hs, hgist⟩ := exists_find?_eq hgists (fun γ => γ.label = x.chars) hchars
    have hs' : records.find? (·.label = x.chars) = some s := hs
    rw [List.filterMap_cons, ho', Option.map_some]
    refine .cons ?_ (ih hrest)
    simp only [hs', uid_eq hgist]

namespace Variable

variable {v : Variable}

theorem text_eq_iff {k : Nat} (hk : k < 2 ^ 63) :
    v.text = Record.dominantMark ++ Decimal.chars k ↔ v = ⟨true, k, hk⟩ := by
  rw [← text_of_dominant (v := ⟨true, k, hk⟩) rfl]
  exact ⟨text_injective, congrArg text⟩

/-- The dominant variables with the first two uids. -/
theorem dominant_and_le_one_iff :
    v.dominant = true ∧ v.uid ≤ 1 ↔
      v = ⟨true, 0, by decide⟩ ∨ v = ⟨true, 1, by decide⟩ := by
  constructor
  · rcases v with ⟨d, k, hk⟩
    rintro ⟨hd, hle⟩
    obtain rfl : d = true := hd
    obtain rfl | rfl : k = 0 ∨ k = 1 := Nat.le_one_iff_eq_zero_or_eq_one.mp hle
    · exact .inl rfl
    · exact .inr rfl
  · rintro (rfl | rfl) <;> decide

end Variable

/-- A record has the start form of its variable where the outline has it. -/
theorem selector_eq (hs : s.gist = start.gist) (hdominant : start.var.dominant = true)
    (h : r.gist = o.gist) : r.selector s = selector start o := by
  have hnew : ∀ {x y : List Char}, Record.startMark ++ x ≠ Record.dominantMark ++ y := by
    intro x y heq
    exact absurd (List.cons.inj (List.cons.inj heq).2).1 (by decide)
  rw [Record.selector, name_eq hs, name_eq h, selector]
  simp only [Variable.dominant_and_le_one_iff]
  by_cases hfirst : o.var = start.var
  · -- the mark of the start is replaced
    have hreplaced : Text.replaceFirst Record.dominantMark Record.startMark start.var.text =
        Record.startMark ++ Decimal.chars start.var.uid := by
      rw [Variable.text_of_dominant hdominant, Text.replaceFirst, Text.cut?_append_self (by decide)]
      rfl
    simp only [hfirst, if_true, hreplaced, if_neg hnew, true_or]
    rfl
  · -- of the other variables only `bd_0` and `bd_1` are rewritten
    have hzero : Record.dominantMark ++ ['0'] = Record.dominantMark ++ Decimal.chars (0 : Nat) := by
      decide
    have hone : Record.dominantMark ++ ['1'] = Record.dominantMark ++ Decimal.chars (1 : Nat) := by
      decide
    have hother : ¬ o.var.text = start.var.text := fun heq => hfirst (Variable.text_injective heq)
    simp only [if_neg hother, hzero, hone, Variable.text_eq_iff (k := 0) (by decide),
      Variable.text_eq_iff (k := 1) (by decide), hfirst, false_or]
    by_cases h0 : o.var = ⟨true, 0, by decide⟩
    · rw [if_pos h0, if_pos (.inl h0), h0]
      decide
    by_cases h1 : o.var = ⟨true, 1, by decide⟩
    · rw [if_neg h0, if_pos h1, if_pos (.inr h1), h1]
      decide
    · rw [if_neg h0, if_neg h1, if_neg (not_or.mpr ⟨h0, h1⟩)]

/-- **A record gives the block of its outline.** -/
theorem block_eq (hl : Listed os start stop) (ho : o ∈ os)
    (hgists : records.map Record.gist = os.map gist) (hs : s.gist = start.gist)
    (h : r.gist = o.gist) : r.block records s = .ok (block start o, o.dsts os) := by
  have hstart : start ∈ os.filter (·.var.dominant) := by simp [hl.endpoints]
  have hdominant := (List.mem_filter.mp hstart).2
  refine Record.block_eq_ok_iff.mpr ⟨_, _, _, cost_eq h, dominator_eq hl ho hgists h,
    successors_eq hl ho hgists h, ?_⟩
  rw [uid_eq h, label_eq h, name_eq h, selector_eq hs hdominant h, block]

theorem selector_ne_nil (start o : Outline) : selector start o ≠ [] := by
  unfold selector
  split
  · exact List.append_ne_nil_of_left_ne_nil (by decide) _
  · exact o.var.text_ne_nil

theorem named_block (start o : Outline) : (block start o).named = block start o := by
  have hselector : (block start o).selector ≠ "" := by
    simpa [block, ← String.toList_inj] using selector_ne_nil start o
  have hwritten : (block start o).written ≠ "" := by
    simpa [block, ← String.toList_inj] using o.var.text_ne_nil
  simp only [Block.named, if_neg hselector, if_neg hwritten]

/-! ### All records -/

section Records

variable (hl : Listed os start stop) (hgists : records.map Record.gist = os.map gist)

include hgists in
theorem map_gist {κ : Type} (key : Record.Gist → κ) :
    records.map (fun r => key r.gist) = os.map fun o => key o.gist := by
  have hkeys := congrArg (List.map key) hgists
  rwa [List.map_map, List.map_map] at hkeys

include hl hgists in
theorem labels_nodup : (records.map (·.label)).Nodup := by
  have hlabels : records.map (·.label) = (os.map (·.label)).map (·.chars) := by
    rw [List.map_map]
    exact map_gist hgists Record.Gist.label
  exact hlabels ▸ hl.labels.map fun _ _ => Label.chars_injective

include hl hgists in
theorem names_nodup : (records.map (·.name)).Nodup := by
  have hnames : records.map (·.name) = (os.map (·.var)).map (·.text) := by
    rw [List.map_map]
    exact map_gist hgists Record.Gist.name
  have hvars : (os.map (·.var)).Nodup := by
    refine List.Nodup.of_map (·.uid) ?_
    rw [List.map_map]
    exact hl.uids
  exact hnames ▸ hvars.map fun _ _ => Variable.text_injective

include hl hgists in
/-- The dominant records are those of the start and the end. -/
theorem exists_endpoints :
    ∃ s e, records.filter Record.isDominant = [s, e] ∧ s.gist = start.gist ∧
      e.gist = stop.gist := by
  let p : Record.Gist → Bool := fun γ => Text.occursIn Record.dominantMark γ.name
  have hdominant : os.filter (p ∘ gist) = [start, stop] := by
    rw [← hl.endpoints]
    exact List.filter_congr fun o _ => o.var.occursIn_text
  have hfilter := congrArg (List.filter p) hgists
  rw [List.filter_map, List.filter_map, hdominant] at hfilter
  obtain ⟨s, _, hrest, hs, htail⟩ := List.map_eq_cons_iff.mp hfilter
  obtain ⟨e, _, rfl, he, hnil⟩ := List.map_eq_cons_iff.mp htail
  obtain rfl := List.map_eq_nil_iff.mp hnil
  exact ⟨s, e, hrest, hs, he⟩

include hl hgists in
/-- **Every record gives a block**, and it is that of its outline. -/
theorem forall₂_block (hs : s.gist = start.gist) :
    List.Forall₂ (fun r entry => r.block records s = .ok entry) records (entries os start) := by
  have hpairs : List.Forall₂ (fun o r => o ∈ os ∧ r.gist = o.gist) os records := by
    have hsame := hgists
    rw [← List.forall₂_eq_eq_eq, List.forall₂_map_left_iff, List.forall₂_map_right_iff] at hsame
    exact (List.forall₂_and_left _ _).mpr ⟨fun _ ho => ho, hsame.flip⟩
  refine List.Forall₂.flip (List.forall₂_map_left_iff.mpr (hpairs.imp ?_))
  rintro o r ⟨ho, hr⟩
  exact block_eq hl ho hgists hs hr

end Records

/-! ### The entries of a listing -/

theorem entries_uids (os : List Outline) (start : Outline) :
    (entries os start).map (·.1.uid) = (os.map (·.var.uid)).map Nat.cast := by
  rw [entries, List.map_map, List.map_map]
  rfl

theorem entries_labels_nodup (hl : Listed os start stop) :
    ((entries os start).map (·.1.label)).Nodup := by
  have hlabels : (entries os start).map (·.1.label) =
      (os.map (·.label)).map (String.ofList ·.chars) := by
    rw [entries, List.map_map, List.map_map]
    rfl
  exact hlabels ▸ hl.labels.map fun _ _ heq =>
    Label.chars_injective (String.ofList_injective heq)

theorem entries_known : ∀ entry ∈ entries os start, ∀ dst ∈ entry.2,
    dst ∈ (entries os start).map (·.1.uid) := by
  intro entry hentry dst hdst
  obtain ⟨o, -, rfl⟩ := List.mem_map.mp hentry
  obtain ⟨x, -, hx⟩ := List.mem_filterMap.mp hdst
  obtain ⟨o', ho', rfl⟩ := Option.map_eq_some_iff.mp hx
  rw [entries_uids, List.map_map]
  exact List.mem_map.mpr ⟨o', List.mem_of_find?_eq_some ho', rfl⟩

theorem entries_named (os : List Outline) (start : Outline) :
    (entries os start).map (·.1.named) = os.map (block start) := by
  rw [entries, List.map_map]
  exact List.map_congr_left fun o _ => named_block start o

end Outline

namespace Graph

variable {os : List Outline} {start stop : Outline}

/-- The listing of outlines is read, and their entries are those of the graph. -/
theorem ofListing_render_and_lists (h : Outline.Listed os start stop) :
    ofListing (String.ofList (Outline.render os)) = .ok (Outline.graph os start stop) ∧
      ∃ records s e, Record.readAll (String.ofList (Outline.render os)).toList = .ok records ∧
        Lists records s e (Outline.entries os start) (Outline.graph os start stop) := by
  obtain ⟨records, hread, hgists⟩ := Outline.exists_readAll_render os
  obtain ⟨s, e, hends, hs, he⟩ := Outline.exists_endpoints h hgists
  rw [← String.toList_ofList (l := Outline.render os)] at hread
  have hparsed := Outline.forall₂_block h hgists hs
  have hlisting := ofListing_of_parsed hread
    (Record.repetition?_eq_none (Outline.labels_nodup h hgists) (Outline.names_nodup h hgists))
    hends hparsed (Outline.entries_uids os start ▸ h.uids.map Nat.cast_injective)
    (Outline.entries_labels_nodup h) Outline.entries_known
  have hgraph : ofListing (String.ofList (Outline.render os)) =
      .ok (Outline.graph os start stop) := by
    rw [hlisting, Outline.entries_named, Outline.uid_eq hs, Outline.uid_eq he, Outline.entries,
      List.flatMap_map, Outline.graph]
    rfl
  -- reading is a function, so these are the entries that the graph was made of
  refine ⟨hgraph, records, s, e, hread, ?_⟩
  obtain ⟨records', s', e', entries', hread', hl⟩ := lists_of_ofListing hgraph
  obtain rfl := Except.ok.inj (hread.symm.trans hread')
  obtain ⟨rfl, rfl⟩ : s = s' ∧ e = e' := by
    simpa using hends.symm.trans hl.endpoints
  obtain rfl : Outline.entries os start = entries' :=
    Except.ok.inj ((mapM_eq_ok_iff.mpr hparsed).symm.trans (mapM_eq_ok_iff.mpr hl.parsed))
  exact hl

/-- **Blocks that are written as a listing are read again as they are.** The successors of a block
are in the order in which its branch names them, its predecessors in the order of the blocks. -/
theorem ofListing_render (h : Outline.Listed os start stop) :
    ofListing (String.ofList (Outline.render os)) = .ok (Outline.graph os start stop) ∧
      ∀ o ∈ os,
        (Outline.graph os start stop).succs o.var.uid = (o.dsts os).eraseDups ∧
        (Outline.graph os start stop).preds o.var.uid =
          (os.filter fun o' => (o.var.uid : Int) ∈ o'.dsts os).map
            fun o' => (o'.var.uid : Int) := by
  obtain ⟨hg, records, s, e, hread, hl⟩ := ofListing_render_and_lists h
  refine ⟨hg, fun o ho => ⟨?_, ?_⟩⟩
  · have hentry : (Outline.block start o, o.dsts os) ∈ Outline.entries os start :=
      List.mem_map_of_mem ho
    exact hl.succs_eq hg hread hentry
  · rw [hl.preds_eq hg hread, Outline.entries, List.filter_map, List.map_map]
    rfl

/-! ### A triangle -/

/-- Three blocks, of which the first is neither the start nor the end. -/
def triangle : List Outline :=
  let x : Outline.Label := ⟨"x.1".toList, by decide, by decide, by decide⟩
  let a : Outline.Label := ⟨"A".toList, by decide, by decide, by decide⟩
  let b : Outline.Label := ⟨"B".toList, by decide, by decide, by decide⟩
  let start : Outline.Variable := ⟨true, 7, by decide⟩
  [ { var := ⟨false, 2, by decide⟩, cost := -3, label := x, dominator := start, exit := .jump b },
    { var := start, cost := 5, label := a, dominator := none, exit := .branch x [b, x, b] },
    { var := ⟨true, 1, by decide⟩, cost := 4, label := b, dominator := start, exit := .leave } ]

example : Outline.render triangle =
    "BasicBlock b_2: -3\nx.1:\n  Dominator = bd_7\n  br label %B\n".toList ++
      "BasicBlock bd_7: 5\nA:\n  Dominator = NULL\n".toList ++
        "  br i1 %x.1, label %B, label %x.1, label %B\n".toList ++
          "BasicBlock bd_1: 4\nB:\n  Dominator = bd_7\n  ret void\n".toList := by
  decide +kernel

/-- The triangle is read again, though its first block names blocks that are listed later, and its
second one of them twice. -/
theorem ofListing_render_triangle :
    Outline.Listed triangle triangle[1] triangle[2] ∧
      ofListing (String.ofList (Outline.render triangle)) =
        .ok (Outline.graph triangle triangle[1] triangle[2]) ∧
      (Outline.graph triangle triangle[1] triangle[2]).succs 7 = [1, 2] ∧
      (Outline.graph triangle triangle[1] triangle[2]).preds 1 = [2, 7] := by
  have h : Outline.Listed triangle triangle[1] triangle[2] :=
    ⟨by decide, by decide, by decide, by decide, by decide⟩
  obtain ⟨hg, hlists⟩ := ofListing_render h
  refine ⟨h, hg, ?_, ?_⟩
  · exact (hlists triangle[1] (by decide)).1.trans (by decide)
  · exact (hlists triangle[2] (by decide)).2.trans (by decide)

end Graph

end WorstCase
