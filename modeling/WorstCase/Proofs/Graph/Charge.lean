import WorstCase.Proofs.Graph.Coherence
import WorstCase.Proofs.Graph.MatchingLine

/-!
# What matching files charge

What lines of a matching file do to a graph can be said all at once: each block and each edge gets
the cost in the **last line that names it**. `Graph.charge` makes exactly these assignments and
leaves alone whatever no line names.

* `Coherent.applyLine_eq_ok`, `Coherent.applyLine_eq_error`: one line charges what it names, or it
  is refused.
* `Coherent.applyLines_eq_none`, `Coherent.applyLines_eq_some`: lines in order charge what they name
  together, up to the first one that is refused.

Lines are looked up by labels, in a graph that the lines before them have charged already. This
makes no difference because costs do not matter to names: two graphs that are the same once
everything is free (`Graph.free`) agree on what a line names.
-/

namespace WorstCase

namespace MatchingLine

/-- Whether a line names a block alone. -/
def namesBlock (l : MatchingLine) (b : Block) : Bool :=
  l.dst = "" ∧ b.label = l.src

/-- The cost in the last of the chosen lines. -/
def lastCost (chosen : MatchingLine → Bool) (ls : List MatchingLine) : Option Int64 :=
  (ls.filter chosen).getLast?.map (·.cost)

variable {chosen : MatchingLine → Bool}

@[simp]
theorem lastCost_nil : lastCost chosen [] = none := rfl

theorem lastCost_singleton (l : MatchingLine) :
    lastCost chosen [l] = if chosen l then some l.cost else none := by
  by_cases h : chosen l <;> simp [lastCost, h]

/-- Later lines come first. -/
theorem lastCost_append (ls ls' : List MatchingLine) :
    lastCost chosen (ls ++ ls') = (lastCost chosen ls').or (lastCost chosen ls) := by
  rw [lastCost, List.filter_append, List.getLast?_append, Option.map_or]
  rfl

theorem lastCost_eq_none_iff {ls : List MatchingLine} :
    lastCost chosen ls = none ↔ ∀ l ∈ ls, chosen l = false := by
  simp [lastCost]

theorem exists_lastCost {l : MatchingLine} {ls : List MatchingLine} (hl : l ∈ ls)
    (h : chosen l = true) : ∃ cost, lastCost chosen ls = some cost := by
  refine Option.ne_none_iff_exists'.mp fun hnone => ?_
  exact absurd h (by simp [lastCost_eq_none_iff.mp hnone l hl])

/-- The lines of a matching file that count, and what they spell. -/
def Spoken (lines : List (List Char)) (ls : List MatchingLine) : Prop :=
  List.Forall₂ Spells (lines.filter (¬ Text.isBlankText ·)) ls

end MatchingLine

open MatchingLine

namespace Graph

variable {g g' : Graph}

/-! ### Charging -/

/-- Whether a line names an edge, by the labels of its ends. -/
def namesEdge (g : Graph) (l : MatchingLine) (e : Edge) : Bool :=
  l.dst ≠ "" ∧ g.labelOf e.id.src = l.src ∧ g.labelOf e.id.dst = l.dst

/-- An edge with the cost in the last line that names it, or else with its own. -/
def chargeEdge (g : Graph) (ls : List MatchingLine) (e : Edge) : Edge :=
  { e with cost := (lastCost (g.namesEdge · e) ls).getD e.cost }

/-- The graph where blocks and edges cost what the last line that names them says. The others keep
their costs. -/
def charge (g : Graph) (ls : List MatchingLine) : Graph :=
  { g with
    blocks := g.blocks.map fun b => { b with cost := (lastCost (·.namesBlock b) ls).getD b.cost }
    edges := g.edges.map (g.chargeEdge ls) }

/-- The graph where nothing costs anything. -/
def free (g : Graph) : Graph :=
  { g with
    blocks := g.blocks.map fun b => { b with cost := 0 }
    edges := g.edges.map fun e => { e with cost := 0 } }

/-- A line names something in a graph. -/
def Resolves (g : Graph) (l : MatchingLine) : Prop :=
  (∃ b ∈ g.blocks, l.namesBlock b) ∨ ∃ e ∈ g.edges, g.namesEdge l e

/-- **Why a line is refused**, and the fragment of it that is reported. -/
inductive Refused (g : Graph) (raw : List Char) : String → ReadCause → Prop
  | malformed {what : Malformation} (hread : MatchingLine.read raw = .error what) :
      Refused g raw (String.ofList raw) (.malformed what)
  | source {l : MatchingLine} (hspells : Spells raw l) (hsrc : l.src ∉ g.blocks.map (·.label)) :
      Refused g raw l.src .unknownLabel
  | destination {l : MatchingLine} (hspells : Spells raw l)
      (hsrc : l.src ∈ g.blocks.map (·.label)) (hne : l.dst ≠ "")
      (hdst : l.dst ∉ g.blocks.map (·.label)) :
      Refused g raw l.dst .unknownLabel
  | edge {l : MatchingLine} (hspells : Spells raw l) (hsrc : l.src ∈ g.blocks.map (·.label))
      (hne : l.dst ≠ "") (hdst : l.dst ∈ g.blocks.map (·.label))
      (hedge : ¬ ∃ e ∈ g.edges, g.namesEdge l e) :
      Refused g raw (String.ofList raw) (.malformed (.noEdge l.src l.dst))

section Edge

variable {e : Edge} {l : MatchingLine} {ls : List MatchingLine}

@[simp]
theorem chargeEdge_id (g : Graph) (ls : List MatchingLine) (e : Edge) :
    (g.chargeEdge ls e).id = e.id := rfl

theorem chargeEdge_of_unnamed (h : ∀ l ∈ ls, g.namesEdge l e = false) : g.chargeEdge ls e = e := by
  rw [chargeEdge, lastCost_eq_none_iff.mpr h]
  rfl

theorem map_chargeEdge_of_unnamed (h : ∀ e ∈ g.edges, ∀ l ∈ ls, g.namesEdge l e = false) :
    g.edges.map (g.chargeEdge ls) = g.edges :=
  (List.map_congr_left fun e he => chargeEdge_of_unnamed (h e he)).trans (List.map_id _)

theorem chargeEdge_singleton :
    g.chargeEdge [l] e = if g.namesEdge l e then { e with cost := l.cost } else e := by
  rw [chargeEdge, lastCost_singleton]
  split <;> rfl

end Edge

theorem charge_edges (g : Graph) (ls : List MatchingLine) :
    (g.charge ls).edges = g.edges.map (g.chargeEdge ls) := rfl

@[simp]
theorem charge_nil (g : Graph) : g.charge [] = g := by
  rw [charge, map_chargeEdge_of_unnamed (by simp)]
  simp

/-! ### Costs do not matter to names -/

@[simp]
theorem free_charge (g : Graph) (ls : List MatchingLine) : (g.charge ls).free = g.free := by
  simp [charge, chargeEdge, free]

/-- What does not depend on costs is the same where graphs differ in costs only. -/
theorem free_congr {α : Type} {f : Graph → α} (hf : ∀ g, f g.free = f g) (h : g'.free = g.free) :
    f g' = f g := by
  rw [← hf, h, hf]

theorem block?_free (g : Graph) (uid : Int) :
    g.free.block? uid = (g.block? uid).map fun b => { b with cost := 0 } := by
  rw [block?, free, List.find?_map]
  rfl

theorem labelOf_free (g : Graph) (uid : Int) : g.free.labelOf uid = g.labelOf uid := by
  rw [labelOf, block?_free, labelOf]
  cases g.block? uid <;> rfl

section Names

variable (h : g'.free = g.free)

include h

theorem labelOf_of_free_eq : g'.labelOf = g.labelOf :=
  free_congr (fun g => funext (labelOf_free g)) h

theorem namesEdge_of_free_eq : g'.namesEdge = g.namesEdge := by
  funext l e
  rw [namesEdge, labelOf_of_free_eq h, namesEdge]

theorem labels_of_free_eq : g'.blocks.map (·.label) = g.blocks.map (·.label) :=
  free_congr (f := fun g => g.blocks.map (·.label)) (fun g => by simp [free]) h

theorem ids_of_free_eq : g'.edges.map (·.id) = g.edges.map (·.id) :=
  free_congr (f := fun g => g.edges.map (·.id)) (fun g => by simp [free]) h

theorem exists_namesEdge_of_free_eq (l : MatchingLine) :
    (∃ e ∈ g'.edges, g'.namesEdge l e) ↔ ∃ e ∈ g.edges, g.namesEdge l e := by
  have hids : ∀ g : Graph, (∃ e ∈ g.edges, g.namesEdge l e) ↔
      ∃ id ∈ g.edges.map (·.id), g.namesEdge l { id } := fun g => by
    simp [namesEdge]
  rw [hids, hids, ids_of_free_eq h, namesEdge_of_free_eq h]

theorem resolves_of_free_eq (l : MatchingLine) : g'.Resolves l ↔ g.Resolves l := by
  have hlabel : ∀ g : Graph, (∃ b ∈ g.blocks, l.namesBlock b) ↔
      l.dst = "" ∧ l.src ∈ g.blocks.map (·.label) := fun g => by
    simp [namesBlock, and_comm, and_assoc]
  rw [Resolves, hlabel, labels_of_free_eq h, exists_namesEdge_of_free_eq h, ← hlabel, Resolves]

theorem Refused.of_free_eq {raw : List Char} {fragment : String} {cause : ReadCause}
    (hraw : g'.Refused raw fragment cause) : g.Refused raw fragment cause := by
  rcases hraw with hread | ⟨hspells, hsrc⟩ | ⟨hspells, hsrc, hne, hdst⟩ |
    ⟨hspells, hsrc, hne, hdst, hedge⟩
  · exact .malformed hread
  · exact .source hspells (labels_of_free_eq h ▸ hsrc)
  · exact .destination hspells (labels_of_free_eq h ▸ hsrc) hne (labels_of_free_eq h ▸ hdst)
  · exact .edge hspells (labels_of_free_eq h ▸ hsrc) hne (labels_of_free_eq h ▸ hdst)
      (mt (exists_namesEdge_of_free_eq h _).mpr hedge)

end Names

/-- **Lines one after the other** charge what they charge together. -/
theorem charge_append (g : Graph) (ls ls' : List MatchingLine) :
    g.charge (ls ++ ls') = (g.charge ls).charge ls' := by
  have hnames := namesEdge_of_free_eq (g.free_charge ls)
  have hedges : (g.charge (ls ++ ls')).edges = ((g.charge ls).charge ls').edges := by
    simp only [charge_edges, List.map_map]
    refine List.map_congr_left fun e _ => ?_
    simp only [Function.comp, chargeEdge, hnames, lastCost_append, Option.getD_or]
    rfl
  have hblocks : (g.charge (ls ++ ls')).blocks = ((g.charge ls).charge ls').blocks := by
    simp only [charge, List.map_map, lastCost_append, Option.getD_or]
    rfl
  exact congrArg₂ (fun blocks edges => { g with blocks, edges }) hblocks hedges

/-! ### Labels -/

theorem uid?_isSome_iff {label : String} (hl : label ≠ "") :
    (g.uid? label).isSome ↔ label ∈ g.blocks.map (·.label) := by
  simp only [uid?, Option.isSome_map, List.find?_isSome, decide_eq_true_eq, List.mem_map]
  refine exists_congr fun b => and_congr_right fun _ => and_iff_right_of_imp ?_
  rintro rfl
  exact hl

theorem Coherent.label_eq_iff (hg : g.Coherent) {b : Block} (hb : b ∈ g.blocks) {l : String}
    (hl : l ≠ "") : b.label = l ↔ g.uid? l = some b.uid := by
  rw [hg.uid?_iff, mem_labels]
  constructor
  · intro h
    exact ⟨hl, b, hb, h, rfl⟩
  · rintro ⟨-, b', hb', rfl, huid⟩
    rw [List.inj_on_of_nodup_map hg.valid.uids_nodup hb' hb huid]

theorem Coherent.labelOf_eq_iff (hg : g.Coherent) {uid : Int} (huid : g.Known uid) {l : String}
    (hl : l ≠ "") : g.labelOf uid = l ↔ g.uid? l = some uid := by
  obtain ⟨b, hb, rfl⟩ := List.mem_map.mp huid
  rw [← hg.label_eq_iff hb hl, labelOf, hg.valid.block?_eq_some_iff.mpr ⟨hb, rfl⟩]

/-! ### One line -/

section Line

variable {l : MatchingLine} {raw : List Char}

/-- The block that a line names is the one that its label leads to. -/
theorem Coherent.namesBlock_iff (hg : g.Coherent) (hl : Spells raw l) (hdst : l.dst = "")
    {uid : Int} (huid : g.uid? l.src = some uid) {b : Block} (hb : b ∈ g.blocks) :
    l.namesBlock b ↔ b.uid = uid := by
  simp only [namesBlock, hdst, true_and, decide_eq_true_eq]
  rw [hg.label_eq_iff hb hl.src_ne, huid, Option.some_inj, eq_comm]

/-- The edge that a line names is the one between the blocks that its labels lead to. -/
theorem Coherent.namesEdge_iff (hg : g.Coherent) (hl : Spells raw l) (hdst : l.dst ≠ "")
    {src dst : Int} (hs : g.uid? l.src = some src) (hd : g.uid? l.dst = some dst) {e : Edge}
    (he : e ∈ g.edges) : g.namesEdge l e ↔ e.id = ⟨src, dst⟩ := by
  obtain ⟨hknown, hknown'⟩ := hg.valid.ends_known _ (List.mem_map_of_mem he)
  simp only [namesEdge, decide_eq_true_eq]
  rw [and_iff_right hdst, hg.labelOf_eq_iff hknown hl.src_ne, hg.labelOf_eq_iff hknown' hdst, hs,
    hd, Option.some_inj, Option.some_inj]
  rcases e.id with ⟨s, d⟩
  rw [EdgeId.mk.injEq]
  exact and_congr eq_comm eq_comm

theorem Coherent.setBlockCost_eq (hg : g.Coherent) (hl : Spells raw l) (hdst : l.dst = "")
    {uid : Int} (huid : g.uid? l.src = some uid) : g.setBlockCost uid l.cost = g.charge [l] := by
  rw [setBlockCost, charge, map_chargeEdge_of_unnamed (by simp [namesEdge, hdst])]
  refine congrArg (fun blocks => { g with blocks }) (List.map_congr_left fun b hb => ?_)
  simp only [lastCost_singleton, hg.namesBlock_iff hl hdst huid hb]
  split <;> rfl

theorem Coherent.setEdgeCost_eq (hg : g.Coherent) (hl : Spells raw l) (hdst : l.dst ≠ "")
    {src dst : Int} (hs : g.uid? l.src = some src) (hd : g.uid? l.dst = some dst) :
    g.setEdgeCost ⟨src, dst⟩ l.cost = g.charge [l] := by
  have hblock : ∀ b, l.namesBlock b = false := fun b => by simp [namesBlock, hdst]
  simp only [setEdgeCost, charge, lastCost_singleton, hblock, Bool.false_eq_true, if_false,
    Option.getD_none, List.map_id']
  refine congrArg (fun edges => { g with edges }) (List.map_congr_left fun e he => ?_)
  simp only [chargeEdge_singleton, hg.namesEdge_iff hl hdst hs hd he]

/-- **A line that is accepted** charges what it names. -/
theorem Coherent.applyLine_eq_ok (hg : g.Coherent) {n : Nat} {uid : Option Int}
    (h : g.applyLine n raw = .ok (g', uid)) :
    ∃ l, Spells raw l ∧ g.Resolves l ∧ g' = g.charge [l] ∧
      ∀ b ∈ g.blocks, b.uid ∈ uid.toList ↔ l.namesBlock b := by
  simp only [applyLine] at h
  split at h
  · cases h
  rename_i l hread
  have hl := MatchingLine.read_eq_ok_iff.mp hread
  split at h
  · cases h
  rename_i src hs
  split_ifs at h with hdst
  · obtain ⟨rfl, rfl⟩ := Prod.mk.inj (Except.ok.inj h)
    obtain ⟨b, hb, hbuid⟩ := Option.map_eq_some_iff.mp hs
    have hmem := List.mem_of_find?_eq_some hb
    refine ⟨l, hl, .inl ⟨b, hmem, ?_⟩, hg.setBlockCost_eq hl hdst hs, fun b hb => ?_⟩
    · exact (hg.namesBlock_iff hl hdst hs hmem).mpr hbuid
    · simp [hg.namesBlock_iff hl hdst hs hb]
  · split at h
    · cases h
    rename_i dst hd
    split at h
    · cases h
    rename_i e he
    obtain ⟨rfl, rfl⟩ := Prod.mk.inj (Except.ok.inj h)
    refine ⟨l, hl, .inr ⟨e, mem_of_edge? he, ?_⟩, ?_, ?_⟩
    · exact (hg.namesEdge_iff hl hdst hs hd (mem_of_edge? he)).mpr (id_of_edge? he)
    · rw [id_of_edge? he]
      exact hg.setEdgeCost_eq hl hdst hs hd
    · simp [namesBlock, hdst]

/-- **A line that is not accepted** is refused under its number. -/
theorem Coherent.applyLine_eq_error (hg : g.Coherent) {n : Nat} {e : ReadError}
    (h : g.applyLine n raw = .error e) :
    ∃ fragment cause, g.Refused raw fragment cause ∧ e = ⟨.matching, n, fragment, cause⟩ := by
  simp only [applyLine] at h
  split at h
  · rename_i what hread
    exact ⟨_, _, .malformed hread, (Except.error.inj h).symm⟩
  rename_i l hread
  have hl := MatchingLine.read_eq_ok_iff.mp hread
  split at h
  · rename_i hs
    refine ⟨_, _, .source hl ?_, (Except.error.inj h).symm⟩
    rw [← uid?_isSome_iff hl.src_ne, hs]
    exact Bool.false_ne_true
  rename_i src hs
  have hsrc : l.src ∈ g.blocks.map (·.label) := by
    rw [← uid?_isSome_iff hl.src_ne, hs, Option.isSome_some]
  split_ifs at h with hdst
  split at h
  · rename_i hd
    refine ⟨_, _, .destination hl hsrc hdst ?_, (Except.error.inj h).symm⟩
    rw [← uid?_isSome_iff hdst, hd]
    exact Bool.false_ne_true
  rename_i dst hd
  split at h
  · rename_i hnone
    refine ⟨_, _, .edge hl hsrc hdst ?_ ?_, (Except.error.inj h).symm⟩
    · rw [← uid?_isSome_iff hdst, hd, Option.isSome_some]
    · rintro ⟨e, he, hnames⟩
      have hid := (hg.namesEdge_iff hl hdst hs hd he).mp hnames
      rw [hg.valid.edge?_eq_some_iff.mpr ⟨he, hid⟩] at hnone
      cases hnone
  · cases h

/-- A line that is refused names nothing. -/
theorem Refused.not_resolves {fragment : String} {cause : ReadCause}
    (h : g.Refused raw fragment cause) (hg : g.Valid) (hl : Spells raw l) : ¬ g.Resolves l := by
  have hlabel : ∀ {uid : Int}, g.Known uid → g.labelOf uid ∈ g.blocks.map (·.label) := by
    intro uid huid
    obtain ⟨b, hb, rfl⟩ := List.mem_map.mp huid
    rw [labelOf, hg.block?_eq_some_iff.mpr ⟨hb, rfl⟩]
    exact List.mem_map_of_mem hb
  -- what is named has the labels that the line gives
  have hnamed : g.Resolves l → l.src ∈ g.blocks.map (·.label) ∧
      (l.dst ≠ "" → l.dst ∈ g.blocks.map (·.label) ∧ ∃ e ∈ g.edges, g.namesEdge l e) := by
    rintro (⟨b, hb, hnames⟩ | ⟨e, he, hnames⟩)
    · simp only [namesBlock, decide_eq_true_eq] at hnames
      exact ⟨hnames.2 ▸ List.mem_map_of_mem hb, fun hdst => absurd hnames.1 hdst⟩
    · have hends := hg.ends_known _ (List.mem_map_of_mem he)
      have hlabels := hnames
      simp only [namesEdge, decide_eq_true_eq] at hlabels
      exact ⟨hlabels.2.1 ▸ hlabel hends.1, fun _ => ⟨hlabels.2.2 ▸ hlabel hends.2, e, he, hnames⟩⟩
  intro hresolves
  obtain ⟨hsrc, hdst⟩ := hnamed hresolves
  cases h with
  | malformed hread => cases hread.symm.trans (MatchingLine.read_eq_ok_iff.mpr hl)
  | source hl' h =>
    obtain rfl := hl'.unique hl
    exact h hsrc
  | destination hl' _ hne h =>
    obtain rfl := hl'.unique hl
    exact h (hdst hne).1
  | edge hl' _ hne _ h =>
    obtain rfl := hl'.unique hl
    exact h (hdst hne).2

end Line

/-! ### Lines in order -/

theorem Coherent.charge (hg : g.Coherent) (ls : List MatchingLine) : (g.charge ls).Coherent := by
  have hblocks := hg.mapBlocks
    (fun b => { b with cost := (lastCost (·.namesBlock b) ls).getD b.cost }) fun _ => ⟨rfl, rfl⟩
  exact ⟨hblocks.valid.congr rfl (by simp [Graph.charge]), hblocks.labels_nodup,
    hblocks.cutIds_nodup, hblocks.endpoints⟩

/-- `g'` is `g` with lines **applied** that are all accepted: they spell `ls`, what they name is
there, and nothing else happens than that it gets its costs. -/
structure Applied (g : Graph) (lines : List (List Char)) (ls : List MatchingLine) (g' : Graph) :
    Prop where
  spoken : Spoken lines ls
  resolves : ∀ l ∈ ls, g.Resolves l
  graph_eq : g' = g.charge ls

section Run

variable {raw : List Char} {lines : List (List Char)} {l : MatchingLine} {ls : List MatchingLine}

theorem applied_nil (g : Graph) : g.Applied [] [] g where
  spoken := .nil
  resolves := by simp
  graph_eq := (charge_nil g).symm

/-- Blank lines do not count. -/
theorem Applied.blank (h : g.Applied lines ls g') (hblank : Text.isBlankText raw = true) :
    g.Applied (raw :: lines) ls g' where
  spoken := by
    rw [Spoken, List.filter_cons_of_neg (by simpa using hblank)]
    exact h.spoken
  resolves := h.resolves
  graph_eq := h.graph_eq

/-- One more line in front. -/
theorem Applied.cons (h : (g.charge [l]).Applied lines ls g')
    (hblank : ¬ Text.isBlankText raw = true) (hl : Spells raw l) (hresolves : g.Resolves l) :
    g.Applied (raw :: lines) (l :: ls) g' where
  spoken := by
    rw [Spoken, List.filter_cons_of_pos (by simpa using hblank)]
    exact .cons hl h.spoken
  resolves := by
    refine List.forall_mem_cons.mpr ⟨hresolves, fun l' hl' => ?_⟩
    exact (resolves_of_free_eq (g.free_charge [l]) l').mp (h.resolves l' hl')
  graph_eq := by
    rw [h.graph_eq, ← charge_append]
    rfl

/-- **Lines that are all accepted** charge what they name, and the blocks that they name alone are
kept track of. -/
theorem Coherent.applyLines_eq_none (hg : g.Coherent) {named named' : List Int} {n : Nat}
    (h : g.applyLines named n lines = (g', named', none)) :
    ∃ ls, g.Applied lines ls g' ∧
      ∀ b ∈ g.blocks, b.uid ∈ named' ↔ b.uid ∈ named ∨ ∃ l ∈ ls, l.namesBlock b := by
  induction lines generalizing g named n with
  | nil =>
    simp only [applyLines, Prod.mk.injEq] at h
    obtain ⟨rfl, rfl, -⟩ := h
    exact ⟨[], applied_nil g, by simp⟩
  | cons raw lines ih =>
    rw [applyLines] at h
    split_ifs at h with hblank
    · obtain ⟨ls, happlied, hnamed⟩ := ih hg h
      exact ⟨ls, happlied.blank hblank, hnamed⟩
    split at h
    · cases (Prod.mk.inj (Prod.mk.inj h).2).2
    rename_i g₁ uid hline
    obtain ⟨l, hl, hresolves, rfl, huid⟩ := hg.applyLine_eq_ok hline
    obtain ⟨ls, happlied, hnamed⟩ := ih (hg.charge [l]) h
    refine ⟨l :: ls, happlied.cons hblank hl hresolves, fun b hb => ?_⟩
    -- a block is named like before: names do not depend on its cost
    have hb' : b.uid ∈ named' ↔ b.uid ∈ uid.toList ++ named ∨ ∃ l ∈ ls, l.namesBlock b :=
      hnamed { b with cost := (lastCost (·.namesBlock b) [l]).getD b.cost } (List.mem_map_of_mem hb)
    rw [List.mem_append, or_assoc, or_left_comm, huid b hb] at hb'
    simpa using hb'

/-- **Lines up to the first one that is refused** charge what they name. -/
theorem Coherent.applyLines_eq_some (hg : g.Coherent) {named named' : List Int} {n : Nat}
    {e : ReadError} (h : g.applyLines named n lines = (g', named', some e)) :
    ∃ before raw rest ls fragment cause, lines = before ++ raw :: rest ∧
      g.Applied before ls g' ∧ ¬ Text.isBlankText raw = true ∧ g.Refused raw fragment cause ∧
      e = ⟨.matching, n + before.length, fragment, cause⟩ := by
  induction lines generalizing g named n with
  | nil => cases (Prod.mk.inj (Prod.mk.inj h).2).2
  | cons raw lines ih =>
    rw [applyLines] at h
    split_ifs at h with hblank
    · obtain ⟨before, raw', rest, ls, fragment, cause, rfl, happlied, hraw, hrefused, rfl⟩ :=
        ih hg h
      refine ⟨raw :: before, raw', rest, ls, fragment, cause, rfl, happlied.blank hblank, hraw,
        hrefused, ?_⟩
      rw [List.length_cons, Nat.add_right_comm, Nat.add_assoc]
    split at h
    · rename_i e' hline
      simp only [Prod.mk.injEq, Option.some.injEq] at h
      obtain ⟨rfl, -, rfl⟩ := h
      obtain ⟨fragment, cause, hrefused, rfl⟩ := hg.applyLine_eq_error hline
      exact ⟨[], raw, lines, [], fragment, cause, rfl, applied_nil g, hblank, hrefused, rfl⟩
    · rename_i g₁ uid hline
      obtain ⟨l, hl, hresolves, rfl, -⟩ := hg.applyLine_eq_ok hline
      obtain ⟨before, raw', rest, ls, fragment, cause, rfl, happlied, hraw, hrefused, rfl⟩ :=
        ih (hg.charge [l]) h
      refine ⟨raw :: before, raw', rest, l :: ls, fragment, cause, rfl,
        happlied.cons hblank hl hresolves, hraw, hrefused.of_free_eq (g.free_charge [l]), ?_⟩
      rw [List.length_cons, Nat.add_right_comm, Nat.add_assoc]

end Run

end Graph

end WorstCase
