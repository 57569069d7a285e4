import WorstCase.Proofs.Graph.Registry
import WorstCase.Proofs.Store.Search

/-!
# Costs and cuts of linked stores

Changing the costs or the cuts of a linked store agrees with changing those of its graph
(`Store.Agree`): the results are the same, failures included, and a linked store of the changed
graph is left. A line of a matching file and the registration of a cut even carry out their step
(`Store.CarriesOut`), so that nothing is changed where they fail; a whole matching file and a run
over candidates stop half-way, and what was done before stays in the store as it does in the graph.

The run over the dominator cuts looks at the nodes again before each cut. As cuts do not touch the
nodes, it is a run over the candidates that the graph lists first.
-/

namespace WorstCase

/-- What a step that can fail gives for a graph. -/
def Graph.attempt {ε α : Type} (g : Graph) : Except ε (Graph × α) → Graph × Except ε α
  | .error e => (g, .error e)
  | .ok (g', a) => (g', .ok a)

namespace Store

variable {s : Store}

/-- What a computation gives for a store and for its graph **agrees** when the results are the same
and the store after it is a linked store of the graph after it. -/
def Agree {α : Type} (p : α × Store) (q : Graph × α) : Prop :=
  ∃ s', p = (q.2, s') ∧ s'.Linked ∧ s'.graph = q.1

theorem CarriesOut.agree {ε α : Type} (hs : s.Linked) {x : Edit ε α} {step : Except ε (Graph × α)}
    (h : s.CarriesOut x step) : Agree (x.on s) (s.graph.attempt step) := by
  rcases step with e | ⟨g, a⟩
  · exact ⟨s, h, hs, rfl⟩
  · exact h

/-! ### Costs -/

/-- Nodes may change, but for their names and their neighbours. -/
theorem Linked.mapNodes (hs : s.Linked) {f : Node → Node} {f' : Block → Block}
    (hf : ∀ n, (f n).uid = n.uid ∧ (f n).label = n.label ∧ (f n).selector = n.selector)
    (hlinks : ∀ n, (f n).preds = n.preds ∧ (f n).succs = n.succs)
    (hf' : ∀ b, (f' b).uid = b.uid ∧ (f' b).label = b.label)
    (hblock : ∀ n, s.blockOf (f n) = f' (s.blockOf n)) :
    ({ s with nodes := s.nodes.map f } : Store).Linked ∧
      ({ s with nodes := s.nodes.map f } : Store).graph =
        { s.graph with blocks := s.graph.blocks.map f' } := by
  have hgraph : ({ s with nodes := s.nodes.map f } : Store).graph =
      { s.graph with blocks := s.graph.blocks.map f' } := by
    have hblocks : (s.nodes.map f).map s.blockOf = (s.nodes.map s.blockOf).map f' := by
      simp only [List.map_map, Function.comp_def, hblock]
    simp only [graph, ← hblocks]
    rfl
  refine ⟨⟨hgraph ▸ hs.coherent.mapBlocks f' hf', hs.named.mapNodes hf, hs.edges, hs.cuts, ?_, ?_⟩,
    hgraph⟩
  -- the edges are the same, so each node still names the neighbours that they give it
  all_goals
    intro m hm
    obtain ⟨n, hn, rfl⟩ := List.mem_map.mp hm
  · rw [(hlinks n).1, (hf n).1, hs.preds n hn]
    rfl
  · rw [(hlinks n).2, (hf n).1, hs.succs n hn]
    rfl

theorem Linked.setNodeCost (hs : s.Linked) (uid : Int) (cost : Int64) :
    (setNodeCost uid cost s).Linked ∧
      (setNodeCost uid cost s).graph = s.graph.setBlockCost uid cost := by
  rw [Store.setNodeCost, hs.named.nodes.modifyAt_eq]
  refine hs.mapNodes (fun n => ?_) (fun n => ?_) (fun b => ?_) fun n => ?_
  · split <;> exact ⟨rfl, rfl, rfl⟩
  · split <;> exact ⟨rfl, rfl⟩
  · split <;> exact ⟨rfl, rfl⟩
  · show _ = if n.uid = uid then _ else _
    split <;> rfl

theorem Linked.clearOthers (hs : s.Linked) (named : List Int) :
    (clearOthers named s).Linked ∧ (clearOthers named s).graph = s.graph.clearOthers named := by
  refine hs.mapNodes (fun n => ?_) (fun n => ?_) (fun b => ?_) fun n => ?_
  · split <;> exact ⟨rfl, rfl, rfl⟩
  · split <;> exact ⟨rfl, rfl⟩
  · split <;> exact ⟨rfl, rfl⟩
  · show _ = if named.contains n.uid then _ else _
    split <;> rfl

theorem Linked.setEdgeCost (hs : s.Linked) (id : EdgeId) (cost : Int64) :
    (setEdgeCost id cost s).Linked ∧
      (setEdgeCost id cost s).graph = s.graph.setEdgeCost id cost := by
  have hids : ∀ e : Edge, (if e.id = id then { e with cost } else e).id = e.id := fun e => by
    split <;> rfl
  rw [Store.setEdgeCost, hs.edges.modifyAt_eq]
  refine ⟨⟨?_, hs.named.rest .., ?_, hs.cuts, fun n hn => ?_, fun n hn => ?_⟩, rfl⟩
  · exact ⟨hs.coherent.valid.setEdgeCost id cost, hs.coherent.labels_nodup,
      hs.coherent.cutIds_nodup, hs.coherent.endpoints⟩
  · simp only [List.map_map, Function.comp_def, hids]
    exact hs.edges
  · rw [hs.preds n hn]
    simp only [graph, Graph.preds, List.filter_map, List.map_map, Function.comp_def, hids]
  · rw [hs.succs n hn]
    simp only [graph, Graph.succs, List.filter_map, List.map_map, Function.comp_def, hids]

/-! ### Matching files -/

/-- **A line of a matching file carries out what it does to the graph.** -/
theorem Linked.applyLine (hs : s.Linked) (n : Nat) (raw : List Char) :
    s.CarriesOut (applyLine n raw) (s.graph.applyLine n raw) := by
  rw [Store.applyLine, Graph.applyLine]
  rcases MatchingLine.read raw with what | line
  · rfl
  simp only [← hs.uid?_eq, ← hs.edge?_eq]
  rcases hsrc : s.uid? line.src with _ | src
  · simp [CarriesOut, hsrc]
  by_cases hline : line.dst = ""
  · obtain ⟨hlinked, hgraph⟩ := hs.setNodeCost src line.cost
    simp only [hline, ↓reduceIte]
    refine ⟨Store.setNodeCost src line.cost s, ?_, hlinked, hgraph⟩
    simp [hsrc, Except.map]
  · rcases hdst : s.uid? line.dst with _ | dst
    · simp [CarriesOut, hsrc, hline, hdst]
    rcases hedge : s.edge? src dst with _ | e
    · simp [CarriesOut, hsrc, hline, hdst, hedge]
    · -- the store changes the edge that was asked for, the graph the one that was found
      have hid : e.id = ⟨src, dst⟩ := Graph.id_of_edge? (hs.edge?_eq src dst ▸ hedge)
      obtain ⟨hlinked, hgraph⟩ := hs.setEdgeCost ⟨src, dst⟩ line.cost
      simp only [hline, hedge, hid, ↓reduceIte]
      refine ⟨Store.setEdgeCost ⟨src, dst⟩ line.cost s, ?_, hlinked, hgraph⟩
      simp [hsrc, hdst, hedge, Except.map]

theorem Linked.applyLines (hs : s.Linked) (named : List Int) (n : Nat) (lines : List (List Char)) :
    Agree ((applyLines named n lines).on s)
      ((s.graph.applyLines named n lines).1,
        (s.graph.applyLines named n lines).2.2.elim (.ok (s.graph.applyLines named n lines).2.1)
          Except.error) := by
  induction lines generalizing s named n with
  | nil => exact ⟨s, rfl, hs, rfl⟩
  | cons raw rest ih =>
    rw [Store.applyLines, Graph.applyLines]
    split
    · exact ih hs named (n + 1)
    · have hline := hs.applyLine n raw
      rcases hstep : s.graph.applyLine n raw with e | ⟨g, uid⟩
      · rw [hstep] at hline
        rw [Edit.on_bind, show (Store.applyLine n raw).on s = (.error e, s) from hline]
        exact ⟨s, rfl, hs, rfl⟩
      · rw [hstep] at hline
        obtain ⟨s', hon, hs', rfl⟩ := hline
        rw [Edit.on_bind, hon]
        exact ih hs' (uid.toList ++ named) (n + 1)

theorem Linked.applyMatching (hs : s.Linked) (text : String) :
    Agree ((applyMatching text).on s)
      ((s.graph.applyMatching text).1,
        (s.graph.applyMatching text).2.elim (.ok ()) Except.error) := by
  have hlines := hs.applyLines [] 1 (Text.Lines.read text.toList).lines
  rw [Graph.applyMatching]
  rcases h : s.graph.applyLines [] 1 (Text.Lines.read text.toList).lines with ⟨g, named, failure⟩
  rw [h] at hlines
  obtain ⟨s', hon, hs', rfl⟩ := hlines
  cases failure with
  | some e => exact ⟨s', by simp [Store.applyMatching, hon, Except.mapError], hs', rfl⟩
  | none =>
    by_cases hlong : (Text.Lines.read text.toList).tooLong
    · simp only [hlong, ↓reduceIte]
      exact ⟨s', by simp [Store.applyMatching, hon, hlong, Except.mapError], hs', rfl⟩
    · obtain ⟨hlinked, hgraph⟩ := hs'.clearOthers named
      simp only [hlong]
      exact ⟨Store.clearOthers named s',
        by simp [Store.applyMatching, hon, hlong, Except.mapError], hlinked, hgraph⟩

/-! ### Cuts -/

/-- A store with one more cut. -/
def withCut (s : Store) (c : Cut) : Store :=
  { s with
    cutIndex := (c.id, s.cuts.length) :: s.cutIndex
    cuts := s.cuts ++ [c] }

theorem Linked.withCut (hs : s.Linked) {c : Cut} (hc : c.id ∉ s.cuts.map (·.id)) :
    (s.withCut c).Linked := by
  have hcuts : Locates (s.withCut c).cutIndex ((s.withCut c).cuts.map (·.id)) := by
    show Locates ((c.id, s.cuts.length) :: s.cutIndex) ((s.cuts ++ [c]).map (·.id))
    rw [List.map_append, List.map_singleton, ← List.length_map (·.id)]
    exact hs.cuts.push hc
  exact ⟨⟨hs.coherent.valid.congr rfl rfl, hs.coherent.labels_nodup, hcuts.nodup,
      hs.coherent.endpoints⟩,
    hs.named.rest .., hs.edges, hcuts, hs.preds, hs.succs⟩

/-- **Registering a cut carries out registering it in the graph.** -/
theorem Linked.register (hs : s.Linked) (id : CutId) (r : LongestPath) :
    s.CarriesOut (register id r) ((·, ()) <$> s.graph.register id r) := by
  rw [Graph.register, ← hs.isSome_cutIndex]
  rcases hid : s.cutIndex.lookup id with _ | k
  · rcases hcut : Cut.ofLongestPath id r with v | c
    · show (Store.register id r).on s = (.error v, s)
      simp [Store.register, hid, hcut]
    · have hcid : c.id = id := by rw [Graph.ofLongestPath_eq_ok hcut]
      have hnew : c.id ∉ s.cuts.map (·.id) := by
        rw [← hs.cuts.isSome_iff, hcid, hid]
        exact Bool.false_ne_true
      refine ⟨s.withCut c, ?_, hs.withCut hnew, rfl⟩
      simp [Store.register, hid, hcut, Store.withCut, hcid]
  · exact ⟨s, by simp [Store.register, hid], hs, rfl⟩

/-- Adding a cut takes a search and a registration. -/
theorem run_addCut (id : CutId) (s : Store) :
    (addCut id).run s =
      if (s.cutIndex.lookup id).isSome then ((false, none), s)
      else
        match s.longestPath id.head id.tail with
        | .error v => ((false, some v), s)
        | .ok r =>
          match (register id r).on s with
          | (.error v, s') => ((true, some v), s')
          | (.ok (), s') => ((true, none), s') := by
  simp only [addCut, StateT.run_bind, StateT.run_get, pure_bind]
  by_cases hid : (s.cutIndex.lookup id).isSome
  · simp only [hid, ↓reduceIte]
    rfl
  · simp only [hid, Bool.false_eq_true, ↓reduceIte]
    rcases s.longestPath id.head id.tail with v | r
    · rfl
    · simp only [Edit.on, StateT.run_bind]
      rcases StateT.run (register id r).run s with ⟨_ | _, s'⟩ <;> rfl

theorem Linked.addCut (hs : s.Linked) (id : CutId) :
    Agree ((addCut id).run s) (s.graph.flagCut id) := by
  rw [run_addCut, Graph.flagCut, ← hs.isSome_cutIndex, hs.longestPath_eq]
  split
  · exact ⟨s, rfl, hs, rfl⟩
  rcases s.graph.longestPath id.head id.tail with v | r
  · exact ⟨s, rfl, hs, rfl⟩
  have hreg := hs.register id r
  rcases hg : s.graph.register id r with v | g
  · rw [hg] at hreg
    have hon : (Store.register id r).on s = (.error v, s) := hreg
    simp only [hon, hg]
    exact ⟨s, rfl, hs, rfl⟩
  · rw [hg] at hreg
    obtain ⟨s', hon, hs', rfl⟩ := hreg
    simp only [hon, hg]
    exact ⟨s', rfl, hs', rfl⟩

theorem run_addCuts_cons (origin : CutOrigin) (added : Nat) (id : CutId) (rest : List CutId)
    (s : Store) :
    (addCuts origin added (id :: rest)).run s =
      match (addCut id).run s with
      | ((_, some violation), s') => ((added, some { origin, id, violation }), s')
      | ((new, none), s') => (addCuts origin (added + if new then 1 else 0) rest).run s' := by
  rw [addCuts, StateT.run_bind]
  rcases (addCut id).run s with ⟨⟨new, _ | v⟩, s'⟩ <;> rfl

/-- **A run over candidates agrees with that over the graph**, also where it stops at one. -/
theorem Linked.addCuts (hs : s.Linked) (origin : CutOrigin) (added : Nat) (ids : List CutId) :
    Agree ((addCuts origin added ids).run s)
      ((Graph.addCuts origin { graph := s.graph, added } ids).graph,
        (Graph.addCuts origin { graph := s.graph, added } ids).added,
        (Graph.addCuts origin { graph := s.graph, added } ids).failure) := by
  induction ids generalizing s added with
  | nil => exact ⟨s, rfl, hs, rfl⟩
  | cons id rest ih =>
    obtain ⟨s', hon, hs', hgraph⟩ := hs.addCut id
    rw [run_addCuts_cons, hon, Graph.addCuts, Graph.addCut_eq_flagCut]
    rcases hflag : s.graph.flagCut id with ⟨g, new, _ | v⟩
    · rw [hflag] at hgraph
      obtain rfl := hgraph
      exact ih hs' (added + if new then 1 else 0)
    · rw [hflag, Graph.flagCut_failed hflag] at hgraph
      exact ⟨s', rfl, hs', hgraph⟩

/-! ### Dominator cuts -/

/-- The candidate for a dominator cut that ends at a block. -/
def candidate? (s : Store) (uid : Int) : Option CutId :=
  (s.node? uid).bind fun n => if n.preds.length ≤ 1 then none else some ⟨n.dominator, uid⟩

theorem run_addDominatorCutsOf_cons (added : Nat) (uid : Int) (rest : List Int) (s : Store) :
    (addDominatorCutsOf added (uid :: rest)).run s =
      match s.candidate? uid with
      | none => (addDominatorCutsOf added rest).run s
      | some id =>
        match (addCut id).run s with
        | ((_, some violation), s') => ((added, some { origin := .dominator, id, violation }), s')
        | ((new, none), s') => (addDominatorCutsOf (added + if new then 1 else 0) rest).run s' := by
  simp only [addDominatorCutsOf, StateT.run_bind, StateT.run_get, pure_bind, candidate?]
  rcases s.node? uid with _ | n
  · rfl
  simp only [Option.bind_some]
  split
  · rfl
  · simp only [StateT.run_bind]
    rcases (addCut ⟨n.dominator, uid⟩).run s with ⟨⟨new, _ | v⟩, s'⟩ <;> rfl

/-- Cuts do not touch the nodes. -/
theorem node?_register (id : CutId) (r : LongestPath) (s : Store) :
    ((register id r).on s).2.node? = s.node? := by
  rcases hid : s.cutIndex.lookup id with _ | k
  · rcases hcut : Cut.ofLongestPath id r with v | c
    · simp [register, hid, hcut]
    · simp [register, hid, hcut]
      rfl
  · simp [register, hid]

theorem candidate?_addCut (id : CutId) (s : Store) :
    ((addCut id).run s).2.candidate? = s.candidate? := by
  have hkeep : ((addCut id).run s).2.node? = s.node? := by
    rw [run_addCut]
    split
    · rfl
    rcases s.longestPath id.head id.tail with v | r
    · rfl
    · have hreg := node?_register id r s
      rcases hon : (register id r).on s with ⟨_ | _, s'⟩ <;> simpa [hon] using hreg
  funext uid
  rw [candidate?, hkeep, candidate?]

/-- Looking at the nodes before each cut gives the candidates that looking at them first gives. -/
theorem run_addDominatorCutsOf (added : Nat) (uids : List Int) (s : Store) :
    (addDominatorCutsOf added uids).run s =
      (addCuts .dominator added (uids.filterMap s.candidate?)).run s := by
  induction uids generalizing s added with
  | nil => rfl
  | cons uid rest ih =>
    rw [run_addDominatorCutsOf_cons]
    rcases hc : s.candidate? uid with _ | id
    · rw [List.filterMap_cons_none hc]
      exact ih added s
    · rw [List.filterMap_cons_some hc, run_addCuts_cons]
      -- the cut leaves the candidates after it what they were
      have hkeep := candidate?_addCut id s
      rcases hadd : (addCut id).run s with ⟨⟨new, _ | v⟩, s'⟩
      · rw [hadd] at hkeep
        simp only [hadd, ih, hkeep]
      · simp only [hadd]

theorem Linked.filterMap_candidate? (hs : s.Linked) :
    s.uids.filterMap s.candidate? = s.graph.dominatorCandidates := by
  have huids : s.graph.uids = s.uids := by rw [Graph.uids, map_uid_graph, uids]
  rw [Graph.dominatorCandidates, Graph.sortedBlocks, huids, ← List.filterMap_eq_filter,
    ← List.filterMap_eq_map, List.filterMap_filterMap, List.filterMap_filterMap]
  refine List.filterMap_congr fun uid _ => ?_
  rw [candidate?, hs.block?_graph]
  rcases hn : s.node? uid with _ | n
  · rfl
  · have hpreds := hs.preds_of_node? hn
    obtain ⟨-, rfl⟩ := hs.mem_of_node? hn
    simp only [Option.bind_some, Option.map_some, hpreds]
    by_cases hle : (s.graph.preds n.uid).length ≤ 1
    · simp [hle, Option.guard, Nat.not_lt.mpr hle]
    · simp [hle, Option.guard, Nat.lt_of_not_le hle]

theorem Linked.addDominatorCuts (hs : s.Linked) :
    Agree (addDominatorCuts.run s)
      (s.graph.addDominatorCuts.graph, s.graph.addDominatorCuts.added,
        s.graph.addDominatorCuts.failure) := by
  have hrun : Store.addDominatorCuts.run s = (addDominatorCutsOf 0 s.uids).run s := rfl
  rw [hrun, run_addDominatorCutsOf, hs.filterMap_candidate?]
  exact hs.addCuts .dominator 0 s.graph.dominatorCandidates

/-! ### The longest syntactic path -/

theorem Linked.longestSyntacticPath (hs : s.Linked) (registers : Bool) :
    s.CarriesOut (longestSyntacticPath registers)
      (if registers then s.graph.addGlobalCut
        else (s.graph, ·) <$> s.graph.longestSyntacticPath) := by
  rw [Graph.addGlobalCut, Graph.longestSyntacticPath]
  rcases hr : s.longestPath s.start s.stop with v | r
  · have hgraph : s.graph.longestPath s.graph.start s.graph.stop = .error v := by
      rw [← hs.longestPath_eq]
      exact hr
    have hon : (Store.longestSyntacticPath registers).on s = (.error v, s) := by
      simp [Store.longestSyntacticPath, hr]
    rw [hgraph]
    cases registers <;> exact hon
  · have hgraph : s.graph.longestPath s.graph.start s.graph.stop = .ok r := by
      rw [← hs.longestPath_eq]
      exact hr
    rw [hgraph]
    cases registers with
    | false => exact ⟨s, by simp [Store.longestSyntacticPath, hr], hs, rfl⟩
    | true =>
      have hreg : s.CarriesOut (Store.register ⟨s.start, s.stop⟩ r)
          ((·, ()) <$> s.graph.register ⟨s.graph.start, s.graph.stop⟩ r) := hs.register _ r
      simp only [↓reduceIte, bind, Except.bind]
      rcases hg : s.graph.register ⟨s.graph.start, s.graph.stop⟩ r with v | g
      · rw [hg] at hreg
        have hon : (Store.register ⟨s.start, s.stop⟩ r).on s = (.error v, s) := hreg
        show (Store.longestSyntacticPath true).on s = (.error v, s)
        simp [Store.longestSyntacticPath, hr, hon, Except.map]
      · rw [hg] at hreg
        obtain ⟨s', hon, hs', rfl⟩ := hreg
        exact ⟨s', by simp [Store.longestSyntacticPath, hr, hon, Except.map], hs', rfl⟩

end Store

end WorstCase
