import WorstCase.Proofs.Ascending
import WorstCase.Proofs.Store.Refinement

/-!
# Calls on stores

A `Call` adds to a store, or changes its costs or its cuts; queries that only read a store are left
out. The same calls can be made to a graph. On a linked store a call has the outcome that it has on
the graph that is kept, and leaves a linked store of the graph it leaves (`Store.Linked.perform`);
so do sequences of calls, whether or not some of them fail (`Store.Linked.performAll`).

A store is **sound** when whatever can be read off it agrees (`Store.Sound`): lookups find exactly
what the rows hold, nothing repeats, every node names each neighbour once and no others, and the
tables are the labels of the nodes. Linked stores are sound, so all stores that calls can make from
the empty one are, and a call that is refused leaves them as they were (`Store.performAll_sound`).
-/

namespace WorstCase

/-- A call that changes a store. -/
inductive Call where
  | node (n : Node)
  | edge (e : Edge)
  | endpoints (start stop : Int)
  | matching (text : String)
  | cut (id : CutId)
  | dominatorCuts
  | semanticCuts (generations : List Generation)
  | syntacticPath (registers : Bool)

/-- What a call returns. -/
inductive Outcome where
  | built (result : Except BuildError Unit)
  | matched (result : Except LineError Unit)
  | answered (answer : Answer)

namespace Graph

/-- Makes a call to a graph. -/
def perform (g : Graph) : Call → Graph × Outcome
  | .node n => (g.attempt ((·, ()) <$> g.addBlock (n.block ""))).map id .built
  | .edge e => (g.attempt ((·, ()) <$> g.addEdge e)).map id .built
  | .endpoints start stop => (g.attempt ((·, ()) <$> g.setEndpoints start stop)).map id .built
  | .matching text => (g.applyMatching text).map id fun failure =>
      .matched (failure.elim (.ok ()) .error)
  | .cut c => (g.answer (.cut c)).map id .answered
  | .dominatorCuts => (g.answer .dominatorCuts).map id .answered
  | .semanticCuts generations => (g.answer (.semanticCuts generations)).map id .answered
  | .syntacticPath registers => (g.answer (.syntacticPath registers)).map id .answered

/-- Makes calls in order, whether or not they fail. -/
def performAll (g : Graph) : List Call → Graph × List Outcome
  | [] => (g, [])
  | call :: calls =>
    let (g', outcome) := g.perform call
    (g'.performAll calls).map id (outcome :: ·)

end Graph

namespace Store

variable {s : Store}

/-- Makes a call to a store. -/
def perform (s : Store) : Call → Outcome × Store
  | .node n => ((addNode n).on s).map .built id
  | .edge e => ((addEdge e.id e.cost).on s).map .built id
  | .endpoints start stop => ((setEndpoints start stop).on s).map .built id
  | .matching text => ((applyMatching text).on s).map .matched id
  | .cut c => Prod.map (fun (new, failure) => .answered (.cut new failure)) id ((addCut c).run s)
  | .dominatorCuts =>
    Prod.map (fun (added, failure) => .answered (.cuts added failure)) id (addDominatorCuts.run s)
  | .semanticCuts generations =>
    Prod.map (fun (added, failure) => .answered (.cuts added failure)) id
      ((addSemanticCuts generations).run s)
  | .syntacticPath registers =>
    ((longestSyntacticPath registers).on s).map (fun result => .answered (.path result)) id

/-- Makes calls in order, whether or not they fail. -/
def performAll (s : Store) : List Call → List Outcome × Store
  | [] => ([], s)
  | call :: calls =>
    let (outcome, s') := s.perform call
    (s'.performAll calls).map (outcome :: ·) id

/-! ### Calls agree -/

theorem Agree.map {α β : Type} {p : α × Store} {q : Graph × α} (h : Agree p q) (f : α → β) :
    Agree (p.map f id) (q.map id f) := by
  obtain ⟨s', rfl, hs', hgraph⟩ := h
  exact ⟨s', rfl, hs', hgraph⟩

/-- The path from the start to the end, as the graph answers. -/
theorem attempt_syntacticPath (g : Graph) (registers : Bool) :
    (g.attempt (if registers then g.addGlobalCut else (g, ·) <$> g.longestSyntacticPath)).map id
        Answer.path = g.answer (.syntacticPath registers) := by
  cases registers with
  | false => simp only [Graph.answer]; rcases g.longestSyntacticPath with _ | r <;> rfl
  | true => simp only [Graph.answer]; rcases g.addGlobalCut with _ | ⟨g', r⟩ <;> rfl

/-- **A call to a linked store agrees with the call to its graph.** -/
theorem Linked.perform (hs : s.Linked) (call : Call) :
    Agree (s.perform call) (s.graph.perform call) := by
  cases call with
  | node n => exact ((hs.addNode n).agree hs).map Outcome.built
  | edge e => exact ((hs.addEdge e).agree hs).map Outcome.built
  | endpoints start stop => exact ((hs.setEndpoints start stop).agree hs).map Outcome.built
  | matching text => exact (hs.applyMatching text).map Outcome.matched
  | cut c =>
    exact (hs.addCut c).map fun result => Outcome.answered (.cut result.1 result.2)
  | dominatorCuts =>
    exact hs.addDominatorCuts.map fun result => Outcome.answered (.cuts result.1 result.2)
  | semanticCuts generations =>
    exact (hs.addCuts .semantic 0 generations.flatten).map fun result =>
      Outcome.answered (.cuts result.1 result.2)
  | syntacticPath registers =>
    have h := ((hs.longestSyntacticPath registers).agree hs).map
      fun result => Outcome.answered (.path result)
    rw [Graph.perform, ← attempt_syntacticPath]
    exact h

theorem Linked.performAll (hs : s.Linked) (calls : List Call) :
    Agree (s.performAll calls) (s.graph.performAll calls) := by
  induction calls generalizing s with
  | nil => exact ⟨s, rfl, hs, rfl⟩
  | cons call calls ih =>
    obtain ⟨s', hon, hs', hgraph⟩ := hs.perform call
    rw [Store.performAll, hon]
    have h := (ih hs').map ((s.graph.perform call).2 :: ·)
    rw [hgraph] at h
    exact h

/-! ### Sound stores -/

/-- Whatever can be read off a **sound** store agrees. -/
structure Sound (s : Store) : Prop where
  uids_nodup : (s.nodes.map (·.uid)).Nodup
  node?_iff : ∀ uid n, s.node? uid = some n ↔ n ∈ s.nodes ∧ n.uid = uid
  ids_nodup : (s.edges.map (·.id)).Nodup
  edge?_iff : ∀ src dst e, s.edge? src dst = some e ↔ e ∈ s.edges ∧ e.id = ⟨src, dst⟩
  ends : ∀ e ∈ s.edges, (s.node? e.id.src).isSome ∧ (s.node? e.id.dst).isSome
  preds : ∀ n ∈ s.nodes, ∀ p, n.preds.count p = if (s.edge? p n.uid).isSome then 1 else 0
  succs : ∀ n ∈ s.nodes, ∀ d, n.succs.count d = if (s.edge? n.uid d).isSome then 1 else 0
  cutIds_nodup : (s.cuts.map (·.id)).Nodup
  cut?_iff : ∀ head tail c, s.cut? head tail = some c ↔ c ∈ s.cuts ∧ c.id = ⟨head, tail⟩
  /-- A label has one uid and a uid one label, namely that of its node. -/
  uidOf : (s.uidOf.map (·.1)).Nodup ∧ (s.uidOf.map (·.2)).Nodup ∧
    ∀ l uid, (l, uid) ∈ s.uidOf ↔ l ≠ "" ∧ ∃ n ∈ s.nodes, n.label = l ∧ n.uid = uid
  uid?_iff : ∀ l uid, s.uid? l = some uid ↔ (l, uid) ∈ s.uidOf
  /-- A label has one variable, namely that of its node. -/
  nameOf : ∀ l name, s.nameOf.lookup l = some name ↔
    l ≠ "" ∧ ∃ n ∈ s.nodes, n.label = l ∧ n.selector = name
  /-- A variable has a label iff it is that of a node with a label. -/
  labelAt : (∀ name l, s.labelAt.lookup name = some l →
      l ≠ "" ∧ ∃ n ∈ s.nodes, n.label = l ∧ n.selector = name) ∧
    ∀ n ∈ s.nodes, n.label ≠ "" → (s.labelAt.lookup n.selector).isSome
  endpoints : (s.start = noDominator ∧ s.stop = noDominator) ∨
    ((s.node? s.start).isSome ∧ (s.node? s.stop).isSome)
  uids_ascending : s.uids.Pairwise (· < ·) ∧ s.uids.Perm (s.nodes.map (·.uid))
  edgeIds_ascending : (s.edgeIds.Pairwise fun a b =>
    a.src < b.src ∨ a.src = b.src ∧ a.dst < b.dst) ∧ s.edgeIds.Perm (s.edges.map (·.id))
  cutIds_ascending : (s.cutIds.Pairwise fun a b =>
    a.head < b.head ∨ a.head = b.head ∧ a.tail < b.tail) ∧ s.cutIds.Perm (s.cuts.map (·.id))

theorem Linked.isSome_node? (hs : s.Linked) (uid : Int) :
    (s.node? uid).isSome ↔ uid ∈ s.nodes.map (·.uid) := by
  rw [hs.node?_eq]
  exact find?_key_isSome_iff

/-- **Linked stores are sound.** -/
theorem Linked.sound (hs : s.Linked) : s.Sound where
  uids_nodup := hs.named.nodes.nodup
  node?_iff uid n := by
    rw [hs.node?_eq]
    exact find?_key_eq_some_iff hs.named.nodes.nodup
  ids_nodup := hs.edges.nodup
  edge?_iff src dst e := by
    rw [hs.edge?_eq]
    exact hs.coherent.valid.edge?_eq_some_iff
  ends e he := by
    rw [hs.isSome_node?, hs.isSome_node?, ← map_uid_graph]
    exact hs.coherent.valid.ends_known _ (List.mem_map_of_mem he)
  preds n hn p := by
    rw [hs.preds n hn, hs.edge?_eq]
    exact Graph.count_eq_ite (hs.coherent.valid.preds_nodup n.uid) p
      (Graph.mem_preds_iff.trans Graph.edge?_isSome_iff.symm)
  succs n hn d := by
    rw [hs.succs n hn, hs.edge?_eq]
    exact Graph.count_eq_ite (hs.coherent.valid.succs_nodup n.uid) d
      (Graph.mem_succs_iff.trans Graph.edge?_isSome_iff.symm)
  cutIds_nodup := hs.cuts.nodup
  cut?_iff head tail c := by
    rw [hs.cut?_eq]
    exact find?_key_eq_some_iff hs.cuts.nodup
  uidOf := by
    refine ⟨(hs.named.nodup_keys hs.labels_nodup).1, ?_, fun l uid => mem_table hs.named.uidOf⟩
    rw [hs.named.uidOf, List.map_reverse, List.nodup_reverse, List.map_map]
    exact hs.named.nodes.nodup.sublist (List.filter_sublist.map _)
  uid?_iff l uid := lookup_eq_some_iff_mem (hs.named.nodup_keys hs.labels_nodup).1
  nameOf l name := by
    rw [lookup_eq_some_iff_mem (hs.named.nodup_keys hs.labels_nodup).2]
    exact mem_table hs.named.nameOf
  labelAt := by
    have hmem : ∀ name l, (name, l) ∈ s.labelAt ↔
        ∃ n ∈ s.labelled, (n.selector, n.label) = (name, l) := fun name l => by
      rw [hs.named.labelAt, List.mem_reverse, List.mem_map]
    -- selectors may repeat: an entry is that of some node, and each node finds some entry
    constructor
    · intro name l h
      obtain ⟨l₁, l₂, heq, -⟩ := List.lookup_eq_some_iff.mp h
      have hin : (name, l) ∈ s.labelAt := by
        rw [heq]
        exact List.mem_append_right _ List.mem_cons_self
      obtain ⟨n, hn, hpair⟩ := (hmem name l).mp hin
      obtain ⟨rfl, rfl⟩ := Prod.mk.inj hpair
      exact ⟨(mem_labelled.mp hn).2, n, (mem_labelled.mp hn).1, rfl, rfl⟩
    · intro n hn hl
      refine List.lookup_isSome_iff.mpr ⟨(n.selector, n.label), ?_, beq_self_eq_true _⟩
      exact (hmem _ _).mpr ⟨n, mem_labelled.mpr ⟨hn, hl⟩, rfl⟩
  endpoints := by
    rw [hs.isSome_node?, hs.isSome_node?, ← map_uid_graph]
    exact hs.coherent.endpoints
  uids_ascending := by
    refine ⟨(linear_uids.pairwise_sortBy_of_nodup hs.named.nodes.nodup).imp ?_, sortBy_perm _ _⟩
    rintro a b ⟨hle, hne⟩
    have hle' : a ≤ b := by simpa using hle
    omega
  edgeIds_ascending := by
    refine ⟨(linear_edgeIds.pairwise_sortBy_of_nodup hs.edges.nodup).imp ?_, sortBy_perm _ _⟩
    rintro ⟨s, d⟩ ⟨s', d'⟩ ⟨hle, hne⟩
    rw [EdgeId.le_iff] at hle
    rw [Ne, EdgeId.mk.injEq] at hne
    dsimp only at hle ⊢
    omega
  cutIds_ascending := by
    refine ⟨(linear_cutIds.pairwise_sortBy_of_nodup hs.cuts.nodup).imp ?_, sortBy_perm _ _⟩
    rintro ⟨h, t⟩ ⟨h', t'⟩ ⟨hle, hne⟩
    rw [CutId.le_iff] at hle
    rw [Ne, CutId.mk.injEq] at hne
    dsimp only at hle ⊢
    omega

/-- A step that is refused has not begun. -/
theorem CarriesOut.eq_of_error {ε : Type} {x : Edit ε Unit} {step : Except ε (Graph × Unit)}
    (h : s.CarriesOut x step) {e : ε} (he : (x.on s).1 = .error e) : (x.on s).2 = s := by
  rcases step with e' | ⟨g, a⟩
  · rw [show x.on s = (.error e', s) from h]
  · obtain ⟨s', hon, -⟩ := h
    rw [hon] at he
    cases he

/-- **A call that is refused leaves the store exactly as it was.** -/
theorem Linked.eq_of_refused (hs : s.Linked) {call : Call} {e : BuildError}
    (h : (s.perform call).1 = .built (.error e)) : (s.perform call).2 = s := by
  cases call with
  | node n => exact (hs.addNode n).eq_of_error (Outcome.built.inj h)
  | edge e => exact (hs.addEdge e).eq_of_error (Outcome.built.inj h)
  | endpoints start stop => exact (hs.setEndpoints start stop).eq_of_error (Outcome.built.inj h)
  | _ => cases h

/-- **Stores stay sound.** Whatever calls are made to the empty store, in any order and failing ones
included:

* all that can be read off the store agrees;
* adding a node or an edge or naming the endpoints, if refused, leaves the store exactly as it was;
* the calls return what they return on the empty graph, and the store keeps the graph that they
  lead to. -/
theorem performAll_sound (calls : List Call) :
    (({} : Store).performAll calls).2.Sound ∧
      (∀ call e, ((({} : Store).performAll calls).2.perform call).1 = .built (.error e) →
        ((({} : Store).performAll calls).2.perform call).2 =
          (({} : Store).performAll calls).2) ∧
      (({} : Store).performAll calls).1 = (({} : Graph).performAll calls).2 ∧
      (({} : Store).performAll calls).2.graph = (({} : Graph).performAll calls).1 := by
  obtain ⟨s, hon, hs, hgraph⟩ := linked_empty.performAll calls
  rw [hon]
  exact ⟨hs.sound, fun call e h => hs.eq_of_refused h, rfl, hgraph⟩

/-- A node with a label and one without, an edge that is asked for twice, an edge from the first
node to itself, and a cut. -/
def loopedPair : List Call :=
  [ .node { uid := 3, label := "a", cost := 5 }, .node { uid := 1, cost := 2, dominator := 3 },
    .edge ⟨⟨3, 1⟩, 4⟩, .edge ⟨⟨3, 3⟩, 0⟩, .edge ⟨⟨3, 1⟩, 7⟩, .endpoints 3 1,
    .matching "(a) 6", .syntacticPath true ]

/-- The label is taken already, so a node with that label is refused. -/
theorem performAll_sound_loopedPair :
    (({} : Store).performAll loopedPair).2.Sound ∧
      (({} : Store).performAll loopedPair).2.cuts.length = 1 ∧
      ((({} : Store).performAll loopedPair).2.perform (.node { uid := 5, label := "a" })).2 =
        (({} : Store).performAll loopedPair).2 := by
  obtain ⟨hsound, hrefused, -⟩ := performAll_sound loopedPair
  have htaken : ((addNode { uid := 5, label := "a" }).on
      (({} : Store).performAll loopedPair).2).1 = .error (.duplicateLabel "a") := by
    decide
  exact ⟨hsound, by decide, hrefused _ _ (congrArg Outcome.built htaken)⟩

end Store

end WorstCase
