import WorstCase.Encoding.Emit
import WorstCase.Proofs.Formula.Asserted
import WorstCase.Proofs.Graph.Valid

/-!
# What emitting asserts

Emitting goes through blocks, edges and cuts with folds. This module reads off the terms that the
problem **states**, as a list per encoding: those of the blocks and edges, those of the cuts, the
selection of the start and the end, and the bounds of the objective (`Graph.asserts_of_emit`,
`Graph.states_of_emit`).

The list is what the encodings mean. What is asserted are its terms up to their text.
-/

namespace WorstCase

namespace Graph

/-! ### Ascending views -/

section Sorted

variable {g : Graph}

theorem Valid.nodup_uids (hg : g.Valid) : g.uids.Nodup :=
  (sortBy_perm _ _).nodup_iff.mpr hg.uids_nodup

theorem Valid.nodup_edgeIds (hg : g.Valid) : g.edgeIds.Nodup :=
  (sortBy_perm _ _).nodup_iff.mpr hg.ids_nodup

/-- Looking up all keys of a list finds its elements. -/
theorem filterMap_find?_perm {α κ : Type} [DecidableEq κ] {key : α → κ} {l : List α}
    (hl : (l.map key).Nodup) {keys : List κ} (hkeys : keys.Perm (l.map key)) :
    (keys.filterMap fun k => l.find? (key · = k)).Perm l := by
  have hself : (l.map key).filterMap (fun k => l.find? (key · = k)) = l := by
    have hfind : ∀ a ∈ l, l.find? (key · = key a) = some a := fun a ha =>
      (find?_key_eq_some_iff hl).mpr ⟨ha, rfl⟩
    rw [List.filterMap_map]
    exact (List.filterMap_congr hfind).trans List.filterMap_some
  exact (hkeys.filterMap _).trans (.of_eq hself)

theorem Valid.sortedBlocks_perm (hg : g.Valid) : g.sortedBlocks.Perm g.blocks :=
  filterMap_find?_perm hg.uids_nodup (sortBy_perm _ _)

theorem Valid.sortedEdges_perm (hg : g.Valid) : g.sortedEdges.Perm g.edges :=
  filterMap_find?_perm hg.ids_nodup (sortBy_perm _ _)

theorem sortedCuts_perm (hcuts : (g.cuts.map (·.id)).Nodup) : g.sortedCuts.Perm g.cuts :=
  filterMap_find?_perm hcuts (sortBy_perm _ _)

theorem Valid.mem_sortedBlocks (hg : g.Valid) {b : Block} : b ∈ g.sortedBlocks ↔ b ∈ g.blocks :=
  hg.sortedBlocks_perm.mem_iff

theorem Valid.mem_sortedEdges (hg : g.Valid) {e : Edge} : e ∈ g.sortedEdges ↔ e ∈ g.edges :=
  hg.sortedEdges_perm.mem_iff

theorem mem_sortedCuts (hcuts : (g.cuts.map (·.id)).Nodup) {c : Cut} :
    c ∈ g.sortedCuts ↔ c ∈ g.cuts :=
  (sortedCuts_perm hcuts).mem_iff

end Sorted

end Graph

namespace Encoding

open Problem

/-! ### If-then-else costs -/

namespace Ite

/-- The value of the cost variable of a block. -/
def blockValue (b : Block) : Term :=
  if b.isStart || b.cost == 0 then .int b.cost else chosenCost b.chosen b.cost

/-- The value of the cost variable of an edge. -/
def edgeValue (e : Edge) : Term :=
  if e.cost == 0 then .int 0 else chosenCost e.chosen e.cost

/-- The sum of the cost variables of blocks and edges, leaving out those that cost nothing. -/
def costSum (g : Graph) (blocks : List Int) (edges : List EdgeId) : Term :=
  .sum (blockCosts (blocks.filterMap g.block?) ++
    edgeCosts (edges.filterMap fun id => g.edge? id.src id.dst))

/-- The equations of blocks, edges and the objective. -/
def entityTerms (g : Graph) : List Term :=
  (g.sortedBlocks.flatMap fun b => [Term.equal b.costTerm (blockValue b)]) ++
    (g.sortedEdges.flatMap fun e => [Term.equal e.costTerm (edgeValue e)]) ++
    [Term.equal (.var objectiveName) (costSum g g.uids g.edgeIds)]

/-- The equation and the bound of a cut. -/
def cutTerms (g : Graph) (c : Cut) : List Term :=
  [.equal (.var c.costName) (costSum g c.blocks c.edges), .le (.var c.costName) (.int c.cost)]

theorem asserts_block (p : Problem) (b : Block) :
    Asserts p (block p b) [.equal b.costTerm (blockValue b)] :=
  (Asserts.declare p _ _).trans (.assert _ _)

theorem asserts_edge (p : Problem) (e : Edge) :
    Asserts p (edge p e) [.equal e.costTerm (edgeValue e)] :=
  (Asserts.declare p _ _).trans (.assert _ _)

theorem asserts_entities (g : Graph) (p : Problem) :
    Asserts p (entities g p).1 (entityTerms g) :=
  ((((Asserts.declare p _ _).trans (.foldl asserts_block _ _)).trans
    (.foldl asserts_edge _ _)).trans (.assert _ _))

theorem asserts_cut (g : Graph) (p : Problem) (c : Cut) : Asserts p (cut g p c) (cutTerms g c) :=
  ((Asserts.declare p _ _).trans (.assert _ _)).trans (.assert _ _)

end Ite

/-! ### Difference logic -/

namespace Difference

/-- The constraint of a block. -/
def blockTerm (g : Graph) (b : Block) : Term :=
  match (g.preds b.uid).filterMap (bound g b) with
  | [] => .le b.costTerm (.int b.cost)
  | bounds => .imply b.chosen (.disj bounds)

/-- The constraints of an edge. -/
def edgeTerms (impliesEnds : Bool) (g : Graph) (e : Edge) : List Term :=
  match g.block? e.id.src, g.block? e.id.dst with
  | some src, some dst =>
    .imply e.chosen (.le (.diff dst.costTerm src.costTerm) (.int (e.cost + dst.cost))) ::
      if impliesEnds then [.conj [.imply e.chosen src.chosen, .imply e.chosen dst.chosen]] else []
  | _, _ => []

/-- The constraints of blocks and edges. -/
def entityTerms (impliesEnds : Bool) (g : Graph) : List Term :=
  (g.sortedBlocks.flatMap fun b => [blockTerm g b]) ++
    g.sortedEdges.flatMap (edgeTerms impliesEnds g)

/-- The constraint of a cut. -/
def cutTerms (g : Graph) (c : Cut) : List Term :=
  match g.block? c.id.head, g.block? c.id.tail with
  | some head, some tail =>
    [.le (.diff tail.costTerm head.costTerm) (.int (c.cost + tail.cost))]
  | _, _ => []

theorem asserts_block (g : Graph) (p : Problem) (b : Block) :
    Asserts p (block g p b) [blockTerm g b] := by
  have hdeclare := Asserts.declare p b.costName .int
  unfold block blockTerm
  rcases (g.preds b.uid).filterMap (bound g b) with _ | ⟨t, ts⟩
  · exact hdeclare.trans (.assert _ _)
  · exact hdeclare.trans (.assert _ _)

theorem asserts_edge (impliesEnds : Bool) (g : Graph) (p : Problem) (e : Edge) :
    Asserts p (edge impliesEnds g p e) (edgeTerms impliesEnds g e) := by
  have hdeclare := Asserts.declare p e.costName .int
  unfold edge edgeTerms
  rcases g.block? e.id.src with _ | src
  · exact hdeclare
  rcases g.block? e.id.dst with _ | dst
  · exact hdeclare
  cases impliesEnds with
  | false => exact hdeclare.trans (.assert _ _)
  | true => exact (hdeclare.trans (.assert _ _)).trans (.assert _ _)

theorem asserts_entities (impliesEnds : Bool) (g : Graph) (stop : Block) (p : Problem) :
    Asserts p (entities impliesEnds g stop p).1 (entityTerms impliesEnds g) :=
  (Asserts.foldl (asserts_block g) _ _).trans (.foldl (asserts_edge impliesEnds g) _ _)

theorem asserts_cut (g : Graph) (p : Problem) (c : Cut) : Asserts p (cut g p c) (cutTerms g c) := by
  unfold cut cutTerms
  rcases g.block? c.id.head with _ | head
  · exact ⟨rfl, rfl, rfl⟩
  rcases g.block? c.id.tail with _ | tail
  · exact ⟨rfl, rfl, rfl⟩
  · exact .assert _ _

end Difference

end Encoding

namespace Graph

open Problem

variable {g : Graph}

/-! ### Whole problems -/

/-- The terms that stand at the end: the start and the end are chosen, and the objective is between
0 and the longest path. -/
def closingTerms (start stop : Block) (objective : Term) (longest : Int64) : List Term :=
  [.conj [start.chosen, stop.chosen],
    .conj [.le (.int 0) objective, .le objective (.int longest)]]

/-- What it takes to emit a graph: a start, an end and a longest path from one to the other. -/
theorem emit_eq_ok {enc : Encoding} {impliesEnds : Bool} {p q : Problem} {stats : EmitStats}
    (h : g.emit p enc.code impliesEnds = (q, .ok stats)) :
    ∃ start stop r, g.block? g.start = some start ∧ g.block? g.stop = some stop ∧
      g.longestPath g.start g.stop = .ok r ∧ stats.longest = r.cost ∧
      q = conclude stats (g.constraints enc impliesEnds start stop p).2
        (g.constraints enc impliesEnds start stop p).1 := by
  unfold emit at h
  rw [Encoding.ofCode?_code] at h
  unfold blockOrFail at h
  rcases hstart : g.block? g.start with _ | start
  · simp [hstart] at h
  rcases hstop : g.block? g.stop with _ | stop
  · simp [hstart, hstop] at h
  simp only [hstart, hstop, summary, longestSyntacticPath] at h
  rcases hr : g.longestPath g.start g.stop with _ | r
  · simp [hr] at h
  rcases hn : g.countPaths g.start g.stop with _ | n
  · simp [hr, hn] at h
  simp only [hr, hn] at h
  obtain ⟨rfl, hstats⟩ := Prod.mk.inj h
  obtain rfl := Except.ok.inj hstats
  exact ⟨start, stop, r, rfl, rfl, rfl, rfl, rfl⟩

/-- Besides the objective, concluding adds its bounds. -/
theorem conclude_spec (stats : EmitStats) (objective : Term) (p : Problem) :
    (conclude stats objective p).objectives = p.objectives ++
        [{ goal := .maximize, term := objective, lower := some 0, upper := some stats.longest }] ∧
      (conclude stats objective p).assertions =
        (p.assert
          (.conj [.le (.int 0) objective, .le objective (.int stats.longest)])).assertions := by
  have h := Asserts.addComments ((p.assert
    (.conj [.le (.int 0) objective, .le objective (.int stats.longest)])).addObjective
    { goal := .maximize, term := objective, lower := some 0, upper := some stats.longest })
    stats.comments
  refine ⟨h.objectives.trans ?_, h.assertions⟩
  rw [addObjective, objectives_assert]

/-- What emitting asserts in a problem, given what the encoding asserts of blocks and edges and of
each cut. -/
theorem asserts_of_emit {enc : Encoding} {impliesEnds : Bool} {p q : Problem} {stats : EmitStats}
    (h : g.emit p enc.code impliesEnds = (q, .ok stats)) {objective : Block → Term}
    {entityTerms : List Term} {cutTerms : Cut → List Term}
    (hobjective : ∀ stop, (enc.emitEntities impliesEnds g stop p).2 = objective stop)
    (hentities : ∀ stop, Asserts p (enc.emitEntities impliesEnds g stop p).1 entityTerms)
    (hcuts : ∀ p c, Asserts p (enc.emitCut g p c) (cutTerms c)) :
    ∃ start stop r q', g.block? g.start = some start ∧ g.block? g.stop = some stop ∧
      g.longestPath g.start g.stop = .ok r ∧ stats.longest = r.cost ∧
      Asserts p q' (entityTerms ++ g.sortedCuts.flatMap cutTerms ++
        closingTerms start stop (objective stop) r.cost) ∧
      q.assertions = q'.assertions ∧
      q.objectives = p.objectives ++ [⟨.maximize, objective stop, some 0, some r.cost⟩] := by
  obtain ⟨start, stop, r, hstart, hstop, hr, hlongest, rfl⟩ := emit_eq_ok h
  have hobj : (g.constraints enc impliesEnds start stop p).2 = objective stop := hobjective stop
  have hconstraints : Asserts p (g.constraints enc impliesEnds start stop p).1
      (entityTerms ++ g.sortedCuts.flatMap cutTerms ++ [.conj [start.chosen, stop.chosen]]) :=
    ((hentities stop).trans (.foldl hcuts _ _)).trans (.assert _ _)
  have hbounds := hconstraints.trans (.assert _
    (.conj [.le (.int 0) (objective stop), .le (objective stop) (.int r.cost)]))
  rw [List.append_assoc] at hbounds
  obtain ⟨hobjs, hassertions⟩ := conclude_spec stats
    (g.constraints enc impliesEnds start stop p).2 (g.constraints enc impliesEnds start stop p).1
  refine ⟨start, stop, r, _, hstart, hstop, hr, hlongest, hbounds, ?_, ?_⟩
  · rw [hassertions, hobj, hlongest]
  · rw [hobjs, hconstraints.objectives, hobj, hlongest]

/-- **What an emitted problem states**, given what the encoding asserts of blocks and edges and of
each cut. -/
theorem states_of_emit {enc : Encoding} {impliesEnds : Bool} {q : Problem} {stats : EmitStats}
    (h : g.emit {} enc.code impliesEnds = (q, .ok stats)) {objective : Block → Term}
    {entityTerms : List Term} {cutTerms : Cut → List Term}
    (hobjective : ∀ stop, (enc.emitEntities impliesEnds g stop {}).2 = objective stop)
    (hentities : ∀ stop, Asserts {} (enc.emitEntities impliesEnds g stop {}).1 entityTerms)
    (hcuts : ∀ p c, Asserts p (enc.emitCut g p c) (cutTerms c)) :
    ∃ start stop r, g.block? g.start = some start ∧ g.block? g.stop = some stop ∧
      g.longestPath g.start g.stop = .ok r ∧
      q.objectives.map (·.term) = [objective stop] ∧
      q.States (entityTerms ++ g.sortedCuts.flatMap cutTerms ++
        closingTerms start stop (objective stop) r.cost) := by
  obtain ⟨start, stop, r, q', hstart, hstop, hr, -, hasserts, hassertions, hobjs⟩ :=
    asserts_of_emit h hobjective hentities hcuts
  refine ⟨start, stop, r, hstart, hstop, hr, ?_, hasserts.states.congr hassertions⟩
  rw [hobjs]
  rfl

end Graph

end WorstCase
