import WorstCase.Proofs.Encoding.BlockTexts
import WorstCase.Proofs.Formula.Penalty
import WorstCase.Proofs.Graph.Reordered

/-!
# Emitting reordered graphs

Emitting goes through blocks, edges and cuts in ascending order, so for two of the encodings a
reordered graph gives the same problem (`Graph.Reordered.emit_eq`).

In difference logic the bounds of a block are listed in the order of its predecessors, which is that
of the edges. The problems are the same apart from that (`SameUpToDisjuncts`): all but the hard
assertions is equal, and these correspond one by one, since it is the texts that decide what is
asserted and a disjunction shares its text with no other constraint
(`Graph.Reordered.emit_sameUpToDisjuncts`).
-/

namespace WorstCase

namespace Problem

/-! ### Problems without their hard assertions -/

/-- A problem without its hard assertions. -/
def frame (p : Problem) : Problem := { p with assertions := [] }

variable (p : Problem)

@[simp]
theorem frame_assert (t : Term) : (p.assert t).frame = p.frame := by
  unfold assert addAssertion
  split <;> rfl

@[simp]
theorem frame_declare (name : String) (sort : TermSort) :
    (p.declare name sort).frame = p.frame.declare name sort := by
  unfold declare addDeclaration
  rw [show p.frame.declarations = p.declarations from rfl]
  split <;> rfl

/-- What every step of a fold does to the frame, the fold does in order. -/
theorem frame_foldl {α : Type} {f : Problem → α → Problem} (f' : Problem → α → Problem)
    (hf : ∀ p x, (f p x).frame = f' p.frame x) (xs : List α) :
    (xs.foldl f p).frame = xs.foldl f' p.frame :=
  (List.foldl_hom frame fun p x => (hf p x).symm).symm

end Problem

namespace Encoding.Difference

variable {g : Graph} (p : Problem)

theorem frame_block (b : Block) : (block g p b).frame = p.frame.declare b.costName .int := by
  unfold block
  dsimp only
  split <;> simp

theorem frame_edge (impliesEnds : Bool) (e : Edge) :
    (edge impliesEnds g p e).frame = p.frame.declare e.costName .int := by
  unfold edge
  dsimp only
  split
  · split <;> simp
  · simp

theorem frame_cut (c : Cut) : (cut g p c).frame = p.frame := by
  unfold cut
  split
  · simp
  · rfl

end Encoding.Difference

namespace Graph

open Problem Encoding Encoding.Difference

theorem frame_conclude (stats : EmitStats) (objective : Term) {p p' : Problem}
    (h : p'.frame = p.frame) :
    (conclude stats objective p').frame = (conclude stats objective p).frame := by
  have hadd : ∀ (q : Problem) (o : Objective), (q.addObjective o).frame = q.frame.addObjective o :=
    fun _ _ => rfl
  have hcomments : ∀ q : Problem, (stats.comments.foldl addComment q).frame =
      stats.comments.foldl addComment q.frame := fun q => frame_foldl q _ (fun _ _ => rfl) _
  simp only [conclude, hcomments, hadd, frame_assert, h]

namespace Reordered

variable {g g' : Graph}

/-! ### The encodings without disjunctions -/

theorem emitCut_eq (h : Reordered g g') (enc : Encoding) : enc.emitCut g' = enc.emitCut g := by
  funext p c
  cases enc <;>
    simp only [emitCut, Ite.cut, Soft.cut, Difference.cut, h.block?_eq, h.edge?_eq]

theorem constraints_eq (h : Reordered g g') {enc : Encoding} (henc : enc ≠ .differenceLogic)
    (impliesEnds : Bool) (start stop : Block) (p : Problem) :
    g'.constraints enc impliesEnds start stop p = g.constraints enc impliesEnds start stop p := by
  cases enc with
  | iteCosts =>
    simp only [constraints, emitEntities, Ite.entities, h.emitCut_eq, h.sortedBlocks_eq,
      h.sortedEdges_eq, h.sortedCuts_eq]
  | assertSoft =>
    simp only [constraints, emitEntities, Soft.entities, h.emitCut_eq, h.sortedBlocks_eq,
      h.sortedEdges_eq, h.sortedCuts_eq]
  | differenceLogic => exact absurd rfl henc

/-- **How the problems of two graphs compare** follows from how their constraints do, with and
without the conclusion. -/
theorem emit_problem (h : Reordered g g') {Q : Problem → Problem → Prop} {p p' : Problem}
    {code : Int} {impliesEnds : Bool} (hp : Q p p')
    (hconstraints : ∀ enc start stop, ofCode? code = some enc →
      Q (g.constraints enc impliesEnds start stop p).1
        (g'.constraints enc impliesEnds start stop p').1)
    (hconclude : ∀ enc start stop stats, ofCode? code = some enc →
      Q (conclude stats (g.constraints enc impliesEnds start stop p).2
          (g.constraints enc impliesEnds start stop p).1)
        (conclude stats (g'.constraints enc impliesEnds start stop p').2
          (g'.constraints enc impliesEnds start stop p').1)) :
    Q (g.emit p code impliesEnds).1 (g'.emit p' code impliesEnds).1 := by
  unfold emit
  rcases henc : ofCode? code with _ | enc
  · exact hp
  rw [h.blockOrFail_eq, h.start, h.stop]
  rcases g.blockOrFail g.start with v | start
  · exact hp
  rcases g.blockOrFail g.stop with v | stop
  · exact hp
  rcases h.summary.results with ⟨e, e', hs, hs'⟩ | ⟨⟨r, n⟩, ⟨r', n'⟩, hs, hs', hcost, hn⟩
  · simp only [hs, hs']
    exact hconstraints enc start stop henc
  · dsimp only at hcost hn
    simp only [hs, hs', h.cuts, hcost, hn]
    exact hconclude enc start stop _ henc

/-- **Reordered graphs give the same problem**, unless it is in difference logic. -/
theorem emit_eq (h : Reordered g g') {code : Int} (hcode : code ≠ Encoding.differenceLogic.code)
    (p : Problem) (impliesEnds : Bool) :
    (g'.emit p code impliesEnds).1 = (g.emit p code impliesEnds).1 := by
  have hne : ∀ enc, ofCode? code = some enc → enc ≠ .differenceLogic := by
    rintro enc henc rfl
    exact hcode (code_of_ofCode? henc)
  refine h.emit_problem (Q := fun q q' => q' = q) rfl (fun enc start stop henc => ?_)
    fun enc start stop stats henc => ?_
  · rw [h.constraints_eq (hne enc henc)]
  · rw [h.constraints_eq (hne enc henc)]

end Reordered

/-! ### Difference logic -/

/-- Two assertions are the same up to the order of the bounds of a block. -/
inductive Reworded (g : Graph) : Assertion → Assertion → Prop
  | same (a : Assertion) : Reworded g a a
  | bounds {b : Block} {ts : List Term} (hb : b ∈ g.blocks) (h : (bounds g b).Perm ts) :
      Reworded g (assertionOf {} (.imply b.chosen (.disj (bounds g b))))
        (assertionOf {} (.imply b.chosen (.disj ts)))

/-- Two problems are the same up to the order of the bounds of blocks. -/
structure SameUpToDisjuncts (g : Graph) (p p' : Problem) : Prop where
  frame : p'.frame = p.frame
  assertions : List.Forall₂ (Reworded g) p.assertions p'.assertions

namespace Reordered

variable {g g' : Graph}

theorem bounds_perm (h : Reordered g g') (b : Block) : (bounds g b).Perm (bounds g' b) := by
  have hbound : bound g' b = bound g b := by
    funext uid
    rw [bound, h.block?_eq, h.edge?_eq, bound]
  rw [bounds, bounds, hbound]
  exact (h.preds_perm b.uid).filterMap _

/-- A block without several bounds has the same constraint in both graphs. -/
theorem blockTerm_eq (h : Reordered g g') {b : Block} (hb : ¬ 2 ≤ (bounds g b).length) :
    blockTerm g' b = blockTerm g b := by
  have hbounds : bounds g' b = bounds g b := by
    have hperm := h.bounds_perm b
    rcases hts : bounds g b with _ | ⟨t, _ | ⟨t', ts⟩⟩
    · rw [hts] at hperm
      exact hperm.symm.eq_nil
    · rw [hts] at hperm
      exact List.perm_singleton.mp hperm.symm
    · simp [hts] at hb
  unfold bounds at hbounds
  rw [blockTerm, hbounds, blockTerm]

end Reordered

/-- What one graph states where the other one states `t`. -/
inductive Counterpart (g g' : Graph) : Term → Term → Prop
  | plain {t : Term} (ht : Plain t) : Counterpart g g' t t
  | several {b : Block} (hb : b ∈ g.blocks) (h : 2 ≤ (bounds g b).length) :
      Counterpart g g' (blockTerm g b) (blockTerm g' b)

namespace Reordered

variable {g g' : Graph}

theorem counterpart (h : Reordered g g') {b : Block} (hb : b ∈ g.blocks) :
    Counterpart g g' (blockTerm g b) (blockTerm g' b) := by
  by_cases hs : 2 ≤ (bounds g b).length
  · exact .several hb hs
  · rw [h.blockTerm_eq hs]
    exact .plain (plain_blockTerm hs)

theorem reworded (h : Reordered g g') {t t' : Term} (ht : Counterpart g g' t t') :
    Reworded g (assertionOf {} t) (assertionOf {} t') := by
  cases ht with
  | plain => exact .same _
  | @several b hb hs =>
    rw [blockTerm_of_length hs, blockTerm_of_length ((h.bounds_perm b).length_eq ▸ hs)]
    exact .bounds hb (h.bounds_perm b)

/-- **Texts tell terms apart in one graph iff they do in the other.** -/
theorem render_iff (h : Reordered g g') {t t' u u' : Term} (ht : Counterpart g g' t t')
    (hu : Counterpart g g' u u') : t.render = u.render ↔ t'.render = u'.render := by
  have hs' : ∀ {b}, 2 ≤ (bounds g b).length → 2 ≤ (bounds g' b).length := fun {b} hs =>
    (h.bounds_perm b).length_eq ▸ hs
  cases ht with
  | plain ht =>
    cases hu with
    | plain => exact Iff.rfl
    | several hb hs => exact iff_of_false (ht.render_ne hs) (ht.render_ne (hs' hs))
  | @several b hb hs =>
    cases hu with
    | plain hu => exact iff_of_false (hu.render_ne hs).symm (hu.render_ne (hs' hs)).symm
    | @several b' hb' hsb' =>
      -- equal texts are about the same block
      have hblock : b.uid = b'.uid → b = b' :=
        List.inj_on_of_nodup_map h.valid.uids_nodup hb hb'
      constructor
      · intro hrender
        rw [hblock (uid_eq_of_several hs hsb' hrender)]
      · intro hrender
        rw [hblock (uid_eq_of_several (hs' hs) (hs' hsb') hrender)]

/-- **Asserting counterparts** gives the same assertions up to the order of bounds. -/
theorem assertions_reworded (h : Reordered g g') (items : List (Term × Term))
    (hitems : ∀ x ∈ items, Counterpart g g' x.1 x.2) :
    List.Forall₂ (Reworded g) ((items.map Prod.fst).foldl assert {}).assertions
      ((items.map Prod.snd).foldl assert {}).assertions := by
  have hkept : ∀ f : Term × Term → Term, ((items.map f).foldl assert {}).assertions =
      (firstOfEach (fun x => (assertionOf {} (f x)).text) [] items).map
        fun x => assertionOf {} (f x) := by
    intro f
    rw [assertions_foldl_assert, firstOfEach_map, List.map_map]
    rfl
  have hsame : firstOfEach (fun x => (assertionOf {} x.2).text) [] items =
      firstOfEach (fun x => (assertionOf {} x.1).text) [] items := by
    refine firstOfEach_congr (fun x hx y hy => ?_) (by simp)
    rw [text_assertionOf_inj, text_assertionOf_inj]
    exact (h.render_iff (hitems x hx) (hitems y hy)).symm
  rw [hkept, hkept, hsame, List.forall₂_map_left_iff, List.forall₂_map_right_iff,
    List.forall₂_same]
  exact fun x hx => h.reworded (hitems x (firstOfEach_subset _ _ _ hx))

end Reordered

/-- What the constraints of a graph state besides those of its blocks. -/
def otherTerms (g : Graph) (impliesEnds : Bool) (start stop : Block) : List Term :=
  g.sortedEdges.flatMap (edgeTerms impliesEnds g) ++ g.sortedCuts.flatMap (cutTerms g) ++
    [.conj [start.chosen, stop.chosen]]

theorem plain_otherTerms {g : Graph} {impliesEnds : Bool} {start stop : Block} {t : Term}
    (ht : t ∈ g.otherTerms impliesEnds start stop) : Plain t := by
  simp only [otherTerms, List.mem_append, List.mem_flatMap, List.mem_singleton] at ht
  rcases ht with (⟨e, -, ht⟩ | ⟨c, -, ht⟩) | rfl
  · exact plain_edgeTerms ht
  · exact plain_cutTerms ht
  · exact plain_conj _ _

theorem asserts_constraints (g : Graph) (impliesEnds : Bool) (start stop : Block) :
    Asserts {} (g.constraints .differenceLogic impliesEnds start stop {}).1
      (g.sortedBlocks.map (blockTerm g) ++ g.otherTerms impliesEnds start stop) := by
  have hall := ((asserts_entities impliesEnds g stop {}).trans
    (.foldl (Difference.asserts_cut g) _ g.sortedCuts)).trans
      (.assert _ (.conj [start.chosen, stop.chosen]))
  simp only [entityTerms, ← List.map_eq_flatMap, List.append_assoc] at hall
  rw [otherTerms, List.append_assoc]
  exact hall

/-- Apart from assertions, the constraints are declarations. -/
theorem frame_constraints (g : Graph) (impliesEnds : Bool) (start stop : Block) (p : Problem) :
    (g.constraints .differenceLogic impliesEnds start stop p).1.frame =
      g.sortedEdges.foldl (fun q e => q.declare e.costName .int)
        (g.sortedBlocks.foldl (fun q b => q.declare b.costName .int) p.frame) := by
  have hblocks : ∀ q : Problem, (g.sortedBlocks.foldl (block g) q).frame =
      g.sortedBlocks.foldl (fun q b => q.declare b.costName .int) q.frame :=
    fun q => frame_foldl q _ frame_block _
  have hedges : ∀ q : Problem, (g.sortedEdges.foldl (edge impliesEnds g) q).frame =
      g.sortedEdges.foldl (fun q e => q.declare e.costName .int) q.frame :=
    fun q => frame_foldl q _ (fun q e => frame_edge q impliesEnds e) _
  have hcuts : ∀ q : Problem, (g.sortedCuts.foldl (Difference.cut g) q).frame = q.frame := by
    intro q
    rw [frame_foldl q (fun q _ => q) frame_cut]
    exact List.foldl_fixed g.sortedCuts
  rw [← hblocks, ← hedges]
  exact (frame_assert _ _).trans (hcuts _)

namespace Reordered

variable {g g' : Graph}

theorem otherTerms_eq (h : Reordered g g') (impliesEnds : Bool) (start stop : Block) :
    g'.otherTerms impliesEnds start stop = g.otherTerms impliesEnds start stop := by
  have hedge : edgeTerms impliesEnds g' = edgeTerms impliesEnds g := by
    funext e
    simp only [edgeTerms, h.block?_eq]
  have hcut : cutTerms g' = cutTerms g := by
    funext c
    simp only [cutTerms, h.block?_eq]
  rw [otherTerms, h.sortedEdges_eq, h.sortedCuts_eq, hedge, hcut, otherTerms]

/-- Problems that assert the constraints of the blocks and the same plain terms. -/
theorem sameUpToDisjuncts (h : Reordered g g') {rest : List Term} (hrest : ∀ t ∈ rest, Plain t)
    {q q' : Problem} (hframe : q'.frame = q.frame)
    (hq : q.assertions = ((g.sortedBlocks.map (blockTerm g) ++ rest).foldl assert {}).assertions)
    (hq' : q'.assertions =
      ((g.sortedBlocks.map (blockTerm g') ++ rest).foldl assert {}).assertions) :
    SameUpToDisjuncts g q q' := by
  refine ⟨hframe, ?_⟩
  have hall := h.assertions_reworded
    (g.sortedBlocks.map (fun b => (blockTerm g b, blockTerm g' b)) ++ rest.map fun t => (t, t))
    fun x hx => by
      rcases List.mem_append.mp hx with hx | hx
      · obtain ⟨b, hb, rfl⟩ := List.mem_map.mp hx
        exact h.counterpart (h.valid.mem_sortedBlocks.mp hb)
      · obtain ⟨t, ht, rfl⟩ := List.mem_map.mp hx
        exact .plain (hrest t ht)
  rw [hq, hq']
  simpa [Function.comp_def] using hall

/-- **In difference logic reordered graphs give the same problem** up to the order of bounds. -/
theorem emit_sameUpToDisjuncts (h : Reordered g g') (impliesEnds : Bool) :
    SameUpToDisjuncts g (g.emit {} Encoding.differenceLogic.code impliesEnds).1
      (g'.emit {} Encoding.differenceLogic.code impliesEnds).1 := by
  have hframe : ∀ start stop, (g'.constraints .differenceLogic impliesEnds start stop {}).1.frame =
      (g.constraints .differenceLogic impliesEnds start stop {}).1.frame := fun start stop => by
    rw [frame_constraints, frame_constraints, h.sortedBlocks_eq, h.sortedEdges_eq]
  have hconstraints : ∀ start stop,
      Asserts {} (g'.constraints .differenceLogic impliesEnds start stop {}).1
        (g.sortedBlocks.map (blockTerm g') ++ g.otherTerms impliesEnds start stop) := by
    intro start stop
    have hasserts := asserts_constraints g' impliesEnds start stop
    rwa [h.sortedBlocks_eq, h.otherTerms_eq] at hasserts
  refine h.emit_problem (Q := SameUpToDisjuncts g) ⟨rfl, .nil⟩ (fun enc start stop henc => ?_)
    fun enc start stop stats henc => ?_
  · obtain rfl := Option.some_inj.mp (henc.symm.trans (ofCode?_code .differenceLogic))
    exact h.sameUpToDisjuncts (fun t => plain_otherTerms) (hframe start stop)
      (asserts_constraints g impliesEnds start stop).assertions (hconstraints start stop).assertions
  · obtain rfl := Option.some_inj.mp (henc.symm.trans (ofCode?_code .differenceLogic))
    have hobjective : ∀ g : Graph,
        (g.constraints .differenceLogic impliesEnds start stop {}).2 = stop.costTerm := fun _ => rfl
    let bound : Term := .conj [.le (.int 0) stop.costTerm, .le stop.costTerm (.int stats.longest)]
    have hbounds : ∀ {q : Problem} {ts : List Term}, Asserts {} q ts →
        (conclude stats stop.costTerm q).assertions =
          ((ts ++ [bound]).foldl assert {}).assertions := fun hq => by
      rw [(conclude_spec stats _ _).2]
      exact (hq.trans (.assert _ _)).assertions
    rw [hobjective, hobjective]
    refine h.sameUpToDisjuncts (fun t ht => ?_) (frame_conclude stats _ (hframe start stop))
      ((hbounds (asserts_constraints g impliesEnds start stop)).trans (by rw [List.append_assoc]))
      ((hbounds (hconstraints start stop)).trans (by rw [List.append_assoc]))
    rcases List.mem_append.mp ht with ht | ht
    · exact plain_otherTerms ht
    · obtain rfl := List.mem_singleton.mp ht
      exact plain_conj _ _

end Reordered

end Graph

end WorstCase
