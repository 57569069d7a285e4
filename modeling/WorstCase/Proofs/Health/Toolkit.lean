import WorstCase.Health.Toolkit
import WorstCase.Proofs.Health.Structure

/-!
# What checks rely on

A toolkit is **lawful** (`Health.Toolkit.Lawful`) if its searches do what their documentation says:
a sort fails exactly where no order exists, and lists the cyclic components; a walk visits what can
be reached; a dominator tree leads from each reachable node to its immediate dominator.

This is asked only of directed graphs that were put together properly (`Health.Toolkit.Holds`):
every node is added once, and every edge is set once and leads from one node to another. What is
said of the searches is said about the plain flow graph with these edges (`Graph.bare`).

Flow graphs that differ in nothing but edges from a block to itself have the same ways, for these
edges lead nowhere (`Graph.SameWays`). So reachability and dominance can be read off a mirror that
leaves them out.

The standard toolkit is lawful (`Health.Toolkit.lawful_standard`).
-/

namespace WorstCase

namespace Graph

variable {g h : Graph} {a b c d x : Int} {p : List Int}

/-! ### Ways without edges from a block to itself -/

/-- The graph of nothing but these edges. -/
def bare (start : Int) (ids : List EdgeId) : Graph where
  edges := ids.map ({ id := · })
  start

theorem arc_bare {start : Int} {ids : List EdgeId} :
    (bare start ids).Arc a b ↔ (⟨a, b⟩ : EdgeId) ∈ ids := by
  simp [Arc, bare]

/-- Two graphs have the same start and the same edges, apart from those from a block to itself:
of these, the second graph may lack some. -/
structure SameWays (g h : Graph) : Prop where
  start : h.start = g.start
  arc : ∀ {a b}, h.Arc a b → g.Arc a b
  arc_of_ne : ∀ {a b}, g.Arc a b → a ≠ b → h.Arc a b

namespace SameWays

theorem walk (hs : SameWays g h) (hp : h.Walk a p b) : g.Walk a p b := by
  induction hp with
  | single a => exact .single a
  | step hab _ ih => exact .step (hs.arc hab) ih

/-- Leaving out edges from a block to itself leaves a walk that meets no other blocks. -/
theorem exists_walk (hs : SameWays g h) (hp : g.Walk a p b) : ∃ q, h.Walk a q b ∧ q ⊆ p := by
  induction hp with
  | single a => exact ⟨[a], .single a, fun _ hx => hx⟩
  | @step a b c p hab _ ih =>
    obtain ⟨q, hq, hsub⟩ := ih
    by_cases hne : a = b
    · subst hne
      exact ⟨q, hq, fun x hx => List.mem_cons_of_mem _ (hsub hx)⟩
    · exact ⟨a :: q, .step (hs.arc_of_ne hab hne) hq, List.cons_subset_cons _ hsub⟩

theorem reaches_iff (hs : SameWays g h) : h.Reaches a b ↔ g.Reaches a b := by
  constructor
  · exact fun hab => hab.lift id fun _ _ => hs.arc
  · intro hab
    obtain ⟨p, hp⟩ := exists_walk_of_reaches hab
    obtain ⟨q, hq, -⟩ := hs.exists_walk hp
    exact hq.reaches

theorem dominates_iff (hs : SameWays g h) : h.Dominates a x ↔ g.Dominates a x := by
  simp only [Dominates, hs.start]
  constructor
  · intro hdom p hp
    obtain ⟨q, hq, hsub⟩ := hs.exists_walk hp
    exact hsub (hdom q hq)
  · exact fun hdom p hp => hdom p (hs.walk hp)

theorem strictlyDominates_iff (hs : SameWays g h) :
    h.StrictlyDominates a x ↔ g.StrictlyDominates a x :=
  and_congr_right fun _ => hs.dominates_iff

theorem immediatelyDominates_iff (hs : SameWays g h) :
    h.ImmediatelyDominates d x ↔ g.ImmediatelyDominates d x := by
  simp only [ImmediatelyDominates, hs.strictlyDominates_iff, hs.dominates_iff]

/-- A loop is one in the second graph, or of a block with itself. -/
theorem exists_onLoop_iff (hs : SameWays g h) :
    (∃ x, g.OnLoop x) ↔ (∃ x, g.Arc x x) ∨ ∃ x, h.OnLoop x := by
  constructor
  · rintro ⟨x, hx⟩
    by_cases hself : ∃ x, g.Arc x x
    · exact .inl hself
    · refine .inr ⟨x, hx.lift id fun a b hab => hs.arc_of_ne hab ?_⟩
      rintro rfl
      exact hself ⟨a, hab⟩
  · rintro (⟨x, hx⟩ | ⟨x, hx⟩)
    · exact ⟨x, .single hx⟩
    · exact ⟨x, hx.lift id fun _ _ => hs.arc⟩

end SameWays

end Graph

namespace Health

open WorstCase.Graph

/-! ### The contract -/

/-- A directed graph that was put together from these nodes and edges. -/
inductive Toolkit.Holds (t : Toolkit) : t.Digraph → (nodes : List Int) → (ids : List EdgeId) → Prop
  | empty : t.Holds t.empty [] []
  | addNode {d : t.Digraph} {nodes : List Int} {ids : List EdgeId} {node : Int}
      (h : t.Holds d nodes ids) (hnew : node ∉ nodes) :
      t.Holds (t.addNode d node) (nodes ++ [node]) ids
  | setEdge {d : t.Digraph} {nodes : List Int} {ids : List EdgeId} {src dst : Int}
      (h : t.Holds d nodes ids) (hsrc : src ∈ nodes) (hdst : dst ∈ nodes) (hne : src ≠ dst)
      (hnew : ⟨src, dst⟩ ∉ ids) : t.Holds (t.setEdge d src dst) nodes (ids ++ [⟨src, dst⟩])

/-- The searches of a toolkit do what their documentation says. -/
structure Toolkit.Lawful (t : Toolkit) : Prop where
  /-- If nothing stops a sort, the nodes have an order in which all edges lead forward. -/
  sort_eq_none : ∀ {d nodes ids}, t.Holds d nodes ids → t.sortError? d = none →
    ∃ place : Int → Nat, ∀ id ∈ ids, place id.src < place id.dst
  /-- What stops a sort is that there are cyclic components. -/
  sort_eq_some : ∀ {d nodes ids e}, t.Holds d nodes ids → t.sortError? d = some e →
    ∃ components, e = .unorderable components ∧ components ≠ [] ∧ ∀ c ∈ components, c ≠ [] ∧
      ∀ x ∈ c, ∀ y ∈ c, Relation.TransGen (bare x ids).Arc x y
  /-- A walk visits what can be reached. -/
  mem_walk_iff : ∀ {d nodes ids root x}, t.Holds d nodes ids → root ∈ nodes →
    (x ∈ t.walk d root ↔ (bare root ids).Reaches root x)
  /-- In a dominator tree, a reachable node stands below its immediate dominator. -/
  exists_dominatorOf : ∀ {d nodes ids root x}, t.Holds d nodes ids → root ∈ nodes →
    (bare root ids).Reaches root x → x ≠ root →
    ∃ i, t.dominatorOf? (t.dominators root d) x = some i ∧ (bare root ids).ImmediatelyDominates i x
  /-- The root stands below nothing. -/
  dominatorOf_root : ∀ {d nodes ids root}, t.Holds d nodes ids → root ∈ nodes →
    t.dominatorOf? (t.dominators root d) root = none

/-! ### The standard toolkit -/

/-- A flow graph as a directed graph with these nodes and edges. -/
structure Plain (d : Graph) (nodes : List Int) (ids : List EdgeId) : Prop where
  nodes_eq : d.blocks.map (·.uid) = nodes
  ids_eq : d.edges.map (·.id) = ids
  valid : d.Valid
  not_arc_self : ∀ x, ¬ d.Arc x x

theorem plain_of_holds {d : Toolkit.standard.Digraph} {nodes : List Int} {ids : List EdgeId}
    (h : Toolkit.standard.Holds d nodes ids) : Plain d nodes ids := by
  induction h with
  | empty => exact ⟨rfl, rfl, valid_empty, fun x hx => absurd hx List.not_mem_nil⟩
  | @addNode d nodes ids node _ hnew ih =>
    obtain ⟨rfl, rfl, hvalid, hself⟩ := ih
    refine ⟨by simp [Toolkit.standard], rfl, ⟨?_, hvalid.ids_nodup, fun id hid => ?_⟩, hself⟩
    · simpa [Toolkit.standard, List.nodup_append, hvalid.uids_nodup] using hnew
    · have hends := hvalid.ends_known id hid
      simp only [Toolkit.standard, List.map_append]
      exact ⟨List.mem_append_left _ hends.1, List.mem_append_left _ hends.2⟩
  | @setEdge d nodes ids src dst _ hsrc hdst hne hnew ih =>
    obtain ⟨rfl, rfl, hvalid, hself⟩ := ih
    refine ⟨rfl, by simp [Toolkit.standard], ⟨hvalid.uids_nodup, ?_, fun id hid => ?_⟩,
      fun x hx => ?_⟩
    · simpa [Toolkit.standard, List.nodup_append, hvalid.ids_nodup] using hnew
    · simp only [Toolkit.standard, List.map_append, List.map_cons, List.map_nil] at hid
      rcases List.mem_append.mp hid with hid | hid
      · exact hvalid.ends_known id hid
      · obtain rfl := List.mem_singleton.mp hid
        exact ⟨hsrc, hdst⟩
    · simp only [Toolkit.standard, Arc, List.map_append, List.map_cons, List.map_nil] at hx
      rcases List.mem_append.mp hx with hx | hx
      · exact hself x hx
      · obtain ⟨rfl, rfl⟩ := EdgeId.mk.inj (List.mem_singleton.mp hx)
        exact hne rfl

section Plain

variable {d : Graph} {nodes : List Int} {ids : List EdgeId} {root x : Int}

/-- The searches in a plain graph are about the edges only. -/
theorem Plain.sameWays (h : Plain d nodes ids) (root : Int) :
    SameWays { d with start := root } (bare root ids) where
  start := rfl
  arc hab := by
    rw [arc_bare, ← h.ids_eq] at hab
    exact hab
  arc_of_ne hab _ := by
    rw [arc_bare, ← h.ids_eq]
    exact hab

theorem Plain.arc_iff (h : Plain d nodes ids) {a b : Int} :
    (bare root ids).Arc a b ↔ d.Arc a b := by
  rw [arc_bare, ← h.ids_eq]
  rfl

/-- Without loops there is an order of the nodes: by how many nodes reach them. -/
theorem Plain.exists_place (h : Plain d nodes ids) (hloop : ∀ x, ¬ d.OnLoop x) :
    ∃ place : Int → Nat, ∀ id ∈ ids, place id.src < place id.dst := by
  classical
  refine ⟨fun x => (nodes.toFinset.filter fun y => d.Reaches y x).card, fun id hid => ?_⟩
  rw [← h.ids_eq] at hid
  have harc : d.Arc id.src id.dst := hid
  have hsub : (nodes.toFinset.filter fun y => d.Reaches y id.src) ⊆
      nodes.toFinset.filter fun y => d.Reaches y id.dst :=
    Finset.monotone_filter_right _ fun y _ hy => hy.tail harc
  refine Finset.card_lt_card ((Finset.ssubset_iff_of_subset hsub).mpr ⟨id.dst, ?_, fun hmem => ?_⟩)
  · have hdst := (h.valid.arc_known harc).2
    rw [h.nodes_eq] at hdst
    exact Finset.mem_filter.mpr ⟨List.mem_toFinset.mpr hdst, .refl⟩
  · exact hloop id.dst (.tail' (Finset.mem_filter.mp hmem).2 harc)

/-- Looking up a key in a table finds what was entered under it, if it was entered. -/
theorem lookup_filterMap {detours : List (Int × List Int)} {f : Int → Option Int}
    (h : x ∈ detours.map (·.1) ∨ f x = none) :
    (detours.filterMap fun e => (f e.1).map (e.1, ·)).lookup x = f x := by
  induction detours with
  | nil => simpa using (h.resolve_left (by simp)).symm
  | cons e detours ih =>
    by_cases hx : x = e.1
    · subst hx
      rcases hf : f e.1 with _ | i
      · simpa [hf] using ih (.inr hf)
      · simp [hf]
    · have hrest := ih (by simpa [hx] using h)
      rcases hf : f e.1 with _ | i
      · simpa [hf] using hrest
      · simpa [hf, List.lookup_cons, beq_false_of_ne hx] using hrest

/-- The parent of a reachable block is its immediate dominator. -/
theorem lookup_immediateDominators {g : Graph} (hg : g.Valid)
    (hstart : g.start ∈ g.blocks.map (·.uid)) (hx : g.Reaches g.start x) :
    g.immediateDominators.lookup x = immediateDominator? g.detours x := by
  have hmem : x ∈ g.detours.map (·.1) := by
    simpa [detours, Function.comp_def] using (hg.mem_reachableFrom_iff hstart).mpr hx
  rw [immediateDominators, lookup_filterMap (.inl hmem)]

/-- **The standard toolkit is lawful.** -/
theorem Toolkit.lawful_standard : Toolkit.standard.Lawful where
  sort_eq_none {d nodes ids} h hsort := by
    have hplain := plain_of_holds h
    refine hplain.exists_place ((hplain.valid.loops_eq_nil_iff hplain.not_arc_self).mp ?_)
    simp only [Toolkit.standard] at hsort
    split at hsort
    · assumption
    · cases hsort
  sort_eq_some {d nodes ids e} h hsort := by
    have hplain := plain_of_holds h
    simp only [Toolkit.standard] at hsort
    split at hsort
    · cases hsort
    · rename_i hne
      refine ⟨_, (Option.some_inj.mp hsort).symm, hne, fun c hc =>
        ⟨ne_nil_of_mem_loops hc, fun x hx y hy => ?_⟩⟩
      exact (hplain.valid.transGen_of_mem_loops hc hx hy).lift id fun _ _ => hplain.arc_iff.mpr
  mem_walk_iff {d nodes ids root x} h hroot := by
    have hplain := plain_of_holds h
    rw [(hplain.sameWays root).reaches_iff]
    exact hplain.valid.mem_reachableFrom_iff (hplain.nodes_eq ▸ hroot)
  exists_dominatorOf {d nodes ids root x} h hroot hx hne := by
    have hplain := plain_of_holds h
    have hvalid : ({ d with start := root } : Graph).Valid := hplain.valid.congr rfl rfl
    have hstart : root ∈ d.blocks.map (·.uid) := hplain.nodes_eq ▸ hroot
    rw [(hplain.sameWays root).reaches_iff] at hx
    obtain ⟨i, hi⟩ := hvalid.exists_immediateDominator hstart hx hne
    refine ⟨i, (lookup_immediateDominators hvalid hstart hx).trans hi, ?_⟩
    rw [(hplain.sameWays root).immediatelyDominates_iff]
    exact hvalid.immediateDominator?_eq_some hstart hx hi
  dominatorOf_root {d nodes ids root} h hroot := by
    have hplain := plain_of_holds h
    have hvalid : ({ d with start := root } : Graph).Valid := hplain.valid.congr rfl rfl
    have hstart : root ∈ d.blocks.map (·.uid) := hplain.nodes_eq ▸ hroot
    refine (lookup_immediateDominators hvalid hstart .refl).trans ?_
    refine Option.eq_none_iff_forall_ne_some.mpr fun i hi => ?_
    exact not_strictlyDominates_start (hvalid.immediateDominator?_eq_some hstart .refl hi).1

end Plain

end Health

end WorstCase
