import WorstCase.Proofs.Graph.Valid
import Mathlib.Algebra.BigOperators.Group.Finset.Basic
import Mathlib.Algebra.Order.BigOperators.Group.Finset
import Mathlib.Logic.Relation
import Mathlib.Tactic.Ring

/-!
# Walks and their costs

A **walk** lists the uids that are met when edges are followed from one block to another; a walk
without repetitions is a simple path. The cost of a walk is the sum of the exact costs of its
blocks and edges, as an integer.

Costs are stored in 64 bits and added with wrap-around. Along a simple path every block and every
edge is met once, so its exact cost is bounded by the **cost mass** of the graph, the sum of the
absolute values of all costs. As long as that fits 64 bits no sum along a simple path wraps.
-/

namespace WorstCase

/-! ### Sums over lists without repetitions -/

/-- Where `f` does not vanish on `l`, the elements of `l` are among those of `m`. Then the sum
over `l` is at most the sum over `m`. -/
theorem sum_map_le_of_nodup {α : Type} [DecidableEq α] {l m : List α} (hl : l.Nodup)
    (hm : m.Nodup) (f : α → ℕ) (h : ∀ x ∈ l, f x ≠ 0 → x ∈ m) :
    (l.map f).sum ≤ (m.map f).sum := by
  rw [← List.sum_toFinset f hl, ← List.sum_toFinset f hm]
  refine Finset.sum_le_sum_of_ne_zero fun x hx hfx => ?_
  rw [List.mem_toFinset] at hx ⊢
  exact h x hx hfx

theorem natAbs_sum_map_le {α : Type} (f : α → ℤ) (l : List α) :
    ((l.map f).sum).natAbs ≤ (l.map fun x => (f x).natAbs).sum := by
  induction l with
  | nil => rfl
  | cons x l ih =>
    simp only [List.map_cons, List.sum_cons]
    exact (Int.natAbs_add_le _ _).trans (Nat.add_le_add_left ih _)

/-- The edges that a list of uids goes along. -/
def pathEdges : List Int → List EdgeId
  | a :: b :: p => ⟨a, b⟩ :: pathEdges (b :: p)
  | _ => []

@[simp] theorem pathEdges_nil : pathEdges [] = [] := rfl

@[simp] theorem pathEdges_singleton (a : Int) : pathEdges [a] = [] := rfl

@[simp]
theorem pathEdges_cons_cons (a b : Int) (p : List Int) :
    pathEdges (a :: b :: p) = ⟨a, b⟩ :: pathEdges (b :: p) := rfl

theorem src_mem_of_mem_pathEdges {p : List Int} {id : EdgeId} (h : id ∈ pathEdges p) :
    id.src ∈ p := by
  induction p with
  | nil => simp at h
  | cons a p ih =>
    cases p with
    | nil => simp at h
    | cons b p =>
      rcases List.mem_cons.mp h with rfl | h
      · exact List.mem_cons_self
      · exact List.mem_cons_of_mem _ (ih h)

theorem dst_mem_of_mem_pathEdges {a : Int} {p : List Int} {id : EdgeId}
    (h : id ∈ pathEdges (a :: p)) : id.dst ∈ p := by
  induction p generalizing a with
  | nil => simp at h
  | cons b p ih =>
    rcases List.mem_cons.mp h with rfl | h
    · exact List.mem_cons_self
    · exact List.mem_cons_of_mem _ (ih h)

/-- A simple path takes an edge at most once, since it leaves a block at most once. -/
theorem pathEdges_nodup {p : List Int} (hp : p.Nodup) : (pathEdges p).Nodup := by
  induction p with
  | nil => exact List.nodup_nil
  | cons a p ih =>
    cases p with
    | nil => exact List.nodup_nil
    | cons b p =>
      rw [List.nodup_cons] at hp
      exact List.nodup_cons.mpr ⟨fun h => hp.1 (src_mem_of_mem_pathEdges h), ih hp.2⟩

theorem pathEdges_append_cons (p q : List Int) (x : Int) :
    pathEdges (p ++ x :: q) = pathEdges (p ++ [x]) ++ pathEdges (x :: q) := by
  induction p with
  | nil => simp
  | cons a p ih =>
    cases p with
    | nil => simp
    | cons b p => simpa using ih

namespace Graph

/-! ### Arcs and reachability -/

/-- There is an edge from `a` to `b`. -/
def Arc (g : Graph) (a b : Int) : Prop :=
  (⟨a, b⟩ : EdgeId) ∈ g.edges.map (·.id)

instance (g : Graph) (a b : Int) : Decidable (g.Arc a b) :=
  inferInstanceAs (Decidable (_ ∈ _))

/-- Control can get from `a` to `b` along edges. -/
abbrev Reaches (g : Graph) : Int → Int → Prop :=
  Relation.ReflTransGen g.Arc

theorem mem_preds_iff {g : Graph} {p x : Int} : p ∈ g.preds x ↔ g.Arc p x := by
  simp only [preds, Arc, List.mem_map, List.mem_filter, decide_eq_true_eq]
  constructor
  · rintro ⟨e, ⟨he, rfl⟩, rfl⟩
    exact ⟨e, he, rfl⟩
  · rintro ⟨e, he, hid⟩
    exact ⟨e, ⟨he, by rw [hid]⟩, by rw [hid]⟩

theorem mem_succs_iff {g : Graph} {x s : Int} : s ∈ g.succs x ↔ g.Arc x s := by
  simp only [succs, Arc, List.mem_map, List.mem_filter, decide_eq_true_eq]
  constructor
  · rintro ⟨e, ⟨he, rfl⟩, rfl⟩
    exact ⟨e, he, rfl⟩
  · rintro ⟨e, he, hid⟩
    exact ⟨e, ⟨he, by rw [hid]⟩, by rw [hid]⟩

theorem Valid.preds_nodup {g : Graph} (hg : g.Valid) (x : Int) : (g.preds x).Nodup := by
  have hids : ((g.edges.filter (·.id.dst = x)).map (·.id)).Nodup :=
    hg.ids_nodup.sublist (List.filter_sublist.map _)
  refine (List.nodup_map_iff_inj_on hids.of_map).mpr fun e he e' he' hsrc => ?_
  -- two edges into `x` from the same source have the same identifier
  refine List.inj_on_of_nodup_map hids he he' ?_
  rw [List.mem_filter, decide_eq_true_eq] at he he'
  rcases hid : e.id with ⟨s, d⟩
  rcases hid' : e'.id with ⟨s', d'⟩
  simp_all

/-- The ends of an arc are blocks. -/
theorem Valid.arc_known {g : Graph} (hg : g.Valid) {a b : Int} (h : g.Arc a b) :
    a ∈ g.blocks.map (·.uid) ∧ b ∈ g.blocks.map (·.uid) :=
  hg.ends_known _ h

theorem Valid.exists_edge {g : Graph} (hg : g.Valid) {a b : Int} (h : g.Arc a b) :
    ∃ e, g.edge? a b = some e ∧ e ∈ g.edges ∧ e.id = ⟨a, b⟩ := by
  obtain ⟨e, he, hid⟩ := List.mem_map.mp h
  exact ⟨e, hg.edge?_eq_some_iff.mpr ⟨he, hid⟩, he, hid⟩

/-! ### Walks -/

/-- `g.Walk a p c`: following edges from `a` to `c`, the uids met are `p`. -/
inductive Walk (g : Graph) : Int → List Int → Int → Prop
  | single (a : Int) : Walk g a [a] a
  | step {a b c : Int} {p : List Int} (hab : g.Arc a b) (hp : Walk g b p c) : Walk g a (a :: p) c

variable {g : Graph} {a b c x : Int} {p q : List Int}

theorem Walk.exists_cons (h : g.Walk a p c) : ∃ q, p = a :: q := by
  cases h with
  | single => exact ⟨[], rfl⟩
  | step _ _ => exact ⟨_, rfl⟩

theorem Walk.head_mem (h : g.Walk a p c) : a ∈ p := by
  obtain ⟨q, rfl⟩ := h.exists_cons
  exact List.mem_cons_self

theorem Walk.last_mem (h : g.Walk a p c) : c ∈ p := by
  induction h with
  | single => exact List.mem_cons_self
  | step _ _ ih => exact List.mem_cons_of_mem _ ih

theorem Walk.reaches (h : g.Walk a p c) : g.Reaches a c := by
  induction h with
  | single => exact .refl
  | step hab _ ih => exact .head hab ih

theorem exists_walk_of_reaches (h : g.Reaches a c) : ∃ p, g.Walk a p c := by
  induction h using Relation.ReflTransGen.head_induction_on with
  | refl => exact ⟨[c], .single c⟩
  | head hab _ ih =>
    obtain ⟨p, hp⟩ := ih
    exact ⟨_, .step hab hp⟩

theorem Walk.append (h : g.Walk a p b) (h' : g.Walk b (b :: q) c) : g.Walk a (p ++ q) c := by
  induction h with
  | single => exact h'
  | step hab _ ih => exact .step hab (ih h')

/-- A walk splits at every block that it meets. -/
theorem Walk.split (h : g.Walk a p c) (hx : x ∈ p) :
    ∃ p₁ p₂, p = p₁ ++ x :: p₂ ∧ g.Walk a (p₁ ++ [x]) x ∧ g.Walk x (x :: p₂) c := by
  induction h with
  | single a =>
    obtain rfl := List.mem_singleton.mp hx
    exact ⟨[], [], rfl, .single _, .single _⟩
  | @step a b c p hab hp ih =>
    by_cases hxa : x = a
    · subst hxa
      exact ⟨[], p, rfl, .single _, .step hab hp⟩
    · obtain ⟨p₁, p₂, rfl, h₁, h₂⟩ := ih ((List.mem_cons.mp hx).resolve_left hxa)
      exact ⟨a :: p₁, p₂, rfl, .step hab h₁, h₂⟩

theorem Walk.reaches_of_mem (h : g.Walk a p c) (hx : x ∈ p) :
    g.Reaches a x ∧ g.Reaches x c := by
  obtain ⟨p₁, p₂, -, h₁, h₂⟩ := h.split hx
  exact ⟨h₁.reaches, h₂.reaches⟩

/-- What can be reached from a block is a block. -/
theorem Valid.known_of_reaches (hg : g.Valid) (ha : a ∈ g.blocks.map (·.uid))
    (h : g.Reaches a x) : x ∈ g.blocks.map (·.uid) := by
  induction h with
  | refl => exact ha
  | tail _ harc _ => exact (hg.arc_known harc).2

theorem Walk.arc_of_mem_pathEdges (h : g.Walk a p c) {id : EdgeId} (hid : id ∈ pathEdges p) :
    g.Arc id.src id.dst := by
  induction h with
  | single => simp at hid
  | @step a b c p hab hp ih =>
    obtain ⟨q, rfl⟩ := hp.exists_cons
    rcases List.mem_cons.mp hid with rfl | hid
    · exact hab
    · exact ih hid

/-! ### Costs -/

/-- The exact cost of a block. -/
def blockCost (g : Graph) (uid : Int) : Int :=
  ((g.block? uid).map (·.cost.toInt)).getD 0

/-- The exact cost of an edge. -/
def edgeCost (g : Graph) (id : EdgeId) : Int :=
  ((g.edge? id.src id.dst).map (·.cost.toInt)).getD 0

/-- The exact cost of the blocks and edges along a list of uids. -/
def pathCost (g : Graph) (p : List Int) : Int :=
  (p.map g.blockCost).sum + ((pathEdges p).map g.edgeCost).sum

/-- The sum of the absolute values of all costs of a graph. -/
def costMass (g : Graph) : Nat :=
  (g.blocks.map (·.cost.toInt.natAbs)).sum + (g.edges.map (·.cost.toInt.natAbs)).sum

theorem blockCost_of_block? {uid : Int} {b : Block} (h : g.block? uid = some b) :
    g.blockCost uid = b.cost.toInt := by
  rw [blockCost, h]
  rfl

theorem edgeCost_of_edge? {src dst : Int} {e : Edge} (h : g.edge? src dst = some e) :
    g.edgeCost ⟨src, dst⟩ = e.cost.toInt := by
  rw [edgeCost, h]
  rfl

theorem Valid.blockCost_uid (hg : g.Valid) {b : Block} (hb : b ∈ g.blocks) :
    g.blockCost b.uid = b.cost.toInt :=
  blockCost_of_block? (hg.block?_eq_some_iff.mpr ⟨hb, rfl⟩)

theorem Valid.edgeCost_id (hg : g.Valid) {e : Edge} (he : e ∈ g.edges) :
    g.edgeCost e.id = e.cost.toInt :=
  edgeCost_of_edge? (hg.edge?_eq_some_iff.mpr ⟨he, rfl⟩)

@[simp]
theorem pathCost_singleton (g : Graph) (a : Int) : g.pathCost [a] = g.blockCost a := by
  simp [pathCost]

@[simp]
theorem pathCost_cons_cons (g : Graph) (a b : Int) (p : List Int) :
    g.pathCost (a :: b :: p) = g.blockCost a + g.edgeCost ⟨a, b⟩ + g.pathCost (b :: p) := by
  simp only [pathCost, List.map_cons, List.sum_cons, pathEdges_cons_cons]
  ring

/-- Costs add up where two walks meet; the block they share counts once. -/
theorem pathCost_append_cons (g : Graph) (p q : List Int) (x : Int) :
    g.pathCost (p ++ x :: q) =
      g.pathCost (p ++ [x]) + g.pathCost (x :: q) - g.blockCost x := by
  rw [pathCost, pathEdges_append_cons]
  simp only [pathCost, List.map_append, List.map_cons, List.map_nil, List.sum_append,
    List.sum_cons, List.sum_nil]
  ring

theorem natAbs_blockCost_le_costMass {b : Block} (hb : b ∈ g.blocks) :
    b.cost.toInt.natAbs ≤ g.costMass := by
  have hle : b.cost.toInt.natAbs ≤ (g.blocks.map (·.cost.toInt.natAbs)).sum :=
    List.le_sum_of_mem (List.mem_map_of_mem (f := (·.cost.toInt.natAbs)) hb)
  exact hle.trans (Nat.le_add_right _ _)

theorem natAbs_edgeCost_le_costMass {e : Edge} (he : e ∈ g.edges) :
    e.cost.toInt.natAbs ≤ g.costMass := by
  have hle : e.cost.toInt.natAbs ≤ (g.edges.map (·.cost.toInt.natAbs)).sum :=
    List.le_sum_of_mem (List.mem_map_of_mem (f := (·.cost.toInt.natAbs)) he)
  exact hle.trans (Nat.le_add_left _ _)

/-- **The exact cost of a simple path is bounded by the cost mass.** -/
theorem Valid.natAbs_pathCost_le (hg : g.Valid) (hp : p.Nodup) :
    (g.pathCost p).natAbs ≤ g.costMass := by
  have hblocks : (g.blocks.map (·.cost.toInt.natAbs)).sum =
      ((g.blocks.map (·.uid)).map fun u => (g.blockCost u).natAbs).sum := by
    rw [List.map_map]
    refine congrArg List.sum (List.map_congr_left fun b hb => ?_)
    rw [Function.comp, hg.blockCost_uid hb]
  have hedges : (g.edges.map (·.cost.toInt.natAbs)).sum =
      ((g.edges.map (·.id)).map fun id => (g.edgeCost id).natAbs).sum := by
    rw [List.map_map]
    refine congrArg List.sum (List.map_congr_left fun e he => ?_)
    rw [Function.comp, hg.edgeCost_id he]
  have hblocks_le : (p.map fun u => (g.blockCost u).natAbs).sum ≤
      (g.blocks.map (·.cost.toInt.natAbs)).sum := by
    rw [hblocks]
    refine sum_map_le_of_nodup hp hg.uids_nodup _ fun u _ hu => ?_
    refine block?_isSome_iff.mp (Option.isSome_iff_ne_none.mpr fun hnone => hu ?_)
    rw [blockCost, hnone]
    rfl
  have hedges_le : ((pathEdges p).map fun id => (g.edgeCost id).natAbs).sum ≤
      (g.edges.map (·.cost.toInt.natAbs)).sum := by
    rw [hedges]
    refine sum_map_le_of_nodup (pathEdges_nodup hp) hg.ids_nodup _ fun id _ hid => ?_
    refine edge?_isSome_iff.mp (Option.isSome_iff_ne_none.mpr fun hnone => hid ?_)
    rw [edgeCost, hnone]
    rfl
  calc (g.pathCost p).natAbs
      ≤ ((p.map g.blockCost).sum).natAbs + (((pathEdges p).map g.edgeCost).sum).natAbs :=
        Int.natAbs_add_le _ _
    _ ≤ (p.map fun u => (g.blockCost u).natAbs).sum +
          ((pathEdges p).map fun id => (g.edgeCost id).natAbs).sum :=
        Nat.add_le_add (natAbs_sum_map_le _ _) (natAbs_sum_map_le _ _)
    _ ≤ g.costMass := Nat.add_le_add hblocks_le hedges_le

end Graph

end WorstCase
