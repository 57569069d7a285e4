import WorstCase.Proofs.Graph.LongestPath
import Mathlib.Data.List.Perm.Basic

/-!
# Path counts are exact

Counting adds the count of a visited block to the counts of its predecessors. A block is visited
when its own count is complete, so after a sweep the count of every block is the sum of the counts
of its visited successors, and 1 more for the destination (`Graph.Counting`). Walks to the
destination obey the same law: they begin at the block and go on with a walk from one of these
successors. So a count is the number of walks (`Graph.Counting.exists_walks`), and what is returned
is the number of simple paths (`Graph.Valid.countPaths_enumerates`).
-/

namespace WorstCase

/-- A list **enumerates** the elements with a property if it holds these, each once. -/
structure Enumerates {α : Type} (l : List α) (P : α → Prop) : Prop where
  nodup : l.Nodup
  mem_iff : ∀ a, a ∈ l ↔ P a

namespace Enumerates

variable {α β κ : Type} {l l' : List α} {P Q : α → Prop}

theorem length_eq (h : Enumerates l P) (h' : Enumerates l' P) : l.length = l'.length := by
  refine ((List.perm_ext_iff_of_nodup h.nodup h'.nodup).mpr fun a => ?_).length_eq
  rw [h.mem_iff, h'.mem_iff]

theorem congr (h : Enumerates l P) (hPQ : ∀ a, P a ↔ Q a) : Enumerates l Q :=
  ⟨h.nodup, fun a => (h.mem_iff a).trans (hPQ a)⟩

theorem singleton (a : α) : Enumerates [a] (· = a) :=
  ⟨List.nodup_singleton a, fun _ => List.mem_singleton⟩

theorem map {f : α → β} (hf : Function.Injective f) (h : Enumerates l P) :
    Enumerates (l.map f) fun b => ∃ a, P a ∧ b = f a where
  nodup := h.nodup.map hf
  mem_iff b := by simp only [List.mem_map, h.mem_iff, eq_comm]

theorem ite {c : Prop} [Decidable c] (h : c → Enumerates l P) :
    Enumerates (if c then l else []) fun a => c ∧ P a := by
  by_cases hc : c
  · rw [if_pos hc]
    exact (h hc).congr fun a => (and_iff_right hc).symm
  · rw [if_neg hc]
    exact ⟨List.nodup_nil, fun a => by simp [hc]⟩

theorem append (h : Enumerates l P) (h' : Enumerates l' Q) (hdisjoint : ∀ a, P a → ¬ Q a) :
    Enumerates (l ++ l') fun a => P a ∨ Q a where
  nodup := List.nodup_append'.mpr ⟨h.nodup, h'.nodup, fun a ha ha' =>
    hdisjoint a ((h.mem_iff a).mp ha) ((h'.mem_iff a).mp ha')⟩
  mem_iff a := by rw [List.mem_append, h.mem_iff, h'.mem_iff]

theorem flatMap {ks : List κ} {f : κ → List α} {R : κ → α → Prop} (hks : ks.Nodup)
    (h : ∀ k ∈ ks, Enumerates (f k) (R k)) (hdisjoint : ∀ {k k' a}, R k a → R k' a → k = k') :
    Enumerates (ks.flatMap f) fun a => ∃ k ∈ ks, R k a where
  nodup := by
    refine List.nodup_flatMap.mpr ⟨fun k hk => (h k hk).nodup, ?_⟩
    refine hks.imp_of_mem fun {k k'} hk hk' hne => ?_
    rw [Function.onFun, List.disjoint_left]
    exact fun a ha ha' => hne (hdisjoint (((h k hk).mem_iff a).mp ha) (((h k' hk').mem_iff a).mp ha'))
  mem_iff a := by
    rw [List.mem_flatMap]
    exact exists_congr fun k => and_congr_right fun hk => (h k hk).mem_iff a

end Enumerates

namespace Graph

variable {g : Graph} {src dst : Int}

/-! ### One visit -/

/-- The count of a block, 0 if it has none. -/
def countOf (counts : List (Int × Nat)) (u : Int) : Nat :=
  (counts.lookup u).getD 0

theorem countOf_count (counts : List (Int × Nat)) (s : Step) (u : Int) :
    countOf (s.count counts) u =
      countOf counts u + if u = s.pred.uid then countOf counts s.uid else 0 := by
  unfold countOf Step.count
  rw [List.lookup_cons]
  by_cases hu : u = s.pred.uid
  · subst hu
    simp
  · rw [beq_false_of_ne hu, if_neg hu, Nat.add_zero]

/-- The steps of one visit add the count of the block to those of the predecessors. -/
theorem countOf_foldl_count {x : Int} {steps : List Step}
    (hsteps : ∀ s ∈ steps, s.uid = x ∧ s.pred.uid ≠ x) (hnd : (steps.map (·.pred.uid)).Nodup)
    (counts : List (Int × Nat)) (u : Int) :
    countOf (steps.foldl Step.count counts) u =
      countOf counts u + if u ∈ steps.map (·.pred.uid) then countOf counts x else 0 := by
  induction steps generalizing counts with
  | nil => simp
  | cons s steps ih =>
    obtain ⟨rfl, hne⟩ := hsteps s List.mem_cons_self
    rw [List.map_cons, List.nodup_cons] at hnd
    have hx : countOf (s.count counts) s.uid = countOf counts s.uid := by
      rw [countOf_count, if_neg hne.symm, Nat.add_zero]
    rw [List.foldl_cons, ih (fun s' hs' => hsteps s' (List.mem_cons_of_mem _ hs')) hnd.2, hx,
      countOf_count, List.map_cons]
    by_cases hu : u = s.pred.uid
    · -- a predecessor gets its share once
      subst hu
      rw [if_pos rfl, if_neg hnd.1, if_pos List.mem_cons_self]
      rfl
    · rw [if_neg hu]
      simp only [List.mem_cons, hu, false_or, Nat.add_zero]

/-- The steps into a block come from its predecessors. -/
theorem Valid.stepsInto_preds (hg : g.Valid) (x : Int) :
    (g.stepsInto x).map (·.pred.uid) = g.preds x := by
  have hlist : ∀ es : List Edge, (∀ e ∈ es, e ∈ g.edges) →
      (es.filterMap fun e => (g.block? e.id.src).map fun pred =>
        ({ pred, edge := e, uid := x } : Step)).map (·.pred.uid) = es.map (·.id.src) := by
    intro es
    induction es with
    | nil => exact fun _ => rfl
    | cons e es ih =>
      intro hes
      obtain ⟨b, hb⟩ := hg.exists_block_src (hes e List.mem_cons_self)
      have hrest := ih fun e' he' => hes e' (List.mem_cons_of_mem _ he')
      rw [List.filterMap_cons, hb, Option.map_some, List.map_cons, List.map_cons, hrest,
        uid_of_block? hb]
  exact hlist _ fun e he => List.mem_of_mem_filter he

/-! ### Whole sweeps -/

/-- What the counts say when the blocks `visited` have been visited. -/
def Counting (g : Graph) (dst : Int) (visited : List Int) (counts : List (Int × Nat)) : Prop :=
  ∀ u, countOf counts u = (if u = dst then 1 else 0) +
    (visited.map fun n => if g.Arc u n then countOf counts n else 0).sum

/-- **One visit keeps the law of the counts.** -/
theorem Counting.visit {visited : List Int} {counts : List (Int × Nat)} {x : Int} (hg : g.Valid)
    (hv : Settled g src dst (x :: visited)) (hk : Counting g dst visited counts) :
    Counting g dst (x :: visited) ((g.stepsInto x).foldl Step.count counts) := by
  have hsteps : ∀ s ∈ g.stepsInto x, s.uid = x ∧ s.pred.uid ≠ x := fun s hs =>
    ⟨(mem_stepsInto.mp hs).1, List.ne_of_not_mem_cons (hv.pred_notMem hs)⟩
  have hadd : ∀ u, countOf ((g.stepsInto x).foldl Step.count counts) u =
      countOf counts u + if g.Arc u x then countOf counts x else 0 := by
    intro u
    rw [countOf_foldl_count hsteps (by rw [hg.stepsInto_preds]; exact hg.preds_nodup x),
      hg.stepsInto_preds]
    simp only [mem_preds_iff]
  have hsame : ∀ n ∈ x :: visited,
      countOf ((g.stepsInto x).foldl Step.count counts) n = countOf counts n := by
    intro n hn
    rw [hadd, if_neg (hv.not_arc_head hn), Nat.add_zero]
  intro u
  have hsum : ((x :: visited).map fun n =>
        if g.Arc u n then countOf ((g.stepsInto x).foldl Step.count counts) n else 0).sum =
      ((x :: visited).map fun n => if g.Arc u n then countOf counts n else 0).sum := by
    refine congrArg List.sum (List.map_congr_left fun n hn => ?_)
    rw [hsame n hn]
  rw [hsum, hadd, hk u, List.map_cons, List.sum_cons]
  omega

/-- **The counts after a whole sweep**, by induction on its history. -/
theorem Settled.counting {visited : List Int} (hg : g.Valid) (hv : Settled g src dst visited) :
    Counting g dst visited ((visited.reverse.flatMap g.stepsInto).foldl Step.count [(dst, 1)]) := by
  induction hv with
  | nil =>
    intro u
    rw [List.reverse_nil, List.flatMap_nil, List.foldl_nil, countOf, List.lookup_cons]
    by_cases hu : u = dst
    · simp [hu]
    · simp [hu, beq_false_of_ne hu]
  | visit hv hnew hsrc hreach hready ih =>
    rw [List.reverse_cons, List.flatMap_append, List.foldl_append, List.flatMap_singleton]
    exact ih.visit hg (.visit hv hnew hsrc hreach hready)

/-! ### Counts and walks -/

/-- A walk that ends at once, or goes on with a walk from a visited block. -/
def WalkThrough (g : Graph) (visited : List Int) (u dst : Int) (p : List Int) : Prop :=
  (u = dst ∧ p = [dst]) ∨ ∃ n ∈ visited, g.Arc u n ∧ ∃ q, g.Walk n q dst ∧ p = u :: q

/-- Where the counts of the successors are numbers of walks, so is the count of a block. -/
theorem Counting.exists_walksThrough {visited : List Int} {counts : List (Int × Nat)}
    (hk : Counting g dst visited counts) (hnd : visited.Nodup) {u : Int}
    (hsucc : ∀ n, n ∈ visited → g.Arc u n →
      ∃ l, Enumerates l (fun q => g.Walk n q dst) ∧ l.length = countOf counts n) :
    ∃ l, Enumerates l (g.WalkThrough visited u dst) ∧ l.length = countOf counts u := by
  choose! walks hwalks hlength using hsucc
  have hstop : Enumerates (if u = dst then [[dst]] else []) fun p => u = dst ∧ p = [dst] :=
    .ite fun _ => .singleton [dst]
  have hnext : ∀ n ∈ visited, Enumerates (if g.Arc u n then (walks n).map (u :: ·) else [])
      fun p => g.Arc u n ∧ ∃ q, g.Walk n q dst ∧ p = u :: q :=
    fun n hn => .ite fun harc => (hwalks n hn harc).map List.cons_injective
  refine ⟨_, hstop.append (.flatMap hnd hnext ?_) ?_, ?_⟩
  · -- walks from different successors differ in their second block
    rintro n n' p ⟨-, q, hq, rfl⟩ ⟨-, q', hq', heq⟩
    obtain ⟨r, rfl⟩ := hq.exists_cons
    obtain ⟨r', rfl⟩ := hq'.exists_cons
    exact (List.cons.inj (List.cons.inj heq).2).1
  · rintro p ⟨-, rfl⟩ ⟨n, -, -, q, hq, heq⟩
    obtain ⟨r, rfl⟩ := hq.exists_cons
    simp at heq
  · rw [List.length_append, List.length_flatMap, hk u]
    congr 1
    · split <;> rfl
    · refine congrArg List.sum (List.map_congr_left fun n hn => ?_)
      split
      · rename_i harc
        rw [List.length_map, hlength n hn harc]
      · rfl

/-- **The count of a visited block is the number of walks from it.** The induction is on the
history: all successors that lead on are earlier visits. -/
theorem Counting.exists_walks {visited : List Int} {counts : List (Int × Nat)}
    (hk : Counting g dst visited counts) (hall : Settled g src dst visited) {earlier : List Int}
    (hv : Settled g src dst earlier) (hsub : earlier ⊆ visited) {u : Int} (hu : u ∈ earlier) :
    ∃ l, Enumerates l (fun p => g.Walk u p dst) ∧ l.length = countOf counts u := by
  induction hv generalizing u with
  | nil => exact absurd hu List.not_mem_nil
  | @visit x earlier hv hnew hsrc hreach hready ih =>
    have hsub' : earlier ⊆ visited := fun y hy => hsub (List.mem_cons_of_mem _ hy)
    rcases List.mem_cons.mp hu with rfl | hu
    · obtain ⟨l, hl, hlength⟩ := hk.exists_walksThrough hall.nodup fun n hn harc =>
        ih hsub' (hready n harc (hall.reaches hn))
      refine ⟨l, hl.congr fun p => ?_, hlength⟩
      constructor
      · rintro (⟨rfl, rfl⟩ | ⟨n, -, harc, q, hq, rfl⟩)
        · exact .single u
        · exact .step harc hq
      · rintro (_ | ⟨harc, hq⟩)
        · exact .inl ⟨rfl, rfl⟩
        · exact .inr ⟨_, hall.succ_mem (hsub List.mem_cons_self) harc hq.reaches, harc, _, hq, rfl⟩
    · exact ih hsub' hu

theorem countPaths_eq_ok {n : Nat} (h : g.countPaths src dst = .ok n) :
    ∃ v, g.sweep src dst = .ok v ∧ countOf (v.steps.foldl Step.count [(dst, 1)]) src = n := by
  obtain ⟨v, hv, hcount⟩ := countPaths_eq_ok_iff.mp h
  exact ⟨v, hv, by rw [countOf, hcount, Option.getD_some]⟩

/-- **Path counts are exact**: a count is the number of simple paths from `src` to `dst`. -/
theorem Valid.countPaths_enumerates (hg : g.Valid) {n : Nat}
    (h : g.countPaths src dst = .ok n) :
    ∃ l, Enumerates l (fun p => g.Walk src p dst ∧ p.Nodup) ∧ l.length = n := by
  obtain ⟨v, hv, hcount⟩ := countPaths_eq_ok h
  have hswept := hg.swept hv
  have hk := hswept.settled.counting hg
  rw [List.reverse_reverse, ← hswept.steps_eq] at hk
  obtain ⟨l, hl, hlength⟩ := hk.exists_walksThrough hswept.settled.nodup fun n hn _ =>
    hk.exists_walks hswept.settled hswept.settled (List.Subset.refl _) hn
  refine ⟨l, hl.congr fun p => ?_, hlength.trans hcount⟩
  constructor
  · rintro (⟨heq, -⟩ | ⟨n, hn, harc, q, hq, rfl⟩)
    · exact absurd heq (sweep_eq_ok hv).1
    · exact ⟨.step harc hq, hswept.settled.cons_nodup harc hn hq⟩
  · rintro ⟨hp, hnd⟩
    cases hp with
    | single => exact absurd rfl (sweep_eq_ok hv).1
    | step harc hq =>
      have hmem := hswept.mem_of_walk hq (List.nodup_cons.mp hnd).1
      exact .inr ⟨_, List.mem_reverse.mpr hmem, harc, _, hq, rfl⟩

end Graph

end WorstCase
