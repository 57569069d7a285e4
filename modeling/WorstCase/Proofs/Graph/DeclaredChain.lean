import WorstCase.Proofs.Graph.Cutting
import WorstCase.Proofs.Health.Structure

/-!
# Chains of declared dominators

A **chain** (`Graph.Chain`) follows declared dominators from a block up to the start. Climbing finds
every block of a chain, and the merge points are the chain of the end, as long as the chain is not
longer than the bounds allow.

A graph is **well declared** (`Graph.WellDeclared`) when it has no loops, every block can be
reached, and every block but the start declares a block that really dominates it. Then

* every block has a chain, and a chain passes no block twice (`Graph.WellDeclared.exists_chain`,
  `Graph.WellDeclared.chain_nodup`);
* what is on the chain of a block dominates it, and the way between the two is clear
  (`Graph.WellDeclared.clear`), so that **queries along chains succeed**
  (`Graph.WellDeclared.exists_longestPath`);
* all candidates for dominator cuts and for recursive cuts lie along chains.
-/

namespace WorstCase

namespace Graph

variable {g : Graph} {src dst x y : Int} {l p : List Int}

/-! ### Chains -/

/-- The declared dominators from a block up to the start. -/
inductive Chain (g : Graph) : Int → List Int → Prop
  | start : Chain g g.start [g.start]
  | up {x : Int} {b : Block} {l : List Int} (hb : g.block? x = some b) (hx : x ≠ g.start)
      (hd : b.dominator ≠ noDominator) (h : Chain g b.dominator l) : Chain g x (x :: l)

/-- Away from the start, the merge points go on with those of the declared dominator. -/
theorem mergePointsFrom_succ_eq_ok_iff {bound : Nat} {points : List Int} (hx : x ≠ g.start) :
    g.mergePointsFrom (bound + 1) x = .ok points ↔
      ∃ b rest, g.block? x = some b ∧ b.dominator ≠ noDominator ∧
        g.mergePointsFrom bound b.dominator = .ok rest ∧ points = x :: rest := by
  rw [mergePointsFrom, if_neg hx]
  simp only [bind_eq_ok_iff, ite_throw_bind_eq_ok_iff, blockOrFail_eq_ok, pure_eq_ok_iff,
    exists_and_left, eq_comm (b := points)]

namespace Chain

theorem exists_cons (h : g.Chain x l) : ∃ l', l = x :: l' := by
  cases h with
  | start => exact ⟨[], rfl⟩
  | up _ _ _ _ => exact ⟨_, rfl⟩

theorem start_mem (h : g.Chain x l) : g.start ∈ l := by
  induction h with
  | start => exact List.mem_cons_self
  | up _ _ _ _ ih => exact List.mem_cons_of_mem _ ih

/-- The rest of a chain from any of its blocks on is the chain of that block. -/
theorem of_append {l₁ l₂ : List Int} (h : g.Chain x (l₁ ++ y :: l₂)) : g.Chain y (y :: l₂) := by
  induction l₁ generalizing x with
  | nil =>
    obtain ⟨l', hl⟩ := h.exists_cons
    obtain ⟨rfl, -⟩ := List.cons.inj hl
    exact h
  | cons z l₁ ih =>
    generalize hl : z :: l₁ ++ y :: l₂ = l at h
    cases h with
    | start => simp at hl
    | up _ _ _ h =>
      obtain ⟨-, rfl⟩ := List.cons.inj hl
      exact ih h

/-- Climbing a chain finds each of its blocks. -/
theorem climb_eq_ok (h : g.Chain x l) (hsrc : src ∈ l) {bound : Nat} (hbound : l.length ≤ bound) :
    g.climb src dst bound x = .ok () := by
  induction h generalizing bound with
  | start =>
    obtain rfl := List.mem_singleton.mp hsrc
    rw [List.length_singleton] at hbound
    obtain ⟨bound, rfl⟩ := Nat.exists_eq_add_of_le' hbound
    rw [climb, if_pos rfl]
  | @up x b l hb _ hd _ ih =>
    rw [List.length_cons] at hbound
    obtain ⟨bound, rfl⟩ : ∃ n, bound = n + 1 := ⟨bound - 1, by omega⟩
    rw [climb]
    by_cases hx : x = src
    · rw [if_pos hx]
    · have hsrc' : src ∈ l := (List.mem_cons.mp hsrc).resolve_left (Ne.symm hx)
      rw [if_neg hx, hb]
      simp only [if_neg hd]
      exact ih hsrc' (by omega)

/-- The merge points from a block on are its chain. -/
theorem mergePointsFrom_eq_ok (h : g.Chain x l) {bound : Nat} (hbound : l.length ≤ bound + 1) :
    g.mergePointsFrom bound x = .ok l := by
  induction h generalizing bound with
  | start =>
    unfold mergePointsFrom
    rw [if_pos rfl]
  | @up x b l hb hx hd h ih =>
    obtain ⟨l', rfl⟩ := h.exists_cons
    rw [List.length_cons, List.length_cons] at hbound
    obtain ⟨bound, rfl⟩ : ∃ n, bound = n + 1 := ⟨bound - 1, by omega⟩
    have hrest : g.mergePointsFrom bound b.dominator = .ok (b.dominator :: l') := by
      refine ih ?_
      rw [List.length_cons]
      omega
    exact (mergePointsFrom_succ_eq_ok_iff hx).mpr ⟨b, _, hb, hd, hrest, rfl⟩

end Chain

/-! ### Well-declared graphs -/

/-- The declarations of a graph can be trusted. -/
structure WellDeclared (g : Graph) : Prop where
  valid : g.Valid
  start_known : g.start ∈ g.blocks.map (·.uid)
  no_loop : ∀ x, ¬ g.OnLoop x
  reachable : ∀ x ∈ g.blocks.map (·.uid), g.Reaches g.start x
  declared : ∀ b ∈ g.blocks, b.uid ≠ g.start → b.dominator ≠ noDominator
  dominating : ∀ b ∈ g.blocks, b.uid ≠ g.start → g.StrictlyDominates b.dominator b.uid

namespace WellDeclared

/-- Without loops every walk is simple. -/
theorem walk_nodup (hw : g.WellDeclared) (hp : g.Walk x p y) : p.Nodup := by
  induction hp with
  | single a => exact List.nodup_singleton a
  | @step a b c p hab hp ih =>
    refine List.nodup_cons.mpr ⟨fun ha => ?_, ih⟩
    exact hw.no_loop a (.head' hab (hp.reaches_of_mem ha).1)

/-- The declared dominator of a block but the start, by uid. -/
theorem dominator_spec (hw : g.WellDeclared) {b : Block} (hb : g.block? x = some b)
    (hx : x ≠ g.start) :
    b.dominator ≠ noDominator ∧ b.dominator ∈ g.blocks.map (·.uid) ∧
      g.StrictlyDominates b.dominator x ∧ g.Reaches g.start x := by
  obtain rfl := uid_of_block? hb
  have hmem := mem_of_block? hb
  have hreach := hw.reachable _ (List.mem_map_of_mem hmem)
  have hdom := hw.dominating b hmem hx
  exact ⟨hw.declared b hmem hx,
    hw.valid.known_of_reaches hw.start_known (hdom.2.reaches hreach).1, hdom, hreach⟩

/-- Every block on the chain of `x` is known, dominates `x` and can reach it. -/
theorem chain_spec (hw : g.WellDeclared) (hc : g.Chain x l) :
    ∀ y ∈ l, y ∈ g.blocks.map (·.uid) ∧ g.Dominates y x ∧ g.Reaches y x := by
  induction hc with
  | start =>
    intro y hy
    obtain rfl := List.mem_singleton.mp hy
    exact ⟨hw.start_known, fun p hp => hp.last_mem, .refl⟩
  | @up x b l hb hx hd hc ih =>
    intro y hy
    obtain ⟨-, -, hdom, hreach⟩ := hw.dominator_spec hb hx
    rcases List.mem_cons.mp hy with rfl | hy
    · exact ⟨known_of_block? hb, fun p hp => hp.last_mem, .refl⟩
    · obtain ⟨hyk, hyd, hyr⟩ := ih y hy
      exact ⟨hyk, hyd.trans hdom.2, hyr.trans (hdom.2.reaches hreach).2⟩

/-- A chain passes no block twice: it would close a loop. -/
theorem chain_nodup (hw : g.WellDeclared) (hc : g.Chain x l) : l.Nodup := by
  induction hc with
  | start => exact List.nodup_singleton _
  | @up x b l hb hx hd hc ih =>
    refine List.nodup_cons.mpr ⟨fun hmem => ?_, ih⟩
    obtain ⟨-, -, hdom, hreach⟩ := hw.dominator_spec hb hx
    have hup : g.Reaches x b.dominator := (hw.chain_spec hc x hmem).2.2
    have hdown : g.Reaches b.dominator x := (hdom.2.reaches hreach).2
    have hstep := (Relation.reflTransGen_iff_eq_or_transGen.mp hdown).resolve_left (Ne.symm hdom.1)
    exact hw.no_loop x (Relation.TransGen.trans_right hup hstep)

theorem chain_length_le (hw : g.WellDeclared) (hc : g.Chain x l) : l.length ≤ g.blocks.length := by
  have hsub : l ⊆ g.blocks.map (·.uid) := fun y hy => (hw.chain_spec hc y hy).1
  have hle := (List.subperm_of_subset (hw.chain_nodup hc) hsub).length_le
  rwa [List.length_map] at hle

/-- **Every block has a chain.** The induction is on the order of dominance, which is finite. -/
theorem exists_chain (hw : g.WellDeclared) (hx : x ∈ g.blocks.map (·.uid)) :
    ∃ l, g.Chain x l := by
  let before : {x // x ∈ g.blocks.map (·.uid)} → {x // x ∈ g.blocks.map (·.uid)} → Prop :=
    fun y x => Relation.TransGen g.Arc y x
  have : Finite {x // x ∈ g.blocks.map (·.uid)} := (List.finite_toSet _).to_subtype
  have : IsTrans _ before := ⟨fun _ _ _ h h' => Relation.TransGen.trans h h'⟩
  have : Std.Irrefl before := ⟨fun a h => hw.no_loop a h⟩
  have hwf : WellFounded before := Finite.wellFounded_of_trans_of_irrefl before
  have hchain : ∀ z : {x // x ∈ g.blocks.map (·.uid)}, ∃ l, g.Chain z l := by
    intro z
    induction z using hwf.induction with
    | _ z ih =>
      by_cases hz : (z : Int) = g.start
      · rw [hz]
        exact ⟨_, .start⟩
      · obtain ⟨b, hb⟩ := exists_block?_iff.mpr z.2
        obtain ⟨hd, hknown, hdom, hreach⟩ := hw.dominator_spec hb hz
        have hdown := Relation.reflTransGen_iff_eq_or_transGen.mp (hdom.2.reaches hreach).2
        obtain ⟨l, hl⟩ := ih ⟨_, hknown⟩ (hdown.resolve_left (Ne.symm hdom.1))
        exact ⟨_, .up hb hz hd hl⟩
  exact hchain ⟨x, hx⟩

/-- **The way back to a dominator is clear.** A block that gets to `dst` around `src` and to `src`
as well would lie on a loop with `src`, since it comes after `src` on a walk from the start. -/
theorem clear (hw : g.WellDeclared) (hdst : dst ∈ g.blocks.map (·.uid))
    (hdom : g.Dominates src dst) : g.Clear src dst := by
  intro x hx p hp
  refine ⟨fun hsrc => ?_, hw.walk_nodup hp⟩
  obtain ⟨q, hq, hqsrc⟩ := hx
  have hxk : x ∈ g.blocks.map (·.uid) := by
    cases hq with
    | single => exact hdst
    | step hab _ => exact (hw.valid.arc_known hab).1
  obtain ⟨r, hr⟩ := exists_walk_of_reaches (hw.reachable x hxk)
  obtain ⟨q, rfl⟩ := hq.exists_cons
  have hxsrc : x ≠ src := by
    rintro rfl
    exact hqsrc List.mem_cons_self
  have hsrcr : src ∈ r := by
    have hmem := hdom _ (hr.append hq)
    exact (List.mem_append.mp hmem).resolve_right fun h => hqsrc (List.mem_cons_of_mem _ h)
  have hdown : g.Reaches src x := (hr.reaches_of_mem hsrcr).2
  have hup : g.Reaches x src := (hp.reaches_of_mem hsrc).1
  have hstep := (Relation.reflTransGen_iff_eq_or_transGen.mp hdown).resolve_left hxsrc
  exact hw.no_loop src (hstep.trans_left hup)

/-- **Queries along a chain succeed.** -/
theorem exists_longestPath (hw : g.WellDeclared) (hc : g.Chain dst l) (hsrc : src ∈ l)
    (hne : src ≠ dst) : ∃ r, g.longestPath src dst = .ok r := by
  obtain ⟨hsrck, hdom, hreach⟩ := hw.chain_spec hc src hsrc
  have hdstk : dst ∈ g.blocks.map (·.uid) := hw.valid.known_of_reaches hsrck hreach
  have hcheck : g.checkDominates src dst = .ok () := by
    have hlen := hw.chain_length_le hc
    exact hc.climb_eq_ok hsrc (by omega)
  rw [hw.valid.longestPath_isOk_iff, hw.valid.connects_iff]
  exact ⟨hne, hsrck, hcheck, hw.clear hdstk hdom, hreach⟩

/-! ### Candidates -/

/-- The start is no candidate: a predecessor of it would lie on a loop. -/
theorem preds_start (hw : g.WellDeclared) : g.preds g.start = [] := by
  refine List.eq_nil_iff_forall_not_mem.mpr fun p hp => ?_
  have harc := mem_preds_iff.mp hp
  have hreach := hw.reachable p (hw.valid.arc_known harc).1
  exact hw.no_loop g.start (Relation.TransGen.tail' hreach harc)

theorem mem_dominatorCandidates (hw : g.WellDeclared) {id : CutId}
    (h : id ∈ g.dominatorCandidates) :
    ∃ b, g.block? id.tail = some b ∧ b.dominator = id.head ∧ id.tail ≠ g.start := by
  simp only [dominatorCandidates, sortedBlocks, List.mem_map, List.mem_filter,
    List.mem_filterMap, decide_eq_true_eq] at h
  obtain ⟨b, ⟨⟨u, -, hb⟩, hpreds⟩, rfl⟩ := h
  have hu := uid_of_block? hb
  refine ⟨b, by rw [hu, hb], rfl, fun hstart => ?_⟩
  simp only at hstart
  rw [hstart, hw.preds_start] at hpreds
  simp at hpreds

/-- Every dominator cut can be made. -/
theorem dominatorCandidate_longestPath (hw : g.WellDeclared) {id : CutId}
    (h : id ∈ g.dominatorCandidates) : ∃ r, g.longestPath id.head id.tail = .ok r := by
  obtain ⟨b, hb, hhead, hne⟩ := hw.mem_dominatorCandidates h
  obtain ⟨hd, hknown, hdom, -⟩ := hw.dominator_spec hb hne
  obtain ⟨l, hl⟩ := hw.exists_chain hknown
  obtain ⟨l', rfl⟩ := hl.exists_cons
  rw [← hhead]
  exact hw.exists_longestPath (.up hb hne hd hl) (List.mem_cons_of_mem _ List.mem_cons_self) hdom.1

/-- The merge points are the chain of the end. -/
theorem mergePoints_eq_ok (hw : g.WellDeclared) (hc : g.Chain g.stop l) :
    g.mergePoints = .ok l := by
  have hlen := hw.chain_length_le hc
  exact hc.mergePointsFrom_eq_ok (by omega)

end WellDeclared

/-! ### Recursive pairs -/

/-- A pair of points joins a point to a later one of the list. -/
theorem mem_pairsApart {stride : Nat} {last : Int} {bound : Nat} {points : List Int}
    (hlast : points.getLast? = some last) {id : CutId}
    (h : id ∈ pairsApart stride last bound points) :
    id.head ≠ id.tail ∧ ∃ l₁ l₂, points = l₁ ++ id.tail :: l₂ ∧ id.head ∈ l₂ := by
  have hpair : ∀ {head tail : Int}, id ∈ (if head = tail then [] else [(⟨head, tail⟩ : CutId)]) →
      head ≠ tail ∧ id = ⟨head, tail⟩ := by
    intro head tail hid
    split_ifs at hid with hne
    · simp at hid
    · exact ⟨hne, List.mem_singleton.mp hid⟩
  induction bound generalizing points with
  | zero => simp [pairsApart] at h
  | succ bound ih =>
    cases points with
    | nil => simp [pairsApart] at h
    | cons tail rest =>
      rw [pairsApart] at h
      simp only at h
      split at h
      · -- fewer points than the stride are left: the pair is closed on the last one
        obtain ⟨hne, rfl⟩ := hpair h
        refine ⟨hne, [], rest, rfl, ?_⟩
        have hmem := List.mem_of_getLast? hlast
        exact (List.mem_cons.mp hmem).resolve_left hne
      · rename_i head more hdrop
        rcases List.mem_append.mp h with h | h
        · obtain ⟨hne, rfl⟩ := hpair h
          refine ⟨hne, [], rest, rfl, ?_⟩
          have hmem : head ∈ (tail :: rest).drop stride := hdrop ▸ List.mem_cons_self
          exact (List.mem_cons.mp (List.mem_of_mem_drop hmem)).resolve_left hne
        · have hsplit := List.take_append_drop stride (tail :: rest)
          rw [hdrop] at hsplit
          have hlast' : (head :: more).getLast? = some last := by
            rw [← hlast, ← hsplit, List.getLast?_append_cons]
          obtain ⟨hne, l₁, l₂, hl, hmem⟩ := ih hlast' h
          refine ⟨hne, (tail :: rest).take stride ++ l₁, l₂, ?_, hmem⟩
          rw [List.append_assoc, ← hl, hsplit]

theorem mem_recursivePairs {points : List Int} {id : CutId} (h : id ∈ recursivePairs points) :
    id.head ≠ id.tail ∧ ∃ l₁ l₂, points = l₁ ++ id.tail :: l₂ ∧ id.head ∈ l₂ := by
  obtain ⟨stride, -, h⟩ := List.mem_flatMap.mp h
  rcases hlast : points.getLast? with _ | last
  · rw [List.getLast?_eq_none_iff] at hlast
    subst hlast
    simp [pairsApart] at h
  · rw [hlast] at h
    exact mem_pairsApart hlast h

/-- Every recursive cut can be made. -/
theorem WellDeclared.recursivePair_longestPath (hw : g.WellDeclared) (hc : g.Chain g.stop l)
    {id : CutId} (h : id ∈ recursivePairs l) : ∃ r, g.longestPath id.head id.tail = .ok r := by
  obtain ⟨hne, l₁, l₂, rfl, hmem⟩ := mem_recursivePairs h
  exact hw.exists_longestPath hc.of_append (List.mem_cons_of_mem _ hmem) hne

end Graph

end WorstCase
