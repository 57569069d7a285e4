import WorstCase.Health.Structure
import WorstCase.Proofs.Graph.Progress

/-!
# The structure of a graph is found as it is

What a health check computes about a graph without trusting its declarations means what it says:

* `Graph.Valid.mem_reachableFrom_iff`, `Graph.Valid.mem_reachableAvoiding_iff`: the blocks that can
  be reached, and those that can be reached around a block;
* `Graph.Valid.loops_eq_nil_iff`: no block is found on a loop iff no block lies on one;
* `Graph.Valid.immediateDominator?_eq_some_iff`: the **immediate dominator**, the strict dominator
  that all others dominate. Every reachable block but the start has one
  (`Graph.Valid.exists_immediateDominator`), because **the dominators of a reachable block are
  totally ordered by dominance** (`Graph.Dominates.total`).
-/

namespace WorstCase

namespace Graph

variable {g : Graph} {a b c d x y : Int} {p : List Int}

/-! ### Dominance is an order -/

theorem dominates_iff_not_reachesWithout : g.Dominates a b ↔ ¬ g.ReachesWithout a g.start b := by
  simp only [Dominates, ReachesWithout, not_exists, not_and, not_not]

theorem Dominates.trans (hab : g.Dominates a b) (hbc : g.Dominates b c) : g.Dominates a c := by
  intro p hp
  obtain ⟨p₁, p₂, rfl, h₁, -⟩ := hp.split (hbc p hp)
  rcases List.mem_append.mp (hab _ h₁) with ha | ha
  · exact List.mem_append_left _ ha
  · obtain rfl := List.mem_singleton.mp ha
    exact List.mem_append_right _ List.mem_cons_self

theorem Dominates.reaches (h : g.Dominates a b) (hb : g.Reaches g.start b) :
    g.Reaches g.start a ∧ g.Reaches a b := by
  obtain ⟨p, hp⟩ := exists_walk_of_reaches hb
  exact hp.reaches_of_mem (h p hp)

/-- Two blocks dominate each other only if they are the same: on a simple path each would come
before the other. -/
theorem Dominates.antisymm (hab : g.Dominates a b) (hba : g.Dominates b a)
    (ha : g.Reaches g.start a) : a = b := by
  by_contra hne
  obtain ⟨p, hp, hnd⟩ := exists_path_of_reaches ha
  obtain ⟨p₁, p₂, rfl, h₁, h₂⟩ := hp.split (hba p hp)
  have hmem : a ∈ p₁ := by
    simpa [hne] using hab _ h₁
  exact (List.nodup_append.mp hnd).2.2 a hmem a h₂.last_mem rfl

/-- What comes after a dominator of `x` on a simple path to `x` is dominated by it as well: a way
around it would go on to `x`. -/
theorem Dominates.of_path (hax : g.Dominates a x) (hp : g.Walk a (a :: p) x) (ha : a ∉ p)
    (hb : b ∈ p) : g.Dominates a b := by
  rw [dominates_iff_not_reachesWithout]
  rintro ⟨q, hq, haq⟩
  obtain ⟨p₁, p₂, heq, -, h₂⟩ := hp.split (List.mem_cons_of_mem _ hb)
  have ha₂ : a ∉ p₂ := by
    cases p₁ with
    | nil =>
      obtain ⟨rfl, rfl⟩ := List.cons.inj heq
      exact ha
    | cons y p₁ =>
      obtain ⟨rfl, rfl⟩ := List.cons.inj heq
      exact fun h => ha (List.mem_append_right _ (List.mem_cons_of_mem _ h))
  rcases List.mem_append.mp (hax _ (hq.append h₂)) with h | h
  · exact haq h
  · exact ha₂ h

/-- **Of two dominators of a reachable block one dominates the other**: the one that comes first on
a simple path. -/
theorem Dominates.total (ha : g.Dominates a x) (hb : g.Dominates b x)
    (hx : g.Reaches g.start x) : g.Dominates a b ∨ g.Dominates b a := by
  by_cases hne : a = b
  · subst hne
    exact .inl fun p hp => hp.last_mem
  obtain ⟨p, hp, hnd⟩ := exists_path_of_reaches hx
  obtain ⟨p₁, p₂, rfl, h₁, h₂⟩ := hp.split (ha p hp)
  obtain ⟨-, hnd₂, hdisj⟩ := List.nodup_append.mp hnd
  rcases List.mem_append.mp (hb _ hp) with hmem | hmem
  · -- `b` comes before `a`
    obtain ⟨q₁, q₂, heq, -, h₃⟩ := h₁.split (List.mem_append_left _ hmem)
    have haq : a ∈ q₂ := by
      simpa [hne] using h₃.last_mem
    have hlist : p₁ ++ a :: p₂ = q₁ ++ b :: (q₂ ++ p₂) := by
      rw [List.append_cons, heq]
      simp
    rw [hlist] at hnd
    have hbq : b ∉ q₂ ++ p₂ := (List.nodup_cons.mp (List.nodup_append.mp hnd).2.1).1
    exact .inr (hb.of_path (h₃.append h₂) hbq (List.mem_append_left _ haq))
  · have hmem : b ∈ p₂ := by
      simpa [Ne.symm hne] using hmem
    exact .inl (ha.of_path h₂ (List.nodup_cons.mp hnd₂).1 hmem)

/-! ### Reachable blocks -/

theorem Valid.succs_subset (hg : g.Valid) :
    ∀ v ∈ g.blocks.map (·.uid), g.succs v ⊆ g.blocks.map (·.uid) :=
  fun _ _ _ hs => (hg.arc_known (mem_succs_iff.mp hs)).2

theorem Valid.mem_reachableFrom_iff (hg : g.Valid) (ha : a ∈ g.blocks.map (·.uid)) :
    x ∈ g.reachableFrom a ↔ g.Reaches a x := by
  rw [reachableFrom, mem_closure_iff hg.succs_subset (by simp) ha]
  refine Iff.of_eq (congrArg (fun r => Relation.ReflTransGen r a x) ?_)
  funext y z
  exact propext mem_succs_iff

theorem Valid.mem_coreachableFrom_iff (hg : g.Valid) (ha : a ∈ g.blocks.map (·.uid)) :
    x ∈ g.coreachableFrom a ↔ g.Reaches x a :=
  hg.mem_reaching_iff ha

/-- Following arcs to other blocks than `d` is walking without `d`. -/
theorem reflTransGen_ne_iff (ha : a ≠ d) :
    Relation.ReflTransGen (fun v s => s ∈ (g.succs v).filter (· ≠ d)) a x ↔
      g.ReachesWithout d a x := by
  constructor
  · intro h
    induction h with
    | refl => exact ⟨[a], .single a, by simpa using ha.symm⟩
    | @tail y z _ hyz ih =>
      obtain ⟨p, hp, hd⟩ := ih
      rw [List.mem_filter, mem_succs_iff, decide_eq_true_eq] at hyz
      refine ⟨p ++ [z], hp.append (.step hyz.1 (.single z)), ?_⟩
      simpa [hd] using Ne.symm hyz.2
  · rintro ⟨p, hp, hd⟩
    induction hp with
    | single => exact .refl
    | @step a b c p hab hp ih =>
      rw [List.mem_cons, not_or] at hd
      have hb : b ≠ d := by
        rintro rfl
        exact hd.2 hp.head_mem
      refine .head ?_ (ih hb hd.2)
      rw [List.mem_filter, mem_succs_iff, decide_eq_true_eq]
      exact ⟨hab, hb⟩

theorem Valid.mem_reachableAvoiding_iff (hg : g.Valid) (hstart : g.start ∈ g.blocks.map (·.uid)) :
    x ∈ g.reachableAvoiding d ↔ g.ReachesWithout d g.start x := by
  unfold reachableAvoiding
  split_ifs with hd
  · -- no walk from the start leaves the start out
    subst hd
    simp only [List.not_mem_nil, false_iff]
    exact fun h => h.ne rfl
  · rw [← reflTransGen_ne_iff (Ne.symm hd)]
    refine mem_closure_iff (fun v hv s hs => ?_) (by simp) hstart
    exact hg.succs_subset v hv (List.mem_of_mem_filter hs)

/-! ### Loops -/

theorem mem_uids : x ∈ g.uids ↔ x ∈ g.blocks.map (·.uid) :=
  (sortBy_perm _ _).mem_iff

theorem Valid.mem_component_iff (hg : g.Valid) (ha : a ∈ g.blocks.map (·.uid)) :
    x ∈ g.component a ↔ g.Reaches a x ∧ g.Reaches x a := by
  simp only [component, List.mem_filter, mem_uids, Bool.and_eq_true, List.contains_eq_mem,
    decide_eq_true_eq, hg.mem_reachableFrom_iff ha, hg.mem_coreachableFrom_iff ha]
  exact ⟨fun h => h.2, fun h => ⟨hg.known_of_reaches ha h.1, h⟩⟩

theorem Valid.component_nodup (hg : g.Valid) : (g.component a).Nodup :=
  ((sortBy_perm _ _).nodup_iff.mpr hg.uids_nodup).filter _

/-- Blocks that reach each other have the same component. -/
theorem Valid.component_congr (hg : g.Valid) (ha : a ∈ g.blocks.map (·.uid))
    (hab : b ∈ g.component a) : g.component b = g.component a := by
  obtain ⟨h, h'⟩ := (hg.mem_component_iff ha).mp hab
  have hb := hg.known_of_reaches ha h
  refine List.filter_congr fun v _ => ?_
  rw [Bool.eq_iff_iff]
  simp only [Bool.and_eq_true, List.contains_eq_mem, decide_eq_true_eq,
    hg.mem_reachableFrom_iff ha, hg.mem_reachableFrom_iff hb, hg.mem_coreachableFrom_iff ha,
    hg.mem_coreachableFrom_iff hb]
  exact ⟨fun ⟨h₁, h₂⟩ => ⟨h.trans h₁, h₂.trans h'⟩, fun ⟨h₁, h₂⟩ => ⟨h'.trans h₁, h₂.trans h⟩⟩

theorem mem_loops {l : List Int} :
    l ∈ g.loops ↔ ∃ u s more, u ∈ g.uids ∧ g.component u = u :: s :: more ∧ l = u :: s :: more := by
  simp only [loops, List.mem_filterMap]
  constructor
  · rintro ⟨u, hu, h⟩
    split at h
    · rename_i first second more hcomp
      split_ifs at h with hfirst
      subst hfirst
      exact ⟨first, second, more, hu, hcomp, (Option.some_inj.mp h).symm⟩
    · simp at h
  · rintro ⟨u, s, more, hu, hcomp, rfl⟩
    exact ⟨u, hu, by simp [hcomp]⟩

theorem ne_nil_of_mem_loops {l : List Int} (hl : l ∈ g.loops) : l ≠ [] := by
  obtain ⟨u, s, more, -, -, rfl⟩ := mem_loops.mp hl
  exact List.cons_ne_nil _ _

/-- The blocks of a component of several blocks reach each other, and themselves. -/
theorem Valid.transGen_of_mem_loops (hg : g.Valid) {l : List Int} (hl : l ∈ g.loops) (hx : x ∈ l)
    (hy : y ∈ l) : Relation.TransGen g.Arc x y := by
  obtain ⟨u, s, more, hu, hcomp, rfl⟩ := mem_loops.mp hl
  have huk := mem_uids.mp hu
  have hne : u ≠ s := by
    have hnd : (u :: s :: more).Nodup := hcomp ▸ hg.component_nodup
    exact fun h => (List.nodup_cons.mp hnd).1 (h ▸ List.mem_cons_self)
  have hmem : ∀ {z}, z ∈ u :: s :: more → g.Reaches u z ∧ g.Reaches z u := fun hz =>
    (hg.mem_component_iff huk).mp (hcomp ▸ hz)
  -- once around through `s`
  obtain ⟨hus, hsu⟩ := hmem (List.mem_cons_of_mem _ List.mem_cons_self)
  have hround : Relation.TransGen g.Arc u u :=
    ((Relation.reflTransGen_iff_eq_or_transGen.mp hus).resolve_left hne.symm).trans_left hsu
  exact (hround.trans_right (hmem hx).2).trans_left (hmem hy).1

/-- Two different elements of a list without repetitions make it at least two long. -/
theorem exists_cons_cons_of_mem {α : Type} {l : List α} {x y : α} (hx : x ∈ l) (hy : y ∈ l)
    (hne : x ≠ y) : ∃ first second more, l = first :: second :: more := by
  match l, hx, hy with
  | [z], hx, hy =>
    exact absurd ((List.mem_singleton.mp hx).trans (List.mem_singleton.mp hy).symm) hne
  | first :: second :: more, _, _ => exact ⟨first, second, more, rfl⟩

/-- **No loop is found iff there is none**, where no block is its own successor. -/
theorem Valid.loops_eq_nil_iff (hg : g.Valid) (hself : ∀ x, ¬ g.Arc x x) :
    g.loops = [] ↔ ∀ x, ¬ g.OnLoop x := by
  constructor
  · rintro hloops x hx
    obtain ⟨y, hxy, hyx⟩ := Relation.TransGen.head'_iff.mp hx
    obtain ⟨hxk, hyk⟩ := hg.arc_known hxy
    have hne : x ≠ y := by
      rintro rfl
      exact hself x hxy
    -- the first block of the component of `x` has the same component
    have hxc : x ∈ g.component x := (hg.mem_component_iff hxk).mpr ⟨.refl, .refl⟩
    have hyc : y ∈ g.component x := (hg.mem_component_iff hxk).mpr ⟨.single hxy, hyx⟩
    obtain ⟨u, s, more, hcomp⟩ := exists_cons_cons_of_mem hxc hyc hne
    have huc : u ∈ g.component x := hcomp ▸ List.mem_cons_self
    have hu := hg.known_of_reaches hxk ((hg.mem_component_iff hxk).mp huc).1
    have hcomp' := (hg.component_congr hxk huc).trans hcomp
    have hmem := mem_loops.mpr ⟨u, s, more, mem_uids.mpr hu, hcomp', rfl⟩
    exact List.not_mem_nil (hloops ▸ hmem)
  · intro hnone
    refine List.eq_nil_iff_forall_not_mem.mpr fun l hl => ?_
    obtain ⟨x, hx⟩ := List.exists_mem_of_ne_nil l (ne_nil_of_mem_loops hl)
    exact hnone x (hg.transGen_of_mem_loops hl hx hx)

/-! ### Dominators -/

/-- A block strictly dominates another if it is a different block and dominates it. -/
def StrictlyDominates (g : Graph) (d x : Int) : Prop :=
  d ≠ x ∧ g.Dominates d x

theorem Valid.mem_detoursPast_iff (hg : g.Valid) (hstart : g.start ∈ g.blocks.map (·.uid))
    {others : List Int} :
    (d, others) ∈ detoursPast g.detours x ↔
      g.Reaches g.start d ∧ others = g.reachableAvoiding d ∧ g.StrictlyDominates d x := by
  simp only [detoursPast, detours, List.mem_filter, List.mem_map, Prod.mk.injEq,
    hg.mem_reachableFrom_iff hstart, Bool.and_eq_true, decide_eq_true_eq, Bool.not_eq_true',
    List.contains_eq_mem, decide_eq_false_iff_not, StrictlyDominates,
    dominates_iff_not_reachesWithout]
  constructor
  · rintro ⟨⟨u, hu, rfl, rfl⟩, hne, hnot⟩
    exact ⟨hu, rfl, hne, (hg.mem_reachableAvoiding_iff hstart).not.mp hnot⟩
  · rintro ⟨hd, rfl, hne, hnot⟩
    exact ⟨⟨d, hd, rfl, rfl⟩, hne, (hg.mem_reachableAvoiding_iff hstart).not.mpr hnot⟩

/-- The immediate dominator of a block strictly dominates it and is dominated by all others that
do. -/
def ImmediatelyDominates (g : Graph) (d x : Int) : Prop :=
  g.StrictlyDominates d x ∧ ∀ a, g.StrictlyDominates a x → g.Dominates a d

/-- A reachable block has one immediate dominator at most. -/
theorem ImmediatelyDominates.unique (h : g.ImmediatelyDominates c x)
    (h' : g.ImmediatelyDominates d x) (hx : g.Reaches g.start x) : c = d :=
  (h'.2 c h.1).antisymm (h.2 d h'.1) (h.1.2.reaches hx).1

/-- The start has no strict dominator, because the way to it needs no other block. -/
theorem not_strictlyDominates_start : ¬ g.StrictlyDominates d g.start := fun h =>
  h.1 (List.mem_singleton.mp (h.2 _ (.single _)))

/-- The strict dominators of a block are those of its immediate dominator, and that one. -/
theorem ImmediatelyDominates.strictlyDominates_iff (h : g.ImmediatelyDominates d x)
    (hx : g.Reaches g.start x) : g.StrictlyDominates a x ↔ a = d ∨ g.StrictlyDominates a d := by
  constructor
  · intro ha
    by_cases had : a = d
    · exact .inl had
    · exact .inr ⟨had, h.2 a ha⟩
  · rintro (rfl | ha)
    · exact h.1
    · refine ⟨?_, ha.2.trans h.1.2⟩
      rintro rfl
      exact ha.1 (ha.2.antisymm h.1.2 hx)

/-- The immediate dominator strictly dominates, and all other strict dominators dominate it. -/
theorem Valid.immediateDominator?_eq_some (hg : g.Valid)
    (hstart : g.start ∈ g.blocks.map (·.uid)) (hx : g.Reaches g.start x)
    (h : immediateDominator? g.detours x = some d) : g.ImmediatelyDominates d x := by
  simp only [immediateDominator?, Option.map_eq_some_iff, Prod.exists, exists_and_right,
    exists_eq_right] at h
  obtain ⟨others, hfind⟩ := h
  have hmem := List.mem_reverse.mp (List.mem_of_find?_eq_some hfind)
  obtain ⟨-, -, hd⟩ := (hg.mem_detoursPast_iff hstart).mp hmem
  refine ⟨hd, fun a ha => ?_⟩
  have hall := List.find?_some hfind
  rw [List.all_eq_true] at hall
  have hamem : (a, g.reachableAvoiding a) ∈ detoursPast g.detours x :=
    (hg.mem_detoursPast_iff hstart).mpr ⟨(ha.2.reaches hx).1, rfl, ha⟩
  have hcase := hall _ hamem
  simp only [Bool.or_eq_true, decide_eq_true_eq, Bool.not_eq_true', List.contains_eq_mem,
    decide_eq_false_iff_not, hg.mem_reachableAvoiding_iff hstart,
    ← dominates_iff_not_reachesWithout] at hcase
  rcases hcase with rfl | hdom
  · exact fun p hp => hp.last_mem
  · exact hdom

/-- **Every reachable block but the start has an immediate dominator**: of its strict dominators,
among which is the start, one is dominated by all others. -/
theorem Valid.exists_immediateDominator (hg : g.Valid)
    (hstart : g.start ∈ g.blocks.map (·.uid)) (hx : g.Reaches g.start x) (hne : x ≠ g.start) :
    ∃ d, immediateDominator? g.detours x = some d := by
  let strict : List Int := (detoursPast g.detours x).map (·.1)
  have hmem : ∀ {d}, d ∈ strict ↔ g.StrictlyDominates d x := by
    simp only [strict, List.mem_map, Prod.exists, hg.mem_detoursPast_iff hstart]
    intro d
    constructor
    · rintro ⟨u, others, ⟨-, -, h⟩, rfl⟩
      exact h
    · exact fun h => ⟨d, _, ⟨(h.2.reaches hx).1, rfl, h⟩, rfl⟩
  have hnil : strict ≠ [] := List.ne_nil_of_mem (hmem.mpr ⟨hne.symm, fun p hp => hp.head_mem⟩)
  -- strict dominance between strict dominators of `x` runs in no circle
  let below : Int → Int → Prop := fun a b =>
    g.Reaches g.start a ∧ a ≠ b ∧ g.Dominates a b ∧ g.Reaches g.start b
  have hbelow : ∀ {a b}, Relation.TransGen below a b → below a b := by
    intro a b h
    induction h with
    | single h => exact h
    | @tail b c _ hbc ih =>
      obtain ⟨ha, hab, hdom, hb⟩ := ih
      obtain ⟨-, hbc, hdom', hc⟩ := hbc
      refine ⟨ha, ?_, hdom.trans hdom', hc⟩
      rintro rfl
      exact hab (hdom.antisymm hdom' ha)
  obtain ⟨d, hd, hlast⟩ :=
    exists_last_of_no_loop hnil fun a _ h => (hbelow h).2.1 rfl
  have hdx := hmem.mp hd
  have hdr := (hdx.2.reaches hx).1
  rw [← Option.isSome_iff_exists, immediateDominator?, Option.isSome_map, List.find?_isSome]
  refine ⟨(d, g.reachableAvoiding d), List.mem_reverse.mpr
    ((hg.mem_detoursPast_iff hstart).mpr ⟨hdr, rfl, hdx⟩), ?_⟩
  rw [List.all_eq_true]
  rintro ⟨a, others⟩ ha
  obtain ⟨har, rfl, hax⟩ := (hg.mem_detoursPast_iff hstart).mp ha
  simp only [Bool.or_eq_true, decide_eq_true_eq, Bool.not_eq_true', List.contains_eq_mem,
    decide_eq_false_iff_not, hg.mem_reachableAvoiding_iff hstart,
    ← dominates_iff_not_reachesWithout]
  by_cases had : a = d
  · exact .inl had
  · refine .inr ((hax.2.total hdx.2 hx).resolve_right fun hda => ?_)
    exact hlast a (hmem.mpr hax) (.single ⟨hdr, Ne.symm had, hda, har⟩)

/-- The immediate dominator of a reachable block is found. -/
theorem Valid.immediateDominator?_eq_some_iff (hg : g.Valid)
    (hstart : g.start ∈ g.blocks.map (·.uid)) (hx : g.Reaches g.start x) (hne : x ≠ g.start) :
    immediateDominator? g.detours x = some d ↔ g.ImmediatelyDominates d x := by
  obtain ⟨d₀, hd₀⟩ := hg.exists_immediateDominator hstart hx hne
  have himmediate : g.ImmediatelyDominates d₀ x := hg.immediateDominator?_eq_some hstart hx hd₀
  rw [hd₀, Option.some_inj]
  constructor
  · rintro rfl
    exact himmediate
  · exact fun h => himmediate.unique h hx

end Graph

end WorstCase
