import WorstCase.Proofs.Graph.PathCount
import WorstCase.Proofs.Graph.Progress
import WorstCase.Proofs.Graph.Worklist
import Mathlib.Data.Set.Card

/-!
# The verdict of a query

A query looks at the blocks that reach `dst` without `src`, its **region**. It has an answer
(`Graph.Answerable`) iff `src` and `dst` are different blocks, `src` is on the declared chain of
`dst`, the region has no loop in itself and no edge out of it that leads back to `dst`, and `src`
has an edge into it.

* The chain may be cyclic. It is followed for as many steps as there are blocks, which suffices:
  the way up to `src` passes no block twice, since it would never get to `src` otherwise
  (`Graph.Ladder.nodup`, `Graph.checkDominates_eq_ok_iff`).
* `Graph.Valid.answerable_iff` and `Graph.Valid.connects_iff` say the same of two forms of the
  conditions.
* `Graph.query_verdict` collects what is known of both queries: the worklist comes to an end, they
  succeed on what is answerable, and of the violations that the code can report only those of the
  conditions ever come up.
* `Graph.countPaths_exact`: the number of paths is what it should be, and never 0.
-/

namespace WorstCase

namespace Graph

variable {g : Graph} {src dst x y : Int}

/-! ### Declared chains -/

/-- `y` is the declared dominator of the block `x`. -/
def Declares (g : Graph) (x y : Int) : Prop :=
  ∃ b, g.block? x = some b ∧ b.dominator ≠ noDominator ∧ b.dominator = y

/-- `y` is on the chain of declared dominators of `x`. -/
abbrev OnChain (g : Graph) (x y : Int) : Prop :=
  Relation.ReflTransGen g.Declares x y

theorem Declares.unique {z : Int} (h : g.Declares x y) (h' : g.Declares x z) : y = z := by
  obtain ⟨b, hb, -, rfl⟩ := h
  obtain ⟨b', hb', -, rfl⟩ := h'
  rw [Option.some_inj.mp (hb.symm.trans hb')]

/-- The blocks that are passed on the way from `x` up to `src`. -/
inductive Ladder (g : Graph) (src : Int) : Int → List Int → Prop
  | top : Ladder g src src []
  | up {x y : Int} {l : List Int} (hx : x ≠ src) (hxy : g.Declares x y) (h : Ladder g src y l) :
      Ladder g src x (x :: l)

namespace Ladder

variable {l l' : List Int}

theorem unique (h : Ladder g src x l) (h' : Ladder g src x l') : l = l' := by
  induction h generalizing l' with
  | top =>
    cases h' with
    | top => rfl
    | up hx _ _ => exact absurd rfl hx
  | up hx hxy _ ih =>
    cases h' with
    | top => exact absurd rfl hx
    | up _ hxz h' =>
      obtain rfl := hxy.unique hxz
      rw [ih h']

/-- What is left of the way at a block that is passed. -/
theorem suffix (h : Ladder g src x l) (hy : y ∈ l) : ∃ l₁ l₂, l = l₁ ++ l₂ ∧ Ladder g src y l₂ := by
  induction h with
  | top => exact absurd hy List.not_mem_nil
  | @up x z l hx hxz h ih =>
    rcases List.mem_cons.mp hy with rfl | hy
    · exact ⟨[], _, rfl, .up hx hxz h⟩
    · obtain ⟨l₁, l₂, rfl, h₂⟩ := ih hy
      exact ⟨x :: l₁, l₂, rfl, h₂⟩

/-- **The way up passes no block twice**: it would be as long as a part of itself. -/
theorem nodup (h : Ladder g src x l) : l.Nodup := by
  induction h with
  | top => exact List.nodup_nil
  | @up x y l hx hxy h ih =>
    refine List.nodup_cons.mpr ⟨fun hmem => ?_, ih⟩
    obtain ⟨l₁, l₂, rfl, h₂⟩ := h.suffix hmem
    have hlen := congrArg List.length (h₂.unique (.up hx hxy h))
    simp only [List.length_cons, List.length_append] at hlen
    omega

theorem subset (h : Ladder g src x l) : l ⊆ g.blocks.map (·.uid) := by
  induction h with
  | top => exact List.nil_subset _
  | up _ hxy _ ih =>
    obtain ⟨b, hb, -⟩ := hxy
    exact List.cons_subset.mpr ⟨known_of_block? hb, ih⟩

theorem climb_eq_ok (h : Ladder g src x l) {bound : Nat} (hbound : l.length < bound) :
    g.climb src dst bound x = .ok () := by
  induction h generalizing bound with
  | top =>
    obtain ⟨bound, rfl⟩ := Nat.exists_eq_add_of_lt hbound
    rw [climb, if_pos rfl]
  | @up x y l hx hxy h ih =>
    obtain ⟨b, hb, hd, rfl⟩ := hxy
    rw [List.length_cons] at hbound
    obtain ⟨bound, rfl⟩ : ∃ n, bound = n + 1 := ⟨bound - 1, by omega⟩
    rw [climb, if_neg hx, hb]
    simp only [if_neg hd]
    exact ih (by omega)

end Ladder

theorem exists_ladder (h : g.OnChain x src) : ∃ l, Ladder g src x l := by
  induction h using Relation.ReflTransGen.head_induction_on with
  | refl => exact ⟨[], .top⟩
  | @head x y hxy _ ih =>
    by_cases hx : x = src
    · exact ⟨[], hx ▸ .top⟩
    · obtain ⟨l, hl⟩ := ih
      exact ⟨x :: l, .up hx hxy hl⟩

theorem onChain_of_climb {bound : Nat} (h : g.climb src dst bound x = .ok ()) :
    g.OnChain x src := by
  induction bound generalizing x with
  | zero => simp [climb] at h
  | succ bound ih =>
    rw [climb] at h
    split at h
    · rename_i hx
      exact hx ▸ .refl
    · split at h
      · simp at h
      · rename_i b hb
        split at h
        · simp at h
        · rename_i hd
          exact .head ⟨b, hb, hd, rfl⟩ (ih h)

/-- **The chain of declared dominators is searched completely**, cyclic chains included. -/
theorem checkDominates_eq_ok_iff : g.checkDominates src dst = .ok () ↔ g.OnChain dst src := by
  refine ⟨onChain_of_climb, fun h => ?_⟩
  obtain ⟨l, hl⟩ := exists_ladder h
  refine hl.climb_eq_ok (Nat.lt_succ_of_le ?_)
  have hle := (List.subperm_of_subset hl.nodup hl.subset).length_le
  rwa [List.length_map] at hle

theorem climb_eq_error {bound : Nat} {v : Violation} (h : g.climb src dst bound x = .error v) :
    v = .notDominating src dst ∨ v = .cyclicChain dst := by
  induction bound generalizing x with
  | zero =>
    obtain rfl := Except.error.inj h
    exact .inr rfl
  | succ bound ih =>
    rw [climb] at h
    split at h
    · simp at h
    · split at h
      · exact .inl (Except.error.inj h).symm
      · split at h
        · exact .inl (Except.error.inj h).symm
        · exact ih h

/-! ### Answerable queries -/

/-- An edge between two blocks that reach `dst` without `src`. -/
def InnerArc (g : Graph) (src dst x y : Int) : Prop :=
  g.ReachesWithout src x dst ∧ g.ReachesWithout src y dst ∧ g.Arc x y

/-- A query from `src` to `dst` has an answer. -/
structure Answerable (g : Graph) (src dst : Int) : Prop where
  ne : src ≠ dst
  src_known : src ∈ g.blocks.map (·.uid)
  dst_known : dst ∈ g.blocks.map (·.uid)
  onChain : g.OnChain dst src
  acyclic : ∀ x, ¬ Relation.TransGen (g.InnerArc src dst) x x
  closed : ∀ x y, g.ReachesWithout src x dst → g.Arc x y → ¬ g.ReachesWithout src y dst →
    ¬ g.Reaches y dst
  entered : ∃ n, g.ReachesWithout src n dst ∧ g.Arc src n

/-- Where no edge leads out of the region and back to `dst`, walks stay in it. -/
theorem reachesWithout_of_walk {p : List Int}
    (hclosed : ∀ x y, g.ReachesWithout src x dst → g.Arc x y → ¬ g.ReachesWithout src y dst →
      ¬ g.Reaches y dst)
    (hx : g.ReachesWithout src x dst) (hp : g.Walk x p dst) :
    ∀ y ∈ p, g.ReachesWithout src y dst ∧ Relation.ReflTransGen (g.InnerArc src dst) x y := by
  induction hp with
  | single a =>
    intro y hy
    obtain rfl := List.mem_singleton.mp hy
    exact ⟨hx, .refl⟩
  | @step a b c p hab hp ih =>
    have hb : g.ReachesWithout src b c := by
      by_contra hb
      exact hclosed a b hx hab hb hp.reaches
    intro y hy
    rcases List.mem_cons.mp hy with rfl | hy
    · exact ⟨hx, .refl⟩
    · obtain ⟨hy, hby⟩ := ih hclosed hb y hy
      exact ⟨hy, .head ⟨hx, hb, hab⟩ hby⟩

theorem Answerable.clear (h : g.Answerable src dst) : g.Clear src dst := by
  intro x hx p hp
  refine ⟨fun hsrc => (reachesWithout_of_walk h.closed hx hp src hsrc).1.ne rfl, ?_⟩
  induction hp with
  | single a => exact List.nodup_singleton a
  | @step a b c p hab hp ih =>
    have hb : g.ReachesWithout src b c :=
      (reachesWithout_of_walk h.closed hx (.step hab hp) b
        (List.mem_cons_of_mem _ hp.head_mem)).1
    refine List.nodup_cons.mpr ⟨fun ha => ?_, ih h hb⟩
    exact h.acyclic a (.head' ⟨hx, hb, hab⟩ (reachesWithout_of_walk h.closed hb hp a ha).2)

/-- **The conditions in terms of the region** are those under which queries succeed. -/
theorem Valid.answerable_iff (hg : g.Valid) : g.Answerable src dst ↔ g.Connects src dst := by
  rw [hg.connects_iff, checkDominates_eq_ok_iff]
  constructor
  · intro h
    obtain ⟨n, ⟨p, hp, -⟩, harc⟩ := h.entered
    exact ⟨h.ne, h.src_known, h.onChain, h.clear, .head harc hp.reaches⟩
  · rintro ⟨hne, hsrc, hchain, hclear, hreach⟩
    refine ⟨hne, hsrc, hg.known_of_reaches hsrc hreach, hchain, fun x hloop => ?_, ?_, ?_⟩
    · obtain ⟨y, hxy, -⟩ := Relation.TransGen.head'_iff.mp hloop
      exact hclear.not_onLoop hxy.1 (hloop.lift id fun _ _ h => h.2.2)
    · -- beyond the region every walk to `dst` meets `src`
      intro x y hx harc hy hyd
      obtain ⟨p, hp⟩ := exists_walk_of_reaches hyd
      refine hy ⟨p, hp, fun hmem => ?_⟩
      exact (hclear x hx _ (.step harc hp)).1 (List.mem_cons_of_mem _ hmem)
    · obtain ⟨p, hp, hnd⟩ := exists_path_of_reaches hreach
      cases hp with
      | single => exact absurd rfl hne
      | @step _ n _ p harc hp => exact ⟨n, ⟨p, hp, (List.nodup_cons.mp hnd).1⟩, harc⟩

/-! ### Violations -/

/-- The violations that a query can report, one for each condition. -/
def possibleViolations (src dst : Int) : List Violation :=
  [.sameEndpoints src, .unknownBlock src, .unknownBlock dst, .notDominating src dst,
    .cyclicChain dst, .noReadyBlock src dst, .notReaching src dst]

/-- A search among known blocks that have not been visited reports nothing. -/
theorem firstReady_ne_error {reaching visited worklist : List Int} {v : Violation}
    (hnew : ∀ x ∈ worklist, x ∉ visited ∧ x ∈ g.blocks.map (·.uid)) :
    g.firstReady reaching visited worklist ≠ .error v := by
  induction worklist with
  | nil => simp [firstReady]
  | cons x worklist ih =>
    obtain ⟨hx, hknown⟩ := hnew x List.mem_cons_self
    rw [firstReady_cons hx hknown]
    split_ifs
    · simp
    · exact ih fun y hy => hnew y (List.mem_cons_of_mem _ hy)

/-- **The rounds of a sweep report nothing but that no block is ready.** -/
theorem Sweeping.sweepFrom_eq_error (hg : g.Valid) (hdst : dst ∈ g.blocks.map (·.uid))
    {rounds : Nat} : ∀ {worklist visited : List Int} {v : Violation},
      Sweeping g src dst worklist visited → worklist ⊆ g.blocks.map (·.uid) →
      g.sweepFrom src dst (g.reaching dst) rounds worklist visited = .error v →
      v = .noReadyBlock src dst := by
  induction rounds with
  | zero =>
    intro worklist visited v hs hknown h
    cases worklist with
    | nil => simp [sweepFrom] at h
    | cons x worklist => exact (Except.error.inj h).symm
  | succ rounds ih =>
    intro worklist visited v hs hknown h
    by_cases hw : worklist = []
    · subst hw
      simp [sweepFrom] at h
    rcases hf : g.firstReady (g.reaching dst) visited worklist with e | ⟨_ | uid⟩
    · exact absurd hf (firstReady_ne_error fun x hx => ⟨(hs.fresh x hx).1, hknown hx⟩)
    · rw [sweepFrom.eq_3 _ _ _ _ _ _ _ hw, hf] at h
      exact (throw_eq_error_iff.mp h).symm
    · obtain ⟨huid, -, hready⟩ := firstReady_eq_some hf
      rw [hg.sweepFrom_of_firstReady hf, map_eq_error_iff] at h
      refine ih (hs.visit hg huid ((hg.isReady_iff hdst).mp hready)) (fun x hx => ?_) h
      rcases (mem_requeue hs.nodup).mp hx with ⟨-, hx⟩ | ⟨harc, -⟩
      · exact hknown hx
      · exact (hg.arc_known harc).1

theorem blockOrFail_eq_error {v : Violation} (h : g.blockOrFail x = .error v) :
    v = .unknownBlock x := by
  unfold blockOrFail at h
  split at h
  · simp at h
  · exact (Except.error.inj h).symm

theorem Valid.sweep_eq_error (hg : g.Valid) {v : Violation} (h : g.sweep src dst = .error v) :
    v ∈ possibleViolations src dst := by
  obtain ⟨-, rfl⟩ | ⟨hne, h⟩ := ite_throw_bind_eq_error_iff.mp h
  · simp [possibleViolations]
  obtain he | ⟨_, -, h⟩ := bind_eq_error_iff.mp h
  · simp [possibleViolations, blockOrFail_eq_error he]
  obtain he | ⟨_, hdom, h⟩ := bind_eq_error_iff.mp h
  · rcases climb_eq_error he with rfl | rfl <;> simp [possibleViolations]
  have hdst := dst_known_of_checkDominates hne hdom
  have hready := (sweeping_init hne).sweepFrom_eq_error hg hdst (by simpa using hdst) h
  simp [possibleViolations, hready]

theorem Valid.countPaths_eq_error (hg : g.Valid) {v : Violation}
    (h : g.countPaths src dst = .error v) : v ∈ possibleViolations src dst := by
  obtain he | ⟨_, -, h⟩ := bind_eq_error_iff.mp h
  · exact hg.sweep_eq_error he
  split at h
  · obtain rfl := throw_eq_error_iff.mp h
    simp [possibleViolations]
  · exact absurd h pure_ne_error

/-- Once a sweep has gone through, all that can be wrong is that `src` does not reach `dst`. -/
theorem Valid.longestPath_eq_error (hg : g.Valid) {v : Violation}
    (h : g.longestPath src dst = .error v) : v ∈ possibleViolations src dst := by
  have hnone : ∀ r, g.longestPath src dst ≠ .ok r := by simp [h]
  obtain he | ⟨last, hlast, h⟩ := bind_eq_error_iff.mp h
  · simp [possibleViolations, blockOrFail_eq_error he]
  obtain he | ⟨visits, hv, h⟩ := bind_eq_error_iff.mp h
  · exact hg.sweep_eq_error he
  dsimp only at h
  split at h
  · obtain rfl := throw_eq_error_iff.mp h
    simp [possibleViolations]
  rename_i o hsrc
  -- an outlook of `src` comes from an edge into what was visited
  have hk := (hg.swept hv).outlooking hg (blockOrFail_eq_ok.mp hlast)
  obtain ⟨n, _, e, _, hn, -, he, -⟩ := hk.link src o (sweep_eq_ok hv).1 hsrc
  obtain ⟨r, hr⟩ := hg.longestPath_of_connects
    ⟨visits, hv, n, List.mem_reverse.mp hn, arc_of_edge? he⟩
  exact absurd hr (hnone r)

/-! ### The verdict -/

/-- **Queries come to an end and succeed when they should.** On every graph the turns of a worklist
stop; they stop with what the sweep returns. Both queries succeed iff the query is answerable.
Otherwise they report one of the conditions; that an edge is missing, a path is broken or a loop
was met again is never reported. -/
theorem query_verdict {g : Graph} (hg : g.Built) (src dst : Int) :
    (WellFounded fun w' w : Worklist => w.Turns g src dst w') ∧
      (src ≠ dst → dst ∈ g.blocks.map (·.uid) →
        (∀ n, closure g.preds (g.blocks.length + 1 + n) dst = g.reaching dst) ∧
        ∃ w, Worklist.Leads g src dst (Worklist.first dst) w ∧
          w.turn g src dst =
            .inl (g.sweepFrom src dst (g.reaching dst) g.blocks.length [dst] [])) ∧
      ((∃ r, g.longestPath src dst = .ok r) ↔ g.Answerable src dst) ∧
      ((∃ n, g.countPaths src dst = .ok n) ↔ g.Answerable src dst) ∧
      ∀ v, g.longestPath src dst = .error v ∨ g.countPaths src dst = .error v →
        v ∈ possibleViolations src dst := by
  have hv := hg.valid
  refine ⟨Worklist.turn_wellFounded g src dst, fun hne hdst => ⟨?_, hv.sweepFrom_turns hne hdst⟩,
    hv.longestPath_isOk_iff.trans hv.answerable_iff.symm,
    hv.countPaths_isOk_iff.trans hv.answerable_iff.symm, fun v h => ?_⟩
  · exact hv.closure_preds hdst
  · exact h.elim hv.longestPath_eq_error hv.countPaths_eq_error

/-- Block 2 leads on to block 3 and back to block 1. The way back is not in the region of a query
from block 2, and it is in that of one from block 0. -/
theorem query_verdict_looped :
    looped.Answerable 2 3 ∧ ¬ looped.Answerable 0 3 ∧
      looped.longestPath 0 3 = .error (.noReadyBlock 0 3) ∧
      .noReadyBlock 0 3 ∈ possibleViolations 0 3 := by
  obtain ⟨-, -, hiff, -⟩ := query_verdict looped_built 2 3
  obtain ⟨-, -, hiff', -, herror⟩ := query_verdict looped_built 0 3
  have hanswer : looped.longestPath 2 3 = .ok ⟨7, [2, 3], [2, 3], [⟨2, 3⟩]⟩ := by decide
  have hfail : looped.longestPath 0 3 = .error (.noReadyBlock 0 3) := by decide
  refine ⟨hiff.mp ⟨_, hanswer⟩, fun h => ?_, hfail, herror _ (.inl hfail)⟩
  obtain ⟨r, hr⟩ := hiff'.mpr h
  rw [hfail] at hr
  simp at hr

/-! ### Counts -/

/-- **Path counts are exact**: the number of simple paths from `src` to `dst`, and there is one. -/
theorem countPaths_exact {g : Graph} (hg : g.Built) {src dst : Int} {n : Nat}
    (h : g.countPaths src dst = .ok n) :
    (∃ l, Enumerates l (fun p => g.Walk src p dst ∧ p.Nodup) ∧ l.length = n) ∧
      Set.ncard {p | g.Walk src p dst ∧ p.Nodup} = n ∧ 1 ≤ n := by
  obtain ⟨l, hl, hn⟩ := hg.valid.countPaths_enumerates h
  have hconn := hg.valid.countPaths_isOk_iff.mp ⟨n, h⟩
  obtain ⟨p, hp⟩ := exists_path_of_reaches (hg.valid.connects_iff.mp hconn).2.2.2.2
  refine ⟨⟨l, hl, hn⟩, ?_, ?_⟩
  · have hset : {p | g.Walk src p dst ∧ p.Nodup} = ↑l.toFinset := by
      ext p
      simp [hl.mem_iff]
    rw [hset, Set.ncard_coe_finset, List.toFinset_card_of_nodup hl.nodup, hn]
  · rw [← hn]
    exact List.length_pos_of_mem ((hl.mem_iff p).mpr hp)

theorem countPaths_exact_forked :
    forked.countPaths 1 4 = .ok 2 ∧
      Set.ncard {p | forked.Walk 1 p 4 ∧ p.Nodup} = 2 := by
  have hcount : forked.countPaths 1 4 = .ok 2 := by decide
  exact ⟨hcount, (countPaths_exact forked_built hcount).2.1⟩

end Graph

end WorstCase
