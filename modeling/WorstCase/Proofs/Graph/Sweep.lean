import WorstCase.Proofs.Graph.Closure

/-!
# What a sweep goes through

`Graph.Settled g src dst visited` says that `visited`, last visit first, is a possible history of
a sweep: every block was visited once, is not `src`, reaches `dst`, and was visited when all of
its successors that reach `dst` had been visited before. It follows that a walk from a visited
block to `dst` stays among visited blocks and meets none of them twice
(`Graph.Settled.walk_mem`, `Graph.Settled.walk_nodup`), however the graph loops elsewhere.

`Graph.Swept` collects what a successful sweep guarantees. Besides a settled history it says that
`dst` was visited, that the visited blocks and `src` hold all predecessors of visited blocks, and
that the steps are the edges into the visited blocks, block by block. `Graph.Valid.swept` proves it
of every sweep that succeeds: each round keeps the invariant `Graph.Sweeping` of the worklist.
-/

namespace WorstCase

namespace Graph

variable {g : Graph} {src dst : Int}

/-! ### Settled histories -/

/-- A possible history of a sweep, last visit first. -/
inductive Settled (g : Graph) (src dst : Int) : List Int → Prop
  | nil : Settled g src dst []
  | visit {x : Int} {visited : List Int} (hv : Settled g src dst visited) (hnew : x ∉ visited)
      (hsrc : x ≠ src) (hreach : g.Reaches x dst)
      (hready : ∀ s, g.Arc x s → g.Reaches s dst → s ∈ visited) :
      Settled g src dst (x :: visited)

namespace Settled

variable {visited : List Int} {a x : Int} {p : List Int}

theorem nodup (h : Settled g src dst visited) : visited.Nodup := by
  induction h with
  | nil => exact List.nodup_nil
  | visit _ hnew _ _ _ ih => exact List.nodup_cons.mpr ⟨hnew, ih⟩

theorem src_notMem (h : Settled g src dst visited) : src ∉ visited := by
  induction h with
  | nil => exact List.not_mem_nil
  | visit _ _ hsrc _ _ ih => exact List.not_mem_cons_of_ne_of_not_mem hsrc.symm ih

theorem reaches (h : Settled g src dst visited) (hx : x ∈ visited) : g.Reaches x dst := by
  induction h with
  | nil => exact absurd hx List.not_mem_nil
  | visit _ _ _ hreach _ ih =>
    rcases List.mem_cons.mp hx with rfl | hx
    · exact hreach
    · exact ih hx

/-- A successor of a visited block that reaches `dst` has been visited. -/
theorem succ_mem (h : Settled g src dst visited) (hx : x ∈ visited) (harc : g.Arc x a)
    (ha : g.Reaches a dst) : a ∈ visited := by
  induction h with
  | nil => exact absurd hx List.not_mem_nil
  | visit _ _ _ _ hready ih =>
    rcases List.mem_cons.mp hx with rfl | hx
    · exact List.mem_cons_of_mem _ (hready a harc ha)
    · exact List.mem_cons_of_mem _ (ih hx)

/-- So is everything between a visited block and `dst`. -/
theorem mem_of_reaches (h : Settled g src dst visited) (hx : x ∈ visited)
    (hxa : g.Reaches x a) (ha : g.Reaches a dst) : a ∈ visited := by
  induction hxa with
  | refl => exact hx
  | tail hxb hbc ih => exact h.succ_mem (ih (.head hbc ha)) hbc ha

theorem walk_mem (h : Settled g src dst visited) (ha : a ∈ visited) (hp : g.Walk a p dst)
    (hx : x ∈ p) : x ∈ visited :=
  h.mem_of_reaches ha (hp.reaches_of_mem hx).1 (hp.reaches_of_mem hx).2

/-- **Walks from visited blocks to `dst` are simple**: each step goes to an earlier visit. -/
theorem walk_nodup (h : Settled g src dst visited) (ha : a ∈ visited) (hp : g.Walk a p dst) :
    p.Nodup := by
  induction h generalizing a p with
  | nil => exact absurd ha List.not_mem_nil
  | visit hv hnew _ _ hready ih =>
    rcases List.mem_cons.mp ha with rfl | ha
    · cases hp with
      | single => exact List.nodup_singleton _
      | step hab hp =>
        have hb := hready _ hab hp.reaches
        exact List.nodup_cons.mpr ⟨fun h => hnew (hv.walk_mem hb hp h), ih hb hp⟩
    · exact ih ha hp

/-- So are walks that begin one step before a visited block. -/
theorem cons_nodup (h : Settled g src dst visited) (hab : g.Arc a b) (hb : b ∈ visited)
    (hp : g.Walk b p dst) : (a :: p).Nodup := by
  by_cases ha : a ∈ visited
  · exact h.walk_nodup ha (.step hab hp)
  · exact List.nodup_cons.mpr ⟨fun hmem => ha (h.walk_mem hb hp hmem), h.walk_nodup hb hp⟩

/-- Nothing leads from a visited block to the block that is visited next, nor from that to itself:
it would have been visited before. -/
theorem not_arc_head (h : Settled g src dst (x :: visited)) (ha : a ∈ x :: visited) :
    ¬ g.Arc a x := by
  intro harc
  cases h with
  | visit hv hnew _ hreach hready =>
    rcases List.mem_cons.mp ha with rfl | ha
    · exact hnew (hready a harc hreach)
    · exact hnew (hv.succ_mem ha harc hreach)

end Settled

/-! ### What one round does -/

/-- The steps along the edges into a block. -/
def stepsInto (g : Graph) (uid : Int) : List Step :=
  (g.edges.filter (·.id.dst = uid)).filterMap fun e =>
    (g.block? e.id.src).map fun pred => { pred, edge := e, uid }

theorem mem_stepsInto {uid : Int} {s : Step} :
    s ∈ g.stepsInto uid ↔
      s.uid = uid ∧ s.edge ∈ g.edges ∧ s.edge.id.dst = uid ∧
        g.block? s.edge.id.src = some s.pred := by
  simp only [stepsInto, List.mem_filterMap, List.mem_filter, decide_eq_true_eq,
    Option.map_eq_some_iff]
  constructor
  · rintro ⟨e, ⟨he, hdst⟩, b, hb, rfl⟩
    exact ⟨rfl, he, hdst, hb⟩
  · rintro ⟨rfl, he, hdst, hb⟩
    exact ⟨s.edge, ⟨he, hdst⟩, s.pred, hb, rfl⟩

theorem mem_stepsInto_of_edge? {u x : Int} {e : Edge} {b : Block} (he : g.edge? u x = some e)
    (hb : g.block? u = some b) : (⟨b, e, x⟩ : Step) ∈ g.stepsInto x := by
  have hid := id_of_edge? he
  exact mem_stepsInto.mpr ⟨rfl, mem_of_edge? he, by rw [hid], by rw [hid, hb]⟩

theorem id_of_mem_stepsInto {x : Int} {s : Step} (hs : s ∈ g.stepsInto x) :
    s.edge.id = ⟨s.pred.uid, x⟩ := by
  obtain ⟨-, -, rfl, hb⟩ := mem_stepsInto.mp hs
  rw [uid_of_block? hb]

theorem arc_of_mem_stepsInto {x : Int} {s : Step} (hs : s ∈ g.stepsInto x) :
    g.Arc s.pred.uid x :=
  List.mem_map.mpr ⟨s.edge, (mem_stepsInto.mp hs).2.1, id_of_mem_stepsInto hs⟩

theorem Valid.exists_step (hg : g.Valid) {u x : Int} (h : g.Arc u x) :
    ∃ s ∈ g.stepsInto x, s.pred.uid = u := by
  obtain ⟨e, he, hmem, hid⟩ := hg.exists_edge h
  obtain ⟨b, hb⟩ := hg.exists_block_src hmem
  rw [hid] at hb
  exact ⟨_, mem_stepsInto_of_edge? he hb, uid_of_block? hb⟩

/-- The steps of a visit come from blocks that have not been visited. -/
theorem Settled.pred_notMem {visited : List Int} {x : Int} {s : Step}
    (h : Settled g src dst (x :: visited)) (hs : s ∈ g.stepsInto x) :
    s.pred.uid ∉ x :: visited :=
  fun hn => h.not_arc_head hn (arc_of_mem_stepsInto hs)

theorem blockOrFail_eq_ok {uid : Int} {b : Block} :
    g.blockOrFail uid = .ok b ↔ g.block? uid = some b := by
  unfold blockOrFail
  split <;> simp_all

/-- In a valid graph the edges into a block are always found. -/
theorem Valid.incoming_eq (hg : g.Valid) (uid : Int) :
    ∃ edges, g.incoming uid = .ok edges ∧
      edges.map (fun (pred, edge) => ({ pred, edge, uid } : Step)) = g.stepsInto uid := by
  -- any lookup of predecessors that returns the block and the edge
  have hlist : ∀ {f : Int → Except Violation (Block × Edge)} (es : List Edge),
      (∀ e ∈ es, ∃ b, g.block? e.id.src = some b ∧ f e.id.src = .ok (b, e)) →
      ∃ edges, (es.map (·.id.src)).mapM f = .ok edges ∧
        edges.map (fun (pred, edge) => ({ pred, edge, uid } : Step)) =
          es.filterMap fun e => (g.block? e.id.src).map fun pred => { pred, edge := e, uid } := by
    intro f es
    induction es with
    | nil => exact fun _ => ⟨[], rfl, rfl⟩
    | cons e es ih =>
      intro hes
      obtain ⟨edges, hedges, hmap⟩ := ih fun e' he' => hes e' (List.mem_cons_of_mem _ he')
      obtain ⟨b, hb, hf⟩ := hes e List.mem_cons_self
      refine ⟨(b, e) :: edges, ?_, ?_⟩
      · rw [List.map_cons, List.mapM_cons, hf, hedges]
        rfl
      · rw [List.map_cons, hmap, List.filterMap_cons, hb]
        rfl
  refine hlist _ fun e he => ?_
  obtain ⟨he, hdst⟩ : e ∈ g.edges ∧ e.id.dst = uid := by simpa using he
  obtain ⟨b, hb⟩ := hg.exists_block_src he
  have hedge : g.edge? e.id.src uid = some e := hg.edge?_eq_some_iff.mpr ⟨he, by rw [← hdst]⟩
  refine ⟨b, hb, ?_⟩
  rw [blockOrFail_eq_ok.mpr hb]
  simp only [bind, Except.bind, hedge, pure, Except.pure]

theorem firstReady_eq_some {reaching visited worklist : List Int} {uid : Int}
    (h : g.firstReady reaching visited worklist = .ok (some uid)) :
    uid ∈ worklist ∧ uid ∉ visited ∧ g.isReady reaching visited uid = true := by
  induction worklist with
  | nil => simp [firstReady] at h
  | cons x worklist ih =>
    rw [firstReady] at h
    obtain ⟨hx, h⟩ := ite_throw_bind_eq_ok_iff.mp h
    obtain ⟨_, -, h⟩ := bind_eq_ok_iff.mp h
    split at h
    · rename_i hready
      obtain rfl := Option.some_inj.mp (pure_eq_ok_iff.mp h)
      exact ⟨List.mem_cons_self, by simpa using hx, hready⟩
    · obtain ⟨hmem, hrest⟩ := ih h
      exact ⟨List.mem_cons_of_mem _ hmem, hrest⟩

/-- A known block that has not been visited is taken if it is ready, and passed over if not. -/
theorem firstReady_cons {reaching visited worklist : List Int} {x : Int} (hx : x ∉ visited)
    (hknown : x ∈ g.blocks.map (·.uid)) :
    g.firstReady reaching visited (x :: worklist) =
      if g.isReady reaching visited x then .ok (some x)
      else g.firstReady reaching visited worklist := by
  obtain ⟨b, hb⟩ := exists_block?_iff.mpr hknown
  rw [firstReady, blockOrFail_eq_ok.mpr hb]
  simp [hx, bind, Except.bind, pure, Except.pure]

/-- A block is ready when its successors that reach `dst` have been visited. -/
theorem Valid.isReady_iff (hg : g.Valid) (hdst : dst ∈ g.blocks.map (·.uid))
    {visited : List Int} {uid : Int} :
    g.isReady (g.reaching dst) visited uid = true ↔
      ∀ s, g.Arc uid s → g.Reaches s dst → s ∈ visited := by
  simp only [isReady, List.all_eq_true, Bool.or_eq_true, Bool.not_eq_true', mem_succs_iff,
    List.contains_eq_mem, decide_eq_false_iff_not, decide_eq_true_eq, hg.mem_reaching_iff hdst]
  exact forall₂_congr fun s _ => imp_iff_not_or.symm

/-! ### The invariant of the worklist -/

/-- The invariant of a sweep: the blocks of the worklist are still to be visited, and every
predecessor of a visited block is `src`, has been visited, or is in the worklist. -/
structure Sweeping (g : Graph) (src dst : Int) (worklist visited : List Int) : Prop where
  settled : Settled g src dst visited
  nodup : worklist.Nodup
  fresh : ∀ x ∈ worklist, x ∉ visited ∧ x ≠ src ∧ g.Reaches x dst
  preds : ∀ x ∈ visited, ∀ p, g.Arc p x → p = src ∨ p ∈ visited ∨ p ∈ worklist

theorem sweeping_init (hne : src ≠ dst) : Sweeping g src dst [dst] [] where
  settled := .nil
  nodup := List.nodup_singleton dst
  fresh := by
    intro x hx
    obtain rfl := List.mem_singleton.mp hx
    exact ⟨List.not_mem_nil, hne.symm, .refl⟩
  preds := by simp

/-- The worklist after a visit. -/
def requeue (g : Graph) (src uid : Int) (worklist visited : List Int) : List Int :=
  worklist.erase uid ++ (g.preds uid).filter fun p =>
    p ≠ src && !visited.contains p && !worklist.contains p

theorem mem_requeue {uid x : Int} {worklist visited : List Int} (hnd : worklist.Nodup) :
    x ∈ g.requeue src uid worklist visited ↔
      (x ≠ uid ∧ x ∈ worklist) ∨
        (g.Arc x uid ∧ x ≠ src ∧ x ∉ visited ∧ x ∉ worklist) := by
  rw [requeue, List.mem_append, hnd.mem_erase_iff, List.mem_filter, mem_preds_iff]
  simp [and_assoc]

/-- **One round keeps the invariant.** -/
theorem Sweeping.visit {worklist visited : List Int} {uid : Int} (hg : g.Valid)
    (hs : Sweeping g src dst worklist visited) (huid : uid ∈ worklist)
    (hready : ∀ s, g.Arc uid s → g.Reaches s dst → s ∈ visited) :
    Sweeping g src dst (g.requeue src uid worklist visited) (uid :: visited) := by
  obtain ⟨hnew, hsrc, hreach⟩ := hs.fresh uid huid
  -- no self-loop: `uid` would have been visited before itself
  have hself : ¬ g.Arc uid uid := fun h => hnew (hready uid h hreach)
  refine ⟨.visit hs.settled hnew hsrc hreach hready, ?_, fun x hx => ?_, fun x hx p hp => ?_⟩
  · refine List.nodup_append.mpr
      ⟨hs.nodup.erase uid, (hg.preds_nodup uid).filter _, fun x hx y hy => ?_⟩
    rintro rfl
    have hxw := List.mem_of_mem_erase hx
    simp [hxw] at hy
  · rw [mem_requeue hs.nodup] at hx
    rcases hx with ⟨hne, hx⟩ | ⟨harc, hne, hxv, -⟩
    · obtain ⟨hxv, hxs, hxr⟩ := hs.fresh x hx
      exact ⟨List.not_mem_cons_of_ne_of_not_mem hne hxv, hxs, hxr⟩
    · refine ⟨List.not_mem_cons_of_ne_of_not_mem ?_ hxv, hne, .head harc hreach⟩
      rintro rfl
      exact hself harc
  · -- a predecessor that is neither `src` nor visited stays in the worklist or enters it now
    rw [mem_requeue hs.nodup, List.mem_cons]
    by_cases hps : p = src
    · exact .inl hps
    by_cases hpv : p ∈ visited
    · exact .inr (.inl (.inr hpv))
    by_cases hpu : p = uid
    · exact .inr (.inl (.inl hpu))
    rcases List.mem_cons.mp hx with rfl | hx
    · by_cases hpw : p ∈ worklist
      · exact .inr (.inr (.inl ⟨hpu, hpw⟩))
      · exact .inr (.inr (.inr ⟨hp, hps, hpv, hpw⟩))
    · rcases hs.preds x hx p hp with h | h | h
      · exact absurd h hps
      · exact absurd h hpv
      · exact .inr (.inr (.inl ⟨hpu, h⟩))

/-! ### Whole sweeps -/

/-- What a sweep that went through guarantees. -/
structure Swept (g : Graph) (src dst : Int) (v : Visits) : Prop where
  settled : Settled g src dst v.blocks.reverse
  dst_mem : dst ∈ v.blocks
  preds : ∀ x ∈ v.blocks, ∀ p, g.Arc p x → p = src ∨ p ∈ v.blocks
  steps_eq : v.steps = v.blocks.flatMap g.stepsInto

/-- The visit of a block and those that follow. -/
def visitFirst (g : Graph) (uid : Int) (rest : Visits) : Visits where
  blocks := uid :: rest.blocks
  steps := g.stepsInto uid ++ rest.steps

/-- A round that finds a ready block visits it and goes on. -/
theorem Valid.sweepFrom_of_firstReady (hg : g.Valid) {reaching : List Int} {rounds : Nat}
    {worklist visited : List Int} {uid : Int}
    (h : g.firstReady reaching visited worklist = .ok (some uid)) :
    g.sweepFrom src dst reaching (rounds + 1) worklist visited =
      (g.sweepFrom src dst reaching rounds (g.requeue src uid worklist visited)
        (uid :: visited)).map (g.visitFirst uid) := by
  have hw : worklist ≠ [] := List.ne_nil_of_mem (firstReady_eq_some h).1
  obtain ⟨edges, hedges, hsteps⟩ := hg.incoming_eq uid
  rw [sweepFrom.eq_3 _ _ _ _ _ _ _ hw, h, requeue]
  simp only [hedges, bind, Except.bind, hsteps]
  split
  · rename_i hrest
    rw [hrest]
    rfl
  · rename_i hrest
    rw [hrest]
    rfl

/-- A round that succeeds has found one. -/
theorem Valid.sweepFrom_eq_ok (hg : g.Valid) {reaching : List Int} {rounds : Nat}
    {worklist visited : List Int} {v : Visits} (hw : worklist ≠ [])
    (h : g.sweepFrom src dst reaching (rounds + 1) worklist visited = .ok v) :
    ∃ uid rest, g.firstReady reaching visited worklist = .ok (some uid) ∧
      g.sweepFrom src dst reaching rounds (g.requeue src uid worklist visited) (uid :: visited) =
        .ok rest ∧ v = g.visitFirst uid rest := by
  obtain ⟨found, hfound, h'⟩ := bind_eq_ok_iff.mp (sweepFrom.eq_3 _ _ _ _ _ _ _ hw ▸ h)
  cases found with
  | none => exact absurd h' throw_ne_ok
  | some uid =>
    rw [hg.sweepFrom_of_firstReady hfound] at h
    obtain ⟨rest, hrest, rfl⟩ := map_eq_ok_iff.mp h
    exact ⟨uid, rest, hfound, hrest, rfl⟩

/-- **What a sweep guarantees from any point on**, by induction on the rounds. -/
theorem Sweeping.run (hg : g.Valid) (hdst : dst ∈ g.blocks.map (·.uid)) {rounds : Nat} :
    ∀ {worklist visited : List Int} {v : Visits}, Sweeping g src dst worklist visited →
      g.sweepFrom src dst (g.reaching dst) rounds worklist visited = .ok v →
      Settled g src dst (v.blocks.reverse ++ visited) ∧ worklist ⊆ v.blocks ∧
        (∀ x ∈ v.blocks.reverse ++ visited, ∀ p, g.Arc p x →
          p = src ∨ p ∈ v.blocks.reverse ++ visited) ∧
        v.steps = v.blocks.flatMap g.stepsInto := by
  induction rounds with
  | zero =>
    intro worklist visited v hs h
    cases worklist with
    | nil =>
      obtain rfl := Except.ok.inj h
      exact ⟨hs.settled, List.nil_subset _, fun x hx p hp => by simpa using hs.preds x hx p hp,
        rfl⟩
    | cons w ws => simp [sweepFrom] at h
  | succ n ih =>
    intro worklist visited v hs h
    by_cases hw : worklist = []
    · subst hw
      obtain rfl := Except.ok.inj h
      exact ⟨hs.settled, List.nil_subset _, fun x hx p hp => by simpa using hs.preds x hx p hp,
        rfl⟩
    · obtain ⟨uid, rest, hready, hrest, rfl⟩ := hg.sweepFrom_eq_ok hw h
      obtain ⟨huid, -, hr⟩ := firstReady_eq_some hready
      obtain ⟨hset, hsub, hpreds, hsteps⟩ :=
        ih (hs.visit hg huid ((hg.isReady_iff hdst).mp hr)) hrest
      -- the visit of `uid` counts to what the rest of the run finds done
      have hlist : (uid :: rest.blocks).reverse ++ visited =
          rest.blocks.reverse ++ uid :: visited := by simp
      refine ⟨hlist ▸ hset, fun x hx => ?_, hlist ▸ hpreds, ?_⟩
      · by_cases hxu : x = uid
        · exact hxu ▸ List.mem_cons_self
        · exact List.mem_cons_of_mem _ (hsub ((mem_requeue hs.nodup).mpr (.inl ⟨hxu, hx⟩)))
      · simp only [visitFirst, List.flatMap_cons, hsteps]

/-- **The stages of a sweep.** -/
theorem sweep_eq_ok_iff {v : Visits} :
    g.sweep src dst = .ok v ↔
      src ≠ dst ∧ src ∈ g.blocks.map (·.uid) ∧ g.checkDominates src dst = .ok () ∧
        g.sweepFrom src dst (g.reaching dst) g.blocks.length [dst] [] = .ok v := by
  rw [sweep, ite_throw_bind_eq_ok_iff]
  simp only [bind_eq_ok_iff, blockOrFail_eq_ok, ← exists_block?_iff]
  constructor
  · rintro ⟨hne, b, hb, _, hdom, hrun⟩
    exact ⟨hne, ⟨b, hb⟩, hdom, hrun⟩
  · rintro ⟨hne, ⟨b, hb⟩, hdom, hrun⟩
    exact ⟨hne, b, hb, (), hdom, hrun⟩

/-- The first step up from `dst` looks its block up. -/
theorem dst_known_of_checkDominates (hne : src ≠ dst) (h : g.checkDominates src dst = .ok ()) :
    dst ∈ g.blocks.map (·.uid) := by
  rw [checkDominates, climb, if_neg (Ne.symm hne)] at h
  split at h
  · simp at h
  · rename_i b hb
    exact known_of_block? hb

/-- A sweep that succeeds has checked its ends. -/
theorem sweep_eq_ok {v : Visits} (h : g.sweep src dst = .ok v) :
    src ≠ dst ∧ (∃ b, g.block? src = some b) ∧ (∃ b, g.block? dst = some b) ∧
      g.sweepFrom src dst (g.reaching dst) g.blocks.length [dst] [] = .ok v := by
  obtain ⟨hne, hsrc, hdom, hrun⟩ := sweep_eq_ok_iff.mp h
  have hdst := dst_known_of_checkDominates hne hdom
  exact ⟨hne, exists_block?_iff.mpr hsrc, exists_block?_iff.mpr hdst, hrun⟩

/-- **Every sweep that succeeds went through what it should.** -/
theorem Valid.swept (hg : g.Valid) {v : Visits} (h : g.sweep src dst = .ok v) :
    Swept g src dst v := by
  obtain ⟨hne, -, ⟨b, hb⟩, hrun⟩ := sweep_eq_ok h
  have hdst : dst ∈ g.blocks.map (·.uid) := known_of_block? hb
  obtain ⟨hset, hsub, hpreds, hsteps⟩ := (sweeping_init hne).run hg hdst hrun
  rw [List.append_nil] at hset hpreds
  exact ⟨hset, hsub (List.mem_singleton_self dst), by simpa using hpreds, hsteps⟩

end Graph

end WorstCase
