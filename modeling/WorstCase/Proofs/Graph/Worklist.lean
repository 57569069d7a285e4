import WorstCase.Proofs.Graph.Sweep

/-!
# The worklist of a sweep, turn by turn

A sweep looks at its worklist through an index. A block that is not ready is passed over: the index
moves on. A ready block is visited, and the index goes back to the front. `Graph.Worklist.turn` is
one such turn, and `Graph.sweepFrom` is stated by rounds, one for every visit.

* `Graph.Worklist.turn_wellFounded`: there is no endless sequence of turns, on any graph. A visit
  leaves fewer blocks to be visited, and between two visits the index comes closer to the end.
* `Graph.Valid.sweepFrom_turns`: the turns end with what the rounds return, so the number of rounds
  is never what stops a sweep.
-/

namespace WorstCase

namespace Graph

variable {g : Graph} {src dst : Int}

/-- What a sweep knows between two turns. -/
structure Worklist where
  /-- The blocks that are waiting. -/
  waiting : List Int
  /-- The place in `waiting` of the block that is looked at next. -/
  index : Nat
  /-- All blocks that have ever been waiting. -/
  queued : List Int
  /-- The blocks that have been visited and the steps that have been taken, first to last. -/
  visits : Visits

namespace Worklist

/-- The worklist at the start of a sweep. -/
def first (dst : Int) : Worklist :=
  { waiting := [dst], index := 0, queued := [dst], visits := {} }

/-- The predecessors of a block that have to be queued when it is visited. -/
def fresh (g : Graph) (src uid : Int) (w : Worklist) : List Int :=
  (g.preds uid).filter fun p => p ≠ src && !w.visits.blocks.contains p && !w.queued.contains p

/-- The worklist after the visit of the block `uid` at its index. -/
def visit (g : Graph) (src uid : Int) (edges : List (Block × Edge)) (w : Worklist) : Worklist where
  waiting := (w.waiting ++ w.fresh g src uid).eraseIdx w.index
  index := 0
  queued := w.queued ++ w.fresh g src uid
  visits :=
    { blocks := w.visits.blocks ++ [uid]
      steps := w.visits.steps ++ edges.map fun (pred, edge) => { pred, edge, uid } }

/-- One turn: what the sweep ends with, or the worklist it goes on with. -/
def turn (g : Graph) (src dst : Int) (w : Worklist) : Except Violation Visits ⊕ Worklist :=
  if w.waiting = [] then .inl (.ok w.visits)
  else
    match w.waiting[w.index]? with
    | none => .inl (.error (.noReadyBlock src dst))
    | some uid =>
      if w.visits.blocks.contains uid then .inl (.error (.loopAt uid))
      else
        match g.block? uid with
        | none => .inl (.error (.unknownBlock uid))
        | some _ =>
          if g.isReady (g.reaching dst) w.visits.blocks uid then
            match g.incoming uid with
            | .error v => .inl (.error v)
            | .ok edges => .inr (w.visit g src uid edges)
          else .inr { w with index := w.index + 1 }

/-- `w` goes on with `w'`. -/
def Turns (g : Graph) (src dst : Int) (w w' : Worklist) : Prop :=
  w.turn g src dst = .inr w'

/-! ### Termination -/

/-- A turn that goes on passes a block over or visits one that is known and new. -/
theorem Turns.cases {w w' : Worklist} (h : w.Turns g src dst w') :
    ∃ uid, w.waiting[w.index]? = some uid ∧ uid ∉ w.visits.blocks ∧ uid ∈ g.blocks.map (·.uid) ∧
      (w' = { w with index := w.index + 1 } ∨ ∃ edges, w' = w.visit g src uid edges) := by
  unfold Turns turn at h
  split at h
  · simp at h
  split at h
  · simp at h
  rename_i uid huid
  split at h
  · simp at h
  rename_i hnew
  split at h
  · simp at h
  rename_i b hb
  refine ⟨uid, huid, by simpa using hnew, known_of_block? hb, ?_⟩
  split at h
  · split at h
    · simp at h
    · exact .inr ⟨_, (Sum.inr.inj h).symm⟩
  · exact .inl (Sum.inr.inj h).symm

/-- The blocks that are still to be visited. -/
def ahead (g : Graph) (w : Worklist) : List Int :=
  (g.blocks.map (·.uid)).filter fun u => !w.visits.blocks.contains u

/-- A visit leaves fewer blocks to be visited. -/
theorem length_ahead_visit_lt {w : Worklist} {uid : Int} {edges : List (Block × Edge)}
    (hnew : uid ∉ w.visits.blocks) (hknown : uid ∈ g.blocks.map (·.uid)) :
    ((w.visit g src uid edges).ahead g).length < (w.ahead g).length := by
  have hmem : uid ∈ w.ahead g := List.mem_filter.mpr ⟨hknown, by simpa using hnew⟩
  have heq : (w.visit g src uid edges).ahead g = (w.ahead g).filter fun u => u ≠ uid := by
    rw [ahead, ahead, List.filter_filter]
    refine List.filter_congr fun u _ => ?_
    by_cases hu : u = uid <;> simp [visit, hu]
  rw [heq]
  exact List.length_filter_lt_length_iff_exists.mpr ⟨uid, hmem, by simp⟩

/-- **No sweep goes on for ever.** What decreases is the number of blocks ahead, and with it the
distance of the index from the end of the worklist. -/
theorem turn_wellFounded (g : Graph) (src dst : Int) :
    WellFounded fun w' w : Worklist => w.Turns g src dst w' := by
  let measure : Worklist → Nat × Nat := fun w =>
    ((w.ahead g).length, w.waiting.length - w.index)
  refine Subrelation.wf (r := InvImage (Prod.Lex (· < ·) (· < ·)) measure) ?_
    (InvImage.wf measure (Nat.lt_wfRel.wf.prod_lex Nat.lt_wfRel.wf))
  intro w' w h
  obtain ⟨uid, huid, hnew, hknown, rfl | ⟨edges, rfl⟩⟩ := Turns.cases h
  · have hlt : w.index < w.waiting.length := (List.getElem?_eq_some_iff.mp huid).1
    refine Prod.Lex.right _ ?_
    simp only
    omega
  · exact Prod.Lex.left _ _ (length_ahead_visit_lt hnew hknown)

/-! ### Turns and rounds -/

/-- Several turns. -/
abbrev Leads (g : Graph) (src dst : Int) : Worklist → Worklist → Prop :=
  Relation.ReflTransGen (Turns g src dst)

/-- A worklist fits what the invariant of the rounds is about. -/
structure Fits (g : Graph) (src dst : Int) (w : Worklist) : Prop where
  sweeping : Sweeping g src dst w.waiting w.visits.blocks.reverse
  known : ∀ x ∈ w.waiting ++ w.visits.blocks, x ∈ g.blocks.map (·.uid)
  queued : ∀ x, x ∈ w.queued ↔ x ∈ w.waiting ∨ x ∈ w.visits.blocks

theorem fits_first (hne : src ≠ dst) (hdst : dst ∈ g.blocks.map (·.uid)) :
    Fits g src dst (first dst) where
  sweeping := sweeping_init hne
  known := by simpa [first] using hdst
  queued := by simp [first]

end Worklist

theorem isReady_reverse (g : Graph) (reaching visited : List Int) (uid : Int) :
    g.isReady reaching visited.reverse uid = g.isReady reaching visited uid := by
  simp [isReady]

namespace Worklist

variable {w : Worklist}

theorem Fits.new (hw : Fits g src dst w) {uid : Int} {i : Nat} (h : w.waiting[i]? = some uid) :
    uid ∉ w.visits.blocks ∧ ∃ b, g.block? uid = some b := by
  have hmem := List.mem_of_getElem? h
  have hknown := hw.known uid (List.mem_append_left _ hmem)
  refine ⟨fun hv => (hw.sweeping.fresh uid hmem).1 (List.mem_reverse.mpr hv), ?_⟩
  exact exists_block?_iff.mpr hknown

theorem Fits.turn_eq (hw : Fits g src dst w) {uid : Int} (h : w.waiting[w.index]? = some uid) :
    w.turn g src dst =
      if g.isReady (g.reaching dst) w.visits.blocks uid then
        match g.incoming uid with
        | .error v => .inl (.error v)
        | .ok edges => .inr (w.visit g src uid edges)
      else .inr { w with index := w.index + 1 } := by
  obtain ⟨hnew, b, hb⟩ := hw.new h
  have hne : w.waiting ≠ [] := List.ne_nil_of_mem (List.mem_of_getElem? h)
  simp [turn, hne, h, hnew, hb]

/-- The index moves to the first ready block from where it is, or to the end. -/
theorem Fits.scan (hw : Fits g src dst w) :
    ∃ i, Leads g src dst w { w with index := i } ∧
      ((g.firstReady (g.reaching dst) w.visits.blocks.reverse (w.waiting.drop w.index) = .ok none ∧
          w.waiting[i]? = none) ∨
        ∃ uid, g.firstReady (g.reaching dst) w.visits.blocks.reverse (w.waiting.drop w.index) =
            .ok (some uid) ∧ w.waiting[i]? = some uid) := by
  -- by induction on what lies beyond the index
  generalize hrest : w.waiting.drop w.index = rest
  induction rest generalizing w with
  | nil =>
    refine ⟨w.index, .refl, .inl ⟨rfl, ?_⟩⟩
    exact List.getElem?_eq_none (List.drop_eq_nil_iff.mp hrest)
  | cons uid rest ih =>
    have huid : w.waiting[w.index]? = some uid := by
      rw [← List.head?_drop, hrest, List.head?_cons]
    obtain ⟨hnew, b, hb⟩ := hw.new huid
    have hturn := hw.turn_eq huid
    rw [firstReady_cons (by simpa using hnew) (known_of_block? hb), isReady_reverse]
    by_cases hready : g.isReady (g.reaching dst) w.visits.blocks uid = true
    · rw [if_pos hready]
      exact ⟨w.index, .refl, .inr ⟨uid, rfl, huid⟩⟩
    · rw [if_neg hready] at hturn ⊢
      have hdrop : w.waiting.drop (w.index + 1) = rest := by
        rw [← List.tail_drop, hrest, List.tail_cons]
      obtain ⟨i, hlead, hfound⟩ :=
        ih (w := { w with index := w.index + 1 }) ⟨hw.sweeping, hw.known, hw.queued⟩ hdrop
      exact ⟨i, .head hturn hlead, hfound⟩

/-- What waits after a visit is what the rounds say. -/
theorem Fits.waiting_visit (hw : Fits g src dst w) {uid : Int}
    (h : w.waiting[w.index]? = some uid) (edges : List (Block × Edge)) :
    (w.visit g src uid edges).waiting =
      g.requeue src uid w.waiting w.visits.blocks.reverse := by
  obtain ⟨hlt, rfl⟩ := List.getElem?_eq_some_iff.mp h
  have hfresh : w.fresh g src w.waiting[w.index] =
      (g.preds w.waiting[w.index]).filter fun p =>
        p ≠ src && !w.visits.blocks.reverse.contains p && !w.waiting.contains p := by
    refine List.filter_congr fun p _ => ?_
    by_cases hp : p ∈ w.visits.blocks <;> by_cases hp' : p ∈ w.waiting <;>
      simp [hw.queued, hp, hp']
  rw [requeue, ← hfresh, visit, List.eraseIdx_append_of_lt_length hlt,
    hw.sweeping.nodup.erase_getElem]

theorem Fits.visit (hg : g.Valid) (hdst : dst ∈ g.blocks.map (·.uid)) (hw : Fits g src dst w)
    {uid : Int} (h : w.waiting[w.index]? = some uid)
    (hready : g.isReady (g.reaching dst) w.visits.blocks.reverse uid = true)
    (edges : List (Block × Edge)) : Fits g src dst (w.visit g src uid edges) := by
  have hmem := List.mem_of_getElem? h
  have hwaiting := hw.waiting_visit h edges
  have hblocks : (w.visit g src uid edges).visits.blocks = w.visits.blocks ++ [uid] := rfl
  have hin : ∀ x, x ∈ (w.visit g src uid edges).waiting ↔
      (x ≠ uid ∧ x ∈ w.waiting) ∨ (g.Arc x uid ∧ x ≠ src ∧ x ∉ w.visits.blocks ∧
        x ∉ w.waiting) := by
    intro x
    rw [hwaiting, mem_requeue hw.sweeping.nodup, List.mem_reverse]
  refine ⟨?_, fun x hx => ?_, fun x => ?_⟩
  · rw [hwaiting, hblocks, List.reverse_append]
    exact hw.sweeping.visit hg hmem ((hg.isReady_iff hdst).mp hready)
  · rw [List.mem_append, hin, hblocks, List.mem_append, List.mem_singleton] at hx
    rcases hx with (⟨-, hx⟩ | ⟨harc, -⟩) | hx | rfl
    · exact hw.known x (List.mem_append_left _ hx)
    · exact (hg.arc_known harc).1
    · exact hw.known x (List.mem_append_right _ hx)
    · exact hw.known x (List.mem_append_left _ hmem)
  · have hqueued : x ∈ (w.visit g src uid edges).queued ↔
        (x ∈ w.waiting ∨ x ∈ w.visits.blocks) ∨
          (g.Arc x uid ∧ x ≠ src ∧ x ∉ w.visits.blocks ∧ x ∉ w.waiting) := by
      simp only [Worklist.visit, fresh, List.mem_append, hw.queued, List.mem_filter, mem_preds_iff,
        ne_eq, decide_not, Bool.and_eq_true, Bool.not_eq_true', decide_eq_false_iff_not,
        List.contains_eq_mem, not_or]
      grind
    rw [hqueued, hin, hblocks, List.mem_append, List.mem_singleton]
    by_cases hx : x = uid
    · simp [hx, hmem]
    · simp only [hx, ne_eq, not_false_eq_true, true_and, or_false]
      grind

/-- The turn of a block that is ready is its visit. -/
theorem Fits.turns_visit (hw : Fits g src dst w) {uid : Int}
    (h : w.waiting[w.index]? = some uid)
    (hready : g.isReady (g.reaching dst) w.visits.blocks uid = true)
    {edges : List (Block × Edge)} (hedges : g.incoming uid = .ok edges) :
    Turns g src dst w (w.visit g src uid edges) := by
  rw [Turns, hw.turn_eq h, if_pos hready, hedges]

/-- While a block waits, not all have been visited. -/
theorem Fits.length_visits_lt (hw : Fits g src dst w) {uid : Int} (h : uid ∈ w.waiting) :
    w.visits.blocks.length < g.blocks.length := by
  have hnd : (uid :: w.visits.blocks.reverse).Nodup :=
    List.nodup_cons.mpr ⟨(hw.sweeping.fresh uid h).1, hw.sweeping.settled.nodup⟩
  have hsub : uid :: w.visits.blocks.reverse ⊆ g.blocks.map (·.uid) := by
    refine List.cons_subset.mpr ⟨hw.known uid (List.mem_append_left _ h), fun x hx => ?_⟩
    exact hw.known x (List.mem_append_right _ (List.mem_reverse.mp hx))
  have hle := (List.subperm_of_subset hnd hsub).length_le
  rwa [List.length_cons, List.length_reverse, List.length_map] at hle

/-- The visits of a worklist, followed by others. -/
def append (w : Worklist) (v : Visits) : Visits where
  blocks := w.visits.blocks ++ v.blocks
  steps := w.visits.steps ++ v.steps

/-- What follows a visit follows it in the rounds. -/
theorem append_visit {uid : Int} {edges : List (Block × Edge)}
    (hsteps : edges.map (fun (pred, edge) => ({ pred, edge, uid } : Step)) = g.stepsInto uid)
    (v : Visits) : (w.visit g src uid edges).append v = w.append (g.visitFirst uid v) := by
  simp [append, visitFirst, visit, hsteps]

/-- **Turns end with what the rounds return**, by induction on the rounds. -/
theorem Fits.leads (hg : g.Valid) (hdst : dst ∈ g.blocks.map (·.uid)) {rounds : Nat} :
    ∀ {w : Worklist}, Fits g src dst w → w.index = 0 →
      g.blocks.length ≤ rounds + w.visits.blocks.length →
      ∃ w', Leads g src dst w w' ∧
        w'.turn g src dst =
          .inl ((g.sweepFrom src dst (g.reaching dst) rounds w.waiting w.visits.blocks.reverse).map
            w.append) := by
  induction rounds with
  | zero =>
    intro w hw _ hlen
    rcases hwait : w.waiting with _ | ⟨uid, rest⟩
    · exact ⟨w, .refl, by simp [turn, hwait, sweepFrom, Except.map, append]⟩
    · have huid : uid ∈ w.waiting := hwait ▸ List.mem_cons_self
      have hlt := hw.length_visits_lt huid
      omega
  | succ rounds ih =>
    intro w hw hindex hlen
    by_cases hwait : w.waiting = []
    · exact ⟨w, .refl, by simp [turn, hwait, sweepFrom, Except.map, append]⟩
    obtain ⟨i, hlead, hfound⟩ := hw.scan
    rw [hindex, List.drop_zero] at hfound
    rcases hfound with ⟨hfirst, hend⟩ | ⟨uid, hfirst, huid⟩
    · -- the index has come to the end
      refine ⟨_, hlead, ?_⟩
      rw [sweepFrom.eq_3 _ _ _ _ _ _ _ hwait, hfirst]
      simp only [turn, if_neg hwait, hend]
      rfl
    · have hw' : Fits g src dst { w with index := i } := ⟨hw.sweeping, hw.known, hw.queued⟩
      obtain ⟨-, -, hready⟩ := firstReady_eq_some hfirst
      obtain ⟨edges, hedges, hsteps⟩ := hg.incoming_eq uid
      have hturn := hw'.turns_visit huid (isReady_reverse .. ▸ hready) hedges
      have hnext := hw'.visit hg hdst huid hready edges
      have hwaiting := hw'.waiting_visit huid edges
      obtain ⟨w', hlead', hend⟩ := ih hnext rfl (by simp [Worklist.visit]; omega)
      refine ⟨w', hlead.trans (.head hturn hlead'), ?_⟩
      have hblocks : (Worklist.visit g src uid edges { w with index := i }).visits.blocks.reverse =
          uid :: w.visits.blocks.reverse := by
        simp [Worklist.visit]
      rw [hend, hwaiting, hblocks, hg.sweepFrom_of_firstReady hfirst]
      rcases g.sweepFrom src dst (g.reaching dst) rounds _ (uid :: w.visits.blocks.reverse)
        with v | v
      · rfl
      · simp only [Except.map, append_visit hsteps]
        rfl

end Worklist

/-- **The turns of a sweep end with what its rounds return.** -/
theorem Valid.sweepFrom_turns (hg : g.Valid) (hne : src ≠ dst)
    (hdst : dst ∈ g.blocks.map (·.uid)) :
    ∃ w, Worklist.Leads g src dst (Worklist.first dst) w ∧
      w.turn g src dst =
        .inl (g.sweepFrom src dst (g.reaching dst) g.blocks.length [dst] []) := by
  obtain ⟨w, hlead, hend⟩ :=
    (Worklist.fits_first hne hdst).leads hg hdst rfl (Nat.le_add_right g.blocks.length _)
  refine ⟨w, hlead, ?_⟩
  have happend : (Worklist.first dst).append = id := by
    funext v
    simp [Worklist.append, Worklist.first]
  rw [hend, happend, Except.map_id]
  rfl

end Graph

end WorstCase
