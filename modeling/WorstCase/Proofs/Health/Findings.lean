import WorstCase.Health.Check
import WorstCase.Proofs.Encoding.Emission
import WorstCase.Proofs.Graph.Coherence
import WorstCase.Proofs.Graph.Listing
import WorstCase.Proofs.Health.Mirror

/-!
# Findings say what is the matter with a graph

An examination makes the same five checks on every graph, and what it reports can be said without
any of its computations (`Health.Diagnosis`): loops, ways and dominance are those of the graph,
cyclic or not. The checks search in mirrors of the graph, and any lawful toolkit will do.

* A loop is reported iff some block can be reached from one of its successors. A block that is its
  own successor counts, although mirrors leave out its edge (`Health.reports_acyclic`).
* An unreachable end is reported iff no way leads there from the start. Otherwise the other blocks
  to which none leads are named (`Health.reports_reachability`). Dead ends are the blocks on a way
  from the start from which no way leads to the end (`Health.reports_deadEnds`).
* A declared dominator is wrong iff it does not strictly dominate, and loose iff it does so without
  being the **immediate** one: the strict dominator that all others dominate, of which there is one
  at most (`Graph.ImmediatelyDominates.unique`). Both are found out by climbing a dominator tree
  (`Health.reports_dominators`). A block that declares no dominator counts as one whose dominator is
  wrong, since nothing dominates under the uid that stands for none.

`Health.diagnosis_examineWith` puts this together for every graph whose start and end are blocks.
-/

namespace WorstCase.Health

open WorstCase.Graph

variable {t : Toolkit} {g : Graph} {check : Check} {status : Status} {x : Int}

/-! ### One remark for each check -/

/-- An examination reports a status for a check. -/
def Examination.Reports (e : Examination) (check : Check) (status : Status) : Prop :=
  ∃ r ∈ e.remarks, r.check = check.name ∧ r.status = status

instance (e : Examination) (check : Check) (status : Status) :
    Decidable (e.Reports check status) :=
  inferInstanceAs (Decidable (∃ r ∈ e.remarks, _))

theorem Check.name_injective : Function.Injective Check.name := by
  intro a b h
  cases a <;> cases b <;> first | rfl | exact absurd h (by decide)

/-- What a check finds. -/
def detail? (t : Toolkit) (g : Graph) : Check → Option Detail
  | .acyclic => checkAcyclic (Mirror.ofGraph t g)
  | .reachability => checkReachability g (Mirror.ofGraph t g)
  | .deadEnds => checkDeadEnds g (Mirror.ofGraph t g)
  | .dominators => checkDominators g (Mirror.ofGraph t g)
  | .endBlock => checkEnd g

/-- The checks in the order of their reports. -/
def checks : List Check := [.acyclic, .reachability, .deadEnds, .dominators, .endBlock]

theorem findings_eq (t : Toolkit) (g : Graph) :
    findings t g = checks.map fun check => { check, detail := detail? t g check } := rfl

theorem mem_checks (check : Check) : check ∈ checks := by
  cases check <;> decide

theorem mem_remarks {r : Remark} :
    r ∈ (examineWith t g).remarks ↔ ∃ check : Check, r =
      { check := check.name
        status := ({ check, detail := detail? t g check } : Finding).status
        detail := ({ check, detail := detail? t g check } : Finding).text g } := by
  simp only [examineWith, findings_eq, List.map_map, List.mem_map, Function.comp_apply]
  constructor
  · rintro ⟨check, -, h⟩
    exact ⟨check, h.symm⟩
  · rintro ⟨check, h⟩
    exact ⟨check, mem_checks check, h.symm⟩

/-- A remark tells the status of what its check finds. -/
theorem reports_iff :
    (examineWith t g).Reports check status ↔
      ({ check, detail := detail? t g check } : Finding).status = status := by
  constructor
  · rintro ⟨r, hr, hcheck, hstatus⟩
    obtain ⟨check', rfl⟩ := mem_remarks.mp hr
    obtain rfl := Check.name_injective hcheck
    exact hstatus
  · exact fun h => ⟨_, mem_remarks.mpr ⟨check, rfl⟩, rfl, h⟩

/-- A check is fine iff it reports neither an error nor a warning. -/
theorem reports_ok_iff : (examineWith t g).Reports check .ok ↔
    ¬ (examineWith t g).Reports check .error ∧ ¬ (examineWith t g).Reports check .warn := by
  simp only [reports_iff]
  generalize Finding.status _ = status
  cases status <;> decide

/-! ### Texts -/

/-- A text names the blocks of a set by their labels, by ascending uid. -/
def Names (g : Graph) (opening detail : String) (P : Int → Prop) : Prop :=
  ∃ uids : List Int, uids.Pairwise (· < ·) ∧ (∀ x, x ∈ uids ↔ P x) ∧
    detail = opening ++ Text.joinWith ", " (uids.map g.labelOf)

/-- Uids that ascend are named as they come. -/
theorem names_labelList (opening : String) {uids : List Int} {P : Int → Prop}
    (huids : uids.Pairwise (· < ·)) (h : ∀ x, x ∈ uids ↔ P x) :
    Names g opening (opening ++ labelList g uids) P := by
  refine ⟨uids, huids, h, ?_⟩
  have hsorted : sortBy (fun a b => decide (a ≤ b)) uids = uids := by
    rw [sortBy_eq_insertionSort]
    exact (huids.imp fun hlt => decide_eq_true (le_of_lt hlt)).insertionSort_eq
  rw [labelList, hsorted]

theorem exists_iff_ne_nil {uids : List Int} {P : Int → Prop} (h : ∀ x, x ∈ uids ↔ P x) :
    (∃ x, P x) ↔ uids ≠ [] := by
  simp only [← h, ne_eq, List.eq_nil_iff_forall_not_mem, not_forall, not_not]

theorem pairwise_uids (hg : g.Valid) : g.uids.Pairwise (· < ·) := by
  refine (linear_uids.pairwise_sortBy_of_nodup hg.uids_nodup).imp ?_
  rintro a b ⟨hle, hne⟩
  rw [decide_eq_true_eq] at hle
  omega

/-! ### Blocks off the ways from the start to the end -/

/-- The blocks that a walk from the start does not visit, ascending. -/
def unreachableUids (t : Toolkit) (g : Graph) : List Int :=
  g.uids.filter fun uid => !(t.walk (Mirror.ofGraph t g).forward g.start).contains uid

/-- The blocks that a walk from the start visits and one backward from the end does not,
ascending. -/
def deadEndUids (t : Toolkit) (g : Graph) : List Int :=
  g.uids.filter fun uid => (t.walk (Mirror.ofGraph t g).forward g.start).contains uid &&
    !(t.walk (Mirror.ofGraph t g).backward g.stop).contains uid

/-- What is found of reachability. -/
theorem checkReachability_eq (t : Toolkit) (g : Graph) :
    checkReachability g (Mirror.ofGraph t g) =
      if g.stop ∈ t.walk (Mirror.ofGraph t g).forward g.start then
        if unreachableUids t g = [] then none else some (.unreachable (unreachableUids t g))
      else some .endUnreachable := by
  rw [checkReachability, unreachableUids]
  by_cases h : g.stop ∈ t.walk (Mirror.ofGraph t g).forward g.start
  · rw [if_pos h, if_neg (by simpa using h)]
    split <;> simp_all
  · rw [if_neg h, if_pos (by simpa using h)]

/-- What is found of dead ends. -/
theorem checkDeadEnds_eq (t : Toolkit) (g : Graph) :
    checkDeadEnds g (Mirror.ofGraph t g) =
      if deadEndUids t g = [] then none else some (.deadEnds (deadEndUids t g)) := by
  rw [checkDeadEnds, deadEndUids]
  split <;> simp_all

/-! ### What is reported -/

section Lawful

variable (ht : t.Lawful) (hg : g.Valid)
include ht hg

/-- Loops are the only thing that the first check finds, and they are errors. -/
theorem reports_acyclic :
    ((examineWith t g).Reports .acyclic .error ↔ ∃ x, g.OnLoop x) ∧
      ¬ (examineWith t g).Reports .acyclic .warn := by
  have hnone := selfLoops_sort_iff ht hg
  have hsome := fun e he => (exists_unorderable ht hg (e := e) he).1
  rw [reports_iff, reports_iff, detail?]
  rw [← not_iff_not, not_exists, ← hnone]
  unfold checkAcyclic
  generalize (Mirror.ofGraph t g).selfLoops = loops
  generalize t.sortError? (Mirror.ofGraph t g).forward = sorted
  rcases loops with _ | ⟨u, us⟩ <;> rcases sorted with _ | (components | message) <;>
    simp [Finding.status, Detail.status]

theorem reports_acyclic_ok_iff :
    (examineWith t g).Reports .acyclic .ok ↔ ∀ x, ¬ g.OnLoop x := by
  obtain ⟨herror, hwarn⟩ := reports_acyclic ht hg
  rw [reports_ok_iff, herror, not_exists]
  exact and_iff_left hwarn

section Start

variable (hstart : g.Known g.start)
include hstart

theorem mem_unreachableUids : x ∈ unreachableUids t g ↔ g.Known x ∧ ¬ g.Reaches g.start x := by
  simp only [unreachableUids, List.mem_filter, mem_uids, List.contains_eq_mem, Bool.not_eq_true',
    decide_eq_false_iff_not, mem_walk_forward_iff ht hg hstart, Known]

/-- Whether the end can be reached, and all blocks, is told by errors and warnings. -/
theorem reports_reachability :
    ((examineWith t g).Reports .reachability .error ↔ ¬ g.Reaches g.start g.stop) ∧
      ((examineWith t g).Reports .reachability .warn ↔
        g.Reaches g.start g.stop ∧ ∃ x, g.Known x ∧ ¬ g.Reaches g.start x) := by
  rw [exists_iff_ne_nil fun x => mem_unreachableUids (x := x) ht hg hstart,
    ← mem_walk_forward_iff ht hg hstart, reports_iff, reports_iff, detail?, checkReachability_eq]
  split_ifs with hend hall
  · simp [Finding.status, hend, hall]
  · simp [Finding.status, Detail.status, hend, hall]
  · simp [Finding.status, Detail.status, hend]

/-- Nothing is reported of reachability iff all blocks can be reached. -/
theorem reports_reachability_ok_iff :
    (examineWith t g).Reports .reachability .ok ↔
      g.Reaches g.start g.stop ∧ ∀ x, g.Known x → g.Reaches g.start x := by
  obtain ⟨herror, hwarn⟩ := reports_reachability ht hg hstart
  rw [reports_ok_iff, herror, hwarn, not_not]
  refine and_congr_right fun hstop => ?_
  simp only [hstop, true_and, not_exists, not_and, not_not]

/-- A warning of the second check names the blocks that cannot be reached. -/
theorem names_unreachable {r : Remark} (hr : r ∈ (examineWith t g).remarks)
    (hcheck : r.check = "reachability") (hstatus : r.status = .warn) :
    Names g "unreachable from start: " r.detail fun x => g.Known x ∧ ¬ g.Reaches g.start x := by
  obtain ⟨check, rfl⟩ := mem_remarks.mp hr
  obtain rfl : check = .reachability := Check.name_injective hcheck
  have hnames := names_labelList (g := g) "unreachable from start: "
    ((pairwise_uids hg).filter _) fun x => mem_unreachableUids (x := x) ht hg hstart
  dsimp only [detail?] at hstatus ⊢
  rw [checkReachability_eq] at hstatus ⊢
  split_ifs at hstatus ⊢ with hend hall
  · exact absurd hstatus (by decide)
  · exact hnames
  · exact absurd hstatus (by decide)

end Start

section StartStop

variable (hstart : g.Known g.start) (hstop : g.Known g.stop)
include hstart hstop

theorem mem_deadEndUids :
    x ∈ deadEndUids t g ↔ g.Reaches g.start x ∧ ¬ g.Reaches x g.stop := by
  simp only [deadEndUids, List.mem_filter, mem_uids, Bool.and_eq_true, List.contains_eq_mem,
    decide_eq_true_eq, Bool.not_eq_true', decide_eq_false_iff_not,
    mem_walk_forward_iff ht hg hstart, mem_walk_backward_iff ht hg hstop]
  exact ⟨fun h => h.2, fun h => ⟨hg.known_of_reaches hstart h.1, h⟩⟩

/-- Whether there are dead ends is told by warnings. -/
theorem reports_deadEnds :
    ¬ (examineWith t g).Reports .deadEnds .error ∧
      ((examineWith t g).Reports .deadEnds .warn ↔
        ∃ x, g.Reaches g.start x ∧ ¬ g.Reaches x g.stop) := by
  rw [exists_iff_ne_nil fun x => mem_deadEndUids (x := x) ht hg hstart hstop, reports_iff,
    reports_iff, detail?, checkDeadEnds_eq]
  split_ifs with hall <;> simp [Finding.status, Detail.status, hall]

/-- A warning of the third check names the dead ends. -/
theorem names_deadEnds {r : Remark} (hr : r ∈ (examineWith t g).remarks)
    (hcheck : r.check = "dead-ends") (hstatus : r.status = .warn) :
    Names g "pruned, cannot reach end: " r.detail
      fun x => g.Reaches g.start x ∧ ¬ g.Reaches x g.stop := by
  obtain ⟨check, rfl⟩ := mem_remarks.mp hr
  obtain rfl : check = .deadEnds := Check.name_injective hcheck
  have hnames := names_labelList (g := g) "pruned, cannot reach end: "
    ((pairwise_uids hg).filter _) fun x => mem_deadEndUids (x := x) ht hg hstart hstop
  dsimp only [detail?] at hstatus ⊢
  rw [checkDeadEnds_eq] at hstatus ⊢
  split_ifs at hstatus ⊢ with hall
  · exact absurd hstatus (by decide)
  · exact hnames

end StartStop

/-! ### Declared dominators -/

/-- **Which declared dominators are listed**: those of reachable blocks that are not immediate,
each with whether it strictly dominates at all. -/
theorem exists_mem_misdeclared_iff (hstart : g.Known g.start) (right : Bool) :
    (∃ m, (m, right) ∈ misdeclared g (Mirror.ofGraph t g)) ↔
      ∃ b ∈ g.blocks, b.uid ≠ g.start ∧ g.Reaches g.start b.uid ∧
        ¬ g.ImmediatelyDominates b.dominator b.uid ∧
        (right = true ↔ g.StrictlyDominates b.dominator b.uid) := by
  have hwalk := fun x => mem_walk_forward_iff (x := x) ht hg hstart
  constructor
  · rintro ⟨m, hlisted⟩
    obtain ⟨b, hb, hentry⟩ := List.mem_filterMap.mp hlisted
    split_ifs at hentry with hskip
    simp only [Bool.or_eq_true, not_or, decide_eq_true_eq, Bool.not_eq_true', Bool.not_eq_false,
      List.contains_eq_mem, hwalk] at hskip
    obtain ⟨hne, hreach⟩ := hskip
    obtain ⟨i, hi, himm⟩ := exists_dominatorOf ht hg hstart hreach hne
    rw [hi] at hentry
    dsimp only at hentry
    split_ifs at hentry with hdecl
    obtain ⟨-, rfl⟩ := Prod.mk.inj (Option.some_inj.mp hentry)
    exact ⟨b, hg.mem_sortedBlocks.mp hb, hne, hreach, fun h => hdecl (h.unique himm hreach),
      climbs_iff ht hg hstart hreach⟩
  · rintro ⟨b, hb, hne, hreach, himm, hstrict⟩
    obtain ⟨i, hi, himm'⟩ := exists_dominatorOf ht hg hstart hreach hne
    have hdecl : b.dominator ≠ i := by
      rintro rfl
      exact himm himm'
    rw [← climbs_iff ht hg hstart hreach, ← Bool.eq_iff_iff] at hstrict
    refine ⟨⟨b.uid, b.dominator, i⟩, List.mem_filterMap.mpr ⟨b, hg.mem_sortedBlocks.mpr hb, ?_⟩⟩
    simp [hne, hwalk, hreach, hi, hdecl, hstrict]

omit ht hg in
/-- What is found of dominators. -/
theorem status_checkDominators :
    ((examineWith t g).Reports .dominators .error ↔
      ∃ m, (m, false) ∈ misdeclared g (Mirror.ofGraph t g)) ∧
    ((examineWith t g).Reports .dominators .warn ↔
      (¬ ∃ m, (m, false) ∈ misdeclared g (Mirror.ofGraph t g)) ∧
        ∃ m, (m, true) ∈ misdeclared g (Mirror.ofGraph t g)) := by
  rw [reports_iff, reports_iff, detail?, checkDominators]
  generalize misdeclared g (Mirror.ofGraph t g) = found
  have hwrong : (∃ m, (m, false) ∈ found) ↔ found.filter (!·.2) ≠ [] := by
    simp [List.filter_eq_nil_iff]
  have hloose : (∃ m, (m, true) ∈ found) ↔ found.filter (·.2) ≠ [] := by
    simp [List.filter_eq_nil_iff]
  rw [hwrong, hloose]
  generalize found.filter (!·.2) = wrong
  generalize found.filter (·.2) = loose
  rcases wrong with _ | ⟨w, ws⟩ <;> rcases loose with _ | ⟨l, ls⟩ <;>
    simp [Finding.status, Detail.status]

/-- Errors tell of declared dominators that do not strictly dominate. Where there are none, warnings
tell of those that are not immediate. -/
theorem reports_dominators (hstart : g.Known g.start) :
    ((examineWith t g).Reports .dominators .error ↔
      ∃ b ∈ g.blocks, b.uid ≠ g.start ∧ g.Reaches g.start b.uid ∧
        ¬ g.StrictlyDominates b.dominator b.uid) ∧
    ((examineWith t g).Reports .dominators .warn ↔
      (∀ b ∈ g.blocks, b.uid ≠ g.start → g.Reaches g.start b.uid →
        g.StrictlyDominates b.dominator b.uid) ∧
      ∃ b ∈ g.blocks, b.uid ≠ g.start ∧ g.Reaches g.start b.uid ∧
        ¬ g.ImmediatelyDominates b.dominator b.uid) := by
  obtain ⟨herror, hwarn⟩ := status_checkDominators (t := t) (g := g)
  have hwrong : (∃ m, (m, false) ∈ misdeclared g (Mirror.ofGraph t g)) ↔
      ∃ b ∈ g.blocks, b.uid ≠ g.start ∧ g.Reaches g.start b.uid ∧
        ¬ g.StrictlyDominates b.dominator b.uid := by
    rw [exists_mem_misdeclared_iff ht hg hstart]
    refine exists_congr fun b => and_congr_right fun _ => and_congr_right fun _ =>
      and_congr_right fun _ => ?_
    rw [Bool.false_eq_true, false_iff]
    exact ⟨fun h => h.2, fun h => ⟨fun himm => h himm.1, h⟩⟩
  refine ⟨herror.trans hwrong, hwarn.trans ?_⟩
  rw [hwrong, exists_mem_misdeclared_iff ht hg hstart]
  simp only [not_exists, not_and, not_not, true_iff]
  refine and_congr_right fun hall => ?_
  refine exists_congr fun b => and_congr_right fun hb => and_congr_right fun hne =>
    and_congr_right fun hreach => ?_
  exact and_iff_left (hall b hb hne hreach)

end Lawful

/-- The end is not in error as long as it is a block. -/
theorem not_reports_endBlock (hstop : g.Known g.stop) :
    ¬ (examineWith t g).Reports .endBlock .error := by
  obtain ⟨b, hb⟩ := exists_block?_iff.mpr hstop
  rw [reports_iff, detail?, checkEnd, hb]
  dsimp only
  split <;> simp [Finding.status, Detail.status]

/-- A graph is healthy iff no check reports an error. -/
theorem isHealthy_examineWith_iff (t : Toolkit) (g : Graph) :
    (examineWith t g).isHealthy = true ↔ ∀ check, ¬ (examineWith t g).Reports check .error := by
  simp only [Examination.isHealthy, List.all_eq_true, Examination.Reports, not_exists, not_and,
    decide_eq_true_eq]
  constructor
  · exact fun h _ r hr _ => h r hr
  · intro h r hr
    obtain ⟨check, hcheck⟩ := mem_remarks.mp hr
    exact h check r hr (by rw [hcheck])

/-! ### Diagnoses -/

/-- What an examination says about a graph is true, and it says all of it. -/
structure Diagnosis (g : Graph) (e : Examination) : Prop where
  /-- Each check is reported once. -/
  checks : e.remarks.map (·.check) =
    ["acyclic", "reachability", "dead-ends", "dominators", "end-block"]
  acyclic : (e.Reports .acyclic .error ↔ ∃ x, g.OnLoop x) ∧ ¬ e.Reports .acyclic .warn
  reachability :
    (e.Reports .reachability .error ↔ ¬ g.Reaches g.start g.stop) ∧
    (e.Reports .reachability .warn ↔
      g.Reaches g.start g.stop ∧ ∃ x, g.Known x ∧ ¬ g.Reaches g.start x)
  /-- A warning names the blocks that cannot be reached. -/
  unreachable : ∀ r ∈ e.remarks, r.check = "reachability" → r.status = .warn →
    Names g "unreachable from start: " r.detail fun x => g.Known x ∧ ¬ g.Reaches g.start x
  deadEnds :
    ¬ e.Reports .deadEnds .error ∧
    (e.Reports .deadEnds .warn ↔ ∃ x, g.Reaches g.start x ∧ ¬ g.Reaches x g.stop)
  /-- A warning names the dead ends. -/
  pruned : ∀ r ∈ e.remarks, r.check = "dead-ends" → r.status = .warn →
    Names g "pruned, cannot reach end: " r.detail
      fun x => g.Reaches g.start x ∧ ¬ g.Reaches x g.stop
  dominators :
    (e.Reports .dominators .error ↔
      ∃ b ∈ g.blocks, b.uid ≠ g.start ∧ g.Reaches g.start b.uid ∧
        ¬ g.StrictlyDominates b.dominator b.uid) ∧
    (e.Reports .dominators .warn ↔
      (∀ b ∈ g.blocks, b.uid ≠ g.start → g.Reaches g.start b.uid →
        g.StrictlyDominates b.dominator b.uid) ∧
      ∃ b ∈ g.blocks, b.uid ≠ g.start ∧ g.Reaches g.start b.uid ∧
        ¬ g.ImmediatelyDominates b.dominator b.uid)
  endBlock : ¬ e.Reports .endBlock .error
  healthy : e.isHealthy = true ↔ ∀ check, ¬ e.Reports check .error

/-- **Findings are correct**, whatever lawful toolkit the mirrors are taken from, for every graph
whose start and end are blocks. -/
theorem diagnosis_examineWith (ht : t.Lawful) (hg : g.Built) (hstart : g.Known g.start)
    (hstop : g.Known g.stop) : Diagnosis g (examineWith t g) where
  checks := rfl
  acyclic := reports_acyclic ht hg.valid
  reachability := reports_reachability ht hg.valid hstart
  unreachable _ hr := names_unreachable ht hg.valid hstart hr
  deadEnds := reports_deadEnds ht hg.valid hstart hstop
  pruned _ hr := names_deadEnds ht hg.valid hstart hstop hr
  dominators := reports_dominators ht hg.valid hstart
  endBlock := not_reports_endBlock hstop
  healthy := isHealthy_examineWith_iff t g

/-- A loop, a dead end, a block that cannot be reached, a dominator that does not dominate and one
that does so from too far away. -/
def ailingText : String :=
  "BasicBlock bd_0: 1
    A: Dominator = NULL
    br i1 %c, label %B, label %C
  BasicBlock b_2: 7
    B: Dominator = bd_0
    br i1 %d, label %D, label %trap
  BasicBlock b_3: 3
    C: Dominator = bd_0
    br i1 %e, label %C, label %D
  BasicBlock b_4: 5
    D: Dominator = b_2
    br label %E
  BasicBlock b_5: 2
    trap: Dominator = b_2
    unreachable
  BasicBlock b_6: 2
    orphan: Dominator = NULL
    br label %E
  BasicBlock bd_1: 2
    E: Dominator = bd_0
    ret void"

/-- The graph of `ailingText`. -/
def ailing : Graph where
  blocks :=
    [ { uid := 0, label := "A", selector := "bs_0", written := "bd_0", cost := 1 },
      { uid := 2, label := "B", selector := "b_2", written := "b_2", cost := 7, dominator := 0 },
      { uid := 3, label := "C", selector := "b_3", written := "b_3", cost := 3, dominator := 0 },
      { uid := 4, label := "D", selector := "b_4", written := "b_4", cost := 5, dominator := 2 },
      { uid := 5, label := "trap", selector := "b_5", written := "b_5", cost := 2, dominator := 2 },
      { uid := 6, label := "orphan", selector := "b_6", written := "b_6", cost := 2 },
      { uid := 1, label := "E", selector := "bs_1", written := "bd_1", cost := 2,
        dominator := 0 } ]
  edges := [⟨⟨0, 2⟩, 0⟩, ⟨⟨0, 3⟩, 0⟩, ⟨⟨2, 4⟩, 0⟩, ⟨⟨2, 5⟩, 0⟩, ⟨⟨3, 3⟩, 0⟩, ⟨⟨3, 4⟩, 0⟩,
    ⟨⟨4, 1⟩, 0⟩, ⟨⟨6, 1⟩, 0⟩]
  start := 0
  stop := 1

theorem diagnosis_examineWith_ailing :
    (examineWith .standard ailing).remarks.map (fun r => (r.status, r.detail)) =
      [(.error, "self loop on C"), (.warn, "unreachable from start: orphan"),
        (.warn, "pruned, cannot reach end: trap"),
        (.error, "not dominating: D (declared B, immediate A)"), (.ok, "")] ∧
      Diagnosis ailing (examineWith .standard ailing) := by
  have hread : ofListing ailingText = .ok ailing := by
    refine ok_of_toOption_eq_some ?_
    rw [ofListing, ailingText, String.toList_ofList]
    decide +kernel
  have hknown : ∀ x ∈ [ailing.start, ailing.stop], x ∈ ailing.blocks.map (·.uid) := by decide
  exact ⟨by decide, diagnosis_examineWith Toolkit.lawful_standard (.listing hread)
    (hknown _ (by decide)) (hknown _ (by decide))⟩

end WorstCase.Health
