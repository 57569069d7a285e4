import WorstCase.Proofs.Encoding.DifferenceLogic
import WorstCase.Proofs.Graph.Listing

/-!
# Costs that are exact, and costs that wrap

Costs are 64-bit integers, and nothing checks their sums. What is stored for a query, for a cut or
as a constant of difference logic is the exact integer modulo 2⁶⁴, so that it is exact iff 64 bits
can hold the integer.

* The cost of a query is that of the path it returns. No simple path costs more, if 64 bits can hold
  the costs of all simple paths that are compared on the way (`Graph.Charges`).
* The constants of difference logic add the cost of a block to that of an edge or of a cut
  (`Encoding.Difference.Allows`). They are looked for in all parts of all asserted terms
  (`Term.PartOf`).

`Encoding.costs_exact` collects this for queries, cuts and problems. Where a sum wraps, a query may
return a path that is not the longest one (`Encoding.exists_longer_path`).
-/

namespace WorstCase

/-! ### Parts of terms -/

/-- `s` is a part of a term, or the term itself. -/
inductive Term.PartOf (s : Term) : Term → Prop
  | self : PartOf s s
  | arg {op : Operator} {args : List Term} {t : Term} (ht : t ∈ args) (h : PartOf s t) :
      PartOf s (.app op args)

namespace Term

variable {s : Term}

@[simp] theorem partOf_var {name : String} : s.PartOf (.var name) ↔ s = .var name := by
  constructor
  · rintro ⟨⟩
    rfl
  · rintro rfl
    exact .self

@[simp] theorem partOf_int {n : Int64} : s.PartOf (.int n) ↔ s = .int n := by
  constructor
  · rintro ⟨⟩
    rfl
  · rintro rfl
    exact .self

@[simp] theorem partOf_app {op : Operator} {args : List Term} :
    s.PartOf (.app op args) ↔ s = .app op args ∨ ∃ t ∈ args, s.PartOf t := by
  constructor
  · rintro (_ | ⟨ht, h⟩)
    · exact .inl rfl
    · exact .inr ⟨_, ht, h⟩
  · rintro (rfl | ⟨t, ht, h⟩)
    · exact .self
    · exact .arg ht h

variable {x y : Term} {n : Int64}

/-- A bound on a difference in a disjunction is in one of its terms. -/
theorem exists_partOf_disj {ts : List Term} (h : (Term.le (.diff x y) (.int n)).PartOf (.disj ts)) :
    ∃ t ∈ ts, (Term.le (.diff x y) (.int n)).PartOf t := by
  rcases ts with _ | ⟨t, _ | ⟨t', ts⟩⟩
  · simp [disj, nary, Term.le] at h
  · exact ⟨t, List.mem_cons_self, h⟩
  · rw [disj, nary_of_length_ne_one (by simp), partOf_app] at h
    exact h.resolve_left (by simp [Term.le])

/-- The only bound in a bound on the difference of two cost variables is the bound itself. -/
theorem partOf_costBound {a b : Block} {m : Int64}
    (h : (Term.le (.diff x y) (.int n)).PartOf (.le (.diff b.costTerm a.costTerm) (.int m))) :
    x = b.costTerm ∧ y = a.costTerm ∧ n = m := by
  simp only [Term.le, diff, Block.costTerm, partOf_app, List.mem_cons, List.not_mem_nil, or_false,
    exists_eq_or_imp, exists_eq_left, partOf_var, partOf_int] at h
  simpa [Block.costTerm, and_assoc] using h

end Term

namespace Graph

variable {g : Graph} {src dst : Int}

/-! ### Costs of paths -/

/-- `cost` is what 64 bits hold of the cost of the simple path `p`. It is exact iff they can hold
that cost, and where they can hold all costs that are compared, no simple path costs more. -/
structure Charges (g : Graph) (src dst : Int) (cost : Int64) (p : List Int) : Prop where
  walk : g.Walk src p dst
  nodup : p.Nodup
  stored : cost = Int64.ofInt (g.pathCost p)
  exact_iff : cost.toInt = g.pathCost p ↔ Fits64 (g.pathCost p)
  largest : g.PathsFit src dst → cost.toInt = g.pathCost p ∧
    ∀ q, g.Walk src q dst → q.Nodup → g.pathCost q ≤ cost.toInt

/-- **The cost of a query** is that of its path. -/
theorem Valid.charges (hg : g.Valid) {r : LongestPath} (h : g.longestPath src dst = .ok r) :
    g.Charges src dst r.cost r.path := by
  obtain ⟨hwalk, hnd, hstored⟩ := hg.longestPath_modulo h
  refine ⟨hwalk, hnd, hstored, by rw [hstored, toInt_ofInt_eq_iff], fun hfit => ⟨?_, ?_⟩⟩
  · exact ((hfit.sumsFit hg).longestPath_walk hg h).2.2
  · exact fun q hq hqnd => (hfit.sumsFit hg).pathCost_le_longestPath hg h hq hqnd

end Graph

namespace Encoding

namespace Difference

variable {g : Graph} {x y : Term} {n : Int64}

/-! ### Constants of difference logic -/

/-- By how much the cost variable of a block may exceed another one, exactly: by the cost of the
block and of an edge into it, or by that of a block and of a cut whose tail it is. -/
inductive Allows (g : Graph) : Term → Term → Int → Prop
  | edge {e : Edge} {src dst : Block} (he : e ∈ g.edges) (hsrc : g.block? e.id.src = some src)
      (hdst : g.block? e.id.dst = some dst) :
      Allows g dst.costTerm src.costTerm (dst.cost.toInt + e.cost.toInt)
  | cut {c : Cut} {head tail : Block} {p : List Int} (hc : c ∈ g.cuts)
      (hhead : g.block? c.id.head = some head) (htail : g.block? c.id.tail = some tail)
      (hp : g.Charges c.id.head c.id.tail c.cost p) :
      Allows g tail.costTerm head.costTerm (g.pathCost p + tail.cost.toInt)

/-- The constant of a bound that a predecessor gives. -/
theorem exists_allows_of_bound (hg : g.Valid) {b : Block} (hb : b ∈ g.blocks) {uid : Int}
    (huid : uid ∈ g.preds b.uid) {t : Term} (ht : bound g b uid = some t)
    (h : (Term.le (.diff x y) (.int n)).PartOf t) :
    ∃ k, Allows g x y k ∧ n = Int64.ofInt k := by
  obtain ⟨e, hedge, he, hid⟩ := hg.exists_edge (Graph.mem_preds_iff.mp huid)
  obtain ⟨pred, hpred⟩ := hg.exists_block_src he
  have hdst : g.block? e.id.dst = some b := by
    rw [hid]
    exact hg.block?_eq_some_iff.mpr ⟨hb, rfl⟩
  have hpred' : g.block? uid = some pred := by
    rw [← hpred, hid]
  rw [bound_eq hpred', Option.some_inj] at ht
  subst ht
  obtain ⟨rfl, rfl, rfl⟩ := Term.partOf_costBound h
  refine ⟨_, .edge he hpred hdst, ?_⟩
  rw [hedge, Option.map_some, Option.getD_some, Int64.ofInt_add, Int64.ofInt_toInt, Int64.ofInt_toInt]

/-- **The constants of all bounds on differences** are what they should be, modulo 2⁶⁴. -/
theorem exists_allows_of_stated (hg : g.Valid) (hcuts : g.CutsCurrent) {impliesEnds : Bool}
    {start stop : Block} {longest : Int64} {t : Term}
    (ht : Stated impliesEnds g start stop longest t)
    (h : (Term.le (.diff x y) (.int n)).PartOf t) : ∃ k, Allows g x y k ∧ n = Int64.ofInt k := by
  cases ht with
  | entry hb hpreds => simp [Term.le, Term.diff, Block.costTerm] at h
  | @block b hb hbounds =>
    have hdisj : (Term.le (.diff x y) (.int n)).PartOf
        (.disj ((g.preds b.uid).filterMap (bound g b))) := by
      simpa [Term.imply, Term.le, Block.chosen] using h
    obtain ⟨t, ht, hpart⟩ := Term.exists_partOf_disj hdisj
    obtain ⟨uid, huid, hbound⟩ := List.mem_filterMap.mp ht
    exact exists_allows_of_bound hg hb huid hbound hpart
  | @edge e src dst he hsrc hdst =>
    have hbound : (Term.le (.diff x y) (.int n)).PartOf
        (.le (.diff dst.costTerm src.costTerm) (.int (e.cost + dst.cost))) := by
      rw [edgeBound, Term.imply, Term.partOf_app] at h
      simpa [Term.le, Edge.chosen] using h
    obtain ⟨rfl, rfl, rfl⟩ := Term.partOf_costBound hbound
    refine ⟨_, .edge he hsrc hdst, ?_⟩
    rw [Int64.ofInt_add, Int64.ofInt_toInt, Int64.ofInt_toInt, Int64.add_comm]
  | ends he hsrc hdst =>
    simp [edgeEnds, Term.conj, Term.nary, Term.imply, Term.le, Edge.chosen, Block.chosen] at h
  | @cut c head tail hc hhead htail =>
    obtain ⟨rfl, rfl, rfl⟩ := Term.partOf_costBound h
    obtain ⟨r, hquery, hcost, -, -⟩ := hcuts.query c hc
    have hcharges := hg.charges hquery
    rw [← hcost] at hcharges
    refine ⟨_, .cut hc hhead htail hcharges, ?_⟩
    rw [Int64.ofInt_add, ← hcharges.stored, Int64.ofInt_toInt]
  | chosen => simp [Term.conj, Term.nary, Term.le, Block.chosen] at h
  | objective => simp [Term.conj, Term.nary, Term.le, Term.diff, Block.costTerm] at h

end Difference

open Difference in
/-- **Costs are exact as far as 64 bits can hold them.** The cost that a query returns, that a cut
stores or that bounds an objective is the cost of a simple path, and the constants of difference
logic are sums of costs, all of them modulo 2⁶⁴. So they are exact iff the exact integers fit, and
the cost of a query is the largest one if all costs fit that are compared. -/
theorem costs_exact {g : Graph} (hg : g.Annotated) :
    (∀ src dst r, g.longestPath src dst = .ok r → g.Charges src dst r.cost r.path) ∧
      (∀ c ∈ g.cuts, ∃ p, g.Charges c.id.head c.id.tail c.cost p) ∧
      ∀ (enc : Encoding) impliesEnds q stats,
        g.emit {} enc.code impliesEnds = (q, .ok stats) →
          (∃ p, g.Charges g.start g.stop stats.longest p) ∧
          (enc = .differenceLogic → ∀ t ∈ q.assertedTerms, ∀ x y n,
            (Term.le (.diff x y) (.int n)).PartOf t →
              ∃ k, Allows g x y k ∧ n = Int64.ofInt k ∧ (n.toInt = k ↔ Fits64 k)) := by
  have hvalid := hg.built.valid
  have hcuts := hg.cutsCurrent
  refine ⟨fun src dst r hr => hvalid.charges hr, fun c hc => ?_,
    fun enc impliesEnds q stats hemit => ⟨?_, ?_⟩⟩
  · obtain ⟨r, hquery, hcost, -, -⟩ := hcuts.query c hc
    exact ⟨r.path, hcost ▸ hvalid.charges hquery⟩
  · obtain ⟨start, stop, r, -, -, hquery, hlongest, -⟩ := Graph.emit_eq_ok hemit
    exact ⟨r.path, hlongest ▸ hvalid.charges hquery⟩
  · rintro rfl t ht x y n hpart
    obtain ⟨start, stop, r, -, -, -, -, hstates⟩ := Difference.states_of_emit hemit
    have hstated := stated_of_mem_terms hvalid hcuts.ids_nodup (hstates.mem t ht)
    obtain ⟨k, hk, rfl⟩ := exists_allows_of_stated hvalid hcuts hstated hpart
    exact ⟨k, hk, rfl, toInt_ofInt_eq_iff⟩

/-- A chain of two blocks that cost as much together as 64 bits can hold, with a cut. -/
def brimful : Graph where
  blocks :=
    [ { uid := 0, selector := "bs_0", written := "bs_0", cost := 1 },
      { uid := 1, selector := "b_1", written := "b_1", cost := 9223372036854775806, dominator := 0 } ]
  edges := [⟨⟨0, 1⟩, 0⟩]
  cuts := [⟨⟨0, 1⟩, 9223372036854775807, [0, 1], [⟨0, 1⟩]⟩]
  start := 0
  stop := 1

/-- The cost of the chain is exact. (That of the cut and of its tail together is not.) -/
theorem costs_exact_brimful :
    brimful.Annotated ∧ brimful.Charges 0 1 9223372036854775807 [0, 1] ∧
      (9223372036854775807 : Int64).toInt = brimful.pathCost [0, 1] ∧
      ∃ q stats, brimful.emit {} Encoding.differenceLogic.code false = (q, .ok stats) ∧
        ∀ t ∈ q.assertedTerms, ∀ x y n, (Term.le (.diff x y) (.int n)).PartOf t →
          ∃ k, Difference.Allows brimful x y k ∧ n = Int64.ofInt k ∧ (n.toInt = k ↔ Fits64 k) := by
  have hbuilt : Graph.Built { blocks := brimful.blocks, edges := brimful.edges } :=
    (Graph.Built.empty.foldlM_addBlock
      (show brimful.blocks.foldlM Graph.addBlock {} = .ok { blocks := brimful.blocks } by
        decide +kernel)).foldlM_addEdge
      (show brimful.edges.foldlM Graph.addEdge { blocks := brimful.blocks } =
          .ok { blocks := brimful.blocks, edges := brimful.edges } by
        decide +kernel)
  have hannotated : brimful.Annotated :=
    ⟨_, hbuilt, rfl, .tail
      (.single (.endpoints (show Graph.setEndpoints _ 0 1 = .ok { brimful with cuts := [] } by
        decide +kernel)))
      (.cut (show Graph.addCut _ ⟨0, 1⟩ = .ok (brimful, true) by decide +kernel))⟩
  have hquery : brimful.longestPath 0 1 =
      .ok { cost := 9223372036854775807, path := [0, 1], blocks := [0, 1], edges := [⟨0, 1⟩] } := by
    decide +kernel
  have hemit : (brimful.emit {} Encoding.differenceLogic.code false).2 =
      .ok { encoding := .differenceLogic, paths := 1, cuts := 1, longest := 9223372036854775807 } := by
    decide +kernel
  obtain ⟨hqueries, -, hproblems⟩ := costs_exact hannotated
  have hcharges := hqueries 0 1 _ hquery
  exact ⟨hannotated, hcharges, hcharges.exact_iff.mpr ⟨by decide, by decide⟩, _, _,
    Prod.ext rfl hemit, (hproblems .differenceLogic false _ _ (Prod.ext rfl hemit)).2 rfl⟩

/-! ### A sum that wraps -/

/-- A branch through a block whose cost is as large as it can be. -/
def steepText : String :=
  "BasicBlock bd_0: 1
A:
  Dominator = NULL
  br label %B, label %C
BasicBlock b_2: 9223372036854775807
B:
  Dominator = bd_0
  br label %D
BasicBlock b_3: 5
C:
  Dominator = bd_0
  br label %D
BasicBlock bd_1: 1
D:
  Dominator = bd_0
  ret void
"

/-- The graph of `steepText`. -/
def steep : Graph where
  blocks :=
    [ { uid := 0, label := "A", selector := "bs_0", written := "bd_0", cost := 1 },
      { uid := 2, label := "B", selector := "b_2", written := "b_2", cost := 9223372036854775807,
        dominator := 0 },
      { uid := 3, label := "C", selector := "b_3", written := "b_3", cost := 5, dominator := 0 },
      { uid := 1, label := "D", selector := "bs_1", written := "bd_1", cost := 1, dominator := 0 } ]
  edges := [⟨⟨0, 2⟩, 0⟩, ⟨⟨0, 3⟩, 0⟩, ⟨⟨2, 1⟩, 0⟩, ⟨⟨3, 1⟩, 0⟩]
  start := 0
  stop := 1

/-- **Sums may wrap**: the query returns a path of cost 7, although there is one that costs more
than 64 bits can hold. -/
theorem exists_longer_path :
    ∃ g r p, Graph.ofListing steepText = .ok g ∧ g.longestPath 0 1 = .ok r ∧ r.cost = 7 ∧
      (g.Walk 0 p 1 ∧ p.Nodup) ∧ r.cost.toInt < g.pathCost p ∧ ¬ Fits64 (g.pathCost p) := by
  have hlisting : Graph.ofListing steepText = .ok steep := by
    refine ok_of_toOption_eq_some ?_
    rw [Graph.ofListing, steepText, String.toList_ofList]
    decide +kernel
  have hquery : steep.longestPath 0 1 =
      .ok { cost := 7, path := [0, 3, 1], blocks := [0, 1, 2, 3],
            edges := [⟨0, 2⟩, ⟨0, 3⟩, ⟨2, 1⟩, ⟨3, 1⟩] } := by
    decide +kernel
  have hwalk : steep.Walk 0 [0, 2, 1] 1 :=
    .step (show steep.Arc 0 2 by decide) (.step (show steep.Arc 2 1 by decide) (.single 1))
  have hcost : steep.pathCost [0, 2, 1] = 9223372036854775809 := by decide
  refine ⟨steep, _, [0, 2, 1], hlisting, hquery, rfl, ⟨hwalk, by decide⟩, ?_, ?_⟩
  · rw [hcost]
    decide
  · rw [hcost]
    exact fun h => absurd h.2 (by decide)

end Encoding

end WorstCase
