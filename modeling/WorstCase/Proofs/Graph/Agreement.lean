import WorstCase.Proofs.Graph.PathCount
import WorstCase.Proofs.Graph.Progress
import WorstCase.Proofs.Graph.Region

/-!
# Graphs that agree on some blocks

Two graphs **agree** on the blocks of a class if lookups of these blocks, and of the edges out of
them, return the same in both graphs and no such edge leads out of the class
(`Graph.AgreeOn`). The lists of the graphs may be in different orders, and there may be other
blocks.

Walks from blocks of the class are the same in both graphs. If all that reaches the destination of
a query lies in the class, and the query succeeds in both graphs, then it returns the same cost
(`Graph.AgreeOn.cost_longestPath_eq`), the same region inside the class
(`Graph.AgreeOn.region_eq`) and the same number of paths (`Graph.AgreeOn.countPaths_eq`). Sweeps
through the two graphs may visit blocks in different orders; that costs agree is shown along the
history of one of them, and does not depend on sums that wrap.
-/

namespace WorstCase

namespace Graph

/-- `g` and `g'` agree on the blocks with `P`, which no edge out of them leaves. -/
structure AgreeOn (P : Int → Prop) (g g' : Graph) : Prop where
  block?_eq : ∀ {u}, P u → g'.block? u = g.block? u
  edge?_eq : ∀ {a}, P a → ∀ c, g'.edge? a c = g.edge? a c
  closed : ∀ {a c}, P a → g.Arc a c → P c

namespace AgreeOn

variable {P : Int → Prop} {g g' : Graph}

/-! ### Costs and walks -/

theorem blockCost_eq (h : AgreeOn P g g') {u : Int} (hu : P u) :
    g'.blockCost u = g.blockCost u := by
  rw [blockCost, blockCost, h.block?_eq hu]

theorem edgeCost_eq (h : AgreeOn P g g') {id : EdgeId} (hid : P id.src) :
    g'.edgeCost id = g.edgeCost id := by
  rw [edgeCost, edgeCost, h.edge?_eq hid]

theorem arc_iff (h : AgreeOn P g g') {a c : Int} (ha : P a) : g'.Arc a c ↔ g.Arc a c := by
  unfold Arc
  rw [← edge?_isSome_iff, ← edge?_isSome_iff, h.edge?_eq ha]

theorem walk_iff (h : AgreeOn P g g') {a c : Int} {p : List Int} (ha : P a) :
    g'.Walk a p c ↔ g.Walk a p c := by
  constructor
  · intro hp
    induction hp with
    | single a => exact .single a
    | step hab _ ih =>
      have hab' := (h.arc_iff ha).mp hab
      exact .step hab' (ih (h.closed ha hab'))
  · intro hp
    induction hp with
    | single a => exact .single a
    | step hab _ ih => exact .step ((h.arc_iff ha).mpr hab) (ih (h.closed ha hab))

theorem reaches_iff (h : AgreeOn P g g') {a c : Int} (ha : P a) :
    g'.Reaches a c ↔ g.Reaches a c := by
  constructor
  · intro hac
    obtain ⟨p, hp⟩ := exists_walk_of_reaches hac
    exact ((h.walk_iff ha).mp hp).reaches
  · intro hac
    obtain ⟨p, hp⟩ := exists_walk_of_reaches hac
    exact ((h.walk_iff ha).mpr hp).reaches

theorem reachesWithout_iff (h : AgreeOn P g g') {a c : Int} (ha : P a) (src : Int) :
    g'.ReachesWithout src a c ↔ g.ReachesWithout src a c :=
  exists_congr fun _ => and_congr_left fun _ => h.walk_iff ha

/-! ### Costs of queries -/

variable {src dst : Int}

/-- Costs agree at a block if they agree at the successors that lead on. -/
theorem cost_eq_of_succs (h : AgreeOn P g g') {visited visited' : List Int}
    {known known' : Outlooks} (hk : Outlooking g dst visited known)
    (hk' : Outlooking g' dst visited' known')
    (hvisited : ∀ n, P n → (n ∈ visited' ↔ n ∈ visited)) {u : Int} (hu : P u)
    (hsucc : ∀ n ∈ visited, g.Arc u n → ∀ o o', known.lookup n = some o →
      known'.lookup n = some o' → o'.cost = o.cost) {o o' : Outlook}
    (ho : known.lookup u = some o) (ho' : known'.lookup u = some o') : o'.cost = o.cost := by
  by_cases hud : u = dst
  · subst hud
    obtain ⟨last, hlast, hlook⟩ := hk.stop
    obtain ⟨last', hlast', hlook'⟩ := hk'.stop
    rw [h.block?_eq hu, hlast] at hlast'
    obtain rfl := Option.some_inj.mp hlast'
    obtain rfl := Option.some_inj.mp (hlook.symm.trans ho)
    obtain rfl := Option.some_inj.mp (hlook'.symm.trans ho')
    rfl
  -- each outlook is an offer that the other graph makes too
  apply Int64.le_antisymm
  · obtain ⟨n, ahead', e, b, hn', hlook', he, hb, rfl⟩ := hk'.link u o' hud ho'
    rw [h.block?_eq hu] at hb
    have harc := (h.arc_iff hu).mp (arc_of_edge? he)
    have hn := (hvisited n (h.closed hu harc)).mp hn'
    obtain ⟨ahead, hlook, hbest⟩ := hk.best n hn
    rw [h.edge?_eq hu] at he
    obtain ⟨o₁, ho₁, hle⟩ := hbest u e b he hb
    obtain rfl := Option.some_inj.mp (ho₁.symm.trans ho)
    rwa [hsucc n hn harc ahead ahead' hlook hlook']
  · obtain ⟨n, ahead, e, b, hn, hlook, he, hb, rfl⟩ := hk.link u o hud ho
    have harc := arc_of_edge? he
    have hn' := (hvisited n (h.closed hu harc)).mpr hn
    obtain ⟨ahead', hlook', hbest⟩ := hk'.best n hn'
    rw [← h.edge?_eq hu] at he
    rw [← h.block?_eq hu] at hb
    obtain ⟨o₁, ho₁, hle⟩ := hbest u e b he hb
    obtain rfl := Option.some_inj.mp (ho₁.symm.trans ho')
    rwa [hsucc n hn harc ahead ahead' hlook hlook'] at hle

section Query

variable (h : AgreeOn P g g') (hreach : ∀ {a}, g.Reaches a dst → P a)

include h hreach

/-- **Costs agree at all visited blocks**, by induction on the history in `g`. -/
theorem cost_eq_of_mem {visited visited' : List Int} {known known' : Outlooks}
    (hk : Outlooking g dst visited known) (hk' : Outlooking g' dst visited' known')
    (hvisited : ∀ n, P n → (n ∈ visited' ↔ n ∈ visited)) (hall : Settled g src dst visited)
    {earlier : List Int} (hv : Settled g src dst earlier) {u : Int} (hu : u ∈ earlier)
    {o o' : Outlook} (ho : known.lookup u = some o) (ho' : known'.lookup u = some o') :
    o'.cost = o.cost := by
  induction hv generalizing u o o' with
  | nil => exact absurd hu List.not_mem_nil
  | @visit w earlier hv hnew hsrc hwdst hready ih =>
    rcases List.mem_cons.mp hu with rfl | hu
    · refine h.cost_eq_of_succs hk hk' hvisited (hreach hwdst) (fun n hn harc a a' ha ha' => ?_)
        ho ho'
      exact ih (hready n harc (hall.reaches hn)) ha ha'
    · exact ih hu ho ho'

variable {r r' : LongestPath} (hg : g.Valid) (hg' : g'.Valid)
  (hr : g.longestPath src dst = .ok r) (hr' : g'.longestPath src dst = .ok r')

include hg hg' hr hr'

/-- **Longest paths cost the same.** -/
theorem cost_longestPath_eq : r'.cost = r.cost := by
  have hsrc : P src := hreach (hg.connects_iff.mp (hg.connects_of_longestPath hr)).2.2.2.2
  obtain ⟨last, v, o, hlast, hv, ho, -, hcost, -⟩ := longestPath_eq_ok hr
  obtain ⟨last', v', o', hlast', hv', ho', -, hcost', -⟩ := longestPath_eq_ok hr'
  have hswept := hg.swept hv
  have hswept' := hg'.swept hv'
  have hk := hswept.outlooking hg hlast
  have hk' := hswept'.outlooking hg' hlast'
  have hvisited : ∀ n, P n → (n ∈ v'.blocks.reverse ↔ n ∈ v.blocks.reverse) := by
    intro n hn
    rw [List.mem_reverse, List.mem_reverse, hswept'.mem_blocks_iff, hswept.mem_blocks_iff,
      h.reachesWithout_iff hn]
  rw [hcost, hcost']
  refine h.cost_eq_of_succs hk hk' hvisited hsrc (fun n hn _ a a' ha ha' => ?_) ho ho'
  exact h.cost_eq_of_mem hreach hk hk' hvisited hswept.settled hswept.settled hn ha ha'

omit hreach in
/-- Regions agree on the blocks of the class and the edges out of them. -/
theorem region_eq :
    (∀ u, P u → (u ∈ r'.blocks ↔ u ∈ r.blocks)) ∧
      ∀ id : EdgeId, P id.src → (id ∈ r'.edges ↔ id ∈ r.edges) := by
  obtain ⟨v, hregion, -, -⟩ := hg.isRegion hr
  obtain ⟨v', hregion', -, -⟩ := hg'.isRegion hr'
  have hvisited : ∀ n, P n → (n ∈ v'.blocks ↔ n ∈ v.blocks) := by
    intro n hn
    rw [hregion'.swept.mem_blocks_iff, hregion.swept.mem_blocks_iff, h.reachesWithout_iff hn]
  constructor
  · intro u hu
    rw [hregion'.mem_blocks, hregion.mem_blocks, hvisited u hu]
  · intro id hid
    rw [hregion'.mem_edges, hregion.mem_edges, h.arc_iff hid]
    exact and_congr_right fun harc => hvisited _ (h.closed hid harc)

end Query

/-- **There are as many paths.** -/
theorem countPaths_eq (h : AgreeOn P g g') (hg : g.Valid) (hg' : g'.Valid) (hsrc : P src)
    {n n' : Nat} (hn : g.countPaths src dst = .ok n) (hn' : g'.countPaths src dst = .ok n') :
    n' = n := by
  obtain ⟨l, hl, rfl⟩ := hg.countPaths_enumerates hn
  obtain ⟨l', hl', rfl⟩ := hg'.countPaths_enumerates hn'
  exact hl'.length_eq (hl.congr fun p => and_congr_left fun _ => (h.walk_iff hsrc).symm)

end AgreeOn

end Graph

end WorstCase
