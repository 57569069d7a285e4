import WorstCase.Proofs.Graph.Outlook

/-!
# Longest paths are exact

A longest-path query that succeeds returns a simple path of existing edges, its exact cost, and no
simple path between the two blocks costs more. The only assumption on costs is that none of the
sums that the query forms wraps (`Graph.SumsFit`). This is the case if 64 bits can hold the costs of
the simple paths that it adds up (`Graph.PathsFit`), and so if the absolute values of all costs sum
to less than 2⁶³; costs may be negative, and the graph may loop or hold unreachable blocks
elsewhere.

* Every outlook is the cost of some simple walk to the destination, modulo 2⁶⁴
  (`Graph.Outlooking.exists_walk`); where no sum wraps it is the exact cost. One proof covers both:
  it is about any way to compare stored costs with exact ones that sums keep (`Graph.Tracks`).
* No walk from a visited block costs more than its outlook (`Graph.Outlooking.pathCost_le`).
* Following the outlooks never fails and spells out a walk of the cost of the first outlook
  (`Graph.Outlooking.exists_followFrom`, `Graph.Outlooking.of_followFrom`).
-/

namespace WorstCase

/-- The integers that 64 bits can hold. -/
def Fits64 (n : Int) : Prop :=
  -2 ^ 63 ≤ n ∧ n < 2 ^ 63

theorem fits64_of_natAbs_lt {n : Int} (h : n.natAbs < 2 ^ 63) : Fits64 n := by
  unfold Fits64
  omega

/-- An integer is stored as it is iff 64 bits can hold it. -/
theorem toInt_ofInt_eq_iff {n : Int} : (Int64.ofInt n).toInt = n ↔ Fits64 n := by
  constructor
  · intro h
    rw [← h]
    exact ⟨Int64.le_toInt _, Int64.toInt_lt _⟩
  · rintro ⟨hle, hlt⟩
    exact Int64.toInt_ofInt_of_le hle hlt

/-- An integer of small absolute value is stored as it is. -/
theorem toInt_ofInt_of_natAbs_lt {n : Int} (h : n.natAbs < 2 ^ 63) : (Int64.ofInt n).toInt = n :=
  toInt_ofInt_eq_iff.mpr (fits64_of_natAbs_lt h)

namespace Graph

variable {g : Graph} {src dst : Int} {visited : List Int} {known : Outlooks}

theorem arc_of_edge? {u n : Int} {e : Edge} (he : g.edge? u n = some e) : g.Arc u n :=
  List.mem_map.mpr ⟨e, mem_of_edge? he, id_of_edge? he⟩

/-! ### Stored and exact costs -/

/-- A relation between stored and exact costs that the sums of a sweep keep. -/
structure Tracks (g : Graph) (visited : List Int) (known : Outlooks) (R : Int64 → Int → Prop) :
    Prop where
  stored : ∀ c : Int64, R c c.toInt
  sum : ∀ {u n : Int} {ahead : Outlook} {e : Edge} {b : Block} {m : Int}, n ∈ visited →
    known.lookup n = some ahead → g.edge? u n = some e → g.block? u = some b → R ahead.cost m →
      R (ahead.cost + e.cost + b.cost) (b.cost.toInt + e.cost.toInt + m)

/-- Sums that wrap are still right modulo 2⁶⁴. -/
theorem tracks_modulo (g : Graph) (visited : List Int) (known : Outlooks) :
    Tracks g visited known fun c m => c = Int64.ofInt m where
  stored c := (Int64.ofInt_toInt c).symm
  sum := by
    intro u n ahead e b m _ _ _ _ hahead
    rw [hahead, Int64.ofInt_add, Int64.ofInt_add, Int64.ofInt_toInt, Int64.ofInt_toInt,
      Int64.add_comm (b.cost + e.cost), Int64.add_comm b.cost, Int64.add_assoc]

/-- No edge into a visited block offers a sum that wraps. -/
structure Unwrapped (g : Graph) (visited : List Int) (known : Outlooks) : Prop where
  sum : ∀ {u n : Int} {ahead : Outlook} {e : Edge} {b : Block}, n ∈ visited →
    known.lookup n = some ahead → g.edge? u n = some e → g.block? u = some b →
      (ahead.cost + e.cost + b.cost).toInt = ahead.cost.toInt + e.cost.toInt + b.cost.toInt

theorem Unwrapped.tracks (hw : g.Unwrapped visited known) :
    Tracks g visited known fun c m => c.toInt = m where
  stored _ := rfl
  sum := by
    intro u n ahead e b m hn hlook he hb hahead
    rw [hw.sum hn hlook he hb, hahead]
    omega

/-- 64 bits can hold the costs of the simple paths to `dst` that do not come back to `src`. -/
def PathsFit (g : Graph) (src dst : Int) : Prop :=
  ∀ x p, g.Walk x p dst → p.Nodup → src ∉ p.tail → Fits64 (g.pathCost p)

/-- They can if the cost mass fits. -/
theorem Valid.pathsFit (hg : g.Valid) (hmass : g.costMass < 2 ^ 63) (src dst : Int) :
    g.PathsFit src dst := fun _ _ _ hnd _ =>
  fits64_of_natAbs_lt ((hg.natAbs_pathCost_le hnd).trans_lt hmass)

namespace Outlooking

section Tracking

variable {R : Int64 → Int → Prop}

/-- The outlook of the destination is its own cost. -/
theorem cost_stop (hk : Outlooking g dst visited known) (ht : Tracks g visited known R)
    {o : Outlook} (ho : known.lookup dst = some o) : R o.cost (g.pathCost [dst]) := by
  obtain ⟨last, hlast, hlook⟩ := hk.stop
  obtain rfl := Option.some_inj.mp (hlook.symm.trans ho)
  rw [pathCost_singleton, blockCost_of_block? hlast]
  exact ht.stored _

/-- Any other outlook is linked to that of a visited block: it adds what it costs to get there. -/
theorem cost_link (hk : Outlooking g dst visited known) (ht : Tracks g visited known R) {u : Int}
    {o : Outlook} (hu : u ≠ dst) (ho : known.lookup u = some o) :
    ∃ n ahead, n ∈ visited ∧ g.Arc u n ∧ known.lookup n = some ahead ∧ o.next = some n ∧
      ∀ p, g.Walk n p dst → R ahead.cost (g.pathCost p) → R o.cost (g.pathCost (u :: p)) := by
  obtain ⟨n, ahead, e, b, hn, hlook, he, hb, rfl⟩ := hk.link u o hu ho
  refine ⟨n, ahead, hn, arc_of_edge? he, hlook, rfl, fun p hp hcost => ?_⟩
  obtain ⟨q, rfl⟩ := hp.exists_cons
  rw [pathCost_cons_cons, blockCost_of_block? hb, edgeCost_of_edge? he]
  exact ht.sum hn hlook he hb hcost

/-- Every outlook of a visited block is the cost of a walk to the destination. The induction is on
the history: the link of the last visit leads to an earlier one. -/
theorem exists_walk_of_mem (hk : Outlooking g dst visited known) (ht : Tracks g visited known R)
    {earlier : List Int} (hv : Settled g src dst earlier) (hsub : earlier ⊆ visited)
    (hall : Settled g src dst visited) {u : Int} (hu : u ∈ earlier) {o : Outlook}
    (ho : known.lookup u = some o) : ∃ p, g.Walk u p dst ∧ R o.cost (g.pathCost p) := by
  induction hv generalizing u o with
  | nil => exact absurd hu List.not_mem_nil
  | @visit x earlier hv hnew hsrc hreach hready ih =>
    have hsub' : earlier ⊆ visited := fun y hy => hsub (List.mem_cons_of_mem _ hy)
    rcases List.mem_cons.mp hu with rfl | hu
    · by_cases hdst : u = dst
      · subst hdst
        exact ⟨[u], .single u, hk.cost_stop ht ho⟩
      · obtain ⟨n, ahead, hn, harc, hlook, -, hcost⟩ := hk.cost_link ht hdst ho
        have hne : n ∈ earlier := hready n harc (hall.reaches hn)
        obtain ⟨p, hp, hahead⟩ := ih hsub' hne hlook
        exact ⟨u :: p, .step harc hp, hcost p hp hahead⟩
    · exact ih hsub' hu ho

/-- **Every outlook is the cost of a simple walk to the destination.** -/
theorem exists_walk (hk : Outlooking g dst visited known) (ht : Tracks g visited known R)
    (hv : Settled g src dst visited) {u : Int} {o : Outlook} (ho : known.lookup u = some o) :
    ∃ p, g.Walk u p dst ∧ p.Nodup ∧ R o.cost (g.pathCost p) := by
  by_cases hdst : u = dst
  · subst hdst
    exact ⟨[u], .single u, List.nodup_singleton u, hk.cost_stop ht ho⟩
  · obtain ⟨n, ahead, hn, harc, hlook, -, hcost⟩ := hk.cost_link ht hdst ho
    obtain ⟨p, hp, hahead⟩ := hk.exists_walk_of_mem ht hv (List.Subset.refl _) hv hn hlook
    exact ⟨u :: p, .step harc hp, hv.cons_nodup harc hn hp, hcost p hp hahead⟩

end Tracking

/-- **No sum wraps if the costs of simple paths fit**: every sum is the cost of one. -/
theorem unwrapped (hfit : g.PathsFit src dst) (hk : Outlooking g dst visited known)
    (hv : Settled g src dst visited) : g.Unwrapped visited known := by
  refine ⟨fun {u n ahead e b} hn hlook he hb => ?_⟩
  have ht := tracks_modulo g visited known
  obtain ⟨p, hp, hnd, hcost⟩ := hk.exists_walk ht hv hlook
  -- the walk from `n` on does not come back to `src`
  have hsrc : src ∉ p := fun hmem => hv.src_notMem (hv.walk_mem hn hp hmem)
  have hfit₁ := hfit n p hp hnd fun hmem => hsrc (List.mem_of_mem_tail hmem)
  have harc := arc_of_edge? he
  have hfit₂ := hfit u (u :: p) (.step harc hp) (hv.cons_nodup harc hn hp) hsrc
  have hsum := ht.sum hn hlook he hb hcost
  obtain ⟨q, rfl⟩ := hp.exists_cons
  rw [pathCost_cons_cons, blockCost_of_block? hb, edgeCost_of_edge? he] at hfit₂
  rw [hsum, toInt_ofInt_eq_iff.mpr hfit₂, hcost, toInt_ofInt_eq_iff.mpr hfit₁]
  omega

/-- An edge into a visited block offers at most the outlook of its source. -/
theorem offer_le (hg : g.Valid) (hw : g.Unwrapped visited known)
    (hk : Outlooking g dst visited known) {u n : Int} (hun : g.Arc u n) (hn : n ∈ visited) :
    ∃ o ahead, known.lookup u = some o ∧ known.lookup n = some ahead ∧
      g.blockCost u + g.edgeCost ⟨u, n⟩ + ahead.cost.toInt ≤ o.cost.toInt := by
  obtain ⟨ahead, hahead, hbest⟩ := hk.best n hn
  obtain ⟨e, he, hmem, hid⟩ := hg.exists_edge hun
  obtain ⟨b, hb⟩ := hg.exists_block_src hmem
  rw [hid] at hb
  obtain ⟨o, ho, hle⟩ := hbest u e b he hb
  refine ⟨o, ahead, ho, hahead, ?_⟩
  rw [Int64.le_iff_toInt_le, hw.sum hn hahead he hb] at hle
  rw [blockCost_of_block? hb, edgeCost_of_edge? he]
  omega

/-- **No walk from a visited block costs more than its outlook.** -/
theorem pathCost_le (hg : g.Valid) (hw : g.Unwrapped visited known)
    (hk : Outlooking g dst visited known) (hv : Settled g src dst visited) {u : Int}
    {p : List Int} (hp : g.Walk u p dst) (hu : u ∈ visited) :
    ∃ o, known.lookup u = some o ∧ g.pathCost p ≤ o.cost.toInt := by
  induction hp with
  | single a =>
    obtain ⟨last, hlast, hlook⟩ := hk.stop
    exact ⟨_, hlook, by rw [pathCost_singleton, blockCost_of_block? hlast]⟩
  | @step a b c p hab hp ih =>
    have hb : b ∈ visited := hv.succ_mem hu hab hp.reaches
    obtain ⟨o', ho', hle'⟩ := ih hk hv hb
    obtain ⟨o, ahead, ho, hahead, hle⟩ := hk.offer_le hg hw hab hb
    obtain rfl := Option.some_inj.mp (ho'.symm.trans hahead)
    obtain ⟨q, rfl⟩ := hp.exists_cons
    refine ⟨o, ho, ?_⟩
    rw [pathCost_cons_cons]
    omega

/-! ### Following the outlooks -/

/-- What following the outlooks returns is a walk without repetitions that continues the path so
far, and its cost is that of the outlook it starts with. -/
theorem of_followFrom {R : Int64 → Int → Prop} (hk : Outlooking g dst visited known)
    (ht : Tracks g visited known R) {bound : Nat} {cur : Int} {path r : List Int}
    (hnd : (cur :: path).Nodup)
    (h : followFrom known src dst bound cur (cur :: path) = .ok r) :
    ∃ q, g.Walk cur (cur :: q) dst ∧ r = path.reverse ++ cur :: q ∧ r.Nodup ∧
      ∀ o, known.lookup cur = some o → R o.cost (g.pathCost (cur :: q)) := by
  induction bound generalizing cur path with
  | zero => simp [followFrom] at h
  | succ bound ih =>
    rw [followFrom] at h
    split_ifs at h with hdst
    · obtain rfl := Except.ok.inj h
      subst hdst
      exact ⟨[], .single cur, by simp, List.nodup_reverse.mpr hnd, fun o ho => hk.cost_stop ht ho⟩
    · split at h
      · simp at h
      rename_i next hnext
      split_ifs at h with hcont
      obtain ⟨o, ho, hnext'⟩ := Option.bind_eq_some_iff.mp hnext
      obtain ⟨n, ahead, -, harc, hlook, hn, hcost⟩ := hk.cost_link ht hdst ho
      obtain rfl := Option.some_inj.mp (hnext'.symm.trans hn)
      have hnd' : (next :: cur :: path).Nodup :=
        List.nodup_cons.mpr ⟨by simpa using hcont, hnd⟩
      obtain ⟨q, hq, rfl, hr, hahead⟩ := ih hnd' h
      refine ⟨next :: q, .step harc hq, by simp, hr, fun o ho' => ?_⟩
      obtain rfl := Option.some_inj.mp (ho.symm.trans ho')
      exact hcost _ hq (hahead ahead hlook)

/-- **Following the outlooks succeeds.** The next block is never on the path so far, since a block
that is visited lies on no loop, and a path without repetitions is not longer than the bound. -/
theorem exists_followFrom (hg : g.Valid) (hk : Outlooking g dst visited known)
    (hv : Settled g src dst visited) {bound : Nat} {cur : Int} {path : List Int}
    (hnd : (cur :: path).Nodup) (hknown : cur :: path ⊆ g.blocks.map (·.uid))
    (hreach : ∀ w ∈ cur :: path, g.Reaches w cur) {o : Outlook} (ho : known.lookup cur = some o)
    (hbound : g.blocks.length < bound + path.length) :
    ∃ r, followFrom known src dst bound cur (cur :: path) = .ok r := by
  induction bound generalizing cur path o with
  | zero =>
    have hlen : (cur :: path).length ≤ (g.blocks.map (·.uid)).length :=
      (List.subperm_of_subset hnd hknown).length_le
    rw [List.length_cons, List.length_map] at hlen
    omega
  | succ bound ih =>
    rw [followFrom]
    by_cases hdst : cur = dst
    · exact ⟨_, if_pos hdst⟩
    · obtain ⟨n, ahead, e, b, hn, hlook, he, -, rfl⟩ := hk.link cur o hdst ho
      have harc := arc_of_edge? he
      have hnew : n ∉ cur :: path := by
        intro hmem
        -- otherwise `n` would lie on a loop, and a walk from it could meet it twice
        obtain ⟨p₁, hp₁⟩ := exists_walk_of_reaches (hreach n hmem)
        obtain ⟨p₂, hp₂⟩ := exists_walk_of_reaches (hv.reaches hn)
        have hnd' := hv.walk_nodup hn (hp₁.append (.step harc hp₂))
        exact (List.nodup_append.mp hnd').2.2 n hp₁.head_mem n hp₂.head_mem rfl
      rw [if_neg hdst, ho]
      simp only [Option.bind_some, List.contains_eq_mem, hnew, decide_false, Bool.false_eq_true,
        if_false]
      refine ih (List.nodup_cons.mpr ⟨hnew, hnd⟩) ?_ ?_ hlook ?_
      · exact List.cons_subset.mpr ⟨(hg.arc_known harc).2, hknown⟩
      · intro w hw
        rcases List.mem_cons.mp hw with rfl | hw
        · exact .refl
        · exact (hreach w hw).tail harc
      · rw [List.length_cons]
        omega

end Outlooking

/-! ### Queries -/

/-- The outlooks at the end of a sweep. -/
def Visits.outlooks (v : Visits) (dst : Int) (last : Block) : Outlooks :=
  v.steps.foldl Step.relax [(dst, { cost := last.cost, next := none })]

theorem Swept.outlooking (hg : g.Valid) {v : Visits} (hv : Swept g src dst v) {last : Block}
    (hlast : g.block? dst = some last) :
    Outlooking g dst v.blocks.reverse (v.outlooks dst last) := by
  rw [Visits.outlooks, hv.steps_eq]
  simpa using hv.settled.outlooking hg hlast

/-- What a longest-path query returns. -/
theorem longestPath_eq_ok {r : LongestPath} (h : g.longestPath src dst = .ok r) :
    ∃ last v o, g.block? dst = some last ∧ g.sweep src dst = .ok v ∧
      (v.outlooks dst last).lookup src = some o ∧
      followFrom (v.outlooks dst last) src dst (g.blocks.length + 1) src [src] = .ok r.path ∧
      r.cost = o.cost ∧ r.blocks = sortBy (fun a b => decide (a ≤ b)) (src :: v.blocks) ∧
      r.edges = sortBy EdgeId.le (v.steps.map (·.edge.id)) := by
  obtain ⟨last, hlast, h⟩ := bind_eq_ok_iff.mp h
  obtain ⟨v, hv, h⟩ := bind_eq_ok_iff.mp h
  dsimp only at h
  split at h
  · exact absurd h throw_ne_ok
  rename_i o ho
  obtain ⟨path, hpath, h⟩ := bind_eq_ok_iff.mp h
  obtain rfl := pure_eq_ok_iff.mp h
  exact ⟨last, v, o, blockOrFail_eq_ok.mp hlast, hv, ho, hpath, rfl, rfl, rfl⟩

theorem longestPath_of_sweep {last : Block} {v : Visits} {o : Outlook} {path : List Int}
    (hlast : g.block? dst = some last) (hv : g.sweep src dst = .ok v)
    (ho : (v.outlooks dst last).lookup src = some o)
    (hpath : followFrom (v.outlooks dst last) src dst (g.blocks.length + 1) src [src] = .ok path) :
    g.longestPath src dst =
      .ok { cost := o.cost
            path
            blocks := sortBy (fun a b => decide (a ≤ b)) (src :: v.blocks)
            edges := sortBy EdgeId.le (v.steps.map (·.edge.id)) } := by
  unfold Visits.outlooks at ho hpath
  simp only [longestPath, bind, Except.bind, blockOrFail_eq_ok.mpr hlast, hv, ho, hpath]
  rfl

/-- What a count returns. -/
theorem countPaths_eq_ok_iff {n : Nat} :
    g.countPaths src dst = .ok n ↔ ∃ v, g.sweep src dst = .ok v ∧
      (v.steps.foldl Step.count [(dst, 1)]).lookup src = some n := by
  rw [countPaths, bind_eq_ok_iff]
  refine exists_congr fun v => and_congr_right fun _ => ?_
  split
  · rename_i hnone
    simp [hnone, throw_ne_ok]
  · rename_i m hsome
    rw [hsome, pure_eq_ok_iff, Option.some_inj]

/-- A query asks for two different blocks. -/
theorem blocks_of_longestPath {r : LongestPath} (h : g.longestPath src dst = .ok r) :
    src ≠ dst ∧ (∃ b, g.block? src = some b) ∧ ∃ b, g.block? dst = some b := by
  obtain ⟨-, v, -, -, hv, -⟩ := longestPath_eq_ok h
  obtain ⟨hne, hsrc, hdst, -⟩ := sweep_eq_ok hv
  exact ⟨hne, hsrc, hdst⟩

/-- A walk to `dst` that does not meet `src` stays among the visited blocks. -/
theorem Swept.mem_of_walk {v : Visits} (hv : Swept g src dst v) {a : Int} {p : List Int}
    (hp : g.Walk a p dst) (hsrc : src ∉ p) : a ∈ v.blocks := by
  induction hp with
  | single a => exact hv.dst_mem
  | step hab hp ih =>
    rw [List.mem_cons, not_or] at hsrc
    exact (hv.preds _ (ih hv hsrc.2) _ hab).resolve_left (Ne.symm hsrc.1)

/-- The path of a query is a simple path, and the cost of the query tracks its exact cost. -/
theorem Valid.longestPath_tracks {R : Int64 → Int → Prop} (hg : g.Valid)
    (ht : ∀ {v last}, g.sweep src dst = .ok v → g.block? dst = some last →
      Tracks g v.blocks.reverse (v.outlooks dst last) R)
    {r : LongestPath} (h : g.longestPath src dst = .ok r) :
    g.Walk src r.path dst ∧ r.path.Nodup ∧ R r.cost (g.pathCost r.path) := by
  obtain ⟨last, v, o, hlast, hv, ho, hpath, hcost, -, -⟩ := longestPath_eq_ok h
  have hk := (hg.swept hv).outlooking hg hlast
  obtain ⟨q, hq, hr, hnd, htracked⟩ :=
    hk.of_followFrom (ht hv hlast) (List.nodup_singleton src) hpath
  rw [List.reverse_nil, List.nil_append] at hr
  rw [hr] at hnd ⊢
  exact ⟨hq, hnd, hcost ▸ htracked o ho⟩

/-- Whatever the costs are, the cost of the query is that of its path modulo 2⁶⁴. -/
theorem Valid.longestPath_modulo (hg : g.Valid) {r : LongestPath}
    (h : g.longestPath src dst = .ok r) :
    g.Walk src r.path dst ∧ r.path.Nodup ∧ r.cost = Int64.ofInt (g.pathCost r.path) :=
  hg.longestPath_tracks (fun _ _ => tracks_modulo g _ _) h

/-- **No sum that a longest-path query forms wraps**: what each step of its sweep stores for the
predecessor is the outlook of the block, the edge and the predecessor added up. -/
def SumsFit (g : Graph) (src dst : Int) : Prop :=
  ∀ v ∈ (g.sweep src dst).toOption, ∀ last ∈ g.block? dst, ∀ s ∈ v.steps,
    ∀ ahead ∈ (v.outlooks dst last).lookup s.uid,
      (s.offer ahead).cost.toInt = ahead.cost.toInt + s.edge.cost.toInt + s.pred.cost.toInt

instance (g : Graph) (src dst : Int) : Decidable (g.SumsFit src dst) :=
  inferInstanceAs (Decidable (∀ v ∈ (g.sweep src dst).toOption, ∀ last ∈ g.block? dst,
    ∀ s ∈ v.steps, ∀ ahead ∈ (v.outlooks dst last).lookup s.uid, _))

namespace SumsFit

/-- The steps of a sweep are the edges into the blocks that it visits. -/
theorem unwrapped (hfit : g.SumsFit src dst) (hg : g.Valid) {v : Visits}
    (hv : g.sweep src dst = .ok v) {last : Block} (hlast : g.block? dst = some last) :
    g.Unwrapped v.blocks.reverse (v.outlooks dst last) := by
  refine ⟨fun {u n ahead e b} hn hlook he hb => ?_⟩
  have hs : (⟨b, e, n⟩ : Step) ∈ v.steps := by
    rw [(hg.swept hv).steps_eq]
    exact List.mem_flatMap.mpr ⟨n, List.mem_reverse.mp hn, mem_stepsInto_of_edge? he hb⟩
  exact hfit v (by rw [hv]; rfl) last hlast _ hs ahead hlook

/-- The path of a query is a simple path, and its exact cost is the cost of the query. -/
theorem longestPath_walk (hfit : g.SumsFit src dst) (hg : g.Valid) {r : LongestPath}
    (h : g.longestPath src dst = .ok r) :
    g.Walk src r.path dst ∧ r.path.Nodup ∧ r.cost.toInt = g.pathCost r.path :=
  hg.longestPath_tracks (fun hv hlast => (hfit.unwrapped hg hv hlast).tracks) h

/-- No simple path costs more than the query says. -/
theorem pathCost_le_longestPath (hfit : g.SumsFit src dst) (hg : g.Valid) {r : LongestPath}
    (h : g.longestPath src dst = .ok r) {p : List Int} (hp : g.Walk src p dst) (hnd : p.Nodup) :
    g.pathCost p ≤ r.cost.toInt := by
  obtain ⟨last, v, o, hlast, hv, ho, -, hcost, -, -⟩ := longestPath_eq_ok h
  have hswept := hg.swept hv
  have hk := hswept.outlooking hg hlast
  have hw : g.Unwrapped v.blocks.reverse (v.outlooks dst last) := hfit.unwrapped hg hv hlast
  cases hp with
  | single => exact absurd rfl (sweep_eq_ok hv).1
  | step hab hp =>
    obtain ⟨hsrc, -⟩ := List.nodup_cons.mp hnd
    have hb := List.mem_reverse.mpr (hswept.mem_of_walk hp hsrc)
    obtain ⟨o₁, ho₁, hle₁⟩ := hk.pathCost_le hg hw hswept.settled hp hb
    obtain ⟨o₂, ahead, ho₂, hahead, hle⟩ := hk.offer_le hg hw hab hb
    obtain rfl := Option.some_inj.mp (ho₁.symm.trans hahead)
    obtain rfl := Option.some_inj.mp (ho.symm.trans ho₂)
    obtain ⟨q, rfl⟩ := hp.exists_cons
    rw [hcost, pathCost_cons_cons]
    omega

end SumsFit

/-- **Sums fit if the costs of simple paths do.** -/
theorem PathsFit.sumsFit (hfit : g.PathsFit src dst) (hg : g.Valid) : g.SumsFit src dst := by
  intro v hv last hlast s hs ahead hahead
  have hsweep : g.sweep src dst = .ok v := by
    rcases h : g.sweep src dst with _ | v'
    · simp [h, Except.toOption] at hv
    · obtain rfl : v' = v := by simpa [h, Except.toOption] using hv
      rfl
  have hswept := hg.swept hsweep
  have hw : g.Unwrapped v.blocks.reverse (v.outlooks dst last) :=
    (hswept.outlooking hg hlast).unwrapped hfit hswept.settled
  rw [hswept.steps_eq, List.mem_flatMap] at hs
  obtain ⟨n, hn, hs⟩ := hs
  obtain ⟨rfl, he, hdst, hb⟩ := mem_stepsInto.mp hs
  exact hw.sum (List.mem_reverse.mpr hn) hahead (hg.edge?_eq_some_iff.mpr ⟨he, by rw [← hdst]⟩) hb

/-- They do if the cost mass does. -/
theorem Valid.sumsFit (hg : g.Valid) (hmass : g.costMass < 2 ^ 63) (src dst : Int) :
    g.SumsFit src dst :=
  (hg.pathsFit hmass src dst).sumsFit hg

theorem Valid.longestPath_walk (hg : g.Valid) (hmass : g.costMass < 2 ^ 63) {r : LongestPath}
    (h : g.longestPath src dst = .ok r) :
    g.Walk src r.path dst ∧ r.path.Nodup ∧ r.cost.toInt = g.pathCost r.path :=
  (hg.sumsFit hmass src dst).longestPath_walk hg h

theorem Valid.pathCost_le_longestPath (hg : g.Valid) (hmass : g.costMass < 2 ^ 63)
    {r : LongestPath} (h : g.longestPath src dst = .ok r) {p : List Int}
    (hp : g.Walk src p dst) (hnd : p.Nodup) : g.pathCost p ≤ r.cost.toInt :=
  (hg.sumsFit hmass src dst).pathCost_le_longestPath hg h hp hnd

/-- **Longest paths are exact.** A query that succeeds returns a simple path from `src` to `dst`
and its exact cost, and no simple path from `src` to `dst` costs more. -/
theorem longestPath_exact {g : Graph} (hg : g.Built) (hmass : g.costMass < 2 ^ 63)
    {src dst : Int} {r : LongestPath} (h : g.longestPath src dst = .ok r) :
    (g.Walk src r.path dst ∧ r.path.Nodup) ∧ r.cost.toInt = g.pathCost r.path ∧
      ∀ p, g.Walk src p dst → p.Nodup → g.pathCost p ≤ r.cost.toInt := by
  obtain ⟨hwalk, hnd, hcost⟩ := hg.valid.longestPath_walk hmass h
  exact ⟨⟨hwalk, hnd⟩, hcost, fun p hp hpnd => hg.valid.pathCost_le_longestPath hmass h hp hpnd⟩

/-- A graph with costs of both signs. From block 1 to block 4 it branches; above block 1 there is
a loop, block 5 is a dead end and nothing leads to block 6. -/
def forked : Graph where
  blocks :=
    [ { uid := 0, selector := "bs_0", written := "bs_0", cost := 1 },
      { uid := 1, selector := "b_1", written := "b_1", cost := 4, dominator := 0 },
      { uid := 2, selector := "b_2", written := "b_2", cost := -7, dominator := 1 },
      { uid := 3, selector := "b_3", written := "b_3", cost := -3, dominator := 1 },
      { uid := 4, selector := "b_4", written := "b_4", cost := 2, dominator := 1 },
      { uid := 5, selector := "b_5", written := "b_5", cost := 90, dominator := 2 },
      { uid := 6, selector := "b_6", written := "b_6", cost := 80, dominator := 3 } ]
  edges :=
    [ ⟨⟨0, 1⟩, 0⟩, ⟨⟨1, 2⟩, 5⟩, ⟨⟨1, 3⟩, 0⟩, ⟨⟨2, 4⟩, 6⟩, ⟨⟨3, 4⟩, 1⟩, ⟨⟨2, 5⟩, 0⟩,
      ⟨⟨0, 0⟩, 3⟩, ⟨⟨6, 4⟩, 0⟩ ]

theorem forked_built : forked.Built :=
  (Built.empty.foldlM_addBlock
    (show forked.blocks.foldlM addBlock {} = .ok { blocks := forked.blocks } by
      decide)).foldlM_addEdge
    (show forked.edges.foldlM addEdge { blocks := forked.blocks } = .ok forked by
      decide)

/-- The branch through block 2 is the longer one, although block 3 costs more. -/
theorem longestPath_exact_forked :
    (forked.Walk 1 [1, 2, 4] 4 ∧ [(1 : Int), 2, 4].Nodup) ∧
      (10 : Int64).toInt = forked.pathCost [1, 2, 4] ∧
      ∀ p, forked.Walk 1 p 4 → p.Nodup → forked.pathCost p ≤ (10 : Int64).toInt := by
  have hquery : forked.longestPath 1 4 =
      .ok { cost := 10, path := [1, 2, 4], blocks := [1, 2, 3, 4, 6],
            edges := [⟨1, 2⟩, ⟨1, 3⟩, ⟨2, 4⟩, ⟨3, 4⟩, ⟨6, 4⟩] } := by
    decide
  exact longestPath_exact forked_built (by decide) hquery

end Graph

end WorstCase
