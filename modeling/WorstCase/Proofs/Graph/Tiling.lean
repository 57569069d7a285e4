import WorstCase.Proofs.Graph.DeclaredChain
import WorstCase.Proofs.Graph.Verdict

/-!
# How recursive cuts cover the merge points

The merge points are the chain of declared dominators from the end to the start. They are found iff
the chain of the end gets to the start (`Graph.exists_mergePoints_iff`): such a chain passes no
block twice (`Graph.Chain.nodup`), so that it is not longer than the bound, and a chain that meets
the start nowhere is given up when the bound is reached.

For every stride below the number of points, the pairs that are `stride` apart **tile** the points
(`Graph.Tiles`): they begin at the first point, end at the last one, follow each other without a
gap, and only the last of them may be narrower than the stride. The pairs are taken off the front of
a list here; `Graph.pairsAt` takes them by index, and finds a point at every index that it asks for
(`Graph.doublingFrom_eq`).

`Graph.recursiveCuts_tile` puts both together.
-/

namespace WorstCase

namespace Graph

variable {g : Graph} {x y : Int} {l points : List Int}

/-! ### Merge points -/

/-- What is on the way up is not what the way leads to. -/
theorem Ladder.notMem {src : Int} (h : Ladder g src x l) : src ∉ l := by
  induction h with
  | top => exact List.not_mem_nil
  | up hx _ _ ih => exact List.not_mem_cons_of_ne_of_not_mem (Ne.symm hx) ih

/-- The way up to the start, and the start itself, are a chain. -/
theorem Ladder.chain (h : Ladder g g.start x l) : g.Chain x (l ++ [g.start]) := by
  induction h with
  | top => exact .start
  | up hx hxy _ ih =>
    obtain ⟨b, hb, hd, rfl⟩ := hxy
    exact .up hb hx hd ih

namespace Chain

theorem exists_ladder (h : g.Chain x l) : ∃ l', l = l' ++ [g.start] ∧ Ladder g g.start x l' := by
  induction h with
  | start => exact ⟨[], rfl, .top⟩
  | @up x b l hb hx hd _ ih =>
    obtain ⟨l', rfl, hl'⟩ := ih
    exact ⟨x :: l', rfl, .up hx ⟨b, hb, hd, rfl⟩ hl'⟩

/-- **A chain passes no block twice**, whatever a graph declares. -/
theorem nodup (h : g.Chain x l) : l.Nodup := by
  obtain ⟨l', rfl, hl'⟩ := h.exists_ladder
  rw [List.nodup_append]
  refine ⟨hl'.nodup, List.nodup_singleton _, fun a ha b hb heq => ?_⟩
  rw [heq, List.mem_singleton.mp hb] at ha
  exact hl'.notMem ha

theorem getLast?_eq (h : g.Chain x l) : l.getLast? = some g.start := by
  obtain ⟨l', rfl, -⟩ := h.exists_ladder
  exact List.getLast?_concat

/-- Each block of a chain declares the next one. -/
theorem isChain (h : g.Chain x l) : l.IsChain g.Declares := by
  induction h with
  | start => exact .singleton _
  | @up x b l hb _ hd h ih =>
    obtain ⟨l', rfl⟩ := h.exists_cons
    exact .cons_cons ⟨b, hb, hd, rfl⟩ ih

/-- Every block of a chain can be climbed to. -/
theorem onChain (h : g.Chain x l) (hy : y ∈ l) : g.OnChain x y := by
  induction h with
  | start =>
    obtain rfl := List.mem_singleton.mp hy
    exact .refl
  | @up x b l hb _ hd _ ih =>
    rcases List.mem_cons.mp hy with rfl | hy
    · exact .refl
    · exact .head ⟨b, hb, hd, rfl⟩ (ih hy)

end Chain

/-- What is found from a block on is its chain. -/
theorem chain_of_mergePointsFrom {bound : Nat} (h : g.mergePointsFrom bound x = .ok points) :
    g.Chain x points := by
  induction bound generalizing x points with
  | zero =>
    unfold mergePointsFrom at h
    split_ifs at h with hx
    obtain rfl := Except.ok.inj h
    exact hx ▸ .start
  | succ bound ih =>
    by_cases hx : x = g.start
    · rw [mergePointsFrom, if_pos hx] at h
      obtain rfl := Except.ok.inj h
      exact hx ▸ .start
    · obtain ⟨b, rest, hb, hd, hrest, rfl⟩ := (mergePointsFrom_succ_eq_ok_iff hx).mp h
      exact .up hb hx hd (ih hrest)

/-- **The merge points are found** iff the chain of the end gets to the start. -/
theorem exists_mergePoints_iff : (∃ points, g.mergePoints = .ok points) ↔ g.OnChain g.stop g.start := by
  constructor
  · rintro ⟨points, h⟩
    have hchain := chain_of_mergePointsFrom h
    exact hchain.onChain hchain.start_mem
  · intro h
    obtain ⟨l, hl⟩ := exists_ladder h
    -- no block is passed twice, so that there are at most as many as the graph has
    have hle := (List.subperm_of_subset hl.nodup hl.subset).length_le
    rw [List.length_map] at hle
    refine ⟨_, hl.chain.mergePointsFrom_eq_ok ?_⟩
    rw [List.length_append, List.length_singleton]
    omega

/-! ### Strides -/

theorem mem_takeWhile_iff_of_pairwise {l : List Nat} (hl : l.Pairwise (· < ·)) {n s : Nat} :
    s ∈ l.takeWhile (· < n) ↔ s ∈ l ∧ s < n := by
  induction l with
  | nil => simp
  | cons a l ih =>
    obtain ⟨ha, hl⟩ := List.pairwise_cons.mp hl
    by_cases han : a < n
    · rw [List.takeWhile_cons_of_pos (by simpa using han), List.mem_cons, List.mem_cons, ih hl]
      constructor
      · rintro (rfl | ⟨hs, hsn⟩)
        · exact ⟨.inl rfl, han⟩
        · exact ⟨.inr hs, hsn⟩
      · rintro ⟨rfl | hs, hsn⟩
        · exact .inl rfl
        · exact .inr ⟨hs, hsn⟩
    · rw [List.takeWhile_cons_of_neg (by simpa using han)]
      refine iff_of_false List.not_mem_nil fun ⟨hs, hsn⟩ => ?_
      rcases List.mem_cons.mp hs with rfl | hs
      · exact han hsn
      · have := ha s hs
        omega

theorem pairwise_powers (n : Nat) :
    ((List.range n).map fun k => Nat.pow 2 (k + 1)).Pairwise (· < ·) := by
  rw [List.pairwise_map]
  refine List.pairwise_lt_range.imp fun {j k} hjk => ?_
  exact Nat.pow_lt_pow_right (by omega) (by omega)

theorem pairwise_strides (n : Nat) : (strides n).Pairwise (· < ·) :=
  (pairwise_powers n).sublist (List.takeWhile_sublist _)

/-- The strides are the powers of two from 2 on that are below the number of points. -/
theorem mem_strides_iff {n s : Nat} : s ∈ strides n ↔ s < n ∧ ∃ k, s = 2 ^ (k + 1) := by
  rw [strides, mem_takeWhile_iff_of_pairwise (pairwise_powers n), List.mem_map, and_comm]
  refine and_congr_right fun hs => ⟨fun ⟨k, _, hk⟩ => ⟨k, hk.symm⟩, fun ⟨k, hk⟩ => ⟨k, ?_, hk.symm⟩⟩
  rw [List.mem_range]
  have hk' : k < 2 ^ k := Nat.lt_two_pow_self
  rw [hk, pow_succ] at hs
  omega

/-! ### Tilings -/

/-- A pair joins two points that are `width` apart. -/
def Spans (points : List Int) (width : Nat) (id : CutId) : Prop :=
  ∃ k, points[k]? = some id.tail ∧ points[k + width]? = some id.head

/-- Pairs **tile** the points: from the first one to the last one, without a gap, each pair as wide
as the stride but for the last, which may be narrower. -/
structure Tiles (points : List Int) (stride : Nat) (pairs : List CutId) : Prop where
  first : pairs.head?.map (·.tail) = points.head?
  last : pairs.getLast?.map (·.head) = points.getLast?
  adjacent : pairs.IsChain fun a b => a.head = b.tail
  wide : ∀ id ∈ pairs.dropLast, Spans points stride id
  narrow : ∀ id ∈ pairs.getLast?, ∃ width, 0 < width ∧ width ≤ stride ∧ Spans points width id

theorem Spans.of_drop {n width : Nat} {id : CutId} (h : Spans (points.drop n) width id) :
    Spans points width id := by
  obtain ⟨k, htail, hhead⟩ := h
  rw [List.getElem?_drop] at htail hhead
  refine ⟨n + k, htail, ?_⟩
  rw [Nat.add_assoc]
  exact hhead

/-- One pair tiles points that are not more than the stride and one. -/
theorem tiles_singleton {stride : Nat} {head tail : Int} (hfirst : points.head? = some tail)
    (hlast : points.getLast? = some head) (hlength : 1 < points.length)
    (hstride : points.length ≤ stride + 1) : Tiles points stride [⟨head, tail⟩] where
  first := hfirst.symm
  last := hlast.symm
  adjacent := .singleton _
  wide := by simp
  narrow := by
    intro id hid
    obtain rfl : (⟨head, tail⟩ : CutId) = id := by simpa using hid
    refine ⟨points.length - 1, by omega, by omega, 0, ?_, ?_⟩
    · rw [← List.head?_eq_getElem?, hfirst]
    · rw [Nat.zero_add, ← List.getLast?_eq_getElem?, hlast]

/-- A pair in front of what tiles the points from its head on. -/
theorem Tiles.cons {stride : Nat} {head tail : Int} {pairs : List CutId}
    (h : Tiles (points.drop stride) stride pairs) (hfirst : points.head? = some tail)
    (hhead : (points.drop stride).head? = some head) : Tiles points stride (⟨head, tail⟩ :: pairs) := by
  have hne : pairs ≠ [] := by
    rintro rfl
    have hnone := h.first.trans hhead
    simp at hnone
  have hlast : (⟨head, tail⟩ :: pairs : List CutId).getLast? = pairs.getLast? := by
    obtain ⟨id, pairs, rfl⟩ := List.exists_cons_of_ne_nil hne
    exact List.getLast?_cons_cons
  refine ⟨hfirst.symm, ?_, ?_, ?_, ?_⟩
  · rw [hlast, h.last, List.getLast?_drop, if_neg]
    intro hle
    rw [List.drop_eq_nil_of_le hle] at hhead
    exact absurd hhead (by simp)
  · obtain ⟨id, pairs, rfl⟩ := List.exists_cons_of_ne_nil hne
    exact .cons_cons (Option.some.inj (hhead.symm.trans h.first.symm)) h.adjacent
  · intro id hid
    rw [List.dropLast_cons_of_ne_nil hne, List.mem_cons] at hid
    rcases hid with rfl | hid
    · refine ⟨0, by rw [← List.head?_eq_getElem?, hfirst], ?_⟩
      rw [Nat.zero_add, ← hhead, List.head?_drop]
    · exact (h.wide id hid).of_drop
  · intro id hid
    rw [hlast] at hid
    obtain ⟨width, hpos, hle, hspans⟩ := h.narrow id hid
    exact ⟨width, hpos, hle, hspans.of_drop⟩

/-- No pair begins at the last point. -/
theorem pairsApart_singleton {stride : Nat} (hstride : 0 < stride) (last : Int) (bound : Nat) :
    pairsApart stride last bound [last] = [] := by
  obtain ⟨n, rfl⟩ := Nat.exists_eq_add_of_le' hstride
  cases bound with
  | zero => rfl
  | succ bound => simp [pairsApart]

/-- The next point is another one. -/
theorem ne_of_drop_eq_cons {stride : Nat} {head tail : Int} {rest more : List Int}
    (hstride : 0 < stride) (hnodup : (tail :: rest).Nodup)
    (hdrop : (tail :: rest).drop stride = head :: more) : head ≠ tail := by
  have hmem : head ∈ (tail :: rest).drop stride := hdrop ▸ List.mem_cons_self
  obtain ⟨n, rfl⟩ := Nat.exists_eq_add_of_le' hstride
  rw [List.drop_succ_cons] at hmem
  exact fun heq => (List.nodup_cons.mp hnodup).1 (heq ▸ List.mem_of_mem_drop hmem)

/-- **The pairs that are `stride` apart tile the points.** -/
theorem tiles_pairsApart {stride bound : Nat} {last : Int} (hstride : 0 < stride)
    (hnodup : points.Nodup) (hlength : 1 < points.length) (hlast : points.getLast? = some last)
    (hbound : points.length ≤ bound) : Tiles points stride (pairsApart stride last bound points) := by
  induction bound generalizing points with
  | zero => omega
  | succ bound ih =>
    obtain ⟨tail, rest, rfl⟩ := List.exists_cons_of_ne_nil
      (List.ne_nil_of_length_pos (Nat.zero_lt_of_lt hlength))
    have hrest : rest ≠ [] := by
      rintro rfl
      simp at hlength
    have hlast' : rest.getLast? = some last := by
      obtain ⟨y, rest, rfl⟩ := List.exists_cons_of_ne_nil hrest
      rw [← hlast, List.getLast?_cons_cons]
    rw [pairsApart]
    rcases hdrop : (tail :: rest).drop stride with _ | ⟨head, more⟩
    · have hne : last ≠ tail := fun heq =>
        (List.nodup_cons.mp hnodup).1 (heq ▸ List.mem_of_getLast? hlast')
      rw [List.drop_eq_nil_iff] at hdrop
      dsimp only
      rw [if_neg hne]
      exact tiles_singleton rfl hlast hlength (by omega)
    · have hne := ne_of_drop_eq_cons hstride hnodup hdrop
      have hlength' : (tail :: rest).length - stride = more.length + 1 := by
        rw [← List.length_drop, hdrop, List.length_cons]
      have hlastDrop : (head :: more).getLast? = some last := by
        rw [← hdrop, List.getLast?_drop, if_neg (by omega), hlast]
      dsimp only
      rw [if_neg hne, List.singleton_append]
      by_cases hmore : more = []
      · -- the pair ends at the last point, so that none is left for another one
        subst hmore
        obtain rfl : head = last := Option.some.inj hlastDrop
        rw [pairsApart_singleton hstride]
        rw [List.length_nil] at hlength'
        exact tiles_singleton rfl hlast hlength (by omega)
      · have hnodup' : (head :: more).Nodup := hdrop ▸ hnodup.sublist (List.drop_sublist _ _)
        have hlong : 1 < (head :: more).length := by
          have := List.length_pos_of_ne_nil hmore
          rw [List.length_cons]
          omega
        have hbound' : (head :: more).length ≤ bound := by
          rw [List.length_cons]
          omega
        have htiles := ih hnodup' hlong hlastDrop hbound'
        rw [← hdrop] at htiles
        rw [← hdrop]
        exact htiles.cons rfl (by rw [hdrop]; rfl)

/-! ### Pairs by index -/

/-- The pairs that are `stride` apart, by index, from the point `k` on. There is none if no point is
where one is asked for, or if the rounds run out. -/
def pairsAt (points : List Int) (stride : Nat) : (rounds : Nat) → (k : Nat) → Option (List CutId)
  | 0, _ => none
  | rounds + 1, k => do
    let tail ← points[k]?
    let last ← points[points.length - 1]?
    let pair (head : Int) : List CutId := if head = tail then [] else [⟨head, tail⟩]
    if points.length ≤ k + stride then return pair last
    else return pair (← points[k + stride]?) ++ (← pairsAt points stride rounds (k + stride))

/-- The pairs at `stride` and at its doubles, as far as they are below the number of points. There
is none if the pairs at one of them are not found, or if the rounds run out. -/
def doublingFrom (points : List Int) : (rounds : Nat) → (stride : Nat) → Option (List CutId)
  | rounds, stride =>
    if stride < points.length then
      match rounds with
      | 0 => none
      | rounds + 1 => do
        return (← pairsAt points stride points.length 0) ++
          (← doublingFrom points rounds (stride * 2))
    else some []

theorem pairsAt_eq {stride rounds k : Nat} {last : Int} (hstride : 0 < stride)
    (hlast : points.getLast? = some last) (hk : k < points.length)
    (hrounds : points.length ≤ k + rounds) :
    pairsAt points stride rounds k = some (pairsApart stride last rounds (points.drop k)) := by
  induction rounds generalizing k with
  | zero => omega
  | succ rounds ih =>
    have hdrop : points.drop k = points[k] :: points.drop (k + 1) := List.drop_eq_getElem_cons hk
    have hdrop' : (points[k] :: points.drop (k + 1)).drop stride = points.drop (k + stride) := by
      rw [← hdrop, List.drop_drop]
    rw [List.getLast?_eq_getElem?] at hlast
    simp only [pairsAt, hdrop, pairsApart, hdrop', List.getElem?_eq_getElem hk, hlast,
      Option.bind_eq_bind, Option.bind_some, pure]
    by_cases hend : points.length ≤ k + stride
    · rw [if_pos hend, List.drop_eq_nil_of_le hend]
    · have hnext : k + stride < points.length := by omega
      have hrest := ih hnext (by omega)
      have hdrop'' : points.drop (k + stride) =
          points[k + stride] :: points.drop (k + stride + 1) := List.drop_eq_getElem_cons hnext
      rw [if_neg hend, hrest, hdrop'', List.getElem?_eq_getElem hnext]
      rfl

/-- What is found from one power of two on. -/
theorem doublingFrom_pow {rounds j : Nat} {last : Int} (hlast : points.getLast? = some last)
    (hrounds : points.length ≤ j + rounds) :
    doublingFrom points rounds (2 ^ (j + 1)) =
      some ((((List.range' j rounds).map fun k => Nat.pow 2 (k + 1)).takeWhile
        (· < points.length)).flatMap fun stride =>
          pairsApart stride last points.length points) := by
  induction rounds generalizing j with
  | zero =>
    have hj : j < 2 ^ j := Nat.lt_two_pow_self
    rw [doublingFrom, if_neg (by rw [pow_succ]; omega)]
    rfl
  | succ rounds ih =>
    rw [doublingFrom, List.range'_succ, List.map_cons]
    by_cases hlt : 2 ^ (j + 1) < points.length
    · have hpairs : pairsAt points (2 ^ (j + 1)) points.length 0 =
          some (pairsApart (2 ^ (j + 1)) last points.length points) :=
        pairsAt_eq (Nat.two_pow_pos (j + 1)) hlast (Nat.zero_lt_of_lt hlt) (Nat.le_add_left _ _)
      have hrest := ih (j := j + 1) (by omega)
      rw [pow_succ] at hrest
      rw [if_pos hlt, hpairs, hrest, List.takeWhile_cons_of_pos (by simpa using hlt),
        List.flatMap_cons]
      rfl
    · rw [if_neg hlt, List.takeWhile_cons_of_neg (by simpa using hlt)]
      rfl

/-- **By index, the same pairs are found**: there is a point wherever one is asked for. -/
theorem doublingFrom_eq (points : List Int) :
    doublingFrom points points.length 2 = some (recursivePairs points) := by
  rcases hlast : points.getLast? with _ | last
  · rw [List.getLast?_eq_none_iff] at hlast
    subst hlast
    rfl
  · have hdoubling := doublingFrom_pow (j := 0) hlast (Nat.le_add_left _ _)
    rw [← List.range_eq_range'] at hdoubling
    rw [recursivePairs, hlast]
    exact hdoubling

/-- **Recursive cuts tile the merge points.** The merge points are found iff the chain of declared
dominators from the end gets to the start. They are that chain, without repetitions. For each of the
strides 2, 4, 8, … below their number the candidates tile them, in order; each candidate is a
generation of its own, its head is on the declared chain of its tail, and no point is asked for that
is not there. -/
theorem recursiveCuts_tile (g : Graph) :
    ((∃ v, g.mergePoints = .error v) ↔ ¬ g.OnChain g.stop g.start) ∧
      ∀ points, g.mergePoints = .ok points →
        (points.Nodup ∧ points.head? = some g.stop ∧ points.getLast? = some g.start ∧
          points.IsChain g.Declares) ∧
        ((strides points.length).Pairwise (· < ·) ∧
          ∀ s, s ∈ strides points.length ↔ s < points.length ∧ ∃ k, s = 2 ^ (k + 1)) ∧
        ∃ pairs : Nat → List CutId,
          (∀ s ∈ strides points.length, Tiles points s (pairs s) ∧
            ∀ id ∈ pairs s, g.checkDominates id.head id.tail = .ok ()) ∧
          doublingFrom points points.length 2 = some ((strides points.length).flatMap pairs) ∧
          g.recursiveCuts = .ok (((strides points.length).flatMap pairs).map ([·])) := by
  refine ⟨?_, fun points hpoints => ?_⟩
  · rw [← exists_mergePoints_iff]
    rcases g.mergePoints with v | points <;> simp
  have hchain := chain_of_mergePointsFrom hpoints
  have hlast := hchain.getLast?_eq
  have hpairs : recursivePairs points = (strides points.length).flatMap fun s =>
      pairsApart s g.start points.length points := by
    rw [recursivePairs, hlast]
    rfl
  refine ⟨⟨hchain.nodup, ?_, hlast, hchain.isChain⟩, ⟨pairwise_strides _, fun s => mem_strides_iff⟩,
    fun s => pairsApart s g.start points.length points, fun s hs => ⟨?_, fun id hid => ?_⟩, ?_, ?_⟩
  · obtain ⟨l, rfl⟩ := hchain.exists_cons
    rfl
  · obtain ⟨hlt, k, rfl⟩ := mem_strides_iff.mp hs
    have hpow : 0 < 2 ^ k := Nat.two_pow_pos k
    rw [pow_succ] at hlt ⊢
    exact tiles_pairsApart (by omega) hchain.nodup (by omega) hlast le_rfl
  · -- the head comes after the tail on the chain
    obtain ⟨-, l₁, l₂, rfl, hhead⟩ := mem_pairsApart hlast hid
    exact checkDominates_eq_ok_iff.mpr (hchain.of_append.onChain (List.mem_cons_of_mem _ hhead))
  · rw [doublingFrom_eq, hpairs]
  · rw [recursiveCuts, hpoints, ← hpairs]
    rfl

/-- A chain of six blocks, each of them declared to be dominated by the one before it. -/
def staircase : Graph where
  blocks :=
    [ { uid := 0 }, { uid := 1, dominator := 0 }, { uid := 2, dominator := 1 },
      { uid := 3, dominator := 2 }, { uid := 4, dominator := 3 }, { uid := 5, dominator := 4 } ]
  edges := [ ⟨⟨0, 1⟩, 0⟩, ⟨⟨1, 2⟩, 0⟩, ⟨⟨2, 3⟩, 0⟩, ⟨⟨3, 4⟩, 0⟩, ⟨⟨4, 5⟩, 0⟩ ]
  start := 0
  stop := 5

/-- The last pairs are narrower than the strides 2 and 4. -/
theorem recursiveCuts_tile_staircase :
    staircase.mergePoints = .ok [5, 4, 3, 2, 1, 0] ∧
      staircase.recursiveCuts = .ok [[⟨3, 5⟩], [⟨1, 3⟩], [⟨0, 1⟩], [⟨1, 5⟩], [⟨0, 1⟩]] ∧
      ∃ pairs : Nat → List CutId, Tiles [5, 4, 3, 2, 1, 0] 2 (pairs 2) ∧
        Tiles [5, 4, 3, 2, 1, 0] 4 (pairs 4) ∧
        staircase.recursiveCuts = .ok ((pairs 2 ++ pairs 4).map ([·])) := by
  have hpoints : staircase.mergePoints = .ok [5, 4, 3, 2, 1, 0] := by decide
  obtain ⟨-, -, pairs, htiles, -, hcuts⟩ := (recursiveCuts_tile staircase).2 _ hpoints
  have hstrides : strides [(5 : Int), 4, 3, 2, 1, 0].length = [2, 4] := by decide
  rw [hstrides] at htiles hcuts
  rw [List.flatMap_cons, List.flatMap_singleton] at hcuts
  exact ⟨hpoints, by decide, pairs, (htiles 2 (by simp)).1, (htiles 4 (by simp)).1, hcuts⟩

end Graph

end WorstCase
