import WorstCase.Proofs.Graph.Region

/-!
# Arrival costs

The **arrival cost** of a block on a path is what the path costs up to and including the block; off
the path it is 0. Along an edge of a simple path it grows by the cost of the edge and of the block
that the edge leads to, and at its end it is the cost of the path.

Where a query succeeds, a path from the start meets the tail only after the head, so from the head
to the tail the arrival cost grows at most by the cost of the longest path
(`Graph.Valid.arrivalCost_sub_le`).
-/

namespace WorstCase

theorem exists_append_of_mem_pathEdges {p : List Int} {id : EdgeId} (h : id ∈ pathEdges p) :
    ∃ p₁ p₂, p = p₁ ++ id.src :: id.dst :: p₂ := by
  induction p with
  | nil => simp at h
  | cons a p ih =>
    cases p with
    | nil => simp at h
    | cons b p =>
      rcases List.mem_cons.mp h with rfl | h
      · exact ⟨[], p, rfl⟩
      · obtain ⟨p₁, p₂, hp⟩ := ih h
        exact ⟨a :: p₁, p₂, by rw [hp, List.cons_append]⟩

namespace Graph

variable {g : Graph} {a b c x : Int} {p p₁ p₂ : List Int}

/-- What a path costs up to a block on it. -/
def arrivalCost (g : Graph) (p : List Int) (x : Int) : Int :=
  if x ∈ p then g.pathCost (p.takeWhile (· ≠ x) ++ [x]) else 0

theorem arrivalCost_of_notMem (h : x ∉ p) : g.arrivalCost p x = 0 :=
  if_neg h

/-- A simple path is split by a block on it in one way only. -/
theorem arrivalCost_append_cons (h : (p₁ ++ x :: p₂).Nodup) :
    g.arrivalCost (p₁ ++ x :: p₂) x = g.pathCost (p₁ ++ [x]) := by
  have hx : ∀ y ∈ p₁, decide (y ≠ x) = true := by
    rintro y hy
    refine decide_eq_true ?_
    rintro rfl
    exact (List.nodup_append.mp h).2.2 y hy y List.mem_cons_self rfl
  have htake : (p₁ ++ x :: p₂).takeWhile (· ≠ x) = p₁ := by
    rw [List.takeWhile_append_of_pos hx, List.takeWhile_cons_of_neg (by simp), List.append_nil]
  rw [arrivalCost, if_pos (by simp), htake]

theorem arrivalCost_head (h : (a :: p).Nodup) : g.arrivalCost (a :: p) a = g.blockCost a := by
  have hhead : g.arrivalCost ([] ++ a :: p) a = g.pathCost ([] ++ [a]) :=
    arrivalCost_append_cons h
  simpa using hhead

/-- Arrival costs grow along the edges of a path. -/
theorem arrivalCost_of_mem_pathEdges (hnd : p.Nodup) {id : EdgeId} (h : id ∈ pathEdges p) :
    g.arrivalCost p id.dst =
      g.arrivalCost p id.src + g.edgeCost id + g.blockCost id.dst := by
  obtain ⟨p₁, p₂, rfl⟩ := exists_append_of_mem_pathEdges h
  have hsrc := arrivalCost_append_cons (g := g) hnd
  have hdst : g.arrivalCost (p₁ ++ id.src :: id.dst :: p₂) id.dst =
      g.pathCost (p₁ ++ id.src :: [id.dst]) := by
    have hsplit : p₁ ++ id.src :: id.dst :: p₂ = (p₁ ++ [id.src]) ++ id.dst :: p₂ := by simp
    rw [hsplit] at hnd ⊢
    rw [arrivalCost_append_cons hnd, List.append_assoc]
    rfl
  rw [hdst, hsrc, pathCost_append_cons, pathCost_cons_cons, pathCost_singleton]
  ring

/-- Every block on a walk but the first is entered along an edge of it. -/
theorem Walk.eq_or_exists_mem_pathEdges (h : g.Walk a p c) (hx : x ∈ p) :
    x = a ∨ ∃ y, (⟨y, x⟩ : EdgeId) ∈ pathEdges p := by
  induction h with
  | single a => exact .inl (List.mem_singleton.mp hx)
  | @step a b c p hab hp ih =>
    rcases List.mem_cons.mp hx with rfl | hx
    · exact .inl rfl
    · obtain ⟨q, rfl⟩ := hp.exists_cons
      rcases ih hx with rfl | ⟨y, hy⟩
      · exact .inr ⟨a, List.mem_cons_self⟩
      · exact .inr ⟨y, List.mem_cons_of_mem _ hy⟩

theorem Walk.arrivalCost_last (h : g.Walk a p c) (hnd : p.Nodup) :
    g.arrivalCost p c = g.pathCost p := by
  obtain ⟨p₁, p₂, rfl, h₁, h₂⟩ := h.split h.last_mem
  -- nothing follows the last block of a simple path
  have hlast : p₂ = [] := by
    cases h₂ with
    | single => rfl
    | step _ h₂ =>
      have hmem := h₂.last_mem
      exact absurd hmem (List.nodup_cons.mp (List.nodup_append.mp hnd).2.1).1
  subst hlast
  exact arrivalCost_append_cons hnd

theorem Nonneg.arrivalCost (hn : g.Nonneg) (p : List Int) (x : Int) :
    0 ≤ g.arrivalCost p x := by
  unfold Graph.arrivalCost
  split
  · exact hn.pathCost _
  · exact Int.le_refl 0

theorem Valid.arrivalCost_le (hg : g.Valid) (hnd : p.Nodup) (x : Int) :
    g.arrivalCost p x ≤ g.costMass := by
  by_cases hx : x ∈ p
  · obtain ⟨p₁, p₂, rfl⟩ := List.append_of_mem hx
    rw [arrivalCost_append_cons hnd]
    have hsub : (p₁ ++ [x]).Sublist (p₁ ++ x :: p₂) :=
      (List.Sublist.refl p₁).append (List.singleton_sublist.mpr List.mem_cons_self)
    have := hg.natAbs_pathCost_le (hnd.sublist hsub)
    omega
  · rw [arrivalCost_of_notMem hx]
    omega

/-- **From the head of a cut to its tail arrival costs grow at most by the longest path.** -/
theorem Valid.arrivalCost_sub_le (hg : g.Valid) (hmass : g.costMass < 2 ^ 63) (hn : g.Nonneg)
    {src dst : Int} {r : LongestPath} (h : g.longestPath src dst = .ok r)
    (hsrc : g.Reaches g.start src) (hp : g.Walk g.start p c) (hnd : p.Nodup) :
    g.arrivalCost p dst - g.arrivalCost p src ≤ r.cost.toInt := by
  by_cases hdst : dst ∈ p
  · obtain ⟨p₁, p₂, rfl, h₁, -⟩ := hp.split hdst
    have hnd₁ : (p₁ ++ [dst]).Nodup := hnd.sublist
      ((List.Sublist.refl p₁).append (List.singleton_sublist.mpr List.mem_cons_self))
    -- there is no way to the tail around the head
    obtain ⟨q₁, q₂, hq, -, hq₂⟩ := h₁.split (hg.src_mem_of_longestPath h hsrc h₁)
    have hle : g.pathCost (src :: q₂) ≤ r.cost.toInt :=
      hg.pathCost_le_longestPath hmass h hq₂
        (List.nodup_append.mp (hq ▸ hnd₁)).2.1
    have hdstCost : g.arrivalCost (p₁ ++ dst :: p₂) dst = g.pathCost (q₁ ++ src :: q₂) := by
      rw [arrivalCost_append_cons hnd, hq]
    have hsrcCost : g.arrivalCost (p₁ ++ dst :: p₂) src = g.pathCost (q₁ ++ [src]) := by
      have hsplit : p₁ ++ dst :: p₂ = q₁ ++ src :: (q₂ ++ p₂) := by
        have := congrArg (· ++ p₂) hq
        simpa using this
      rw [hsplit] at hnd ⊢
      exact arrivalCost_append_cons hnd
    have := hn.blockCost src
    rw [hdstCost, hsrcCost, pathCost_append_cons]
    omega
  · obtain ⟨-, -, hcost⟩ := hg.longestPath_walk hmass h
    have hpath := hn.pathCost r.path
    have hsrcCost := hn.arrivalCost p src
    rw [arrivalCost_of_notMem hdst]
    omega

end Graph

end WorstCase
