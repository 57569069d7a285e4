import WorstCase.Graph.Sweep
import WorstCase.Proofs.Graph.Walk

/-!
# Closures hold exactly what can be reached

A closure is computed by a breadth-first search with a bound on the number of points looked at.
The search keeps the list of points seen as *points looked at* followed by *points still in the
queue*; the successors of the first are always among both. A bound above the size of a finite
universe that the arrows do not leave is never exhausted, because the points looked at do not
repeat. So the result is closed under the arrows, and `mem_closure_iff` follows.

For graphs, `Graph.Valid.mem_reaching_iff`: the blocks from which a block can be reached are
found completely.
-/

namespace WorstCase

variable {α : Type} [DecidableEq α]

theorem mem_freshIn {seen xs : List α} {x : α} :
    x ∈ freshIn seen xs ↔ x ∈ xs ∧ x ∉ seen := by
  induction xs generalizing seen with
  | nil => simp [freshIn]
  | cons y xs ih =>
    unfold freshIn
    split_ifs with hy
    · rw [ih, List.mem_cons]
      refine and_congr_left fun hx => ⟨.inr, fun h => h.resolve_left ?_⟩
      rintro rfl
      exact hx hy
    · rw [List.mem_cons, ih, List.mem_cons, List.mem_cons, not_or]
      constructor
      · rintro (rfl | ⟨hx, -, hs⟩)
        · exact ⟨.inl rfl, hy⟩
        · exact ⟨.inr hx, hs⟩
      · rintro ⟨rfl | hx, hs⟩
        · exact .inl rfl
        · by_cases hxy : x = y
          · exact .inl hxy
          · exact .inr ⟨hx, hxy, hs⟩

theorem freshIn_nodup (seen xs : List α) : (freshIn seen xs).Nodup := by
  induction xs generalizing seen with
  | nil => exact List.nodup_nil
  | cons y xs ih =>
    unfold freshIn
    split_ifs with hy
    · exact ih seen
    · refine List.nodup_cons.mpr ⟨fun h => ?_, ih _⟩
      exact (mem_freshIn.mp h).2 List.mem_cons_self

theorem append_freshIn_nodup {seen : List α} (h : seen.Nodup) (xs : List α) :
    (seen ++ freshIn seen xs).Nodup := by
  refine List.nodup_append.mpr ⟨h, freshIn_nodup seen xs, fun x hx y hy => ?_⟩
  rintro rfl
  exact (mem_freshIn.mp hy).2 hx

section Search

variable {arrows : α → List α}

theorem subset_closureFrom (bound : Nat) (queue seen : List α) :
    seen ⊆ closureFrom arrows bound queue seen := by
  induction bound generalizing queue seen with
  | zero => exact List.Subset.refl _
  | succ bound ih =>
    cases queue with
    | nil => exact List.Subset.refl _
    | cons x queue => exact fun y hy => ih _ _ (List.mem_append_left _ hy)

/-- What the search returns can be reached from what it had seen. -/
theorem exists_of_mem_closureFrom {bound : Nat} {queue seen : List α} (hq : queue ⊆ seen) {x : α}
    (hx : x ∈ closureFrom arrows bound queue seen) :
    ∃ y ∈ seen, Relation.ReflTransGen (fun a b => b ∈ arrows a) y x := by
  induction bound generalizing queue seen with
  | zero => exact ⟨x, hx, .refl⟩
  | succ bound ih =>
    cases queue with
    | nil => exact ⟨x, hx, .refl⟩
    | cons z queue =>
      have hq' : queue ++ freshIn seen (arrows z) ⊆ seen ++ freshIn seen (arrows z) :=
        List.append_subset.mpr
          ⟨fun u hu => List.mem_append_left _ (hq (List.mem_cons_of_mem _ hu)),
            fun u hu => List.mem_append_right _ hu⟩
      obtain ⟨y, hy, hyx⟩ := ih hq' hx
      rcases List.mem_append.mp hy with hy | hy
      · exact ⟨y, hy, hyx⟩
      · exact ⟨z, hq List.mem_cons_self, .head (mem_freshIn.mp hy).1 hyx⟩

/-- The search ends with a set that the arrows do not leave. `looked` lists the points looked at
so far. -/
theorem closureFrom_closed {points : List α} (hpoints : ∀ x ∈ points, arrows x ⊆ points)
    {bound : Nat} {looked queue : List α} (hnd : (looked ++ queue).Nodup)
    (hsub : looked ++ queue ⊆ points) (hlooked : ∀ x ∈ looked, arrows x ⊆ looked ++ queue)
    (hbound : points.length < bound + looked.length) {x : α}
    (hx : x ∈ closureFrom arrows bound queue (looked ++ queue)) :
    arrows x ⊆ closureFrom arrows bound queue (looked ++ queue) := by
  induction bound generalizing looked queue with
  | zero =>
    -- more points looked at than there are
    have hlen : (looked ++ queue).length ≤ points.length :=
      (List.subperm_of_subset hnd hsub).length_le
    rw [List.length_append] at hlen
    omega
  | succ bound ih =>
    cases queue with
    | nil =>
      rw [List.append_nil] at hlooked hx ⊢
      exact hlooked x hx
    | cons z queue =>
      have hz : z ∈ looked ++ z :: queue := List.mem_append_right _ List.mem_cons_self
      have hmove : looked ++ z :: queue ++ freshIn (looked ++ z :: queue) (arrows z) =
          (looked ++ [z]) ++ (queue ++ freshIn (looked ++ z :: queue) (arrows z)) := by
        simp
      simp only [closureFrom] at hx ⊢
      rw [hmove] at hx ⊢
      refine ih ?_ ?_ ?_ ?_ hx
      · rw [← hmove]
        exact append_freshIn_nodup hnd _
      · rw [← hmove]
        refine List.append_subset.mpr ⟨hsub, fun y hy => ?_⟩
        exact hpoints z (hsub hz) (mem_freshIn.mp hy).1
      · intro y hy
        rw [← hmove]
        rcases List.mem_append.mp hy with hy | hy
        · exact fun w hw => List.mem_append_left _ (hlooked y hy hw)
        · obtain rfl := List.mem_singleton.mp hy
          intro w hw
          by_cases hws : w ∈ looked ++ y :: queue
          · exact List.mem_append_left _ hws
          · exact List.mem_append_right _ (mem_freshIn.mpr ⟨hw, hws⟩)
      · rw [List.length_append, List.length_singleton]
        omega

/-- A search that was given enough looks at nothing more when it is given more. -/
theorem closureFrom_add {points : List α} (hpoints : ∀ x ∈ points, arrows x ⊆ points)
    {bound : Nat} {looked queue : List α} (hnd : (looked ++ queue).Nodup)
    (hsub : looked ++ queue ⊆ points) (hbound : points.length < bound + looked.length) (n : Nat) :
    closureFrom arrows (bound + n) queue (looked ++ queue) =
      closureFrom arrows bound queue (looked ++ queue) := by
  induction bound generalizing looked queue with
  | zero =>
    have hlen : (looked ++ queue).length ≤ points.length :=
      (List.subperm_of_subset hnd hsub).length_le
    rw [List.length_append] at hlen
    omega
  | succ bound ih =>
    rw [Nat.succ_add]
    cases queue with
    | nil => rfl
    | cons z queue =>
      have hz : z ∈ looked ++ z :: queue := List.mem_append_right _ List.mem_cons_self
      have hmove : looked ++ z :: queue ++ freshIn (looked ++ z :: queue) (arrows z) =
          (looked ++ [z]) ++ (queue ++ freshIn (looked ++ z :: queue) (arrows z)) := by
        simp
      simp only [closureFrom]
      rw [hmove]
      refine ih ?_ ?_ ?_
      · rw [← hmove]
        exact append_freshIn_nodup hnd _
      · rw [← hmove]
        refine List.append_subset.mpr ⟨hsub, fun y hy => ?_⟩
        exact hpoints z (hsub hz) (mem_freshIn.mp hy).1
      · rw [List.length_append, List.length_singleton]
        omega

/-- **A closure holds exactly what can be reached from its root**, if the bound exceeds the size
of some universe that the arrows do not leave. -/
theorem mem_closure_iff {points : List α} (hpoints : ∀ x ∈ points, arrows x ⊆ points)
    {bound : Nat} (hbound : points.length < bound) {root : α} (hroot : root ∈ points) {x : α} :
    x ∈ closure arrows bound root ↔
      Relation.ReflTransGen (fun a b => b ∈ arrows a) root x := by
  constructor
  · intro hx
    obtain ⟨y, hy, hyx⟩ := exists_of_mem_closureFrom (List.Subset.refl _) hx
    obtain rfl := List.mem_singleton.mp hy
    exact hyx
  · intro hx
    have hnd : ([] ++ [root] : List α).Nodup := List.nodup_singleton root
    have hclosed : ∀ y ∈ closure arrows bound root, arrows y ⊆ closure arrows bound root :=
      fun y hy => closureFrom_closed hpoints hnd (by simpa using hroot) (by simp)
        (by simpa using hbound) hy
    induction hx with
    | refl => exact subset_closureFrom _ _ _ (List.mem_singleton_self root)
    | tail _ hyz ih => exact hclosed _ ih hyz

end Search

namespace Graph

/-- **The blocks that reach a block are found completely.** -/
theorem Valid.mem_reaching_iff {g : Graph} (hg : g.Valid) {dst : Int}
    (hdst : dst ∈ g.blocks.map (·.uid)) {x : Int} : x ∈ g.reaching dst ↔ g.Reaches x dst := by
  have hpreds : ∀ y ∈ g.blocks.map (·.uid), g.preds y ⊆ g.blocks.map (·.uid) :=
    fun y _ p hp => (hg.arc_known (mem_preds_iff.mp hp)).1
  rw [reaching, mem_closure_iff hpreds (by simp) hdst, ← Relation.reflTransGen_swap]
  refine Iff.of_eq (congrArg (fun r => Relation.ReflTransGen r x dst) ?_)
  funext a b
  exact propext mem_preds_iff

/-- The search for the blocks that reach a block is not cut short by its bound. -/
theorem Valid.closure_preds {g : Graph} (hg : g.Valid) {dst : Int}
    (hdst : dst ∈ g.blocks.map (·.uid)) (n : Nat) :
    closure g.preds (g.blocks.length + 1 + n) dst = g.reaching dst := by
  have hpreds : ∀ y ∈ g.blocks.map (·.uid), g.preds y ⊆ g.blocks.map (·.uid) :=
    fun y _ p hp => (hg.arc_known (mem_preds_iff.mp hp)).1
  have hnd : ([] ++ [dst] : List Int).Nodup := List.nodup_singleton dst
  exact closureFrom_add hpreds hnd (by simpa using hdst) (by simp) n

end Graph

end WorstCase
