import WorstCase.Graph.Basic
import Mathlib.Data.List.Sort

/-!
# Sorting is canonical

Insertion sort by a **linear** Boolean order returns the one ascending arrangement of the elements,
whatever arrangement it is given (`Linear.sortBy_eq_of_perm`). Uids, edge identifiers and cut
identifiers are ordered linearly, so all ascending views of a graph are canonical.
-/

namespace WorstCase

/-- A Boolean order that is total, transitive and antisymmetric. -/
structure Linear {α : Type} (le : α → α → Bool) : Prop where
  total : ∀ a b, le a b = true ∨ le b a = true
  trans : ∀ a b c, le a b = true → le b c = true → le a c = true
  antisymm : ∀ a b, le a b = true → le b a = true → a = b

theorem sortBy_eq_insertionSort {α : Type} (le : α → α → Bool) (l : List α) :
    sortBy le l = l.insertionSort fun a b => le a b = true := by
  have hinsert : ∀ (x : α) (l : List α),
      insertBy le x l = l.orderedInsert (fun a b => le a b = true) x := by
    intro x l
    induction l with
    | nil => rfl
    | cons y l ih => rw [insertBy, ih, List.orderedInsert_cons]
  induction l with
  | nil => rfl
  | cons x l ih => rw [sortBy, ih, hinsert, List.insertionSort_cons]

/-- Sorting by a total and transitive order is ascending. -/
theorem pairwise_sortBy_of {α : Type} {le : α → α → Bool}
    (htotal : ∀ a b, le a b = true ∨ le b a = true)
    (htrans : ∀ a b c, le a b = true → le b c = true → le a c = true) (l : List α) :
    (sortBy le l).Pairwise fun a b => le a b = true := by
  have : Std.Total fun a b => le a b = true := ⟨htotal⟩
  have : IsTrans α fun a b => le a b = true := ⟨htrans⟩
  rw [sortBy_eq_insertionSort]
  exact List.pairwise_insertionSort _ l

namespace Linear

variable {α : Type} {le : α → α → Bool} {l l' : List α}

theorem pairwise_sortBy (h : Linear le) (l : List α) :
    (sortBy le l).Pairwise fun a b => le a b = true :=
  pairwise_sortBy_of h.total h.trans l

/-- **Sorting forgets the arrangement.** -/
theorem sortBy_eq_of_perm (h : Linear le) (hp : l.Perm l') : sortBy le l = sortBy le l' :=
  List.Perm.eq_of_pairwise (fun a b _ _ => h.antisymm a b) (h.pairwise_sortBy l)
    (h.pairwise_sortBy l') (((sortBy_perm le l).trans hp).trans (sortBy_perm le l').symm)

/-- Two ascending lists with the same elements, none of them twice, are equal. -/
theorem sortBy_eq_of_mem_iff (h : Linear le) (hl : (sortBy le l).Nodup) (hl' : (sortBy le l').Nodup)
    (hmem : ∀ a, a ∈ sortBy le l ↔ a ∈ sortBy le l') : sortBy le l = sortBy le l' :=
  List.Perm.eq_of_pairwise (fun a b _ _ => h.antisymm a b) (h.pairwise_sortBy l)
    (h.pairwise_sortBy l') ((List.perm_ext_iff_of_nodup hl hl').mpr hmem)

/-- Elements that do not repeat are strictly ascending. -/
theorem pairwise_sortBy_of_nodup (h : Linear le) (hl : l.Nodup) :
    (sortBy le l).Pairwise fun a b => le a b = true ∧ a ≠ b :=
  List.Pairwise.and (h.pairwise_sortBy l) ((sortBy_perm le l).nodup_iff.mpr hl)

end Linear

/-- **Sorting by a key forgets the arrangement**, if no two elements have the same key. -/
theorem sortBy_eq_of_perm_of_nodup {α β : Type} [LinearOrder β] {le : α → α → Bool} {key : α → β}
    (hle : ∀ a b, le a b = true ↔ key a ≤ key b) {l l' : List α} (hp : l.Perm l')
    (hkeys : (l.map key).Nodup) : sortBy le l = sortBy le l' := by
  have hpairwise : ∀ l : List α, (sortBy le l).Pairwise fun a b => le a b = true :=
    pairwise_sortBy_of (fun a b => by simpa only [hle] using le_total (key a) (key b))
      fun a b c => by simpa only [hle] using le_trans
  refine List.Perm.eq_of_pairwise (fun a b ha hb hab hba => ?_) (hpairwise l) (hpairwise l')
    (((sortBy_perm le l).trans hp).trans (sortBy_perm le l').symm)
  exact List.inj_on_of_nodup_map hkeys ((sortBy_perm le l).subset ha)
    (hp.symm.subset ((sortBy_perm le l').subset hb))
    (le_antisymm ((hle a b).mp hab) ((hle b a).mp hba))

/-! ### The orders of a graph -/

theorem linear_uids : Linear fun a b : Int => decide (a ≤ b) where
  total a b := by simpa using Int.le_total a b
  trans a b c := by simpa using Int.le_trans
  antisymm a b := by simpa using Int.le_antisymm

theorem EdgeId.le_iff {a b : EdgeId} :
    a.le b = true ↔ a.src < b.src ∨ a.src = b.src ∧ a.dst ≤ b.dst := by
  simp [EdgeId.le]

theorem CutId.le_iff {a b : CutId} :
    a.le b = true ↔ a.head < b.head ∨ a.head = b.head ∧ a.tail ≤ b.tail := by
  simp [CutId.le]

theorem linear_edgeIds : Linear EdgeId.le where
  total a b := by
    rw [EdgeId.le_iff, EdgeId.le_iff]
    omega
  trans a b c := by
    rw [EdgeId.le_iff, EdgeId.le_iff, EdgeId.le_iff]
    omega
  antisymm a b := by
    rcases a with ⟨s, d⟩
    rcases b with ⟨s', d'⟩
    rw [EdgeId.le_iff, EdgeId.le_iff, EdgeId.mk.injEq]
    dsimp only
    omega

theorem linear_cutIds : Linear CutId.le where
  total a b := by
    rw [CutId.le_iff, CutId.le_iff]
    omega
  trans a b c := by
    rw [CutId.le_iff, CutId.le_iff, CutId.le_iff]
    omega
  antisymm a b := by
    rcases a with ⟨h, t⟩
    rcases b with ⟨h', t'⟩
    rw [CutId.le_iff, CutId.le_iff, CutId.mk.injEq]
    dsimp only
    omega

end WorstCase
