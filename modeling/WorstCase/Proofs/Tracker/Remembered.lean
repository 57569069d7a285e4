import WorstCase.Tracker.Basic
import Mathlib.Data.List.Pairwise
import Mathlib.Data.String.Basic

/-!
# What a tracker remembers

What a tracker remembers of an input changes when that input is recorded, forgotten or dropped, and
not otherwise. The entries of a tracker that is built by these operations are in strict order, so
the tracker is nothing but what it remembers of each input (`Tracker.Ordered.ext`).
-/

namespace WorstCase.Tracker

variable {t t' : Tracker} {e : TrackerEntry} {k : String}

/-! ### Looking entries up -/

theorem input_of_find? (h : t.find? k = some e) : e.input = k := by
  simpa using List.find?_some h

theorem mem_of_find? (h : t.find? k = some e) : e ∈ t.entries := List.mem_of_find?_eq_some h

theorem find?_record (t : Tracker) (e : TrackerEntry) (k : String) :
    (t.record e).find? k = if k = e.input then some e else t.find? k := by
  have hinsert : ∀ entries : List TrackerEntry,
      (insertEntry e entries).find? (fun x => x.input = k) =
        if k = e.input then some e else entries.find? fun x => x.input = k := by
    intro entries
    induction entries with
    | nil => by_cases hk : k = e.input <;> simp [insertEntry, hk, eq_comm]
    | cons x entries ih =>
      rw [insertEntry]
      by_cases hx : e.input = x.input
      · rw [if_pos hx]
        by_cases hk : k = e.input
        · rw [if_pos hk, List.find?_cons_of_pos (by simpa using hk.symm)]
        · rw [if_neg hk, List.find?_cons_of_neg (by simpa using Ne.symm hk),
            List.find?_cons_of_neg (by simpa [← hx] using Ne.symm hk)]
      rw [if_neg hx]
      by_cases hlt : e.input < x.input
      · rw [if_pos hlt]
        by_cases hk : k = e.input
        · rw [if_pos hk, List.find?_cons_of_pos (by simpa using hk.symm)]
        · rw [if_neg hk, List.find?_cons_of_neg (by simpa using Ne.symm hk)]
      · rw [if_neg hlt, List.find?_cons, List.find?_cons, ih]
        by_cases hk : k = e.input
        · subst hk
          simp [Ne.symm hx]
        · rw [if_neg hk, if_neg hk]
  exact hinsert t.entries

theorem find?_forget (t : Tracker) (input k : String) :
    (t.forget input).find? k = if k = input then none else t.find? k := by
  rw [find?, forget, List.find?_filter]
  by_cases hk : k = input
  · subst hk
    rw [if_pos rfl, List.find?_eq_none]
    simp
  · rw [if_neg hk]
    refine congrArg (fun p => t.entries.find? p) (funext fun x => ?_)
    by_cases hx : x.input = k
    · simp [hx, hk]
    · simp [hx]

theorem find?_prune (t : Tracker) (keep : List String) (k : String) :
    (t.prune keep).find? k = if k ∈ keep then t.find? k else none := by
  rw [find?, prune, List.find?_filter]
  by_cases hk : k ∈ keep
  · rw [if_pos hk]
    refine congrArg (fun p => t.entries.find? p) (funext fun x => ?_)
    by_cases hx : x.input = k
    · simp [hx, hk]
    · simp [hx]
  · rw [if_neg hk, List.find?_eq_none]
    intro x _ hx
    simp only [List.contains_iff_mem, decide_eq_true_eq] at hx
    exact hk (hx.2 ▸ hx.1)

/-! ### The order of entries -/

/-- The inputs of a tracker are in strict order. -/
def Ordered (t : Tracker) : Prop := t.entries.Pairwise fun a b => a.input < b.input

theorem ordered_empty : Ordered {} := List.Pairwise.nil

theorem mem_insertEntry {x : TrackerEntry} {entries : List TrackerEntry}
    (h : x ∈ insertEntry e entries) : x = e ∨ x ∈ entries := by
  induction entries with
  | nil => exact .inl (List.mem_singleton.mp h)
  | cons y entries ih =>
    rw [insertEntry] at h
    split at h
    · exact (List.mem_cons.mp h).imp_right (List.mem_cons_of_mem _)
    split at h
    · exact List.mem_cons.mp h
    · rcases List.mem_cons.mp h with rfl | h
      · exact .inr List.mem_cons_self
      · exact (ih h).imp_right (List.mem_cons_of_mem _)

theorem Ordered.record (h : t.Ordered) (e : TrackerEntry) : (t.record e).Ordered := by
  have hinsert : ∀ entries : List TrackerEntry, entries.Pairwise (fun a b => a.input < b.input) →
      (insertEntry e entries).Pairwise fun a b => a.input < b.input := by
    intro entries h
    induction entries with
    | nil => exact List.pairwise_singleton _ _
    | cons x entries ih =>
      rw [List.pairwise_cons] at h
      rw [insertEntry]
      split
      · rename_i heq
        exact List.pairwise_cons.mpr ⟨fun y hy => heq ▸ h.1 y hy, h.2⟩
      rename_i hne
      split
      · rename_i hlt
        exact List.pairwise_cons.mpr ⟨List.forall_mem_cons.mpr ⟨hlt, fun y hy =>
          lt_trans hlt (h.1 y hy)⟩, List.pairwise_cons.mpr h⟩
      · rename_i hle
        refine List.pairwise_cons.mpr ⟨fun y hy => ?_, ih h.2⟩
        rcases mem_insertEntry hy with rfl | hy
        · exact lt_of_le_of_ne (not_lt.mp hle) (Ne.symm hne)
        · exact h.1 y hy
  exact hinsert t.entries h

theorem Ordered.forget (h : t.Ordered) (input : String) : (t.forget input).Ordered :=
  h.filter _

theorem Ordered.prune (h : t.Ordered) (keep : List String) : (t.prune keep).Ordered :=
  h.filter _

theorem ordered_ofEntries (entries : List TrackerEntry) : (ofEntries entries).Ordered := by
  have hfold : ∀ (entries : List TrackerEntry) (t : Tracker), t.Ordered →
      (entries.foldl Tracker.record t).Ordered := by
    intro entries
    induction entries with
    | nil => exact fun t h => h
    | cons e entries ih => exact fun t h => ih _ (h.record e)
  exact hfold entries {} ordered_empty

/-- What an ordered tracker remembers are its entries. -/
theorem Ordered.find?_eq_some_iff (h : t.Ordered) :
    t.find? k = some e ↔ e ∈ t.entries ∧ e.input = k := by
  refine ⟨fun hfind => ⟨mem_of_find? hfind, input_of_find? hfind⟩, ?_⟩
  rintro ⟨hmem, rfl⟩
  rw [find?]
  have hfind : ∀ entries : List TrackerEntry, entries.Pairwise (fun a b => a.input < b.input) →
      e ∈ entries → entries.find? (fun x => x.input = e.input) = some e := by
    intro entries h hmem
    induction entries with
    | nil => exact absurd hmem List.not_mem_nil
    | cons x entries ih =>
      rw [List.pairwise_cons] at h
      rcases List.mem_cons.mp hmem with rfl | hmem
      · exact List.find?_cons_of_pos (by simp)
      · rw [List.find?_cons_of_neg (by simpa using ne_of_lt (h.1 e hmem))]
        exact ih h.2 hmem
  exact hfind _ h hmem

/-- **A tracker is what it remembers.** -/
theorem Ordered.ext (h : t.Ordered) (h' : t'.Ordered) (hfind : ∀ k, t.find? k = t'.find? k) :
    t = t' := by
  have hmem : ∀ e, e ∈ t.entries ↔ e ∈ t'.entries := fun e => by
    simpa [h.find?_eq_some_iff, h'.find?_eq_some_iff] using
      congrArg (fun x => x = some e) (hfind e.input)
  have hnodup : ∀ {t : Tracker}, t.Ordered → t.entries.Nodup := fun h =>
    List.Pairwise.imp (fun hlt => mt (congrArg TrackerEntry.input) (ne_of_lt hlt)) h
  have hperm := (List.perm_ext_iff_of_nodup (hnodup h) (hnodup h')).mpr hmem
  have heq : t.entries = t'.entries := hperm.eq_of_pairwise
    (fun a b _ _ hab hba => absurd (lt_trans hab hba) (lt_irrefl _)) h h'
  cases t
  cases t'
  cases heq
  rfl

/-! ### Without dates -/

/-- The tracker without the times at which problems were generated. -/
def undated (t : Tracker) : Tracker := { entries := t.entries.map fun e => { e with built := 0 } }

theorem find?_undated (t : Tracker) (k : String) :
    t.undated.find? k = (t.find? k).map fun e => { e with built := 0 } := by
  rw [undated, find?, find?, List.find?_map]
  rfl

theorem Ordered.undated (h : t.Ordered) : t.undated.Ordered := h.map _ fun _ _ hlt => hlt

end WorstCase.Tracker
