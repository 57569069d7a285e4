import WorstCase.Proofs.Graph.Valid
import WorstCase.Store.Update

/-!
# Indexes and edits

An index **locates** the keys of a row of entries when it knows exactly the keys that are there,
each at its position (`Locates`). Then a search through the index is a search of the row, and a
change at the position of a key is a change of the entry with that key.

What an `Edit` does is computed step by step with the lemmas on `Edit.on`.
-/

namespace WorstCase

/-! ### Indexes -/

section Index

variable {κ α : Type} [DecidableEq κ] {index : List (κ × Nat)} {keys : List κ} {rows : List α}
  {key : α → κ} {k : κ} {i : Nat}

/-- An index **locates** keys when it has each of them at its position, and no others. -/
def Locates (index : List (κ × Nat)) (keys : List κ) : Prop :=
  ∀ k i, index.lookup k = some i ↔ keys[i]? = some k

theorem locates_nil : Locates ([] : List (κ × Nat)) [] := fun k i => by simp

/-- A new key is indexed before its entry is appended. -/
theorem Locates.push (h : Locates index keys) (hk : k ∉ keys) :
    Locates ((k, keys.length) :: index) (keys ++ [k]) := by
  intro k' i
  by_cases hkk : k' = k
  · subst hkk
    rw [List.lookup_cons_self, Option.some_inj, List.getElem?_append]
    split
    · rename_i hi
      refine iff_of_false (by omega) fun hi' => hk (List.mem_of_getElem? hi')
    · rw [List.getElem?_singleton]
      split <;> simp <;> omega
  · have hlookup : ((k, keys.length) :: index).lookup k' = index.lookup k' := by
      rw [List.lookup_cons, beq_false_of_ne hkk]
    rw [hlookup, h k' i, List.getElem?_append]
    split
    · rfl
    · rename_i hi
      rw [List.getElem?_eq_none (by omega), List.getElem?_singleton]
      refine iff_of_false (by simp) ?_
      split
      · exact fun hkk' => hkk (Option.some_inj.mp hkk').symm
      · simp

theorem Locates.nodup (h : Locates index keys) : keys.Nodup := by
  refine List.nodup_iff_getElem?_ne_getElem?.mpr fun i j hij hj heq => ?_
  have hkey : keys[i]? = some keys[j] := heq ▸ List.getElem?_eq_getElem hj
  have hi := (h _ i).mpr hkey
  have hj' := (h _ j).mpr (List.getElem?_eq_getElem hj)
  exact Nat.ne_of_lt hij (Option.some_inj.mp (hi.symm.trans hj'))

theorem Locates.isSome_iff (h : Locates index keys) : (index.lookup k).isSome ↔ k ∈ keys := by
  rw [Option.isSome_iff_exists, List.mem_iff_getElem?]
  exact exists_congr fun i => h k i

/-- **Searching through the index is searching the row.** -/
theorem Locates.bind_eq_find? (h : Locates index (rows.map key)) (k : κ) :
    ((index.lookup k).bind fun i => rows[i]?) = rows.find? (key · = k) := by
  ext a
  rw [find?_key_eq_some_iff h.nodup, Option.bind_eq_some_iff]
  constructor
  · rintro ⟨i, hi, ha⟩
    have hkey : (rows.map key)[i]? = some k := (h k i).mp hi
    rw [List.getElem?_map, ha] at hkey
    exact ⟨List.mem_of_getElem? ha, Option.some_inj.mp hkey⟩
  · rintro ⟨ha, rfl⟩
    obtain ⟨i, hi⟩ := List.mem_iff_getElem?.mp ha
    exact ⟨i, (h _ i).mpr (by rw [List.getElem?_map, hi]; rfl), hi⟩

/-- **Changing the entry at a position is changing the entry with that key.** -/
theorem Locates.modify_eq (h : Locates index (rows.map key)) (hi : index.lookup k = some i)
    (f : α → α) : rows.modify i f = rows.map fun a => if key a = k then f a else a := by
  refine List.ext_getElem? fun j => ?_
  rw [List.getElem?_modify, List.getElem?_map]
  rcases hj : rows[j]? with _ | a
  · rfl
  · have hpos : i = j ↔ key a = k := by
      have hkey : (rows.map key)[j]? = some (key a) := by rw [List.getElem?_map, hj]; rfl
      refine ⟨?_, fun hk => ?_⟩
      · rintro rfl
        exact Option.some_inj.mp (hkey.symm.trans ((h k i).mp hi))
      · exact Option.some_inj.mp (hi.symm.trans ((h k j).mpr (hk ▸ hkey)))
    by_cases hk : key a = k
    · simp [hk, hpos.mpr hk]
    · simp [hk, mt hpos.mp hk]

theorem Locates.modifyAt_eq (h : Locates index (rows.map key)) (k : κ) (f : α → α) :
    Store.modifyAt index k f rows = rows.map fun a => if key a = k then f a else a := by
  rcases hk : index.lookup k with _ | i
  · -- no entry has the key
    have hnone : k ∉ rows.map key := by
      rw [← h.isSome_iff, hk]
      exact Bool.false_ne_true
    have hsame : ∀ a ∈ rows, (if key a = k then f a else a) = a := fun a ha =>
      if_neg fun hka => hnone (List.mem_map.mpr ⟨a, ha, hka⟩)
    rw [List.map_congr_left hsame, List.map_id', Store.modifyAt, hk]
  · rw [Store.modifyAt, hk]
    exact h.modify_eq hk f

/-- In a table without repetitions a lookup finds exactly the entries. -/
theorem lookup_eq_some_iff_mem {table : List (κ × α)} (h : (table.map (·.1)).Nodup) {a : α} :
    table.lookup k = some a ↔ (k, a) ∈ table := by
  induction table with
  | nil => simp
  | cons entry table ih =>
    obtain ⟨k', a'⟩ := entry
    rw [List.map_cons, List.nodup_cons] at h
    by_cases hk : k = k'
    · subst hk
      have hfresh : (k, a) ∉ table := fun hmem => h.1 (List.mem_map.mpr ⟨_, hmem, rfl⟩)
      rw [List.lookup_cons_self, Option.some_inj, List.mem_cons, Prod.mk.injEq]
      exact ⟨fun ha => .inl ⟨rfl, ha.symm⟩, fun hmem => (hmem.resolve_right hfresh).2.symm⟩
    · rw [List.lookup_cons, beq_false_of_ne hk, List.mem_cons, ih h.2, Prod.mk.injEq]
      exact ⟨.inr, fun hmem => hmem.resolve_left fun heq => hk heq.1⟩

end Index

/-! ### Edits -/

namespace Edit

variable {ε ε' α β : Type}

@[simp]
theorem on_pure (a : α) (s : Store) : (pure a : Edit ε α).on s = (.ok a, s) := rfl

@[simp]
theorem on_throw (e : ε) (s : Store) : (throw e : Edit ε α).on s = (.error e, s) := rfl

@[simp]
theorem on_get (s : Store) : (get : Edit ε Store).on s = (.ok s, s) := rfl

@[simp]
theorem on_modify (f : Store → Store) (s : Store) :
    (modify f : Edit ε Unit).on s = (.ok (), f s) := rfl

/-- What was done before a failure stays done. -/
@[simp]
theorem on_bind (x : Edit ε α) (f : α → Edit ε β) (s : Store) :
    (x >>= f).on s =
      match x.on s with
      | (.error e, s') => (.error e, s')
      | (.ok a, s') => (f a).on s' := by
  show (ExceptT.bindCont f (x.on s).1).run (x.on s).2 = _
  rcases x.on s with ⟨_ | a, s'⟩ <;> rfl

@[simp]
theorem on_map (f : α → β) (x : Edit ε α) (s : Store) :
    (f <$> x).on s = ((x.on s).1.map f, (x.on s).2) := by
  rw [map_eq_pure_bind, on_bind]
  rcases x.on s with ⟨_ | a, s'⟩ <;> rfl

@[simp]
theorem on_ite (p : Prop) [Decidable p] (x y : Edit ε α) (s : Store) :
    (if p then x else y).on s = if p then x.on s else y.on s := by
  split <;> rfl

@[simp]
theorem on_adapt (f : ε → ε') (x : Edit ε α) (s : Store) :
    Edit.on (ExceptT.adapt f x) s = ((x.on s).1.mapError f, (x.on s).2) :=
  rfl

end Edit

end WorstCase
