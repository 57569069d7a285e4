import Mathlib.Data.List.Forall2

/-!
# Computations that can fail

A computation returns something if all of its stages do, and fails with the error of the first stage
that fails. The lemmas of this module take such a computation apart into its stages
(`bind_eq_ok_iff`, `bind_eq_error_iff`), and runs over lists into those over their elements
(`mapM_eq_ok_iff`, `foldlM_preserves`).
-/

namespace WorstCase

variable {ε α β : Type}

theorem pure_eq_ok_iff {a b : α} : (pure a : Except ε α) = .ok b ↔ a = b := by
  simp [pure, Except.pure]

theorem pure_ne_error {a : α} {e : ε} : (pure a : Except ε α) ≠ .error e := by
  simp [pure, Except.pure]

theorem throw_ne_ok {e : ε} {a : α} : (throw e : Except ε α) ≠ .ok a := by
  simp [throw, throwThe, MonadExceptOf.throw]

theorem throw_eq_error_iff {e e' : ε} : (throw e : Except ε α) = .error e' ↔ e = e' := by
  simp [throw, throwThe, MonadExceptOf.throw]

theorem throw_bind {e : ε} {f : α → Except ε β} : (throw e >>= f : Except ε β) = throw e :=
  rfl

section Bind

variable {x : Except ε α} {f : α → Except ε β}

theorem bind_eq_ok_iff {b : β} : x >>= f = .ok b ↔ ∃ a, x = .ok a ∧ f a = .ok b := by
  cases x <;> simp [bind, Except.bind]

theorem bind_eq_error_iff {e : ε} :
    x >>= f = .error e ↔ x = .error e ∨ ∃ a, x = .ok a ∧ f a = .error e := by
  cases x <;> simp [bind, Except.bind]

/-- A check comes before the rest. -/
theorem ite_throw_bind_eq_ok_iff {p : Prop} [Decidable p] {e : ε} {y : Except ε β} {b : β} :
    (if p then throw e >>= f else y) = .ok b ↔ ¬ p ∧ y = .ok b := by
  by_cases hp : p <;> simp [hp, throw_bind, throw_ne_ok]

theorem ite_throw_bind_eq_error_iff {p : Prop} [Decidable p] {e e' : ε} {y : Except ε β} :
    (if p then throw e >>= f else y) = .error e' ↔ p ∧ e = e' ∨ ¬ p ∧ y = .error e' := by
  by_cases hp : p <;> simp [hp, throw_bind, throw_eq_error_iff]

theorem map_eq_ok_iff {k : α → β} {b : β} : x.map k = .ok b ↔ ∃ a, x = .ok a ∧ k a = b := by
  cases x <;> simp [Except.map]

theorem map_eq_error_iff {k : α → β} {e : ε} : x.map k = .error e ↔ x = .error e := by
  cases x <;> simp [Except.map]

end Bind

/-- Where values can be compared, but not errors, a result is recognized as an option. -/
theorem ok_of_toOption_eq_some {x : Except ε α} {a : α} (h : x.toOption = some a) : x = .ok a := by
  rcases x with e | b
  · simp [Except.toOption] at h
  · exact congrArg Except.ok (Option.some_inj.mp h)

/-! ### Runs over lists -/

theorem mapM_eq_ok_iff {f : α → Except ε β} {l : List α} {bs : List β} :
    l.mapM f = .ok bs ↔ List.Forall₂ (fun a b => f a = .ok b) l bs := by
  induction l generalizing bs with
  | nil => rw [List.mapM_nil, pure_eq_ok_iff, List.forall₂_nil_left_iff, eq_comm]
  | cons a l ih =>
    simp only [List.mapM_cons, bind_eq_ok_iff, pure_eq_ok_iff, List.forall₂_cons_left_iff, ih,
      eq_comm (b := bs), exists_and_left]

/-- What is computed for all elements of a list is computed by any function that agrees where the
first succeeds. -/
theorem mapM_eq_ok_of_imp {f f' : α → Except ε β} (hf : ∀ a b, f a = .ok b → f' a = .ok b)
    {l : List α} {bs : List β} (h : l.mapM f = .ok bs) : l.mapM f' = .ok bs :=
  mapM_eq_ok_iff.mpr ((mapM_eq_ok_iff.mp h).imp hf)

/-- A list in which one element cannot be gone through. -/
theorem exists_of_mapM_eq_error {f : α → Except ε β} {l : List α} {e : ε}
    (h : l.mapM f = .error e) : ∃ a ∈ l, f a = .error e := by
  induction l with
  | nil => exact absurd h pure_ne_error
  | cons a l ih =>
    rw [List.mapM_cons, bind_eq_error_iff] at h
    obtain ha | ⟨b, -, h⟩ := h
    · exact ⟨a, List.mem_cons_self, ha⟩
    obtain hl | ⟨bs, -, h⟩ := bind_eq_error_iff.mp h
    · obtain ⟨a', ha', h'⟩ := ih hl
      exact ⟨a', List.mem_cons_of_mem _ ha', h'⟩
    · exact absurd h pure_ne_error

/-- What every step preserves, a run of steps that succeed preserves. -/
theorem foldlM_preserves {σ : Type} {step : σ → α → Except ε σ} {P : σ → Prop}
    (hstep : ∀ {s a s'}, P s → step s a = .ok s' → P s') {s s' : σ} {as : List α} (hs : P s)
    (h : as.foldlM step s = .ok s') : P s' := by
  induction as generalizing s with
  | nil => exact pure_eq_ok_iff.mp h ▸ hs
  | cons a as ih =>
    rw [List.foldlM_cons, bind_eq_ok_iff] at h
    obtain ⟨s₁, ha, h⟩ := h
    exact ih (hstep hs ha) h

end WorstCase
