import WorstCase.Proofs.Files.Walk
import Mathlib.Data.Set.Basic
import Mathlib.Tactic.SplitIfs

/-!
# Trees that grow

No operation takes anything away from a tree: directories are made where nothing is, and files get
contents. So a tree after some operations is the old one **grown** at the places where directories
are made and files are written (`Files.Grows`). The way to an entry leads through directories and
links only, and these stay. Hence

* what a path leads to stays, up to the contents of files that are written (`Files.Grows.walk`);
* a path that leads nowhere for another reason than that something is missing keeps leading nowhere,
  for the same reason (`Files.Follows`).
-/

namespace WorstCase

/-- An entry stays what it is; a file that is spared keeps its contents. -/
def FileEntry.KeptAs (spared : Prop) : FileEntry → FileEntry → Prop
  | .file c, e => ∃ c', e = .file c' ∧ (spared → c' = c)
  | .directory, e => e = .directory
  | .link t, e => e = .link t

namespace FileEntry.KeptAs

variable {p q : Prop} {e e' e'' : FileEntry}

theorem refl (p : Prop) (e : FileEntry) : KeptAs p e e := by
  cases e with
  | file c => exact ⟨c, rfl, fun _ => rfl⟩
  | directory => rfl
  | link t => rfl

theorem trans (h : KeptAs p e e') (h' : KeptAs q e' e'') : KeptAs (p ∧ q) e e'' := by
  cases e with
  | file c =>
    obtain ⟨c', rfl, hc'⟩ := h
    obtain ⟨c'', rfl, hc''⟩ := h'
    exact ⟨c'', rfl, fun hpq => (hc'' hpq.2).trans (hc' hpq.1)⟩
  | directory =>
    obtain rfl := h
    exact h'
  | link t =>
    obtain rfl := h
    exact h'

theorem imp (hqp : q → p) (h : KeptAs p e e') : KeptAs q e e' := by
  cases e with
  | file c =>
    obtain ⟨c', rfl, hc'⟩ := h
    exact ⟨c', rfl, fun hq => hc' (hqp hq)⟩
  | directory => exact h
  | link t => exact h

/-- What is spared does not change. -/
theorem eq (h : KeptAs p e e') (hp : p) : e' = e := by
  cases e with
  | file c =>
    obtain ⟨c', rfl, hc'⟩ := h
    rw [hc' hp]
  | directory => exact h
  | link t => exact h

end FileEntry.KeptAs

namespace Files

variable {fs fs' fs'' : Files} {made made' written written' : Set (List String)}

/-! ### Entries -/

@[simp]
theorem entry?_nil (fs : Files) : fs.entry? [] = some .directory := rfl

theorem entry?_put {place q : List String} (hplace : place ≠ []) (fs : Files) (e : FileEntry) :
    Files.entry? (fs.put place e) q = if q = place then some e else fs.entry? q := by
  have hlookup : ∀ entries : List (List String × FileEntry), q ≠ place →
      (entries.filter (·.1 ≠ place)).lookup q = entries.lookup q := by
    intro entries hq
    induction entries with
    | nil => rfl
    | cons x entries ih =>
      by_cases hx : x.1 = place
      · have hqx : (q == x.1) = false := by
          rw [hx]
          exact beq_false_of_ne hq
        rw [List.filter_cons_of_neg (by simpa using hx), ih, List.lookup_cons, hqx]
      · rw [List.filter_cons_of_pos (by simpa using hx), List.lookup_cons, List.lookup_cons, ih]
  by_cases hq : q = []
  · subst hq
    rw [if_neg (Ne.symm hplace)]
    rfl
  · have hne : q.isEmpty = false := by simpa using hq
    split_ifs with h
    · subst h
      simp [ entry?, put, hne]
    · have hbeq : (q == place) = false := beq_false_of_ne h
      simp only [ entry?, put, hne, Bool.false_eq_true, if_false, List.lookup_cons, hbeq]
      exact hlookup _ h

/-! ### Growing -/

/-- A tree is another one with directories made at some places, and files written at some. -/
structure Grows (made written : Set (List String)) (fs fs' : Files) : Prop where
  kept : ∀ {q e}, fs.entry? q = some e →
    ∃ e', fs'.entry? q = some e' ∧ e.KeptAs (q ∉ written) e'
  new : ∀ {q e'}, fs.entry? q = none → fs'.entry? q = some e' →
    e' = .directory ∧ q ∈ made ∨ (∃ c, e' = .file c) ∧ q ∈ written

namespace Grows

theorem refl (made written : Set (List String)) (fs : Files) : Grows made written fs fs :=
  ⟨fun {_ e} h => ⟨e, h, .refl _ e⟩, fun h h' => absurd (h.symm.trans h') (by simp)⟩

theorem mono (hmade : made ⊆ made') (hwritten : written ⊆ written')
    (h : Grows made written fs fs') : Grows made' written' fs fs' where
  kept hq := by
    obtain ⟨e', he', hkept⟩ := h.kept hq
    exact ⟨e', he', hkept.imp fun hn hm => hn (hwritten hm)⟩
  new hq hq' := (h.new hq hq').imp (fun hd => ⟨hd.1, hmade hd.2⟩) fun hf => ⟨hf.1, hwritten hf.2⟩

theorem trans (h : Grows made written fs fs') (h' : Grows made written fs' fs'') :
    Grows made written fs fs'' where
  kept hq := by
    obtain ⟨e', he', hkept⟩ := h.kept hq
    obtain ⟨e'', he'', hkept'⟩ := h'.kept he'
    exact ⟨e'', he'', (hkept.trans hkept').imp fun hn => ⟨hn, hn⟩⟩
  new {q e''} hq hq'' := by
    rcases he' : fs'.entry? q with _ | e'
    · exact h'.new he' hq''
    · obtain ⟨e₁, he₁, hkept⟩ := h'.kept he'
      obtain rfl := Option.some.inj (he₁.symm.trans hq'')
      rcases h.new hq he' with ⟨rfl, hm⟩ | ⟨⟨c, rfl⟩, hw⟩
      · exact .inl ⟨hkept, hm⟩
      · obtain ⟨c', rfl, -⟩ := hkept
        exact .inr ⟨⟨c', rfl⟩, hw⟩

end Grows

/-- Elsewhere nothing changes. -/
theorem Grows.entry?_eq (h : Grows made written fs fs') {q : List String} (hmade : q ∉ made)
    (hwritten : q ∉ written) : fs'.entry? q = fs.entry? q := by
  rcases hq : fs.entry? q with _ | e
  · by_contra hsome
    obtain ⟨e', he'⟩ := Option.ne_none_iff_exists'.mp hsome
    exact (h.new hq he').elim (fun hd => hmade hd.2) fun hf => hwritten hf.2
  · obtain ⟨e', he', hkept⟩ := h.kept hq
    rw [he', hkept.eq hwritten]

/-! ### Growing at one place or several -/

/-- The tree after a file is put somewhere. -/
def PutAt (place : List String) (contents : ByteArray) (fs fs' : Files) : Prop :=
  ∀ q, fs'.entry? q = if q = place then some (.file contents) else fs.entry? q

/-- The tree after directories are made at some places. -/
def MadeAt (places : Set (List String)) (fs fs' : Files) : Prop :=
  ∀ q, (q ∈ places → fs'.entry? q = some .directory) ∧
    (q ∉ places → fs'.entry? q = fs.entry? q)

theorem putAt_put {place : List String} (hplace : place ≠ []) (fs : Files)
    (contents : ByteArray) : PutAt place contents fs (fs.put place (.file contents)) :=
  fun _ => entry?_put hplace fs _

theorem madeAt_put {place : List String} (hplace : place ≠ []) (fs : Files) :
    MadeAt {place} fs (fs.put place .directory) := fun q => by
  rw [entry?_put hplace]
  exact ⟨fun hq => if_pos hq, fun hq => if_neg hq⟩

theorem MadeAt.trans {places places' : Set (List String)} {fs'' : Files}
    (h : MadeAt places fs fs') (h' : MadeAt places' fs' fs'') :
    MadeAt (places ∪ places') fs fs'' := by
  intro q
  by_cases hq' : q ∈ places'
  · exact ⟨fun _ => (h' q).1 hq', fun hq => absurd (.inr hq') hq⟩
  · exact ⟨fun hq => ((h' q).2 hq').trans ((h q).1 (hq.resolve_right hq')),
      fun hq => ((h' q).2 hq').trans ((h q).2 fun hq'' => hq (.inl hq''))⟩

theorem MadeAt.grows (h : MadeAt made fs fs')
    (hopen : ∀ q ∈ made, fs.entry? q = none ∨ fs.entry? q = some .directory) :
    Grows made written fs fs' where
  kept {q e} hq := by
    by_cases hmem : q ∈ made
    · rcases hopen q hmem with hnone | hdirectory
      · exact absurd (hnone.symm.trans hq) (by simp)
      · obtain rfl := Option.some.inj (hdirectory.symm.trans hq)
        exact ⟨_, (h q).1 hmem, rfl⟩
    · exact ⟨e, ((h q).2 hmem).trans hq, .refl _ e⟩
  new {q e'} hq hq' := by
    by_cases hmem : q ∈ made
    · exact .inl ⟨Option.some.inj (hq'.symm.trans ((h q).1 hmem)), hmem⟩
    · rw [(h q).2 hmem, hq] at hq'
      exact absurd hq' (by simp)

theorem PutAt.grows {place : List String} {contents : ByteArray} (h : PutAt place contents fs fs')
    (hfile : ∀ e, fs.entry? place = some e → ∃ c, e = .file c) :
    Grows made {place} fs fs' where
  kept {q e} hq := by
    rw [h q]
    by_cases hqp : q = place
    · subst hqp
      obtain ⟨c, rfl⟩ := hfile e hq
      exact ⟨_, if_pos rfl, contents, rfl, fun hn => absurd rfl hn⟩
    · exact ⟨e, by rw [if_neg hqp, hq], .refl _ e⟩
  new {q e'} hq hq' := by
    rw [h q] at hq'
    by_cases hqp : q = place
    · rw [if_pos hqp] at hq'
      exact .inr ⟨⟨contents, (Option.some.inj hq').symm⟩, hqp⟩
    · rw [if_neg hqp, hq] at hq'
      exact absurd hq' (by simp)

/-! ### Ways in trees that grow -/

/-- How a way ends in a grown tree, compared with how it ended before: an entry stays, and so does
a failure, unless something was missing. -/
def Follows (written : Set (List String)) :
    Except FileCause Location → Except FileCause Location → Prop
  | .ok ⟨place, some e⟩, r => ∃ e', r = .ok ⟨place, some e'⟩ ∧ e.KeptAs (place ∉ written) e'
  | .ok ⟨_, none⟩, _ => True
  | .error cause, r => cause ≠ .missing → r = .error cause

/-- **What a path leads to stays** when a tree grows. -/
theorem Grows.walk (h : Grows made written fs fs') (purpose : Purpose) (n : Nat)
    (here todo : List String) :
    Follows written (fs.walk purpose n here todo) (fs'.walk purpose n here todo) := by
  induction n, here, todo using walk_induction with
  | nil n here =>
    rw [walk_nil, walk_nil]
    exact ⟨_, rfl, rfl⟩
  | stay n here c rest hc ih =>
    rw [walk_stay hc, walk_stay hc]
    exact ih
  | up n here rest ih =>
    rw [walk_up, walk_up]
    exact ih
  | name n here c rest hc ih ihlink =>
    rw [walk_name hc, walk_name hc]
    split
    · exact fun _ => rfl
    split
    · exact fun _ => rfl
    rcases hentry : fs.entry? (here ++ [c]) with _ | e
    · rw [meet]
      split
      · trivial
      · exact fun hne => absurd rfl hne
    obtain ⟨e', he', hkept⟩ := h.kept hentry
    rw [he']
    cases e with
    | file contents =>
      obtain ⟨c', rfl, hc'⟩ := hkept
      rw [meet, meet]
      split
      · exact ⟨_, rfl, c', rfl, hc'⟩
      · exact fun _ => rfl
    | directory =>
      obtain rfl := hkept
      exact ih
    | link target =>
      obtain rfl := hkept
      rw [meet, meet]
      split
      · exact ⟨_, rfl, rfl⟩
      cases n with
      | zero => exact fun _ => rfl
      | succ n => exact ihlink n rfl _ _

/-- Ways stay. -/
theorem Grows.way (h : Grows made written fs fs') {n n' : Nat} {here xs d : List String}
    (hway : Way fs n here xs n' d) : Way fs' n here xs n' d := by
  induction hway with
  | nil => exact .nil
  | stay hc _ ih => exact .stay hc ih
  | up _ ih => exact .up ih
  | down hc hlength hentry _ ih =>
    obtain ⟨_, he, rfl⟩ := h.kept hentry
    exact .down hc hlength he ih
  | link hc hlength hentry _ ih =>
    obtain ⟨_, he, rfl⟩ := h.kept hentry
    exact .link hc hlength he ih

theorem Grows.locate (h : Grows made written fs fs') (purpose : Purpose) (here : List String)
    (path : String) :
    Follows written (fs.locate purpose here path) (fs'.locate purpose here path) := by
  unfold Files.locate
  split_ifs
  · exact fun hne => absurd rfl hne
  · exact fun _ => rfl
  · exact fun _ => rfl
  · exact h.walk ..
  · exact h.walk ..

end Files

end WorstCase
