import WorstCase.Proofs.Files.Operations

/-!
# Ways that end early

A way through a tree ends early where something is missing, or where a link leads to something that
is missing: such a link **dangles**. On every path there is the first component at which one of the
two happens, or none at all (`Files.ending`). Only what is missing can be there later, when the
tree has grown; so if no link on a path dangles (`Files.Straight`), all that the growth can change
about it is behind the first missing component.
-/

namespace WorstCase.Files

open WorstCase.Path (IsName component_cases)

variable {fs fs' : Files} {made written : Set (List String)} {purpose : Purpose} {n n' : Nat}
  {here d place xs ys cs : List String} {c path : String} {entry : FileEntry}

/-! ### Missing things -/

/-- A path leads nowhere because something is missing. -/
def Missing : Except FileCause Location → Prop
  | .ok ⟨_, entry⟩ => entry = none
  | .error cause => cause = .missing

@[simp]
theorem missing_ok {l : Location} : Missing (.ok l) ↔ l.entry = none := Iff.rfl

@[simp]
theorem missing_error {cause : FileCause} : Missing (.error cause) ↔ cause = .missing := Iff.rfl

/-- **Where nothing is missing**, a path leads to the same entry in a tree that grows, or fails for
the same reason. -/
theorem Follows.of_not_missing {r r' : Except FileCause Location} (h : Follows written r r')
    (hr : ¬ Missing r) :
    (∃ place e e', r = .ok ⟨place, some e⟩ ∧ r' = .ok ⟨place, some e'⟩ ∧
      e.KeptAs (place ∉ written) e') ∨
    ∃ cause, cause ≠ .missing ∧ r = .error cause ∧ r' = .error cause := by
  match r, h, hr with
  | .ok ⟨_, none⟩, _, hr => exact absurd rfl hr
  | .ok ⟨place, some e⟩, ⟨e', he', hkept⟩, _ => exact .inl ⟨place, e, e', rfl, he', hkept⟩
  | .error cause, h, hr => exact .inr ⟨cause, hr, rfl, h hr⟩

/-- **What is read** from a path stays in a tree that grows elsewhere, unless something was missing.
-/
theorem Grows.read_eq (h : Grows made written fs fs')
    (hmissing : ¬ Missing (fs.locate .look here path))
    (hplace : ∀ place e, fs.locate .look here path = .ok ⟨place, e⟩ → place ∉ written) :
    fs'.read here path = fs.read here path := by
  rcases (h.locate .look here path).of_not_missing hmissing with
    ⟨place, e, e', hT, hF, hkept⟩ | ⟨cause, -, hT, hF⟩
  · unfold Files.read
    rw [hT, hF, hkept.eq (hplace _ _ hT)]
  · unfold Files.read
    rw [hT, hF]

/-! ### Behind the end -/

/-- What is asked of a walk for writing differs only if there is a slash at the end. -/
theorem walk_create (fs : Files) (n : Nat) (here todo : List String) :
    fs.walk .create n here todo = fs.walk .look n here todo ∨
      fs.walk .create n here todo = .error .isDirectory := by
  induction n, here, todo using walk_induction with
  | nil n here => exact .inl (by rw [walk_nil, walk_nil])
  | stay n here c rest hc ih => rwa [walk_stay hc, walk_stay hc]
  | up n here rest ih => rwa [walk_up, walk_up]
  | name n here c rest hc ih ihlink =>
    rw [walk_name hc, walk_name hc, if_neg (c := Purpose.look = .create ∧ _) (by simp)]
    split
    · exact .inr rfl
    split
    · exact .inl rfl
    rcases fs.entry? (here ++ [c]) with _ | file | _ | target
    · exact .inl rfl
    · exact .inl (by simp [meet])
    · exact ih
    · simp only [meet, stopsAtLink_create, stopsAtLink_look, Bool.false_eq_true, if_false]
      cases n with
      | zero => exact .inl rfl
      | succ n => exact ihlink n rfl _ _

/-- **Behind the end of a walk** that ends elsewhere than in a directory there is nothing, and that
is not because something is missing. -/
theorem walk_append_of_ended (h : ¬ Missing (fs.walk .look n here xs))
    (hd : ∀ d, fs.walk .look n here xs ≠ .ok ⟨d, some .directory⟩)
    (hys : ys.all (· = "") = false) (purpose : Purpose) :
    ∃ cause, cause ≠ .missing ∧ fs.walk purpose n here (xs ++ ys) = .error cause := by
  induction n, here, xs using walk_induction with
  | nil n here => exact absurd (walk_nil ..) (hd here)
  | stay n here c rest hc ih =>
    rw [walk_stay hc] at h
    rw [List.cons_append, walk_stay hc]
    exact ih h fun d => by simpa [walk_stay hc] using hd d
  | up n here rest ih =>
    rw [walk_up] at h
    rw [List.cons_append, walk_up]
    exact ih h fun d => by simpa [walk_up] using hd d
  | name n here c rest hc ih ihlink =>
    have hall := Way.all_append_eq_false hys rest
    have hempty : (rest ++ ys).isEmpty = false := by
      rw [List.isEmpty_eq_false_iff]
      rintro hnil
      simp [hnil] at hall
    simp only [walk_name hc, if_neg (show ¬ (Purpose.look = .create ∧ _) by simp)] at h hd
    rw [List.cons_append, walk_name hc, hall, if_neg (by simp)]
    split at h
    · rename_i hlength
      exact ⟨.nameTooLong, by simp, by rw [if_pos hlength]⟩
    rename_i hlength
    simp only [if_neg hlength] at hd
    rw [if_neg hlength]
    rcases hfound : fs.entry? (here ++ [c]) with _ | file | _ | target <;>
      simp only [hfound, meet, stopsAtLink_look, Bool.false_eq_true, if_false] at h hd ⊢
    · split at h
      · exact absurd rfl h
      · exact absurd rfl h
    · exact ⟨.notDirectory, by simp, by simp [hempty, hall]⟩
    · exact ih h hd
    · rw [Way.stopsAtLink_append hys, if_neg (by simp), ← List.append_assoc]
      cases n with
      | zero => exact ⟨.tooManyLinks, by simp, rfl⟩
      | succ n => exact ihlink n rfl _ _ h hd

/-! ### The first thing that is missing -/

/-- How the way through some components ends: nothing is missing, or it is the first component to be
missing, or there is a link that dangles. -/
inductive Ending (fs : Files) (n : Nat) (here : List String) : List String → Prop
  | whole {cs : List String}
      (h : ∀ purpose xs, xs <+: cs → ¬ Missing (fs.walk purpose n here xs)) : Ending fs n here cs
  | missing {pre post d : List String} {c : String} {n' : Nat} (hway : Way fs n here pre n' d)
      (hc : IsName c) (hlength : c.length ≤ maxName) (hentry : fs.entry? (d ++ [c]) = none) :
      Ending fs n here (pre ++ c :: post)
  | dangling {pre post d : List String} {c target : String} {n' : Nat}
      (hway : Way fs n here pre n' d) (hc : IsName c) (hlength : c.length ≤ maxName)
      (hentry : fs.entry? (d ++ [c]) = some (.link target))
      (hmissing : Missing (fs.walk .look n' d [c])) : Ending fs n here (pre ++ c :: post)

namespace Ending

/-- Where the first component leads to a directory, the rest is seen from there. -/
theorem cons_of_way {rest d : List String} (hway : Way fs n here [c] n' d)
    (hfront : ∀ purpose xs, xs <+: rest → ¬ Missing (fs.walk purpose n' d xs) →
      ¬ Missing (fs.walk purpose n here (c :: xs)))
    (h : Ending fs n' d rest) : Ending fs n here (c :: rest) := by
  cases h with
  | whole hall =>
    refine .whole fun purpose xs hxs => ?_
    rcases xs with _ | ⟨x, xs⟩
    · simp
    · obtain ⟨rfl, hxs'⟩ := List.cons_prefix_cons.mp hxs
      exact hfront purpose xs hxs' (hall purpose xs hxs')
  | missing hpre hc hlength hentry =>
    exact .missing (hway.append hpre) hc hlength hentry
  | dangling hpre hc hlength hentry hmissing =>
    exact .dangling (hway.append hpre) hc hlength hentry hmissing

/-- The way may end at the first component although nothing is missing. -/
theorem cons_of_not_missing {rest : List String}
    (h : ∀ purpose xs, xs <+: rest → ¬ Missing (fs.walk purpose n here (c :: xs))) :
    Ending fs n here (c :: rest) := by
  refine .whole fun purpose xs hxs => ?_
  rcases xs with _ | ⟨x, xs⟩
  · simp
  · obtain ⟨rfl, hxs'⟩ := List.cons_prefix_cons.mp hxs
    exact h purpose xs hxs'

/-- A link that leads somewhere is not missing itself. -/
theorem not_missing_link {target : String} (hc : IsName c) (hlength : c.length ≤ maxName)
    (hentry : fs.entry? (here ++ [c]) = some (.link target))
    (h : ¬ Missing (fs.walk .look n here [c])) (purpose : Purpose) :
    ¬ Missing (fs.walk purpose n here [c]) := by
  have hlength' := Nat.not_lt.mpr hlength
  cases purpose with
  | look => exact h
  | inspect => simp [walk_name hc, hlength', hentry, meet, Purpose.stopsAtLink]
  | create =>
    rcases walk_create fs n here [c] with heq | heq
    · rwa [heq]
    · simp [heq]
  | makeDirectory => simp [walk_name hc, hlength', hentry, meet, Purpose.stopsAtLink]

/-- So the rest of the path behind such a link is seen from where it leads. -/
theorem cons_of_link {rest : List String} {target : String} (hrest : ∀ c ∈ rest, c ≠ "")
    (ih : ∀ n here, Ending fs n here rest) (hc : IsName c) (hlength : c.length ≤ maxName)
    (hentry : fs.entry? (here ++ [c]) = some (.link target))
    (h : ¬ Missing (fs.walk .look n here [c])) : Ending fs n here (c :: rest) := by
  have hnonempty : ∀ {x : String} {xs : List String}, x :: xs <+: rest →
      (x :: xs).all (· = "") = false := by
    intro x xs hxs
    have hx := hrest x (hxs.subset List.mem_cons_self)
    simp [hx]
  by_cases hd : ∃ d, fs.walk .look n here [c] = .ok ⟨d, some .directory⟩
  · obtain ⟨d, hd⟩ := hd
    obtain ⟨m, hway⟩ := Way.of_walk hd
    refine cons_of_way hway (fun purpose xs hxs hxs' => ?_) (ih m d)
    rcases xs with _ | ⟨x, xs⟩
    · exact not_missing_link hc hlength hentry h purpose
    · rwa [← List.singleton_append, hway.walk_append (hnonempty hxs)]
  · refine cons_of_not_missing fun purpose xs hxs => ?_
    rcases xs with _ | ⟨x, xs⟩
    · exact not_missing_link hc hlength hentry h purpose
    · obtain ⟨cause, hcause, heq⟩ := walk_append_of_ended h (not_exists.mp hd) (hnonempty hxs) purpose
      rw [List.singleton_append] at heq
      rw [heq]
      exact hcause

end Ending

/-- **Every way ends in one of these ways.** -/
theorem ending (fs : Files) (n : Nat) (here : List String) {cs : List String}
    (hcs : ∀ c ∈ cs, c ≠ "") : Ending fs n here cs := by
  induction cs generalizing n here with
  | nil =>
    refine .whole fun purpose xs hxs => ?_
    rw [List.prefix_nil.mp hxs, walk_nil]
    simp
  | cons c rest ih =>
    rw [List.forall_mem_cons] at hcs
    have ih := fun n here => ih n here hcs.2
    rcases component_cases c with hc | rfl | hc
    · exact .cons_of_way (.stay hc .nil) (fun _ _ _ h => by rwa [walk_stay hc]) (ih n here)
    · exact .cons_of_way (.up .nil) (fun _ _ _ h => by rwa [walk_up]) (ih n here.dropLast)
    by_cases hlength : maxName < c.length
    · refine .cons_of_not_missing fun purpose xs _ => ?_
      rw [walk_name hc, if_pos hlength]
      split <;> simp
    have hshort := Nat.not_lt.mp hlength
    rcases hfound : fs.entry? (here ++ [c]) with _ | file | _ | target
    · exact (.missing .nil hc hshort hfound : Ending fs n here ([] ++ c :: rest))
    · refine .cons_of_not_missing fun purpose xs _ => ?_
      rw [walk_name hc, if_neg hlength, hfound, meet]
      split
      · simp
      · split <;> simp
    · refine .cons_of_way (.down hc hshort hfound .nil) (fun purpose xs _ h => ?_) (ih n _)
      rw [walk_name hc, if_neg hlength, hfound, meet]
      split
      · simp
      · exact h
    · by_cases hmissing : Missing (fs.walk .look n here [c])
      · exact (.dangling .nil hc hshort hfound hmissing : Ending fs n here ([] ++ c :: rest))
      · exact .cons_of_link hcs.2 ih hc hshort hfound hmissing

/-- No link on a path dangles. -/
def Straight (fs : Files) (here : List String) (path : String) : Prop :=
  ∀ cs, cs <+: Path.components path → ∀ place target,
    fs.walk .inspect maxLinks (if Path.isAbsolute path then [] else here) cs =
      .ok ⟨place, some (.link target)⟩ →
    ¬ Missing (fs.walk .look maxLinks (if Path.isAbsolute path then [] else here) cs)

end WorstCase.Files
