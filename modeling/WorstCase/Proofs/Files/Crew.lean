import WorstCase.Proofs.Files.Script
import Mathlib.Data.List.Nodup
import Mathlib.Logic.Relation

/-!
# Scripts that work at the same time

A **crew** is a list of scripts that work on one state and one file tree. Any of them may do its
next step at any time, and time passes in between; a script that has come to its end leaves its
answer (`Crew.Step`). Running the scripts one after the other is one of the ways that a crew may
take (`Crew.steps_of_run`).

What a script ensures, although others work at the same time, is told by three conditions
(`Script.Ensures`): what it **relies** on the others to do at most, what it **guarantees** to do at
most itself, and what holds when it ends. If the guarantee of each script is what all the others
rely on, then every script of a crew keeps its promise (`Crew.Pact.steps`).
-/

namespace WorstCase

variable {σ α β ι : Type}

namespace Script

/-! ### Single steps -/

/-- What is left of a script after its next step, and the state and the world then. -/
def step : Script σ α → σ × World → Option (Script σ α × σ × World)
  | done _, _ => none
  | read p k, (t, w) => some (k (w.files.read w.here p), t, w)
  | write p c k, (t, w) => some (k (w.write p c).1, t, (w.write p c).2)
  | makeDirectories p k, (t, w) => some (k (w.makeDirectories p).1, t, (w.makeDirectories p).2)
  | kind p k, (t, w) => some (k ((w.files.find? w.here p).map FileEntry.kind), t, w)
  | listing p k, (t, w) => some (k (w.files.listing w.here p), t, w)
  | here k, (t, w) => some (k (Path.ofComponents true w.here), t, w)
  | environment k, (t, w) => some (k w.environment, t, w)
  | now k, (t, w) => some (k w.moment, t, w)
  | put c b k, (t, w) => some (k, t, w.put c b)
  | look k, (t, w) => some (k t, t, w)
  | update f k, (t, w) => some (k, f t, w)

variable {s s' : Script σ α} {f : α → Script σ β} {a : α} {st st' : σ × World}

theorem step_eq_none_iff : s.step st = none ↔ ∃ a, s = done a := by
  cases s <;> simp [step]

theorem step_bind (h : s.step st = some (s', st')) : (s >>= f).step st = some (s' >>= f, st') := by
  cases s <;> simp only [step, Option.some.injEq, Prod.mk.injEq, reduceCtorEq] at h
  all_goals
    obtain ⟨rfl, rfl⟩ := h
    rfl

/-! ### What a script ensures -/

/-- As long as others do what the script relies on, it does what it guarantees, and ends with what
holds after it. -/
inductive Ensures (rely guarantee : σ × World → σ × World → Prop) (post : α → σ × World → Prop) :
    Script σ α → σ × World → Prop
  | done {a : α} {st : σ × World} (h : post a st) : Ensures rely guarantee post (done a) st
  | work {s : Script σ α} {st : σ × World} (hs : ∀ a, s ≠ .done a)
      (hguarantee : ∀ st' s' st'', rely st st' → s.step st' = some (s', st'') → guarantee st' st'')
      (hnext : ∀ st' s' st'', rely st st' → s.step st' = some (s', st'') →
        Ensures rely guarantee post s' st'') : Ensures rely guarantee post s st

namespace Ensures

variable {rely guarantee : σ × World → σ × World → Prop} {post : α → σ × World → Prop}
  {post' : β → σ × World → Prop}

/-- What a script ensures, it ensures after the others have worked. -/
theorem after (hrely : ∀ a b c, rely a b → rely b c → rely a c)
    (hpost : ∀ a st st', post a st → rely st st' → post a st')
    (h : Ensures rely guarantee post s st) (hst : rely st st') :
    Ensures rely guarantee post s st' := by
  cases h with
  | done h => exact .done (hpost _ _ _ h hst)
  | work hs hguarantee hnext =>
    exact .work hs (fun _ _ _ hst' => hguarantee _ _ _ (hrely _ _ _ hst hst'))
      fun _ _ _ hst' => hnext _ _ _ (hrely _ _ _ hst hst')

theorem bind (h : Ensures rely guarantee post s st)
    (hf : ∀ a st', post a st' → Ensures rely guarantee post' (f a) st') :
    Ensures rely guarantee post' (s >>= f) st := by
  induction h with
  | done h => exact hf _ _ h
  | @work s st hs hguarantee hnext ih =>
    have hstep : ∀ {st' : σ × World} {r st''}, (s >>= f).step st' = some (r, st'') →
        ∃ s', s.step st' = some (s', st'') ∧ r = s' >>= f := by
      intro st' r st'' h
      rcases hs' : s.step st' with _ | ⟨s', st₁⟩
      · obtain ⟨a, rfl⟩ := step_eq_none_iff.mp hs'
        exact absurd rfl (hs a)
      · rw [step_bind hs'] at h
        obtain ⟨rfl, rfl⟩ := Prod.mk.inj (Option.some.inj h)
        exact ⟨s', rfl, rfl⟩
    refine .work (fun b hb => ?_) (fun st' r st'' hst' h => ?_) fun st' r st'' hst' h => ?_
    · cases s with
      | done a => exact hs a rfl
      | _ => exact absurd hb (by simp [Bind.bind, Script.bind])
    · obtain ⟨s', hs', -⟩ := hstep h
      exact hguarantee _ _ _ hst' hs'
    · obtain ⟨s', hs', rfl⟩ := hstep h
      exact ih _ _ _ hst' hs'

theorem imp {post' : α → σ × World → Prop} (hpost : ∀ a st', post a st' → post' a st')
    (h : Ensures rely guarantee post s st) : Ensures rely guarantee post' s st := by
  induction h with
  | done h => exact .done (hpost _ _ h)
  | work hs hguarantee _ ih => exact .work hs hguarantee ih

/-- A script of one step. -/
theorem one (hst : rely st st)
    (h : ∀ st', rely st st' → ∃ a st'', s.step st' = some (.done a, st'') ∧ guarantee st' st'' ∧
      post a st'') : Ensures rely guarantee post s st := by
  refine .work (fun b hb => ?_) (fun st' s' st'' hst' hstep => ?_) fun st' s' st'' hst' hstep => ?_
  · obtain ⟨a, st', hstep, -⟩ := h st hst
    rw [step_eq_none_iff.mpr ⟨b, hb⟩] at hstep
    exact absurd hstep (by simp)
  · obtain ⟨a, st₁, hstep', hguarantee, -⟩ := h st' hst'
    obtain ⟨-, rfl⟩ := Prod.mk.inj (Option.some.inj (hstep'.symm.trans hstep))
    exact hguarantee
  · obtain ⟨a, st₁, hstep', -, hpost⟩ := h st' hst'
    obtain ⟨rfl, rfl⟩ := Prod.mk.inj (Option.some.inj (hstep'.symm.trans hstep))
    exact .done hpost

/-- What a script tells, it tells while others work, as long as they leave alone what it reads. -/
theorem of_tells {files : String → Except FileError ByteArray} {paths : Set String}
    {holds : σ × World → Prop} (hrefl : ∀ st, rely st st)
    (hstable : ∀ st st', holds st → rely st st' → holds st')
    (hquiet : ∀ t w w', w.Alike w' → holds (t, w) → holds (t, w'))
    (hguarantee : ∀ t w w', w.Alike w' → guarantee (t, w) (t, w'))
    (hread : ∀ t w, holds (t, w) → ∀ p ∈ paths, w.files.read w.here p = files p)
    (h : Tells files paths s a) (hst : holds st) :
    Ensures rely guarantee (fun a' st' => a' = a ∧ holds st') s st := by
  induction h generalizing st with
  | done => exact .done ⟨rfl, hst⟩
  | @read p k a hp _ ih =>
    have hstep : Ensures rely guarantee (fun r st' => r = files p ∧ holds st') (readFile p) st :=
      one (hrefl st) fun st' hst' => ⟨_, _, rfl, hguarantee _ _ _ (.refl _),
        hread _ _ (hstable _ _ hst hst') p hp, hstable _ _ hst hst'⟩
    refine hstep.bind ?_
    rintro r st' ⟨rfl, hst'⟩
    exact ih hst'
  | @now k a _ ih =>
    have hstep : Ensures rely guarantee (fun _ st' => holds st') time st :=
      one (hrefl st) fun st' hst' =>
        ⟨_, _, rfl, hguarantee _ _ _ (.refl _), hstable _ _ hst hst'⟩
    exact hstep.bind fun m st' hst' => ih m hst'
  | @put c b k a _ ih =>
    have hstep : Ensures rely guarantee (fun _ st' => holds st') (emit c b) st :=
      one (hrefl st) fun st' hst' => ⟨_, _, rfl, hguarantee _ _ _ (.put _ _ _),
        hquiet _ _ _ (.put _ _ _) (hstable _ _ hst hst')⟩
    exact hstep.bind fun _ st' hst' => ih hst'

end Ensures

end Script

/-! ### Crews -/

/-- Scripts that work on one state and one world, each known by a label, and the answers of those
that have come to their end. -/
structure Crew (ι σ α : Type) where
  working : List (ι × Script σ α)
  answers : List (ι × α)
  state : σ × World

namespace Crew

/-- The labels of all scripts. -/
def labels (c : Crew ι σ α) : List ι := c.working.map (·.1) ++ c.answers.map (·.1)

/-- What may happen next: one of the scripts does a step, one that has come to its end leaves its
answer, or time passes. -/
inductive Step : Crew ι σ α → Crew ι σ α → Prop
  | work {above below : List (ι × Script σ α)} {answers : List (ι × α)} {i : ι}
      {s s' : Script σ α} {st st' : σ × World} (h : s.step st = some (s', st')) :
      Step ⟨above ++ (i, s) :: below, answers, st⟩ ⟨above ++ (i, s') :: below, answers, st'⟩
  | answer {above below : List (ι × Script σ α)} {answers : List (ι × α)} {i : ι} {a : α}
      {st : σ × World} :
      Step ⟨above ++ (i, .done a) :: below, answers, st⟩ ⟨above ++ below, answers ++ [(i, a)], st⟩
  | wait {working : List (ι × Script σ α)} {answers : List (ι × α)} {t : σ} {w : World}
      (moment : Moment) :
      Step ⟨working, answers, (t, w)⟩ ⟨working, answers, (t, { w with moment })⟩

/-- What may come of a crew. -/
abbrev Steps : Crew ι σ α → Crew ι σ α → Prop := Relation.ReflTransGen Step

/-- Any script of a crew may be run to its end before the others go on. -/
theorem steps_of_run (above : List (ι × Script σ α)) (i : ι) (s : Script σ α)
    (below : List (ι × Script σ α)) (answers : List (ι × α)) (st : σ × World) :
    Steps ⟨above ++ (i, s) :: below, answers, st⟩
      ⟨above ++ below, answers ++ [(i, (s.run st.1 st.2).1)], (s.run st.1 st.2).2⟩ := by
  have hwork : ∀ {s s' : Script σ α} {st st' : σ × World} {c : Crew ι σ α},
      s.step st = some (s', st') → Steps ⟨above ++ (i, s') :: below, answers, st'⟩ c →
      Steps ⟨above ++ (i, s) :: below, answers, st⟩ c :=
    fun hstep hrest => .head (.work hstep) hrest
  induction s generalizing st with
  | done a => exact .single .answer
  | read p k ih => exact hwork rfl (ih _ _)
  | write p c k ih => exact hwork rfl (ih _ _)
  | makeDirectories p k ih => exact hwork rfl (ih _ _)
  | kind p k ih => exact hwork rfl (ih _ _)
  | listing p k ih => exact hwork rfl (ih _ _)
  | here k ih => exact hwork rfl (ih _ _)
  | environment k ih => exact hwork rfl (ih _ _)
  | now k ih => exact hwork rfl (ih _ _)
  | put c b k ih => exact hwork rfl (ih _)
  | look k ih => exact hwork rfl (ih _ _)
  | update g k ih => exact hwork rfl (ih _)

/-! ### Crews that keep their promises -/

section

variable {rely guarantee : ι → σ × World → σ × World → Prop} {post : ι → α → σ × World → Prop}
  {holds : σ × World → Prop} {crew : List ι} {c c' : Crew ι σ α}

/-- The terms on which scripts work together: what one guarantees, the others may rely on, and what
has been achieved stays. Something may hold throughout. -/
structure Terms (crew : List ι) (rely guarantee : ι → σ × World → σ × World → Prop)
    (post : ι → α → σ × World → Prop) (holds : σ × World → Prop) : Prop where
  nodup : crew.Nodup
  rely_trans : ∀ i a b c, rely i a b → rely i b c → rely i a c
  rely_wait : ∀ i t w moment, rely i (t, w) (t, { w with moment })
  rely_others : ∀ i ∈ crew, ∀ j ∈ crew, i ≠ j → ∀ st st', guarantee i st st' → rely j st st'
  post_own : ∀ i a st st', post i a st → rely i st st' → post i a st'
  holds_work : ∀ i ∈ crew, ∀ st st', holds st → guarantee i st st' → holds st'
  holds_wait : ∀ t w moment, holds (t, w) → holds (t, { w with moment })

/-- What each script of a crew has promised. -/
structure Pact (crew : List ι) (rely guarantee : ι → σ × World → σ × World → Prop)
    (post : ι → α → σ × World → Prop) (holds : σ × World → Prop) (c : Crew ι σ α) : Prop where
  labels : c.labels.Perm crew
  working : ∀ p ∈ c.working, p.2.Ensures (rely p.1) (guarantee p.1) (post p.1) c.state
  answers : ∀ p ∈ c.answers, post p.1 p.2 c.state
  holds : holds c.state

namespace Pact

variable {above below working : List (ι × Script σ α)} {answers : List (ι × α)} {i : ι}
  {s s' : Script σ α} {a : α} {st st' : σ × World}

/-- A script that works keeps its own promises and those of the others. -/
theorem work (hterms : Terms crew rely guarantee post holds)
    (h : Pact crew rely guarantee post holds ⟨above ++ (i, s) :: below, answers, st⟩)
    (hs : s.step st = some (s', st')) :
    Pact crew rely guarantee post holds ⟨above ++ (i, s') :: below, answers, st'⟩ := by
  obtain ⟨hlabels, hworking, hanswers, hholds⟩ := h
  have hcrew : (i :: ((above ++ below).map (·.1) ++ answers.map (·.1))).Perm crew := by
    refine List.Perm.trans ?_ hlabels
    simpa [Crew.labels] using List.perm_middle.symm
  have hi : i ∈ crew := hcrew.subset List.mem_cons_self
  rw [List.forall_mem_append, List.forall_mem_cons] at hworking
  obtain ⟨habove, hthis, hbelow⟩ := hworking
  have hwait : rely i st st := hterms.rely_wait i st.1 st.2 st.2.moment
  rcases hthis with _ | ⟨-, hguarantee, hnext⟩
  · exact absurd hs (by simp [Script.step])
  have hg := hguarantee st s' st' hwait hs
  -- the others rely on what it guarantees
  have hrely : ∀ {j}, j ∈ (above ++ below).map (·.1) ++ answers.map (·.1) → rely j st st' :=
    fun hj => hterms.rely_others i hi _ (hcrew.subset (List.mem_cons_of_mem _ hj)) (fun heq =>
      (List.nodup_cons.mp (hcrew.nodup_iff.mpr hterms.nodup)).1 (heq ▸ hj)) _ _ hg
  have hothers : ∀ p ∈ above ++ below, p.2.Ensures (rely p.1) (guarantee p.1) (post p.1) st →
      p.2.Ensures (rely p.1) (guarantee p.1) (post p.1) st' := fun p hp hensures =>
    hensures.after (hterms.rely_trans _) (hterms.post_own _)
      (hrely (List.mem_append_left _ (List.mem_map_of_mem hp)))
  refine ⟨by simpa [Crew.labels] using hlabels,
    List.forall_mem_append.mpr ⟨fun p hp => ?_, List.forall_mem_cons.mpr
    ⟨hnext st s' st' hwait hs, fun p hp => ?_⟩⟩, fun p hp => ?_,
    hterms.holds_work i hi _ _ hholds hg⟩
  · exact hothers p (List.mem_append_left _ hp) (habove p hp)
  · exact hothers p (List.mem_append_right _ hp) (hbelow p hp)
  · exact hterms.post_own _ _ _ _ (hanswers p hp)
      (hrely (List.mem_append_right _ (List.mem_map_of_mem hp)))

/-- A script that has come to its end has done what it promised. -/
theorem answer
    (h : Pact crew rely guarantee post holds ⟨above ++ (i, .done a) :: below, answers, st⟩) :
    Pact crew rely guarantee post holds ⟨above ++ below, answers ++ [(i, a)], st⟩ := by
  obtain ⟨hlabels, hworking, hanswers, hholds⟩ := h
  rw [List.forall_mem_append, List.forall_mem_cons] at hworking
  obtain ⟨habove, hthis, hbelow⟩ := hworking
  have hpost : post i a st := by
    rcases hthis with hpost | ⟨hs, -, -⟩
    · exact hpost
    · exact absurd rfl (hs a)
  have hmove : ∀ xs ys zs : List ι, (xs ++ (ys ++ (zs ++ [i]))).Perm (xs ++ i :: (ys ++ zs)) :=
    fun xs ys zs =>
      (List.append_assoc ys zs [i] ▸ List.perm_append_singleton i _).append_left xs
  refine ⟨List.Perm.trans ?_ hlabels, List.forall_mem_append.mpr ⟨habove, hbelow⟩,
    List.forall_mem_append.mpr ⟨hanswers, List.forall_mem_singleton.mpr hpost⟩, hholds⟩
  simpa [Crew.labels] using hmove _ _ _

/-- Time may pass. -/
theorem wait {t : σ} {w : World} (hterms : Terms crew rely guarantee post holds)
    (h : Pact crew rely guarantee post holds ⟨working, answers, (t, w)⟩) (moment : Moment) :
    Pact crew rely guarantee post holds ⟨working, answers, (t, { w with moment })⟩ where
  labels := h.labels
  working p hp := (h.working p hp).after (hterms.rely_trans _) (hterms.post_own _)
    (hterms.rely_wait _ t w moment)
  answers p hp := hterms.post_own _ _ _ _ (h.answers p hp) (hterms.rely_wait _ t w moment)
  holds := hterms.holds_wait _ _ _ h.holds

/-- **Promises are kept** whatever happens next. -/
theorem step (hterms : Terms crew rely guarantee post holds)
    (h : Pact crew rely guarantee post holds c) (hstep : Step c c') :
    Pact crew rely guarantee post holds c' := by
  cases hstep with
  | work hs => exact h.work hterms hs
  | answer => exact h.answer
  | wait moment => exact h.wait hterms moment

/-- **Promises are kept** whatever becomes of a crew. -/
theorem steps (hterms : Terms crew rely guarantee post holds)
    (h : Pact crew rely guarantee post holds c) (hsteps : Steps c c') :
    Pact crew rely guarantee post holds c' := by
  induction hsteps with
  | refl => exact h
  | tail _ hstep ih => exact ih.step hterms hstep

end Pact

end

end Crew

end WorstCase
