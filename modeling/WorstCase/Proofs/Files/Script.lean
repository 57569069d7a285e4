import WorstCase.Files.Script
import Mathlib.Data.Set.Basic

/-!
# What scripts tell

Running a script that goes on with another one runs the one and then the other (`Script.run_bind`).
Many scripts change no files and no state: they read some files, log what they do, and end with a
value. What such a script **tells** depends on nothing but what it reads (`Script.Tells`), whatever
the time and wherever its log goes (`Script.Tells.run`).
-/

namespace WorstCase

/-- Two worlds with the same files, seen from the same directory. -/
structure World.Alike (w w' : World) : Prop where
  files : w'.files = w.files
  here : w'.here = w.here

namespace World.Alike

variable {w w' w'' : World}

theorem refl (w : World) : Alike w w := ⟨rfl, rfl⟩

theorem trans (h : Alike w w') (h' : Alike w' w'') : Alike w w'' :=
  ⟨h'.files.trans h.files, h'.here.trans h.here⟩

theorem put (w : World) (c : Channel) (b : ByteArray) : Alike w (w.put c b) := by
  cases c <;> exact ⟨rfl, rfl⟩

end World.Alike

namespace Script

variable {σ α β ε : Type}

/-! ### Running one script after another -/

theorem run_bind (s : Script σ α) (f : α → Script σ β) (t : σ) (w : World) :
    (s >>= f).run t w = (f (s.run t w).1).run (s.run t w).2.1 (s.run t w).2.2 := by
  change (s.bind f).run t w = _
  induction s generalizing t w with
  | done a => rfl
  | read p k ih => exact ih ..
  | write p c k ih => exact ih ..
  | makeDirectories p k ih => exact ih ..
  | kind p k ih => exact ih ..
  | listing p k ih => exact ih ..
  | here k ih => exact ih ..
  | environment k ih => exact ih ..
  | now k ih => exact ih ..
  | put c b k ih => exact ih ..
  | look k ih => exact ih ..
  | update g k ih => exact ih ..

theorem run_bind_of {s : Script σ α} {f : α → Script σ β} {t t' : σ} {w w' : World} {a : α}
    (h : s.run t w = (a, t', w')) : (s >>= f).run t w = (f a).run t' w' := by
  rw [run_bind, h]

/-! ### Scripts that only read -/

/-- A script that reads no files but those of `paths`, which hold what `files` gives, ends with a
value. It may ask for the time and write to channels. -/
inductive Tells (files : String → Except FileError ByteArray) (paths : Set String) :
    Script σ α → α → Prop
  | done {a : α} : Tells files paths (done a) a
  | read {p : String} {k : Except FileError ByteArray → Script σ α} {a : α} (hp : p ∈ paths)
      (h : Tells files paths (k (files p)) a) : Tells files paths (read p k) a
  | now {k : Moment → Script σ α} {a : α} (h : ∀ m, Tells files paths (k m) a) :
      Tells files paths (now k) a
  | put {c : Channel} {b : ByteArray} {k : Script σ α} {a : α} (h : Tells files paths k a) :
      Tells files paths (put c b k) a

namespace Tells

variable {files : String → Except FileError ByteArray} {paths : Set String}
  {s : Script σ α} {f : α → Script σ β} {a : α} {b : β}

theorem bind (h : Tells files paths s a) (hf : Tells files paths (f a) b) :
    Tells files paths (s >>= f) b := by
  induction h with
  | done => exact hf
  | read hp _ ih => exact .read hp (ih hf)
  | now _ ih => exact .now fun m => ih m hf
  | put _ ih => exact .put (ih hf)

theorem readFile {p : String} (hp : p ∈ paths) :
    Tells files paths (readFile p : Script σ _) (files p) := .read hp .done

/-- With errors, a script goes on where there is none. -/
theorem bindT {x : ExceptT ε (Script σ) α} {g : α → ExceptT ε (Script σ) β} {r : Except ε α}
    {q : α → Except ε β} (h : Tells files paths x.run r)
    (hg : ∀ a, Tells files paths (g a).run (q a)) : Tells files paths (x >>= g).run (r >>= q) := by
  refine Tells.bind h ?_
  cases r with
  | error e => exact .done
  | ok a => exact hg a

theorem thenT {x : ExceptT ε (Script σ) α} {g : α → ExceptT ε (Script σ) β} {q : Except ε β}
    (h : Tells files paths x.run (.ok a)) (hg : Tells files paths (g a).run q) :
    Tells files paths (x >>= g).run q :=
  Tells.bind h hg

/-- What comes behind may leave the value as it is. -/
theorem keepT {x : ExceptT ε (Script σ) α} {g : α → ExceptT ε (Script σ) α} {r : Except ε α}
    (h : Tells files paths x.run r) (hg : ∀ a, Tells files paths (g a).run (.ok a)) :
    Tells files paths (x >>= g).run r := by
  refine Tells.bind h ?_
  cases r with
  | error e => exact .done
  | ok a => exact hg a

/-- **What a script tells** is what it ends with when it is run. -/
theorem run (h : Tells files paths s a) (t : σ) {w : World}
    (hfiles : ∀ p ∈ paths, w.files.read w.here p = files p) :
    ∃ w', s.run t w = (a, t, w') ∧ w.Alike w' := by
  induction h generalizing w with
  | done => exact ⟨w, rfl, .refl w⟩
  | @read p k a hp _ ih =>
    obtain ⟨w', hrun, halike⟩ := ih hfiles
    exact ⟨w', by rw [Script.run, hfiles p hp, hrun], halike⟩
  | now _ ih => exact ih w.moment hfiles
  | @put c b k a _ ih =>
    have hput := World.Alike.put w c b
    obtain ⟨w', hrun, halike⟩ := ih (w := w.put c b) (by rwa [hput.files, hput.here])
    exact ⟨w', hrun, hput.trans halike⟩

end Tells

end Script

end WorstCase
