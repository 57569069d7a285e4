import WorstCase.Settings.Load
import WorstCase.Proofs.Files.Script
import WorstCase.Proofs.Text.Decimal

/-!
# Numbers in the environment

Two settings are numbers: the encoding and the timeout. Each has a variable, and a value **says**
the integer of 64 bits that it begins with, apart from blanks in front (`Settings.Says`). Either the
value is this integer throughout, or something else follows, which is passed over
(`Settings.says_iff`).

What one variable does to settings is described once (`Settings.step_overGiven`). By induction on
the names of the variables it follows what all of them do: a number that is given is what its value
says (`Settings.says_of_run`), the others stay as they are (`Settings.of_eq_of_run`), and the first
value that says nothing stops the run (`Settings.exists_refused_of_run`). Loading settings comes to
such a run over the settings of the files (`Settings.Origin.run_load_of_run_base`), in an
environment in which the variables that are set count (`Settings.Origin.lookup_of_run_base`). The
main result puts this together (`Settings.numbers_of_environment`).
-/

namespace WorstCase

namespace Settings

/-! ### Settings that are numbers -/

/-- A setting that is a number. -/
inductive Number where
  | encoding
  | timeout
deriving DecidableEq

namespace Number

/-- The variable of a number. -/
def variableName : Number → String
  | encoding => "WCET_ENCODING"
  | timeout => "WCET_TIMEOUT"

/-- A number of settings. -/
def of : Number → Settings → Int64
  | encoding, s => s.encoding
  | timeout, s => s.timeout

/-- Settings with another number. -/
def set : Number → Settings → Int64 → Settings
  | encoding, s, n => { s with encoding := n }
  | timeout, s, n => { s with timeout := n }

@[simp]
theorem of_set (x : Number) (s : Settings) (n : Int64) : x.of (x.set s n) = n := by
  cases x <;> rfl

theorem of_set_of_ne {x y : Number} (h : y ≠ x) (s : Settings) (n : Int64) :
    y.of (x.set s n) = y.of s := by
  cases x <;> cases y <;> first | rfl | exact absurd rfl h

theorem variableName_injective : Function.Injective variableName := by
  intro x y h
  cases x <;> cases y <;> first | rfl | exact absurd h (by decide)

end Number

variable {env : List (String × String)} {x y : Number} {s s' : Settings} {name v : String}
  {names : List String}

/-! ### What values say -/

/-- The integer that a value begins with, apart from blanks in front. -/
def Says (value : String) (n : Int64) : Prop :=
  Decimal.Begins (Text.trim value.toList) n

theorem integer?_eq_some_iff {n : Int64} : integer? v = some n ↔ Says v n :=
  Decimal.map_prefixInt64?_eq_some_iff

theorem Says.unique {n k : Int64} (h : Says v n) (h' : Says v k) : n = k :=
  Decimal.Begins.unique h h'

/-- A value that is an integer throughout, apart from blanks around it. -/
def IsInteger (value : String) (n : Int64) : Prop :=
  Decimal.Spells (Text.trim value.toList) n.toInt

/-- A value that goes on after an integer, with a character that is no digit. -/
def HasTail (value : String) (n : Int64) : Prop :=
  ∃ x c t, Text.trim value.toList = x ++ c :: t ∧ Decimal.Spells x n.toInt ∧ c.isDigit = false

theorem says_iff {n : Int64} : Says v n ↔ IsInteger v n ∨ HasTail v n := by
  constructor
  · rintro ⟨x, t, hvalue, hspells, ht⟩
    cases t with
    | nil => exact .inl (by rwa [IsInteger, hvalue, List.append_nil])
    | cons c t => exact .inr ⟨x, c, t, hvalue, hspells, ht c rfl⟩
  · rintro (h | ⟨x, c, t, hvalue, hspells, hc⟩)
    · exact h.begins
    · refine ⟨x, c :: t, hvalue, hspells, fun c' hc' => ?_⟩
      rwa [← Option.some_inj.mp hc']

/-- A value that begins with no integer. -/
def Refused (value : String) : Prop := ∀ n, ¬ Says value n

theorem integer?_eq_none_iff : integer? v = none ↔ Refused v := by
  rw [Option.eq_none_iff_forall_ne_some]
  exact forall_congr' fun n => not_congr integer?_eq_some_iff

/-- An environment gives a number a value, which is not empty. -/
structure Given (env : List (String × String)) (x : Number) (value : String) : Prop where
  lookup : env.lookup x.variableName = some value
  ne_empty : value ≠ ""

theorem Given.unique {u : String} (h : Given env x v) (h' : Given env x u) : v = u :=
  Option.some_inj.mp (h.lookup.symm.trans h'.lookup)

/-! ### One variable -/

/-- Settings after the variable of this name is laid over them. -/
def overGiven (env : List (String × String)) (s : Settings) (name : String) :
    Except Error Settings :=
  match env.lookup name with
  | none | some "" => .ok s
  | some value => s.overVariable name value

theorem overEnvironment_eq (s : Settings) (env : List (String × String)) :
    s.overEnvironment env = variableNames.foldlM (overGiven env) s := rfl

/-- **What one variable does** to settings: it sets a number, it is refused, or it leaves the
numbers as they are. -/
inductive Step (env : List (String × String)) (s : Settings) (name : String) :
    Except Error Settings → Prop
  | set {x : Number} {v : String} {n : Int64} (hname : name = x.variableName)
      (hgiven : Given env x v) (hinteger : Says v n) : Step env s name (.ok (x.set s n))
  | refused {x : Number} {v : String} (hname : name = x.variableName) (hgiven : Given env x v)
      (hrefused : Refused v) : Step env s name (.error (.notInteger x.variableName v))
  | kept {s' : Settings} (hname : ∀ x v, name = x.variableName → ¬ Given env x v)
      (hkept : ∀ x : Number, x.of s' = x.of s) : Step env s name (.ok s')

theorem overVariable_number (x : Number) (s : Settings) (value : String) :
    s.overVariable x.variableName value =
      match integer? value with
      | some n => .ok (x.set s n)
      | none => .error (.notInteger x.variableName value) := by
  unfold overVariable
  -- what is read does not matter here, and must not be evaluated
  generalize integer? value = r
  cases x <;> cases r <;> rfl

theorem overVariable_of_forall_ne (h : ∀ x : Number, name ≠ x.variableName) (s : Settings)
    (value : String) :
    ∃ s', s.overVariable name value = .ok s' ∧ ∀ x : Number, x.of s' = x.of s := by
  unfold overVariable
  extract_lets number
  split
  · exact (h .encoding rfl).elim
  · exact (h .timeout rfl).elim
  -- every other variable sets another field, or none
  all_goals
    refine ⟨_, rfl, fun x => ?_⟩
    cases x <;> simp only [Number.of]

theorem step_overGiven (env : List (String × String)) (s : Settings) (name : String) :
    Step env s name (overGiven env s name) := by
  unfold overGiven
  split
  · rename_i hnone
    refine .kept (fun x v hname hgiven => ?_) fun _ => rfl
    rw [hname, hgiven.lookup] at hnone
    exact absurd hnone (by simp)
  · rename_i hempty
    refine .kept (fun x v hname hgiven => ?_) fun _ => rfl
    rw [hname, hgiven.lookup] at hempty
    exact hgiven.ne_empty (Option.some_inj.mp hempty)
  · rename_i value hne hvalue
    by_cases hnumber : ∃ x : Number, name = x.variableName
    · obtain ⟨x, hname⟩ := hnumber
      have hgiven : Given env x value := ⟨hname ▸ hvalue, hne⟩
      rw [hname, overVariable_number]
      split
      · rename_i n hinteger
        exact .set rfl hgiven (integer?_eq_some_iff.mp hinteger)
      · rename_i hinteger
        exact .refused rfl hgiven (integer?_eq_none_iff.mp hinteger)
    · obtain ⟨s', hover, hkept⟩ :=
        overVariable_of_forall_ne (fun x hname => hnumber ⟨x, hname⟩) s value
      rw [hover]
      exact .kept (fun x v hname _ => hnumber ⟨x, hname⟩) hkept

/-! ### All variables, one after the other -/

theorem foldlM_overGiven_cons (env : List (String × String)) (s : Settings) (name : String)
    (names : List String) :
    (name :: names).foldlM (overGiven env) s =
      (overGiven env s name).bind fun s => names.foldlM (overGiven env) s :=
  rfl

/-- A run that ends begins with what its first variable does. -/
theorem exists_step_of_run_cons (hrun : (name :: names).foldlM (overGiven env) s = .ok s') :
    ∃ s₁, Step env s name (.ok s₁) ∧ names.foldlM (overGiven env) s₁ = .ok s' := by
  have hstep := step_overGiven env s name
  rw [foldlM_overGiven_cons] at hrun
  cases hresult : overGiven env s name with
  | error e =>
    rw [hresult] at hrun
    cases hrun
  | ok s₁ =>
    rw [hresult] at hrun hstep
    exact ⟨s₁, hstep, hrun⟩

/-- A number that no variable gives stays as it is. -/
theorem of_eq_of_run (hrun : names.foldlM (overGiven env) s = .ok s')
    (hnone : x.variableName ∈ names → ∀ v, ¬ Given env x v) : x.of s' = x.of s := by
  induction names generalizing s with
  | nil =>
    obtain rfl := Except.ok.inj hrun
    rfl
  | cons name names ih =>
    obtain ⟨s₁, hstep, hrun⟩ := exists_step_of_run_cons hrun
    rw [ih hrun fun h => hnone (List.mem_cons_of_mem _ h)]
    cases hstep with
    | @set y v n hname hgiven hinteger =>
      refine Number.of_set_of_ne ?_ s n
      rintro rfl
      exact hnone (hname ▸ List.mem_cons_self) v hgiven
    | kept hname hkept => exact hkept x

/-- **A number that a variable gives** is the integer that the value begins with. -/
theorem says_of_run (hrun : names.foldlM (overGiven env) s = .ok s') (hx : x.variableName ∈ names)
    (hgiven : Given env x v) : Says v (x.of s') := by
  induction names generalizing s with
  | nil => exact absurd hx List.not_mem_nil
  | cons name names ih =>
    obtain ⟨s₁, hstep, hrun⟩ := exists_step_of_run_cons hrun
    by_cases hlater : x.variableName ∈ names
    · exact ih hrun hlater
    -- the first variable is that of the number, and no later one changes it
    have hname : x.variableName = name := (List.mem_cons.mp hx).resolve_right hlater
    rw [of_eq_of_run hrun fun h => absurd h hlater]
    cases hstep with
    | @set y u n hname' hgiven' hinteger =>
      obtain rfl := Number.variableName_injective (hname.trans hname')
      obtain rfl := hgiven.unique hgiven'
      rwa [Number.of_set]
    | kept hkept _ => exact absurd hgiven (hkept x v hname.symm)

/-- **What stops the run** is the first value that begins with no integer. -/
theorem exists_refused_of_run {e : Error} (hrun : names.foldlM (overGiven env) s = .error e) :
    ∃ before x after v, names = before ++ Number.variableName x :: after ∧ Given env x v ∧
      Refused v ∧ e = .notInteger x.variableName v ∧
        ∀ y u, Number.variableName y ∈ before → Given env y u → ∃ n, Says u n := by
  induction names generalizing s with
  | nil => cases hrun
  | cons name names ih =>
    rw [foldlM_overGiven_cons] at hrun
    have hstep := step_overGiven env s name
    cases hresult : overGiven env s name with
    | error e' =>
      rw [hresult] at hrun hstep
      obtain rfl := Except.error.inj hrun
      cases hstep with
      | @refused x v hname hgiven hrefused =>
        exact ⟨[], x, names, v, hname ▸ rfl, hgiven, hrefused, rfl,
          fun y u h => absurd h List.not_mem_nil⟩
    | ok s₁ =>
      -- the fault is further back; it stays the first one, since this variable has none
      rw [hresult] at hrun hstep
      obtain ⟨before, x, after, v, rfl, hgiven, hrefused, rfl, hbefore⟩ := ih hrun
      refine ⟨name :: before, x, after, v, rfl, hgiven, hrefused, rfl, fun y u hy hu => ?_⟩
      rcases List.mem_cons.mp hy with hname | hy
      · cases hstep with
        | @set z u' n hname' hgiven' hinteger =>
          obtain rfl := Number.variableName_injective (hname.trans hname')
          exact ⟨n, hu.unique hgiven' ▸ hinteger⟩
        | kept hkept _ => exact absurd hu (hkept y u hname.symm)
      · exact hbefore y u hy hu

/-- **The fault of an environment**: a value that begins with no integer. Where there are two of
them, the one for the encoding counts. -/
structure AtFault (env : List (String × String)) (x : Number) (value : String) : Prop where
  given : Given env x value
  refused : Refused value
  first : x = .timeout → ∀ u, Given env .encoding u → ∃ n, Says u n

theorem mem_variableNames (x : Number) : x.variableName ∈ variableNames := by
  cases x <;> decide

/-- The wording begins with the name of the variable. -/
theorem prefix_message_notInteger (name value : String) :
    name.toList <+: (Error.notInteger name value).message.toList := by
  have hmessage : (Error.notInteger name value).message =
      name ++ ": not an integer: " ++ Text.quoted value := rfl
  exact ⟨": not an integer: ".toList ++ (Text.quoted value).toList,
    by rw [hmessage, String.toList_append, String.toList_append, List.append_assoc]⟩

/-- An error that names the variable at fault. -/
def Blames (env : List (String × String)) (e : Error) : Prop :=
  ∃ x v, AtFault env x v ∧ e = .notInteger x.variableName v ∧
    x.variableName.toList <+: e.message.toList

theorem blames_of_overEnvironment {e : Error} (h : s.overEnvironment env = .error e) :
    Blames env e := by
  rw [overEnvironment_eq] at h
  obtain ⟨before, x, after, v, hnames, hgiven, hrefused, rfl, hbefore⟩ := exists_refused_of_run h
  refine ⟨x, v, ⟨hgiven, hrefused, ?_⟩, rfl, ?_⟩
  · -- the variable of the encoding stands in front of all others
    rintro rfl u hu
    cases before with
    | nil => exact absurd (List.cons.inj hnames).1 (by decide)
    | cons name before =>
      exact hbefore .encoding u ((List.cons.inj hnames).1 ▸ List.mem_cons_self) hu
  · exact prefix_message_notInteger x.variableName v

theorem says_of_overEnvironment (h : s.overEnvironment env = .ok s') (hgiven : Given env x v) :
    Says v (x.of s') := by
  rw [overEnvironment_eq] at h
  exact says_of_run h (mem_variableNames x) hgiven

theorem of_eq_of_overEnvironment (h : s.overEnvironment env = .ok s')
    (hnone : ∀ v, ¬ Given env x v) : x.of s' = x.of s := by
  rw [overEnvironment_eq] at h
  exact of_eq_of_run h fun _ => hnone

theorem exists_overEnvironment_iff :
    (∃ s', s.overEnvironment env = .ok s') ↔ ∀ x v, Given env x v → ∃ n, Says v n := by
  constructor
  · rintro ⟨s', h⟩ x v hgiven
    exact ⟨_, says_of_overEnvironment h hgiven⟩
  · intro hall
    cases h : s.overEnvironment env with
    | ok s' => exact ⟨s', rfl⟩
    | error e =>
      obtain ⟨x, v, hfault, -⟩ := blames_of_overEnvironment h
      obtain ⟨n, hn⟩ := hall x v hfault.given
      exact absurd hn (hfault.refused n)

/-! ### Loading -/

/-- What settings are loaded from: the usual files, or the one that the user asks for. -/
inductive Origin where
  | usual
  | file (path : String)

namespace Origin

variable {σ : Type}

/-- The settings in force. -/
def load : Origin → Script σ (Except Error Settings)
  | usual => Settings.load
  | file path => loadFile path

/-- The settings of the files, and the environment that is to be laid over them. -/
def base : Origin → Script σ (Except Error (Settings × List (String × String)))
  | usual => do
    let env ← Script.environmentVariables
    match ← ({} : Settings).overOptionalFile (userPath env) with
    | .error e => return .error e
    | .ok s =>
      match ← s.overOptionalFile projectPath with
      | .error e => return .error e
      | .ok s =>
        match ← extendedEnvironment env with
        | .error e => return .error e
        | .ok env => return .ok (s, env)
  | file path => do
    match ← ({} : Settings).overFile path with
    | .error e => return .error e
    | .ok s => return .ok (s, ← Script.environmentVariables)

/-- **Loading** lays the environment over the settings of the files. -/
theorem run_load (o : Origin) (t : σ) (w : World) :
    (o.load.run t w).1 = (o.base.run t w).1.bind fun r => r.1.finish r.2 := by
  have henv : (Script.environmentVariables : Script σ _).run t w = (w.environment, t, w) := rfl
  cases o with
  | usual =>
    rw [load, base, Settings.load, Script.run_bind_of henv, Script.run_bind_of henv,
      Script.run_bind, Script.run_bind]
    rcases (overOptionalFile {} (userPath w.environment)).run t w with ⟨_ | s, t₁, w₁⟩
    · rfl
    dsimp only
    rw [Script.run_bind, Script.run_bind]
    rcases (s.overOptionalFile projectPath).run t₁ w₁ with ⟨_ | s, t₂, w₂⟩
    · rfl
    dsimp only
    rw [Script.run_bind, Script.run_bind]
    rcases (extendedEnvironment w.environment).run t₂ w₂ with ⟨_ | env, t₃, w₃⟩ <;> rfl
  | file path =>
    rw [load, base, loadFile, Script.run_bind, Script.run_bind]
    rcases (overFile {} path).run t w with ⟨_ | s, t, w⟩ <;> rfl

/-- Loading, once the files are read. -/
theorem run_load_of_run_base {o : Origin} {t : σ} {w : World}
    (h : (o.base.run t w).1 = .ok (s, env)) :
    (o.load.run t w).1 = (s.overEnvironment env).bind validated := by
  rw [run_load, h]
  rfl

/-! ### The environment in force -/

/-- A file of settings is read, and nothing else happens. -/
theorem exists_run_overFile (s : Settings) (path : String) (t : σ) (w : World) :
    ∃ r, (s.overFile path).run t w = (r, t, w) := by
  have hread : (Script.readFile path : Script σ _).run t w = (w.files.read w.here path, t, w) := rfl
  rw [overFile, Script.run_bind_of hread]
  split <;> exact ⟨_, rfl⟩

/-- What is in the environment counts more than what the file of assignments says. -/
theorem lookup_of_run_extendedEnvironment {env env' : List (String × String)} {t : σ} {w : World}
    (h : ((extendedEnvironment env).run t w).1 = .ok env') (hlookup : env.lookup name = some v) :
    env'.lookup name = some v := by
  suffices ∃ vars, env' = env ++ vars by
    obtain ⟨vars, rfl⟩ := this
    rw [List.lookup_append, hlookup, Option.some_or]
  rw [extendedEnvironment, Script.run_bind] at h
  split at h
  · exact ⟨[], by rw [List.append_nil, ← Except.ok.inj h]⟩
  rw [Script.run_bind] at h
  split at h
  · cases h
  split at h
  · exact ⟨_, (Except.ok.inj h).symm⟩
  · cases h

/-- **What is in the environment counts**, wherever settings are loaded from. -/
theorem lookup_of_run_base {o : Origin} {env : List (String × String)} {t : σ} {w : World}
    (h : (o.base.run t w).1 = .ok (s, env)) (hlookup : w.environment.lookup name = some v) :
    env.lookup name = some v := by
  have henv : (Script.environmentVariables : Script σ _).run t w = (w.environment, t, w) := rfl
  cases o with
  | usual =>
    rw [base, Script.run_bind_of henv, Script.run_bind] at h
    split at h
    · cases h
    rw [Script.run_bind] at h
    split at h
    · cases h
    rw [Script.run_bind] at h
    split at h
    · cases h
    · rename_i hextended
      obtain ⟨-, rfl⟩ := Prod.mk.inj (Except.ok.inj h)
      exact lookup_of_run_extendedEnvironment hextended hlookup
  | file path =>
    obtain ⟨r, hrun⟩ := exists_run_overFile {} path t w
    rw [base, Script.run_bind_of hrun] at h
    split at h
    · cases h
    · obtain ⟨-, rfl⟩ := Prod.mk.inj (Except.ok.inj h)
      exact hlookup

end Origin

/-! ### Settings from the environment -/

/-- **Numbers from the environment.** An environment is laid over settings exactly if each value
that it gives a number says an integer, and then the number is this one; numbers without a value
stay as they are. Otherwise there is an error, which names the first variable at fault. Loading
settings, from wherever, does the same with the environment in force, unless a file cannot be used.

A value says an integer if it is one, and also if it only begins with one. -/
theorem numbers_of_environment {σ : Type} :
    (∀ (s : Settings) (env : List (String × String)),
      ((∃ s', s.overEnvironment env = .ok s') ↔ ∀ x v, Given env x v → ∃ n, Says v n) ∧
      (∀ s', s.overEnvironment env = .ok s' → ∀ x : Number,
        (∀ v, Given env x v → ∀ n, Says v n ↔ x.of s' = n) ∧
        ((∀ v, ¬ Given env x v) → x.of s' = x.of s)) ∧
      ∀ e, s.overEnvironment env = .error e → Blames env e) ∧
    (∀ (o : Origin) (t : σ) (w : World),
      (∀ e, (o.base.run t w).1 = .error e → (o.load.run t w).1 = .error e) ∧
      ∀ s env, (o.base.run t w).1 = .ok (s, env) →
        (∀ x v, Given w.environment x v → Given env x v) ∧
        ((∀ x v, Given env x v → ∃ n, Says v n) →
          ∃ s', s.overEnvironment env = .ok s' ∧ (o.load.run t w).1 = s'.validated) ∧
        ∀ x v, Given env x v → Refused v → ∃ e, (o.load.run t w).1 = .error e ∧ Blames env e) ∧
    ∀ v n, Says v n ↔ IsInteger v n ∨ HasTail v n := by
  refine ⟨fun s env => ⟨exists_overEnvironment_iff, fun s' h x => ⟨fun v hgiven n => ?_,
    fun hnone => of_eq_of_overEnvironment h hnone⟩, fun e => blames_of_overEnvironment⟩,
    fun o t w => ⟨fun e h => ?_, fun s env h => ⟨fun x v hgiven => ?_, fun hall => ?_,
      fun x v hgiven hv => ?_⟩⟩, fun v n => says_iff⟩
  · have hinteger := says_of_overEnvironment h hgiven
    exact ⟨hinteger.unique, fun hn => hn ▸ hinteger⟩
  · rw [Origin.run_load, h, Except.bind]
  · exact ⟨Origin.lookup_of_run_base h hgiven.lookup, hgiven.ne_empty⟩
  · obtain ⟨s', hover⟩ := exists_overEnvironment_iff.mpr hall
    exact ⟨s', hover, by rw [Origin.run_load_of_run_base h, hover, Except.bind]⟩
  · rw [Origin.run_load_of_run_base h]
    cases hover : s.overEnvironment env with
    | ok s' => exact absurd (says_of_overEnvironment hover hgiven) (hv _)
    | error e => exact ⟨e, rfl, blames_of_overEnvironment hover⟩

/-- A number with blanks around it is taken, a word is named, and a file that is not there comes
before both. -/
theorem numbers_of_environment_word :
    (∃ s', overEnvironment {} [("WCET_ENCODING", " +2 ")] = .ok s' ∧ s'.encoding = 2 ∧
      s'.timeout = 0 ∧
      (Origin.usual.load.run () { environment := [("WCET_ENCODING", " +2 ")] }).1 = s'.validated) ∧
    (∃ e, overEnvironment {} [("WCET_TIMEOUT", "many")] = .error e ∧
      Blames [("WCET_TIMEOUT", "many")] e) ∧
    (∃ e, (Origin.usual.load.run () { environment := [("WCET_TIMEOUT", "many")] }).1 = .error e ∧
      Blames [("WCET_TIMEOUT", "many")] e) ∧
    ∃ e, ((Origin.file "settings.yaml").base.run ()
        { environment := [("WCET_TIMEOUT", "many")] }).1 = .error e ∧
      ((Origin.file "settings.yaml").load.run ()
        { environment := [("WCET_TIMEOUT", "many")] }).1 = .error e := by
  obtain ⟨hover, hload, -⟩ := numbers_of_environment (σ := Unit)
  have hgiven : Given [("WCET_ENCODING", " +2 ")] .encoding " +2 " := ⟨rfl, by decide⟩
  have hinteger : Says " +2 " 2 := integer?_eq_some_iff.mp (by decide)
  have hnone : ∀ v, ¬ Given [("WCET_ENCODING", " +2 ")] .timeout v := fun v h =>
    absurd (h.lookup.symm.trans (by decide)) (Option.some_ne_none v)
  have hall : ∀ x v, Given [("WCET_ENCODING", " +2 ")] x v → ∃ n, Says v n := by
    intro x v h
    cases x with
    | encoding => exact ⟨2, hgiven.unique h ▸ hinteger⟩
    | timeout => exact absurd h (hnone v)
  have hrefused : Refused "many" := integer?_eq_none_iff.mp (by decide)
  refine ⟨?_, ⟨.notInteger "WCET_TIMEOUT" "many", by decide, ?_⟩, ?_, ?_⟩
  · have hbase : (Origin.usual.base.run () { environment := [("WCET_ENCODING", " +2 ")] }).1 =
        .ok ({}, [("WCET_ENCODING", " +2 ")]) := by decide
    obtain ⟨s', hs', hvalidated⟩ := ((hload .usual () _).2 {} _ hbase).2.1 hall
    have hnumbers := (hover {} _).2.1 s' hs'
    exact ⟨s', hs', ((hnumbers .encoding).1 _ hgiven 2).mp hinteger, (hnumbers .timeout).2 hnone,
      hvalidated⟩
  · exact (hover {} _).2.2 _ (by decide)
  · have hbase : (Origin.usual.base.run () { environment := [("WCET_TIMEOUT", "many")] }).1 =
        .ok ({}, [("WCET_TIMEOUT", "many")]) := by decide
    exact ((hload .usual () _).2 {} _ hbase).2.2 .timeout "many" ⟨rfl, by decide⟩ hrefused
  · have hbase : ((Origin.file "settings.yaml").base.run ()
        { environment := [("WCET_TIMEOUT", "many")] }).1 =
          .error (.missing ⟨.openFile, "settings.yaml", .missing⟩) := by decide
    exact ⟨_, hbase, (hload _ () _).1 _ hbase⟩

/-- **What follows an integer is passed over**: a value that is no integer is taken for one, and
settings are loaded from everywhere as if it were. -/
theorem exists_tail_passed_over :
    ∃ v : String, v ≠ "" ∧ (∀ n, ¬ IsInteger v n) ∧
      overEnvironment {} [("WCET_TIMEOUT", v)] = .ok { timeout := 5 } ∧
      (Origin.usual.load.run () { environment := [("WCET_TIMEOUT", v)] }).1 = .ok { timeout := 5 } ∧
      ((Origin.file "settings.yaml").load.run ()
        { environment := [("WCET_TIMEOUT", v)]
          files := { entries := [(["settings.yaml"], .file (Text.toBytes "timeout: 3\n"))] } }).1 =
        .ok { timeout := 5 } := by
  refine ⟨"5m", by decide, fun n h => ?_, by decide +kernel, by decide +kernel, by decide +kernel⟩
  have hread : Decimal.readInt? (Text.trim "5m".toList) = some n.toInt :=
    Decimal.readInt?_eq_some_iff.mpr h
  have hnone : Decimal.readInt? (Text.trim "5m".toList) = none := by decide
  rw [hnone] at hread
  cases hread

end Settings

end WorstCase
