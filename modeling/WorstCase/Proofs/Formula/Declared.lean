import WorstCase.Proofs.Formula.Asserted
import Mathlib.Data.List.Nodup

/-!
# What a problem declares

`Problem.Declares p q cs` says that `q` is what `p` becomes when the constants `cs` are declared one
after the other, up to everything that is no declaration. Declarations are told apart by their
texts. Names without spaces can be read off these, so a problem that declares constants of different
names keeps one declaration for each (`Problem.Declares.declarations_eq`).

A problem is **closed** over given names (`Problem.ClosedOver`) when it declares no name twice and
none of the given, and every name it uses is given or declared.
-/

namespace WorstCase

/-! ### The names in a term -/

namespace Term

mutual

/-- The names in a term. Verbatim text counts as a name, since nothing is known of what it says. -/
def names : Term → List String
  | .var name => [name]
  | .int _ => []
  | .raw text => [text]
  | .app _ args => namesAll args

/-- The names in a list of terms. -/
def namesAll : List Term → List String
  | [] => []
  | t :: ts => names t ++ namesAll ts

end

theorem mem_namesAll {ts : List Term} {name : String} :
    name ∈ namesAll ts ↔ ∃ t ∈ ts, name ∈ t.names := by
  induction ts with
  | nil => simp [namesAll]
  | cons t ts ih => simp [namesAll, ih]

/-- A term is **over** the names that a predicate admits when it has no others. -/
def Over (known : String → Prop) (t : Term) : Prop :=
  ∀ name ∈ t.names, known name

theorem Over.mono {known known' : String → Prop} {t : Term} (h : t.Over known)
    (hknown : ∀ name, known name → known' name) : t.Over known' :=
  fun name hname => hknown name (h name hname)

section Over

variable {known : String → Prop}

@[simp]
theorem over_var {name : String} : (Term.var name).Over known ↔ known name := by
  simp [Over, names]

@[simp]
theorem over_int {n : Int64} : (Term.int n).Over known := by
  simp [Over, names]

@[simp]
theorem over_app {op : Operator} {args : List Term} :
    (Term.app op args).Over known ↔ ∀ t ∈ args, t.Over known := by
  simp only [Over, names, mem_namesAll]
  exact ⟨fun h t ht name hname => h name ⟨t, ht, hname⟩,
    fun h name ⟨t, ht, hname⟩ => h t ht name hname⟩

theorem over_nary {op : Operator} {ts : List Term} :
    (nary op ts).Over known ↔ ∀ t ∈ ts, t.Over known := by
  unfold nary
  split <;> simp

@[simp]
theorem over_conj {ts : List Term} : (conj ts).Over known ↔ ∀ t ∈ ts, t.Over known := over_nary

@[simp]
theorem over_disj {ts : List Term} : (disj ts).Over known ↔ ∀ t ∈ ts, t.Over known := over_nary

@[simp]
theorem over_sum {ts : List Term} : (sum ts).Over known ↔ ∀ t ∈ ts, t.Over known := over_nary

variable {a b c : Term}

@[simp]
theorem over_not : (Term.not a).Over known ↔ a.Over known := by
  simp [Term.not]

@[simp]
theorem over_le : (Term.le a b).Over known ↔ a.Over known ∧ b.Over known := by
  simp [Term.le]

@[simp]
theorem over_diff : (diff a b).Over known ↔ a.Over known ∧ b.Over known := by
  simp [diff]

@[simp]
theorem over_equal : (equal a b).Over known ↔ a.Over known ∧ b.Over known := by
  simp [equal]

@[simp]
theorem over_imply : (imply a b).Over known ↔ a.Over known ∧ b.Over known := by
  simp [imply]

@[simp]
theorem over_ite : (Term.ite c a b).Over known ↔ c.Over known ∧ a.Over known ∧ b.Over known := by
  simp [Term.ite]

end Over

end Term

/-! ### Declaring one constant and many -/

/-- A declaration is the keyword, the name, a space and the rest. -/
theorem Declaration.toList_text (name : String) (sort : TermSort) :
    (ofConstant name sort).text.toList =
      "(declare-fun ".toList ++ (name.toList ++ ' ' :: ("() ".toList ++
        (sort.name.toList ++ ")".toList))) := by
  change ("(declare-fun " ++ name ++ " () " ++ sort.name ++ ")").toList = _
  simp only [String.toList_append, List.append_assoc]
  rfl

/-- The declaration of a name without spaces tells the name. -/
theorem Declaration.name_eq_of_text {name name' : String} {sort sort' : TermSort}
    (hname : ' ' ∉ name.toList) (hname' : ' ' ∉ name'.toList)
    (h : (ofConstant name sort).text = (ofConstant name' sort').text) : name = name' := by
  have hlist := congrArg String.toList h
  rw [toList_text, toList_text] at hlist
  exact String.toList_inj.mp
    (append_cons_inj hname hname' (List.append_cancel_left hlist)).1

namespace Problem

/-- Declarations with a constant, which is added unless its text is there. -/
def withConstant (ds : List Declaration) (c : String × TermSort) : List Declaration :=
  if ds.any (·.text = (Declaration.ofConstant c.1 c.2).text) then ds
  else ds ++ [.ofConstant c.1 c.2]

theorem declarations_declare (p : Problem) (name : String) (sort : TermSort) :
    (p.declare name sort).declarations = withConstant p.declarations (name, sort) := by
  unfold declare addDeclaration withConstant
  split <;> rfl

/-- Constants whose declarations have different texts are all added. -/
theorem foldl_withConstant {ds : List Declaration} {cs : List (String × TermSort)}
    (h : ((ds ++ cs.map fun c => Declaration.ofConstant c.1 c.2).map (·.text)).Nodup) :
    cs.foldl withConstant ds = ds ++ cs.map fun c => .ofConstant c.1 c.2 := by
  induction cs generalizing ds with
  | nil => simp
  | cons c cs ih =>
    have hstep : withConstant ds c = ds ++ [.ofConstant c.1 c.2] := by
      refine if_neg fun hany => ?_
      obtain ⟨d, hd, htext⟩ := List.any_eq_true.mp hany
      rw [List.map_append, List.map_cons, List.map_cons] at h
      exact (List.nodup_append.mp h).2.2 _ (List.mem_map_of_mem hd) _ List.mem_cons_self
        (of_decide_eq_true htext)
    rw [List.map_cons, ← List.singleton_append, ← List.append_assoc] at h
    rw [List.foldl_cons, hstep, ih h, List.map_cons, List.append_assoc, List.singleton_append]

/-- `q` is what `p` becomes when the constants `cs` are declared, as far as declarations go. -/
def Declares (p q : Problem) (cs : List (String × TermSort)) : Prop :=
  q.declarations = cs.foldl withConstant p.declarations

namespace Declares

variable {p q r : Problem} {cs cs' : List (String × TermSort)}

theorem declare (p : Problem) (name : String) (sort : TermSort) :
    Declares p (p.declare name sort) [(name, sort)] :=
  declarations_declare p name sort

theorem assert (p : Problem) (t : Term) : Declares p (p.assert t) [] := by
  unfold Declares Problem.assert addAssertion
  split <;> rfl

theorem assertSoft (p : Problem) (s : SoftAssertion) : Declares p (p.assertSoft s) [] := rfl

theorem addObjective (p : Problem) (o : Objective) : Declares p (p.addObjective o) [] := rfl

theorem trans (h : Declares p q cs) (h' : Declares q r cs') : Declares p r (cs ++ cs') := by
  unfold Declares at *
  rw [h', h, List.foldl_append]

theorem addComments (p : Problem) (texts : List String) :
    Declares p (texts.foldl addComment p) [] := by
  induction texts generalizing p with
  | nil => rfl
  | cons text texts ih => exact ih (p.addComment text)

theorem accumulates : Accumulates Declares where
  refl _ := rfl
  trans := trans

/-- **Constants with different names are declared one by one.** -/
theorem declarations_eq (h : Declares p q cs) (hp : p.declarations = [])
    (hnames : (cs.map (·.1)).Nodup) (hspace : ∀ name ∈ cs.map (·.1), ' ' ∉ name.toList) :
    q.declarations = cs.map fun c => .ofConstant c.1 c.2 := by
  have htexts : ((cs.map fun c => Declaration.ofConstant c.1 c.2).map (·.text)).Nodup := by
    rw [List.map_map]
    refine (List.Nodup.of_map _ hnames).map_on fun c hc d hd htext =>
      List.inj_on_of_nodup_map hnames hc hd ?_
    exact Declaration.name_eq_of_text (hspace _ (List.mem_map_of_mem hc))
      (hspace _ (List.mem_map_of_mem hd)) htext
  unfold Declares at h
  rw [h, hp, foldl_withConstant htexts, List.nil_append]

end Declares

/-! ### Closed problems -/

/-- The names of the constants that are declared, once for each declaration. -/
def declaredNames (p : Problem) : List String :=
  p.declarations.filterMap fun d => d.constant.map (·.1)

/-- A name is settled when it is given or declared exactly once. -/
def Settles (p : Problem) (given : List String) (name : String) : Prop :=
  name ∈ given ∨ p.declaredNames.count name = 1

/-- A problem is **closed** over given names when all its declarations are of constants, none of a
given one and no two of the same, and every name that it uses is given or declared once. -/
structure ClosedOver (p : Problem) (given : List String) : Prop where
  constants : ∀ d ∈ p.declarations, ∃ name sort, d = .ofConstant name sort
  names_nodup : p.declaredNames.Nodup
  given_undeclared : ∀ name ∈ given, name ∉ p.declaredNames
  assertions : ∀ a ∈ p.assertions, ∃ t, a.term = some t ∧ t.Over (p.Settles given)
  soft : ∀ s ∈ p.softAssertions, p.Settles given s.group ∧ s.term.Over (p.Settles given)
  objectives : ∀ o ∈ p.objectives, o.term.Over (p.Settles given)

end Problem

end WorstCase
