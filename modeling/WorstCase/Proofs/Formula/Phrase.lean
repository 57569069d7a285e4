import WorstCase.Proofs.Formula.Asserted
import WorstCase.Proofs.Formula.Holds
import WorstCase.Proofs.Text.Decimal

/-!
# Reading printed terms

Hard assertions are told apart by their texts, so a term is dropped if another one was printed like
it. Such terms need not be the same: `-3` is printed like the opposite of `3`, the empty sum like
`0`, and a difference begins like an opposite.

A printed term reads as a **phrase**: a word, or a head with operands in brackets.

* A text has **one reading** (`Phrase.text_append_inj`): a word ends where a space or a bracket
  stands, and a group where its bracket is closed.
* A phrase has a **value** of its own, which is that of every term that is printed so
  (`Term.Regular.eval_eq_value`). So terms with the same text evaluate alike, errors included.

It follows that dropping terms by their texts loses no constraint (`Problem.holds_assertedTerms`).
-/

namespace WorstCase

/-- A printed term as it reads. -/
inductive Phrase where
  | word (w : List Char)
  | group (head : List Char) (operands : List Phrase)

namespace Phrase

mutual

/-- The text of a phrase. -/
def text : Phrase → List Char
  | word w => w
  | group head operands => '(' :: (head ++ (textAll operands ++ [')']))

/-- The operands of a group, each after a space. -/
def textAll : List Phrase → List Char
  | [] => []
  | x :: xs => ' ' :: (text x ++ textAll xs)

end

/-! ### One reading -/

/-- Characters that neither end a word nor open a group. -/
def IsPlain (w : List Char) : Prop :=
  ∀ c ∈ w, c ≠ ' ' ∧ c ≠ '(' ∧ c ≠ ')'

instance (w : List Char) : Decidable (IsPlain w) :=
  List.decidableBAll _ w

/-- The phrases whose words are plain. -/
inductive Clean : Phrase → Prop
  | word {w : List Char} (hw : IsPlain w) : Clean (word w)
  | group {head : List Char} {operands : List Phrase} (hhead : IsPlain head)
      (hoperands : ∀ x ∈ operands, Clean x) : Clean (group head operands)

/-- What follows a phrase does not continue a word. -/
def Stops (rest : List Char) : Prop :=
  ∀ c ∈ rest.head?, c = ' ' ∨ c = ')'

theorem stops_operands (xs : List Phrase) (rest : List Char) :
    Stops (textAll xs ++ ')' :: rest) := by
  intro c hc
  cases xs with
  | nil => exact .inr (Option.some_inj.mp hc).symm
  | cons x xs =>
    rw [textAll] at hc
    exact .inl (Option.some_inj.mp hc).symm

/-- A word ends where it is stopped. -/
theorem word_append_inj {w w' r r' : List Char} (hw : IsPlain w) (hw' : IsPlain w')
    (hr : Stops r) (hr' : Stops r') (h : w ++ r = w' ++ r') : w = w' ∧ r = r' := by
  have hstop : ∀ {c : Char} {v r : List Char}, IsPlain (c :: v) → Stops r → r ≠ c :: v ++ r' := by
    rintro c v r hv hr rfl
    obtain ⟨hspace, -, hclose⟩ := hv c List.mem_cons_self
    exact (hr c rfl).elim hspace hclose
  induction w generalizing w' with
  | nil =>
    cases w' with
    | nil => exact ⟨rfl, h⟩
    | cons c w' => exact absurd h (hstop hw' hr)
  | cons c w ih =>
    cases w' with
    | nil =>
      obtain ⟨hspace, -, hclose⟩ := hw c List.mem_cons_self
      exact absurd (hr' c (by rw [← List.nil_append r', ← h]; rfl)) (by simp [hspace, hclose])
    | cons c' w' =>
      obtain ⟨rfl, htail⟩ := List.cons.inj h
      obtain ⟨rfl, rfl⟩ := ih (fun x hx => hw x (List.mem_cons_of_mem _ hx))
        (fun x hx => hw' x (List.mem_cons_of_mem _ hx)) htail
      exact ⟨rfl, rfl⟩

/-- A word does not read as a group. -/
theorem word_ne_group {w r s : List Char} (hw : IsPlain w) (hr : Stops r) :
    w ++ r ≠ '(' :: s := by
  intro h
  cases w with
  | nil =>
    rw [List.nil_append] at h
    exact absurd (hr '(' (by rw [h]; rfl)) (by decide)
  | cons c w => exact (hw c List.mem_cons_self).2.1 (List.cons.inj h).1

/-- **A text has one reading.** The phrase that it begins with can be told from what follows. -/
theorem text_append_inj {x y : Phrase} (hx : Clean x) (hy : Clean y) {r r' : List Char}
    (hr : Stops r) (hr' : Stops r') (h : x.text ++ r = y.text ++ r') : x = y ∧ r = r' := by
  induction hx generalizing y r r' with
  | word hw =>
    cases hy with
    | word hw' =>
      obtain ⟨rfl, rfl⟩ := word_append_inj hw hw' hr hr' h
      exact ⟨rfl, rfl⟩
    | group => exact absurd h (word_ne_group hw hr)
  | @group head operands hhead _ ih =>
    cases hy with
    | word hw' => exact absurd h.symm (word_ne_group hw' hr')
    | @group head' operands' hhead' hoperands' =>
      -- the operands are read one after the other, up to the closing bracket
      have hall : ∀ {xs ys : List Phrase}, (∀ x ∈ xs, x ∈ operands) → (∀ y ∈ ys, Clean y) →
          textAll xs ++ ')' :: r = textAll ys ++ ')' :: r' → xs = ys ∧ r = r' := by
        intro xs
        induction xs with
        | nil =>
          intro ys _ _ heq
          cases ys with
          | nil => exact ⟨rfl, (List.cons.inj heq).2⟩
          | cons y ys => exact absurd (List.cons.inj heq).1 (by decide)
        | cons x xs ihxs =>
          intro ys hxs hys heq
          cases ys with
          | nil => exact absurd (List.cons.inj heq).1 (by decide)
          | cons y ys =>
            rw [List.forall_mem_cons] at hxs hys
            simp only [textAll, List.cons_append, List.append_assoc, List.cons.injEq,
              true_and] at heq
            obtain ⟨rfl, hrest⟩ :=
              ih x hxs.1 hys.1 (stops_operands xs r) (stops_operands ys r') heq
            obtain ⟨rfl, hr⟩ := ihxs hxs.2 hys.2 hrest
            exact ⟨rfl, hr⟩
      simp only [text, List.cons_append, List.append_assoc, List.cons.injEq, true_and,
        List.nil_append] at h
      obtain ⟨rfl, hrest⟩ := word_append_inj hhead hhead' (stops_operands _ _)
        (stops_operands _ _) h
      obtain ⟨rfl, hr⟩ := hall (fun x hx => hx) hoperands' hrest
      exact ⟨rfl, hr⟩

end Phrase

/-! ### Values of phrases -/

theorem Operator.isPlain_symbol (op : Operator) : Phrase.IsPlain op.symbol.toList := by
  cases op with
  | other code => exact (by decide : Phrase.IsPlain "unknown".toList)
  | _ => decide

/-- Whether an operator is printed with a number of operands. A single operand of `and`, `or` and
`+` is printed alone. -/
def Operator.takes : Operator → Nat → Bool
  | .not, n | .neg, n => n == 1
  | .and, n | .or, n | .plus, n => n != 1
  | .ite, n => n == 3
  | .times, n | .diff, n | .leq, n | .equal, n | .imply, n => n == 2
  | .other _, _ => false

namespace Phrase

/-- The operators that have a symbol. -/
def operators : List Operator :=
  [.not, .and, .or, .plus, .times, .neg, .diff, .leq, .equal, .ite, .imply]

/-- The operator that a head stands for. The minus sign stands for two, which differ in the number
of operands. -/
def operator? (head : List Char) (count : Nat) : Option Operator :=
  operators.find? fun op => op.symbol.toList = head && op.takes count

/-- Whether a word is a numeral. -/
def IsNumeral (w : List Char) : Prop :=
  w ≠ [] ∧ ∀ c ∈ w, c.isDigit = true

instance (w : List Char) : Decidable (IsNumeral w) :=
  @instDecidableAnd _ _ inferInstance (List.decidableBAll _ w)

/-- The value of a word. -/
def wordValue (m : Model) (w : List Char) : Except EvalError Value :=
  if w = "true".toList then .ok (.bool true)
  else if w = "false".toList then .ok (.bool false)
  else if IsNumeral w then .ok (.num (Int64.ofInt (Nat.ofDigitChars 10 w 0)))
  else (Term.var (String.ofList w)).eval m

mutual

/-- The value of a phrase under a model. -/
def value (m : Model) : Phrase → Except EvalError Value
  | word w => wordValue m w
  | group head operands =>
    match operator? head operands.length with
    | some op => op.apply (valueAll m operands)
    | none => .error (.verbatim (String.ofList (text (group head operands))))

/-- Phrases as operands, with their values. -/
def valueAll (m : Model) : List Phrase → List Operand
  | [] => []
  | x :: xs => ⟨.raw (String.ofList (text x)), value m x⟩ :: valueAll m xs

end

theorem operator?_symbol {op : Operator} {n : Nat} (h : op.takes n = true) :
    operator? op.symbol.toList n = some op := by
  cases op <;> simp_all [operator?, operators, Operator.symbol, Operator.takes]

theorem wordValue_chars (m : Model) {n : Int} (hn : 0 ≤ n) :
    wordValue m (Decimal.chars n) = .ok (.num (Int64.ofInt n)) := by
  have hdigit : ∀ c ∈ Decimal.chars n, c.isDigit = true :=
    fun c hc => Decimal.isDigit_of_mem_chars hn hc
  have htrue : Decimal.chars n ≠ "true".toList := fun h =>
    absurd (hdigit 't' (h ▸ by decide)) (by decide)
  have hfalse : Decimal.chars n ≠ "false".toList := fun h =>
    absurd (hdigit 'f' (h ▸ by decide)) (by decide)
  have hval : (Nat.ofDigitChars 10 (Decimal.chars n) 0 : Int) = n := by
    rw [Decimal.chars_of_nonneg hn, Decimal.digits, Nat.ofDigitChars_ten_toDigits]
    exact Int.natAbs_of_nonneg hn
  rw [wordValue, if_neg htrue, if_neg hfalse, if_pos ⟨Decimal.chars_ne_nil n, hdigit⟩, hval]

end Phrase

/-! ### Phrases of terms -/

namespace Operand

/-- An operand of which only the text is kept, besides its value. -/
def printed (x : Operand) : Operand := ⟨.raw x.term.render, x.value⟩

@[simp] theorem asBool_printed (x : Operand) : x.printed.asBool = x.asBool := rfl

@[simp] theorem asNum_printed (x : Operand) : x.printed.asNum = x.asNum := rfl

theorem allBool_printed (xs : List Operand) : allBool (xs.map printed) = allBool xs := by
  induction xs with
  | nil => rfl
  | cons x xs ih => rw [List.map_cons, allBool, allBool, ih, asBool_printed]

theorem allNum_printed (xs : List Operand) : allNum (xs.map printed) = allNum xs := by
  induction xs with
  | nil => rfl
  | cons x xs ih => rw [List.map_cons, allNum, allNum, ih, asNum_printed]

end Operand

/-- **Operators look at the texts of their operands only**, besides the values. -/
theorem Operator.apply_printed (op : Operator) (xs : List Operand) :
    op.apply (xs.map Operand.printed) = op.apply xs := by
  have hargs : ∀ ys : List Operand, Term.renderArgs ((ys.map Operand.printed).map Operand.term) =
      Term.renderArgs (ys.map Operand.term) := by
    intro ys
    induction ys with
    | nil => rfl
    | cons y ys ih => rw [List.map_cons, List.map_cons, List.map_cons, Term.renderArgs, ih,
        Term.renderArgs, Operand.printed, Term.render]
  have hself : (Term.app op ((xs.map Operand.printed).map Operand.term)).render =
      (Term.app op (xs.map Operand.term)).render := by
    cases xs with
    | nil => rfl
    | cons x xs =>
      have h := hargs (x :: xs)
      simp only [List.map_cons] at h ⊢
      rw [Term.render, Term.render, h] <;> simp
  unfold apply
  rw [hself]
  cases op with
  | and | or => simp only [Operand.allBool_printed]
  | plus => simp only [Operand.allNum_printed]
  | _ => rcases xs with _ | ⟨x, _ | ⟨y, _ | ⟨z, xs⟩⟩⟩ <;> rfl

namespace Term

mutual

/-- The phrase as which a term is printed. -/
def phrase : Term → Phrase
  | .var name => .word name.toList
  | .int n =>
    if n.toInt < 0 then .group ['-'] [.word (Decimal.chars (-n.toInt))]
    else .word (Decimal.chars n.toInt)
  | .raw text => .word text.toList
  | .app op args =>
    match args, op.unit? with
    | [], some unit => .word unit.toList
    | _, _ => .group op.symbol.toList (phrases args)

/-- The phrases of operands. -/
def phrases : List Term → List Phrase
  | [] => []
  | t :: ts => phrase t :: phrases ts

end

theorem length_phrases (ts : List Term) : (phrases ts).length = ts.length := by
  induction ts with
  | nil => rfl
  | cons t ts ih => rw [phrases, List.length_cons, ih, List.length_cons]

/-- An application is printed as its unit, or as a group. -/
theorem app_forms (op : Operator) (args : List Term) :
    (args = [] ∧ (op = .and ∧ (Term.app op args).phrase = .word "true".toList ∨
        op = .or ∧ (Term.app op args).phrase = .word "false".toList ∨
        op = .plus ∧ (Term.app op args).phrase = .word "0".toList)) ∨
      (Term.app op args).phrase = .group op.symbol.toList (phrases args) ∧
        (Term.app op args).render = "(" ++ op.symbol ++ renderArgs args ++ ")" := by
  cases args with
  | nil =>
    cases op with
    | and => exact .inl ⟨rfl, .inl ⟨rfl, rfl⟩⟩
    | or => exact .inl ⟨rfl, .inr (.inl ⟨rfl, rfl⟩)⟩
    | plus => exact .inl ⟨rfl, .inr (.inr ⟨rfl, rfl⟩)⟩
    | _ => exact .inr ⟨rfl, rfl⟩
  | cons t ts =>
    refine .inr ⟨?_, ?_⟩
    · rw [phrase]
      simp
    · rw [render]
      simp

mutual

/-- **A term is printed as its phrase.** -/
theorem text_phrase : ∀ t : Term, t.phrase.text = t.render.toList
  | .var name => by rw [phrase, Phrase.text, render]
  | .int n => by
    rw [phrase, render, renderInt]
    split
    · simp [Phrase.text, Phrase.textAll]
    · simp [Phrase.text]
  | .raw text => by rw [phrase, Phrase.text, render]
  | .app op args => by
    have hargs := textAll_phrases args
    rcases app_forms op args with ⟨rfl, ⟨rfl, -⟩ | ⟨rfl, -⟩ | ⟨rfl, -⟩⟩ | ⟨hphrase, hrender⟩
    · rfl
    · rfl
    · rfl
    · rw [hphrase, hrender, Phrase.text, hargs]
      simp

theorem textAll_phrases : ∀ ts : List Term, Phrase.textAll (phrases ts) = (renderArgs ts).toList
  | [] => rfl
  | t :: ts => by
    rw [phrases, Phrase.textAll, text_phrase t, textAll_phrases ts, renderArgs]
    simp

end

/-! ### Terms that constructors build -/

/-- The names that print as words which nothing else prints as: without space and brackets, neither
numerals nor the printed forms of empty conjunctions and disjunctions. -/
structure IsWord (name : String) : Prop where
  plain : Phrase.IsPlain name.toList
  not_numeral : ¬ Phrase.IsNumeral name.toList
  ne_true : name ≠ "true"
  ne_false : name ≠ "false"

/-- The terms that the constructors build, over variables whose names are words. -/
inductive Built : Term → Prop
  | var {name : String} (h : IsWord name) : Built (.var name)
  | int (n : Int64) : Built (.int n)
  | not {t : Term} (h : Built t) : Built (Term.not t)
  | conj {ts : List Term} (h : ∀ t ∈ ts, Built t) : Built (conj ts)
  | disj {ts : List Term} (h : ∀ t ∈ ts, Built t) : Built (disj ts)
  | sum {ts : List Term} (h : ∀ t ∈ ts, Built t) : Built (sum ts)
  | times {a b : Term} (ha : Built a) (hb : Built b) : Built (times a b)
  | neg {a : Term} (h : Built a) : Built (Term.neg a)
  | diff {a b : Term} (ha : Built a) (hb : Built b) : Built (diff a b)
  | le {a b : Term} (ha : Built a) (hb : Built b) : Built (Term.le a b)
  | lt {a b : Term} (ha : Built a) (hb : Built b) : Built (Term.lt a b)
  | equal {a b : Term} (ha : Built a) (hb : Built b) : Built (equal a b)
  | ite {c a b : Term} (hc : Built c) (ha : Built a) (hb : Built b) : Built (Term.ite c a b)
  | imply {a b : Term} (ha : Built a) (hb : Built b) : Built (imply a b)
  | iff {a b : Term} (ha : Built a) (hb : Built b) : Built (iff a b)

/-- The terms in which every operator has the operands that it takes. -/
inductive Regular : Term → Prop
  | var {name : String} (h : IsWord name) : Regular (.var name)
  | int (n : Int64) : Regular (.int n)
  | app {op : Operator} {args : List Term} (hop : op.takes args.length = true)
      (hargs : ∀ t ∈ args, Regular t) : Regular (.app op args)

theorem Regular.nary {op : Operator} {ts : List Term} (hop : ∀ n, n ≠ 1 → op.takes n = true)
    (hts : ∀ t ∈ ts, Regular t) : Regular (nary op ts) := by
  by_cases hlength : ts.length = 1
  · obtain ⟨t, rfl⟩ := List.length_eq_one_iff.mp hlength
    exact hts t (List.mem_singleton_self t)
  · rw [nary_of_length_ne_one hlength]
    exact .app (hop _ hlength) hts

theorem Built.regular {t : Term} (h : Built t) : Regular t := by
  have hone : ∀ {op : Operator} {a : Term}, op.takes 1 = true → Regular a →
      Regular (.app op [a]) := fun hop ha => .app hop (by simpa using ha)
  have htwo : ∀ {op : Operator} {a b : Term}, op.takes 2 = true → Regular a → Regular b →
      Regular (.app op [a, b]) := fun hop ha hb => .app hop (by simpa using ⟨ha, hb⟩)
  have hmany : ∀ n : Nat, n ≠ 1 → (n != 1) = true := fun n hn => by simpa using hn
  induction h with
  | var h => exact .var h
  | int n => exact .int n
  | not _ ih => exact hone rfl ih
  | conj _ ih => exact .nary hmany ih
  | disj _ ih => exact .nary hmany ih
  | sum _ ih => exact .nary hmany ih
  | times _ _ iha ihb => exact htwo rfl iha ihb
  | neg _ ih => exact hone rfl ih
  | diff _ _ iha ihb => exact htwo rfl iha ihb
  | le _ _ iha ihb => exact htwo rfl iha ihb
  | lt _ _ iha ihb => exact hone rfl (htwo rfl ihb iha)
  | equal _ _ iha ihb => exact htwo rfl iha ihb
  | ite _ _ _ ihc iha ihb => exact .app rfl (by simpa using ⟨ihc, iha, ihb⟩)
  | imply _ _ iha ihb => exact htwo rfl iha ihb
  | iff _ _ iha ihb => exact htwo rfl (htwo rfl iha ihb) (htwo rfl ihb iha)

namespace Regular

variable {t u : Term} {m : Model}

theorem clean (h : Regular t) : t.phrase.Clean := by
  have hplain : ∀ {n : Int}, Phrase.IsPlain (Decimal.chars n) := by
    intro n c hc
    rcases Decimal.mem_chars hc with rfl | hdigit
    · decide
    · refine ⟨?_, ?_, ?_⟩ <;> rintro rfl <;> exact absurd hdigit (by decide)
  induction h with
  | var h =>
    rw [phrase]
    exact .word h.plain
  | int n =>
    rw [phrase]
    split
    · exact .group (by decide) (by simpa using .word hplain)
    · exact .word hplain
  | @app op args hop _ ih =>
    have hall : ∀ {ts : List Term}, (∀ t ∈ ts, t.phrase.Clean) → ∀ x ∈ phrases ts, x.Clean := by
      intro ts
      induction ts with
      | nil => exact fun _ x hx => absurd hx List.not_mem_nil
      | cons t ts ihts =>
        intro hts x hx
        rw [List.forall_mem_cons] at hts
        rcases List.mem_cons.mp hx with rfl | hx
        · exact hts.1
        · exact ihts hts.2 x hx
    rcases app_forms op args with ⟨-, ⟨-, h⟩ | ⟨-, h⟩ | ⟨-, h⟩⟩ | ⟨h, -⟩
    · exact h ▸ .word (by decide)
    · exact h ▸ .word (by decide)
    · exact h ▸ .word (by decide)
    · rw [h]
      exact .group op.isPlain_symbol (hall ih)

/-- **The value of a term is that of its phrase.** -/
theorem eval_eq_value (h : Regular t) (m : Model) : t.eval m = t.phrase.value m := by
  induction h with
  | @var name h =>
    have htrue : name.toList ≠ "true".toList := fun heq => h.ne_true (String.toList_inj.mp heq)
    have hfalse : name.toList ≠ "false".toList := fun heq => h.ne_false (String.toList_inj.mp heq)
    rw [phrase, Phrase.value, Phrase.wordValue, if_neg htrue, if_neg hfalse, if_neg h.not_numeral,
      String.ofList_toList]
  | int n =>
    rw [eval_int, phrase]
    split
    · -- the opposite of the absolute value
      have hvalue := Phrase.wordValue_chars m (n := -n.toInt) (by omega)
      have hop : Phrase.operator? ['-'] 1 = some .neg := by decide
      have hneg : -Int64.ofInt (-n.toInt) = n := by
        rw [← Int64.ofInt_neg, Int.neg_neg, Int64.ofInt_toInt]
      simp only [Phrase.value, Phrase.valueAll, List.length_singleton, hop, hvalue, Operator.apply,
        Operand.asNum, bind, Except.bind, pure, Except.pure, hneg]
    · rw [Phrase.value, Phrase.wordValue_chars m (by omega), Int64.ofInt_toInt]
  | @app op args hop _ ih =>
    have hall : ∀ {ts : List Term}, (∀ t ∈ ts, t.eval m = t.phrase.value m) →
        Phrase.valueAll m (phrases ts) = (ts.map (operand m)).map Operand.printed := by
      intro ts
      induction ts with
      | nil => exact fun _ => rfl
      | cons t ts ihts =>
        intro hts
        rw [List.forall_mem_cons] at hts
        rw [phrases, Phrase.valueAll, ihts hts.2, ← hts.1, text_phrase, String.ofList_toList]
        rfl
    rcases app_forms op args with ⟨rfl, ⟨rfl, -⟩ | ⟨rfl, -⟩ | ⟨rfl, -⟩⟩ | ⟨h, -⟩
    · rfl
    · rfl
    · rfl
    · rw [h, Phrase.value, length_phrases, Phrase.operator?_symbol hop]
      dsimp only
      rw [hall ih, Operator.apply_printed, eval_app]

/-- **Terms with the same text evaluate alike**, errors included. -/
theorem eval_eq_of_render_eq (ht : Regular t) (hu : Regular u) (h : t.render = u.render)
    (m : Model) : t.eval m = u.eval m := by
  have hstop : Phrase.Stops [] := fun c hc => absurd hc (by simp)
  have hphrase : t.phrase = u.phrase :=
    (Phrase.text_append_inj ht.clean hu.clean hstop hstop
      (by rw [text_phrase, text_phrase, h])).1
  rw [ht.eval_eq_value, hu.eval_eq_value, hphrase]

end Regular

end Term

namespace Problem

/-- **Telling assertions apart by their texts loses no constraint.** A model makes all asserted
terms true iff it makes all terms true that were ever asserted, for any two terms with the same text
have the same value. -/
theorem holds_assertedTerms {ts : List Term} (hts : ∀ t ∈ ts, t.Built) (m : Model) :
    ((∀ t ∈ (ts.foldl assert {}).assertedTerms, t.holds m = .ok true) ↔
        ∀ t ∈ ts, t.holds m = .ok true) ∧
      ∀ t u : Term, t.Built → u.Built → t.render = u.render → t.eval m = u.eval m := by
  have hsame : ∀ t u : Term, t.Built → u.Built → t.render = u.render → t.eval m = u.eval m :=
    fun t u ht hu h => ht.regular.eval_eq_of_render_eq hu.regular h m
  have hasserts : Asserts {} (ts.foldl assert {}) (ts.flatMap fun t => [t]) :=
    .foldl (fun p t => .assert p t) {} ts
  rw [List.flatMap_singleton'] at hasserts
  have hstates := hasserts.states
  refine ⟨⟨fun h t ht => ?_, fun h t ht => h t (hstates.mem t ht)⟩, hsame⟩
  obtain ⟨u, hu, huts, hrender⟩ := hstates.exists_mem t ht
  have heval := hsame u t (hts u huts) (hts t ht) hrender
  rw [Term.holds_eq_ok_iff, ← heval]
  exact Term.holds_eq_ok_iff.mp (h u hu)

/-- Three bounds of which two are printed alike, though one has a negative number and an empty sum
where the other has an opposite and the number 0. -/
def twins : List Term :=
  [ .le (.int (-3)) (.sum []), .le (.neg (.int 3)) (.int 0), .le (.var "x") (.int Int64.minValue) ]

theorem holds_assertedTerms_twins :
    (∀ t ∈ twins, t.Built) ∧ (twins.foldl assert {}).assertedTerms.length = 2 ∧
      ∀ m : Model, ((∀ t ∈ (twins.foldl assert {}).assertedTerms, t.holds m = .ok true) ↔
        ∀ t ∈ twins, t.holds m = .ok true) := by
  have hx : Term.IsWord "x" := ⟨by decide, by decide, by decide, by decide⟩
  have hbuilt : ∀ t ∈ twins, t.Built := by
    simp only [twins, List.forall_mem_cons, List.not_mem_nil, false_implies, implies_true,
      and_true]
    refine ⟨.le (.int _) (.sum (by simp)), .le (.neg (.int _)) (.int _), .le (.var hx) (.int _)⟩
  exact ⟨hbuilt, by decide, fun m => (holds_assertedTerms hbuilt m).1⟩

end Problem

end WorstCase
