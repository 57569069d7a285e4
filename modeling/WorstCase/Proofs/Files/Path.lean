import WorstCase.Files.Path
import WorstCase.Proofs.Text.Pieces

/-!
# Clean paths

A clean path consists of names, with `..` before them if it is relative (`Path.Tidy`). Its text and
its components determine each other: a path is taken apart into the components that it was made of
(`Path.components_ofComponents`), and cleaning changes nothing about it
(`Path.cleanComponents_ofComponents`). Taking the directory, the base name and the parent of a path
removes or returns its last component (`Path.directory_ofComponents`, `Path.base_ofComponents`,
`Path.parentText?_ofComponents`), and joining appends components (`Path.join_ofComponents`).
-/

namespace WorstCase.Path

variable {absolute : Bool} {p q c : String} {cs names parts : List String}

/-! ### Components -/

/-- A component that names an entry of a directory. -/
def IsName (c : String) : Prop := c ≠ "" ∧ c ≠ "." ∧ c ≠ ".."

instance (c : String) : Decidable (IsName c) :=
  inferInstanceAs (Decidable (c ≠ "" ∧ c ≠ "." ∧ c ≠ ".."))

/-- Components are names, or stay where they are, or go up. -/
theorem component_cases (c : String) : (c = "" ∨ c = ".") ∨ c = ".." ∨ IsName c := by
  by_cases hempty : c = ""
  · exact .inl (.inl hempty)
  by_cases hdot : c = "."
  · exact .inl (.inr hdot)
  by_cases hup : c = ".."
  · exact .inr (.inl hup)
  · exact .inr (.inr ⟨hempty, hdot, hup⟩)

theorem components_eq (p : String) :
    components p = (p.toList.splitOn '/').map String.ofList := by
  rw [components, Text.split, show "/".toList = ['/'] by decide, Text.pieces_singleton]

theorem components_of_notMem (h : '/' ∉ c.toList) : components c = [c] := by
  rw [components_eq, List.splitOn_eq_singleton h, List.map_singleton, String.ofList_toList]

theorem components_append (h : p.toList = q.toList ++ '/' :: c.toList) :
    components p = components q ++ components c := by
  rw [components_eq, components_eq, components_eq, h, ← List.map_append]
  exact congrArg _ (List.splitOnP_append_cons _ _ (beq_self_eq_true '/'))

theorem toList_joinWith_cons (p : String) (h : parts ≠ []) :
    (Text.joinWith "/" (p :: parts)).toList =
      p.toList ++ '/' :: (Text.joinWith "/" parts).toList := by
  obtain ⟨q, parts, rfl⟩ := List.exists_cons_of_ne_nil h
  simp [Text.joinWith, String.toList_intercalate, List.intercalate]

/-- The components of a joined text are those of its parts. -/
theorem components_joinWith (h : parts ≠ []) :
    components (Text.joinWith "/" parts) = parts.flatMap components := by
  induction parts with
  | nil => exact absurd rfl h
  | cons p parts ih =>
    by_cases hparts : parts = []
    · subst hparts
      simp [Text.joinWith, String.intercalate_singleton]
    · rw [components_append (toList_joinWith_cons p hparts), ih hparts, List.flatMap_cons]

theorem slash_notMem_of_mem_components (h : c ∈ components p) : '/' ∉ c.toList := by
  have hpieces : ∀ (s : List Char), ∀ l ∈ s.splitOn '/', '/' ∉ l := by
    intro s
    induction s with
    | nil => simp [List.splitOn_nil]
    | cons d s ih =>
      rw [List.splitOn_cons_eq_if_modifyHead]
      split
      · exact List.forall_mem_cons.mpr ⟨List.not_mem_nil, ih⟩
      · rename_i hd
        obtain ⟨l, ls, hls⟩ := List.exists_cons_of_ne_nil (List.splitOn_ne_nil '/' s)
        rw [hls] at ih ⊢
        rw [List.forall_mem_cons] at ih
        refine List.forall_mem_cons.mpr ⟨?_, ih.2⟩
        rw [List.mem_cons, not_or]
        exact ⟨fun heq => hd (beq_iff_eq.mpr heq.symm), ih.1⟩
  rw [components_eq] at h
  obtain ⟨l, hl, rfl⟩ := List.mem_map.mp h
  rw [String.toList_ofList]
  exact hpieces _ l hl

/-! ### Tidy components -/

/-- The components of a clean path: names, and in front of them as many `..` as there are; an
absolute path has none. -/
def Tidy (absolute : Bool) (cs : List String) : Prop :=
  ∃ ups names, cs = ups ++ names ∧ (∀ c ∈ ups, c = "..") ∧
    (∀ c ∈ names, IsName c ∧ '/' ∉ c.toList) ∧ (absolute = true → ups = [])

namespace Tidy

theorem ne_empty (h : Tidy absolute cs) : ∀ c ∈ cs, c ≠ "" ∧ '/' ∉ c.toList := by
  obtain ⟨ups, names, rfl, hups, hnames, -⟩ := h
  rw [List.forall_mem_append]
  refine ⟨fun c hc => ?_, fun c hc => ⟨(hnames c hc).1.1, (hnames c hc).2⟩⟩
  rw [hups c hc]
  decide

theorem nil : Tidy absolute [] := ⟨[], [], rfl, by simp, by simp, fun _ => rfl⟩

/-- Names may be put behind. -/
theorem append (h : Tidy absolute cs) (hnames : ∀ c ∈ names, IsName c ∧ '/' ∉ c.toList) :
    Tidy absolute (cs ++ names) := by
  obtain ⟨ups, names', rfl, hups, hnames', habsolute⟩ := h
  exact ⟨ups, names' ++ names, List.append_assoc .., hups,
    List.forall_mem_append.mpr ⟨hnames', hnames⟩, habsolute⟩

theorem of_names (hnames : ∀ c ∈ names, IsName c ∧ '/' ∉ c.toList) : Tidy absolute names :=
  List.nil_append names ▸ nil.append hnames

theorem of_append {cs' : List String} (h : Tidy absolute (cs ++ cs')) : Tidy absolute cs := by
  obtain ⟨ups, names, heq, hups, hnames, habsolute⟩ := h
  rcases List.append_eq_append_iff.mp heq with ⟨as, rfl, -⟩ | ⟨bs, rfl, rfl⟩
  · refine ⟨cs, [], (List.append_nil cs).symm, fun c hc => hups c (List.mem_append_left _ hc),
      by simp, fun ha => ?_⟩
    exact (List.append_eq_nil_iff.mp (habsolute ha)).1
  · exact ⟨ups, bs, rfl, hups, fun c hc => hnames c (List.mem_append_left _ hc), habsolute⟩

/-- Behind a name are names only. -/
theorem isName_of_append {cs' : List String} (h : Tidy absolute (cs ++ c :: cs')) (hc : IsName c) :
    ∀ c' ∈ cs', IsName c' := by
  obtain ⟨ups, names, heq, hups, hnames, -⟩ := h
  rcases List.append_eq_append_iff.mp heq with ⟨as, rfl, hrest⟩ | ⟨bs, rfl, rfl⟩
  · rcases as with _ | ⟨a, as⟩
    · rw [List.nil_append] at hrest
      exact fun c' hc' => (hnames c' (hrest ▸ List.mem_cons_of_mem _ hc')).1
    · obtain ⟨rfl, -⟩ := List.cons.inj hrest
      exact absurd (hups c (List.mem_append_right _ List.mem_cons_self)) hc.2.2
  · exact fun c' hc' => (hnames c' (List.mem_append_right _ (List.mem_cons_of_mem _ hc'))).1

end Tidy

/-! ### Cleaning -/

theorem push_name {stack : List String} (hc : IsName c) : push absolute stack c = c :: stack := by
  unfold push
  rw [if_neg (by simp [hc.1, hc.2.1]), if_neg hc.2.2]

theorem push_stay {stack : List String} (hc : c = "" ∨ c = ".") :
    push absolute stack c = stack := by
  unfold push
  rw [if_pos hc]

theorem foldl_push_names {stack : List String} (h : ∀ c ∈ names, IsName c) :
    names.foldl (push absolute) stack = names.reverse ++ stack := by
  induction names generalizing stack with
  | nil => rfl
  | cons c names ih =>
    rw [List.forall_mem_cons] at h
    rw [List.foldl_cons, push_name h.1, ih h.2, List.reverse_cons, List.append_assoc]
    rfl

theorem tidy_push {stack : List String} (h : Tidy absolute stack.reverse) (hc : '/' ∉ c.toList) :
    Tidy absolute (push absolute stack c).reverse := by
  rcases component_cases c with hstay | rfl | hname
  · rwa [push_stay hstay]
  · unfold push
    rw [if_neg (by decide), if_pos rfl]
    match stack, h with
    | [], h =>
      cases absolute
      · exact ⟨[".."], [], rfl, by simp, by simp, by simp⟩
      · exact h
    | top :: rest, h =>
      dsimp only
      split
      · rename_i htop
        subst htop
        rw [List.reverse_cons] at h
        obtain ⟨ups, names, heq, hups, hnames, habsolute⟩ := h
        -- names cannot end with the component that goes up
        have hnil : names = [] := by
          rcases List.eq_nil_or_concat' names with hnil | ⟨names, c, rfl⟩
          · exact hnil
          rw [← List.append_assoc] at heq
          have hlast := (List.append_singleton_inj.mp heq).2
          exact absurd hlast.symm
            (hnames c (List.mem_append_right _ List.mem_cons_self)).1.2.2
        subst hnil
        rw [List.append_nil] at heq
        refine ⟨ups ++ [".."], [], ?_, ?_, by simp, fun ha => ?_⟩
        · rw [List.append_nil, ← heq, List.reverse_cons, List.reverse_cons]
        · exact List.forall_mem_append.mpr ⟨hups, by simp⟩
        · rw [habsolute ha] at heq
          exact absurd heq (by simp)
      · rw [List.reverse_cons] at h
        exact h.of_append
  · rw [push_name hname, List.reverse_cons]
    exact h.append (List.forall_mem_singleton.mpr ⟨hname, hc⟩)

theorem tidy_cleanComponents (p : String) : Tidy (isAbsolute p) (cleanComponents p) := by
  have hfold : ∀ (cs stack : List String), Tidy (isAbsolute p) stack.reverse →
      (∀ c ∈ cs, '/' ∉ c.toList) →
      Tidy (isAbsolute p) (cs.foldl (push (isAbsolute p)) stack).reverse := by
    intro cs
    induction cs with
    | nil => exact fun stack h _ => h
    | cons c cs ih =>
      intro stack h hcs
      rw [List.forall_mem_cons] at hcs
      exact ih _ (tidy_push h hcs.1) hcs.2
  exact hfold _ [] .nil fun c hc => slash_notMem_of_mem_components hc

/-- Names on top of a path stay when it is cleaned. -/
theorem cleanComponents_append (hp : components p = components q ++ names)
    (habsolute : isAbsolute p = isAbsolute q) (hnames : ∀ c ∈ names, IsName c) :
    cleanComponents p = cleanComponents q ++ names := by
  rw [cleanComponents, cleanComponents, hp, habsolute, List.foldl_append, foldl_push_names hnames,
    List.reverse_append, List.reverse_reverse]

/-! ### The text of components -/

theorem toList_ofComponents (h : cs ≠ []) (absolute : Bool) :
    (ofComponents absolute cs).toList =
      (if absolute then ['/'] else []) ++ (Text.joinWith "/" cs).toList := by
  have hne : cs.isEmpty = false := by simpa using h
  cases absolute <;> simp [ofComponents, hne]

theorem toList_joinWith_concat (h : cs ≠ []) (c : String) :
    (Text.joinWith "/" (cs ++ [c])).toList = (Text.joinWith "/" cs).toList ++ '/' :: c.toList := by
  induction cs with
  | nil => exact absurd rfl h
  | cons x cs ih =>
    rcases List.eq_nil_or_concat' cs with rfl | ⟨cs, y, rfl⟩
    · rw [List.cons_append, List.nil_append, toList_joinWith_cons _ (by simp)]
      simp [Text.joinWith, String.intercalate_singleton]
    · rw [List.cons_append, toList_joinWith_cons _ (by simp), toList_joinWith_cons _ (by simp),
        ih (by simp), List.append_assoc]
      rfl

theorem toList_ofComponents_concat (h : cs ≠ []) (absolute : Bool) (c : String) :
    (ofComponents absolute (cs ++ [c])).toList =
      (ofComponents absolute cs).toList ++ '/' :: c.toList := by
  rw [toList_ofComponents (by simp), toList_ofComponents h, toList_joinWith_concat h,
    List.append_assoc]

theorem joinWith_singleton (c : String) : Text.joinWith "/" [c] = c := by
  simp [Text.joinWith, String.intercalate_singleton]

section

variable (h : ∀ c ∈ cs, c ≠ "" ∧ '/' ∉ c.toList)

include h

/-- **A path is taken apart into its components.** -/
theorem components_ofComponents (hne : cs ≠ []) :
    components (ofComponents absolute cs) = (if absolute then [""] else []) ++ cs := by
  have hjoin : components (Text.joinWith "/" cs) = cs := by
    rw [components_joinWith hne]
    refine (List.flatMap_congr fun c hc => components_of_notMem (h c hc).2).trans ?_
    exact List.flatMap_singleton' cs
  have hempty : (ofComponents true cs).toList = "".toList ++ '/' :: (Text.joinWith "/" cs).toList :=
    toList_ofComponents hne true
  cases absolute
  · have hne' : cs.isEmpty = false := by simpa using hne
    simpa [ofComponents, hne'] using hjoin
  · rw [components_append hempty, components_of_notMem (by decide), hjoin]
    rfl

theorem isAbsolute_ofComponents : isAbsolute (ofComponents absolute cs) = absolute := by
  by_cases hne : cs = []
  · subst hne
    cases absolute <;> decide
  · obtain ⟨c, cs, rfl⟩ := List.exists_cons_of_ne_nil hne
    rw [isAbsolute, toList_ofComponents hne]
    cases absolute
    · obtain ⟨hc, hslash⟩ := h c List.mem_cons_self
      obtain ⟨d, s, hds⟩ := List.exists_cons_of_ne_nil (mt String.toList_eq_nil_iff.mp hc)
      have hd : d ≠ '/' := by
        rintro rfl
        exact hslash (hds ▸ List.mem_cons_self)
      by_cases hcs : cs = []
      · subst hcs
        simp [joinWith_singleton, hds, hd]
      · simp [toList_joinWith_cons _ hcs, hds, hd]
    · simp

end

theorem foldl_push_ups {stack ups : List String} (hstack : ∀ c ∈ stack, c = "..")
    (hups : ∀ c ∈ ups, c = "..") : ups.foldl (push false) stack = ups.reverse ++ stack := by
  induction ups generalizing stack with
  | nil => rfl
  | cons c ups ih =>
    rw [List.forall_mem_cons] at hups
    obtain ⟨rfl, hups⟩ := hups
    have hpush : push false stack ".." = ".." :: stack := by
      rcases stack with _ | ⟨top, rest⟩
      · decide
      · obtain rfl := hstack top List.mem_cons_self
        rfl
    rw [List.foldl_cons, hpush, ih (List.forall_mem_cons.mpr ⟨rfl, hstack⟩) hups,
      List.reverse_cons, List.append_assoc]
    rfl

/-- **Cleaning a clean path changes nothing.** -/
theorem cleanComponents_ofComponents (h : Tidy absolute cs) :
    cleanComponents (ofComponents absolute cs) = cs := by
  by_cases hne : cs = []
  · subst hne
    cases absolute <;> decide
  rw [cleanComponents, isAbsolute_ofComponents h.ne_empty, components_ofComponents h.ne_empty hne]
  have hfold : cs.foldl (push absolute) [] = cs.reverse := by
    obtain ⟨ups, names, rfl, hups, hnames, habsolute⟩ := h
    have hfirst : ups.foldl (push absolute) [] = ups.reverse := by
      cases absolute
      · rw [foldl_push_ups (by simp) hups, List.append_nil]
      · rw [habsolute rfl]
        rfl
    rw [List.foldl_append, hfirst, foldl_push_names fun c hc => (hnames c hc).1,
      List.reverse_append]
  cases absolute
  · rw [if_neg (by decide), List.nil_append, hfold, List.reverse_reverse]
  · rw [if_pos rfl, List.singleton_append, List.foldl_cons, push_stay (.inl rfl), hfold,
      List.reverse_reverse]

theorem ofComponents_injective {cs' : List String} (h : Tidy absolute cs) (h' : Tidy absolute cs')
    (heq : ofComponents absolute cs = ofComponents absolute cs') : cs = cs' := by
  rw [← cleanComponents_ofComponents h, heq, cleanComponents_ofComponents h']

theorem clean_ofComponents (h : Tidy absolute cs) :
    clean (ofComponents absolute cs) = ofComponents absolute cs := by
  rw [clean, isAbsolute_ofComponents h.ne_empty, cleanComponents_ofComponents h]

theorem toList_ofComponents_ne_nil (h : Tidy absolute cs) :
    (ofComponents absolute cs).toList ≠ [] := by
  by_cases hne : cs = []
  · subst hne
    cases absolute <;> decide
  · obtain ⟨c, cs, rfl⟩ := List.exists_cons_of_ne_nil hne
    have hc := mt String.toList_eq_nil_iff.mp (h.ne_empty c List.mem_cons_self).1
    rw [toList_ofComponents hne]
    by_cases hcs : cs = []
    · subst hcs
      simp [joinWith_singleton, hc]
    · simp [toList_joinWith_cons _ hcs]

/-! ### Directories and base names -/

theorem takeWhile_reverse_append {a s : List Char} (hs : '/' ∉ s) :
    ((a ++ '/' :: s).reverse.takeWhile (· ≠ '/')) = s.reverse := by
  have hall : ∀ d ∈ s.reverse, decide (d ≠ '/') = true := by
    intro d hd
    simpa using fun heq : d = '/' => hs (heq ▸ List.mem_reverse.mp hd)
  rw [List.reverse_append, List.reverse_cons, List.append_assoc,
    List.takeWhile_append_of_pos hall]
  simp

theorem splitLast_append {a : List Char} (hp : p.toList = a ++ '/' :: c.toList)
    (hc : '/' ∉ c.toList) : splitLast p = (String.ofList (a ++ ['/']), c) := by
  have hlength : p.length - c.toList.length = (a ++ ['/']).length := by
    rw [← String.length_toList, hp]
    simp
    omega
  rw [splitLast, hp, takeWhile_reverse_append hc, List.reverse_reverse, String.ofList_toList,
    hlength, show a ++ '/' :: c.toList = a ++ ['/'] ++ c.toList by simp, List.take_left]

theorem splitLast_of_notMem (hc : '/' ∉ c.toList) : splitLast c = ("", c) := by
  have hall : ∀ d ∈ c.toList.reverse, decide (d ≠ '/') = true := by
    intro d hd
    simpa using fun heq : d = '/' => hc (heq ▸ List.mem_reverse.mp hd)
  have hwhole : (c.toList.reverse ++ []).takeWhile _ = _ := List.takeWhile_append_of_pos hall
  rw [List.takeWhile_nil, List.append_nil] at hwhole
  rw [splitLast, hwhole, List.reverse_reverse, String.ofList_toList, ← String.length_toList,
    Nat.sub_self, List.take_zero, String.ofList_nil]

/-- Before the last component stand the components before it. -/
theorem splitLast_ofComponents (h : Tidy absolute (cs ++ [c])) :
    ∃ front, splitLast (ofComponents absolute (cs ++ [c])) = (front, c) ∧
      clean front = ofComponents absolute cs := by
  have hc : '/' ∉ c.toList := (h.ne_empty c (List.mem_append_right _ List.mem_cons_self)).2
  by_cases hcs : cs = []
  · subst hcs
    cases absolute
    · have htext : ofComponents false ([] ++ [c]) = c := joinWith_singleton c
      exact ⟨"", by rw [htext, splitLast_of_notMem hc], by decide⟩
    · have htext : (ofComponents true ([] ++ [c])).toList = [] ++ '/' :: c.toList := by
        rw [toList_ofComponents (by simp)]
        simp [joinWith_singleton]
      exact ⟨_, splitLast_append htext hc, by decide⟩
  · refine ⟨_, splitLast_append (toList_ofComponents_concat hcs absolute c) hc, ?_⟩
    set front := String.ofList ((ofComponents absolute cs).toList ++ ['/']) with hfront
    have hfrontList : front.toList = (ofComponents absolute cs).toList ++ '/' :: "".toList := by
      simp [hfront]
    have hcomponents : components front = components (ofComponents absolute cs) ++ [""] := by
      rw [components_append hfrontList, components_of_notMem (c := "") (by decide)]
    have habsolute : isAbsolute front = absolute := by
      have hhead : isAbsolute (ofComponents absolute cs) = absolute :=
        isAbsolute_ofComponents h.of_append.ne_empty
      rw [isAbsolute] at hhead ⊢
      rw [hfrontList]
      obtain ⟨d, s, hds⟩ := List.exists_cons_of_ne_nil (toList_ofComponents_ne_nil h.of_append)
      rwa [hds] at hhead ⊢
    rw [clean, habsolute, cleanComponents, habsolute, hcomponents, List.foldl_append,
      List.foldl_cons, push_stay (.inl rfl), List.foldl_nil]
    have hsame := cleanComponents_ofComponents h.of_append
    rw [cleanComponents, isAbsolute_ofComponents h.of_append.ne_empty] at hsame
    rw [hsame]

/-- The directory of a path has the components but the last one. -/
theorem directory_ofComponents (h : Tidy absolute (cs ++ [c])) :
    directory (ofComponents absolute (cs ++ [c])) = ofComponents absolute cs := by
  obtain ⟨front, hfront, hclean⟩ := splitLast_ofComponents h
  rw [directory, hfront, hclean]

theorem dropWhile_reverse_append {a s : List Char} (hs : '/' ∉ s) (hne : s ≠ []) :
    (a ++ s).reverse.dropWhile (· = '/') = s.reverse ++ a.reverse := by
  obtain ⟨s, d, rfl⟩ := (List.eq_nil_or_concat' s).resolve_left hne
  have hd : d ≠ '/' := by
    rintro rfl
    exact hs (List.mem_append_right _ List.mem_cons_self)
  simp [hd]

/-- The base name of a path is its last component. -/
theorem base_ofComponents (h : Tidy absolute (cs ++ [c])) :
    base (ofComponents absolute (cs ++ [c])) = c := by
  obtain ⟨hempty, hc⟩ := h.ne_empty c (List.mem_append_right _ List.mem_cons_self)
  have hlast : ∃ a, (ofComponents absolute (cs ++ [c])).toList = a ++ c.toList := by
    by_cases hcs : cs = []
    · subst hcs
      exact ⟨_, by rw [toList_ofComponents (by simp), List.nil_append, joinWith_singleton]⟩
    · exact ⟨_, by rw [toList_ofComponents_concat hcs, List.append_cons]⟩
  obtain ⟨a, ha⟩ := hlast
  have hne : c.toList ≠ [] := mt String.toList_eq_nil_iff.mp hempty
  have hbody : ((ofComponents absolute (cs ++ [c])).toList.reverse.dropWhile (· = '/')).reverse =
      (ofComponents absolute (cs ++ [c])).toList := by
    rw [ha, dropWhile_reverse_append hc hne, ← List.reverse_append, List.reverse_reverse]
  have htext : ofComponents absolute (cs ++ [c]) ≠ "" :=
    mt String.toList_eq_nil_iff.mpr (toList_ofComponents_ne_nil h)
  obtain ⟨front, hfront, -⟩ := splitLast_ofComponents h
  rw [base, if_neg htext, hbody]
  dsimp only
  rw [if_neg (by simp [ha, hne]), String.ofList_toList, hfront]

/-- The parent of a path has the components but the last one, unless there are no others. -/
theorem parentText?_ofComponents (h : Tidy absolute (cs ++ [c])) :
    parentText? (ofComponents absolute (cs ++ [c])) =
      if cs = [] then none else some (ofComponents absolute cs) := by
  obtain ⟨hempty, hc⟩ := h.ne_empty c (List.mem_append_right _ List.mem_cons_self)
  have hne : c.toList ≠ [] := mt String.toList_eq_nil_iff.mp hempty
  have hname : ∀ a : List Char, (c.toList.reverse ++ a).dropWhile (· ≠ '/') =
      a.dropWhile (· ≠ '/') := by
    intro a
    refine List.dropWhile_append_of_pos fun d hd => ?_
    simpa using fun heq : d = '/' => hc (heq ▸ List.mem_reverse.mp hd)
  by_cases hcs : cs = []
  · subst hcs
    rw [if_pos rfl, parentText?, toList_ofComponents (by simp), List.nil_append,
      joinWith_singleton]
    rw [dropWhile_reverse_append hc hne, hname]
    cases absolute <;> rfl
  · rw [if_neg hcs, parentText?, toList_ofComponents_concat hcs, List.append_cons]
    rw [dropWhile_reverse_append hc hne, hname, List.reverse_append, List.reverse_singleton,
      List.singleton_append, List.dropWhile_cons_of_neg (by simp)]
    have hrest : (ofComponents absolute cs).toList.reverse.isEmpty = false := by
      simpa using toList_ofComponents_ne_nil h.of_append
    dsimp only
    rw [hrest, if_neg (by decide), List.reverse_reverse, String.ofList_toList]

/-! ### Joining -/

/-- What a join is cleaned from. -/
theorem join_eq_clean (hp : p ≠ "") (h : ∀ c ∈ parts, c ≠ "") :
    join (p :: parts) = clean (Text.joinWith "/" (p :: parts)) := by
  have hfilter : (p :: parts).filter (· ≠ "") = p :: parts :=
    List.filter_eq_self.mpr (List.forall_mem_cons.mpr ⟨by simpa using hp, by simpa using h⟩)
  rw [join, hfilter]

theorem isAbsolute_joinWith (hp : p ≠ "") (parts : List String) :
    isAbsolute (Text.joinWith "/" (p :: parts)) = isAbsolute p := by
  by_cases hparts : parts = []
  · rw [hparts, joinWith_singleton]
  · obtain ⟨d, s, hds⟩ := List.exists_cons_of_ne_nil (mt String.toList_eq_nil_iff.mp hp)
    rw [isAbsolute, isAbsolute, toList_joinWith_cons p hparts, hds]
    rfl

/-- **Names joined to a path** are put behind its components. -/
theorem join_names (hp : p ≠ "") (hnames : ∀ c ∈ names, IsName c ∧ '/' ∉ c.toList) :
    join (p :: names) = ofComponents (isAbsolute p) (cleanComponents p ++ names) := by
  have hcomponents : components (Text.joinWith "/" (p :: names)) = components p ++ names := by
    rw [components_joinWith (by simp), List.flatMap_cons]
    refine congrArg _ ((List.flatMap_congr fun c hc => components_of_notMem (hnames c hc).2).trans ?_)
    exact List.flatMap_singleton' names
  rw [join_eq_clean hp fun c hc => (hnames c hc).1.1, clean, isAbsolute_joinWith hp,
    cleanComponents_append hcomponents (isAbsolute_joinWith hp names) fun c hc => (hnames c hc).1]

theorem join_ofComponents (h : Tidy absolute cs)
    (hnames : ∀ c ∈ names, IsName c ∧ '/' ∉ c.toList) :
    join (ofComponents absolute cs :: names) = ofComponents absolute (cs ++ names) := by
  rw [join_names (mt String.toList_eq_nil_iff.mpr (toList_ofComponents_ne_nil h)) hnames,
    isAbsolute_ofComponents h.ne_empty, cleanComponents_ofComponents h]

/-- The names of a relative path in the middle of a join are put behind the components too. -/
theorem join_middle (hp : p ≠ "") (hcs : ∀ c ∈ cs, IsName c ∧ '/' ∉ c.toList)
    (hnames : ∀ c ∈ names, IsName c ∧ '/' ∉ c.toList) :
    join (p :: ofComponents false cs :: names) =
      ofComponents (isAbsolute p) (cleanComponents p ++ cs ++ names) := by
  have htidy : Tidy false cs := .of_names hcs
  have hmiddle : ofComponents false cs ≠ "" :=
    mt String.toList_eq_nil_iff.mpr (toList_ofComponents_ne_nil htidy)
  have hpush : ∀ stack : List String,
      (components (ofComponents false cs)).foldl (push (isAbsolute p)) stack =
        cs.reverse ++ stack := by
    intro stack
    by_cases hne : cs = []
    · subst hne
      rw [show components (ofComponents false []) = ["."] by decide, List.foldl_cons,
        push_stay (.inr rfl)]
      rfl
    · rw [components_ofComponents htidy.ne_empty hne, if_neg (by decide), List.nil_append,
        foldl_push_names fun c hc => (hcs c hc).1]
  rw [join_eq_clean hp (List.forall_mem_cons.mpr ⟨hmiddle, fun c hc => (hnames c hc).1.1⟩), clean,
    isAbsolute_joinWith hp, cleanComponents, isAbsolute_joinWith hp, components_joinWith (by simp),
    List.flatMap_cons, List.flatMap_cons,
    List.flatMap_congr fun c hc => components_of_notMem (hnames c hc).2, List.flatMap_singleton',
    List.foldl_append, List.foldl_append, hpush, foldl_push_names fun c hc => (hnames c hc).1,
    List.reverse_append, List.reverse_append, List.reverse_reverse, List.reverse_reverse,
    cleanComponents, List.append_assoc]

end WorstCase.Path
