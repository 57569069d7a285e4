import WorstCase.Proofs.Text.Pieces
import WorstCase.Text.Lines

/-!
# The lines that a reader sees

The rows of a text are what stands between its line feeds; a line feed at the end ends the last row
and starts no other. A line reader returns the rows in order, each without one carriage return at
its end, as long as there is room for them, and it stops at the first one that is too long
(`Text.Lines.read_eq`).
-/

namespace WorstCase.Text

/-- The **rows** of a text: its pieces between line feeds, but for an empty piece at the end. -/
def rows (s : List Char) : List (List Char) :=
  if (pieces ['\n'] s).getLast? = some [] then (pieces ['\n'] s).dropLast else pieces ['\n'] s

/-- A row without the carriage return at its end. -/
def content (row : List Char) : List Char :=
  dropSuffix ['\r'] row

variable {x : List Char}

@[simp]
theorem rows_nil : rows [] = [] := rfl

/-- The last row needs no line feed. -/
theorem rows_of_notMem (hx : '\n' ∉ x) (hne : x ≠ []) : rows x = [x] := by
  have hpieces : pieces ['\n'] x = [x] :=
    pieces_eq_singleton (by rwa [List.singleton_infix_iff])
  rw [rows, hpieces, if_neg (by simpa using hne)]

/-- A line feed ends a row. -/
theorem rows_append_cons (hx : '\n' ∉ x) (s : List Char) : rows (x ++ '\n' :: s) = x :: rows s := by
  have hne : ['\n'] ≠ [] := List.cons_ne_nil _ _
  have hpieces : pieces ['\n'] (x ++ '\n' :: s) = x :: pieces ['\n'] s := by
    rw [pieces_eq hne, cut?_append_cons_self hx]
  obtain ⟨p, ps, hs⟩ : ∃ p ps, pieces ['\n'] s = p :: ps := by
    rw [pieces_eq hne]
    split <;> exact ⟨_, _, rfl⟩
  rw [rows, rows, hpieces, hs, List.getLast?_cons_cons, List.dropLast_cons_cons]
  split <;> rfl

/-- Lines that are ended one by one are the first rows. -/
theorem rows_flatMap {lines : List (List Char)} (h : ∀ l ∈ lines, '\n' ∉ l) (s : List Char) :
    rows (lines.flatMap (· ++ ['\n']) ++ s) = lines ++ rows s := by
  induction lines with
  | nil => rfl
  | cons l lines ih =>
    rw [List.forall_mem_cons] at h
    rw [List.flatMap_cons, List.append_assoc, List.append_assoc, List.singleton_append,
      rows_append_cons h.1, ih h.2]
    rfl

namespace Lines

theorem dropReturn_eq (reversed : List Char) : dropReturn reversed = content reversed.reverse := by
  unfold dropReturn
  split
  · rw [List.reverse_cons, content, dropSuffix_append]
  · rename_i hnone
    refine (dropSuffix_of_not_suffix fun hsuffix => ?_).symm
    obtain ⟨rest, hrest⟩ := List.reverse_prefix.mpr hsuffix
    rw [List.reverse_reverse] at hrest
    exact hnone _ hrest.symm

theorem readFrom_eq {line : List Char} (hline : '\n' ∉ line) (s : List Char) :
    readFrom line.length line s =
      { lines := ((rows (line.reverse ++ s)).takeWhile (·.length < room)).map content
        tooLong := (rows (line.reverse ++ s)).any (room ≤ ·.length) } := by
  induction s generalizing line with
  | nil =>
    have hrev : '\n' ∉ line.reverse := mt List.mem_reverse.mp hline
    rw [readFrom, List.append_nil]
    split_ifs with hempty hroom
    · obtain rfl := List.isEmpty_iff.mp hempty
      rfl
    · rw [rows_of_notMem hrev (by simpa using hempty)]
      simp [hroom]
    · rw [rows_of_notMem hrev (by simpa using hempty), dropReturn_eq]
      simp [hroom, Nat.not_le.mp hroom]
  | cons c s ih =>
    have hrev : '\n' ∉ line.reverse := mt List.mem_reverse.mp hline
    rw [readFrom]
    split_ifs with hc hroom
    · subst hc
      rw [rows_append_cons hrev]
      simp [hroom]
    · subst hc
      have hrest := ih List.not_mem_nil
      rw [List.length_nil, List.reverse_nil, List.nil_append] at hrest
      rw [rows_append_cons hrev, hrest, dropReturn_eq]
      simp [hroom, Nat.not_le.mp hroom]
    · have hcons : '\n' ∉ c :: line := List.not_mem_cons_of_ne_of_not_mem (Ne.symm hc) hline
      have hrest := ih hcons
      rwa [List.reverse_cons, List.append_assoc, List.singleton_append] at hrest

/-- **What a line reader returns.** -/
theorem read_eq (s : List Char) :
    read s =
      { lines := ((rows s).takeWhile (·.length < room)).map content
        tooLong := (rows s).any (room ≤ ·.length) } :=
  readFrom_eq List.not_mem_nil s

variable {s : List Char}

/-- A reader that has room for every row returns them all. -/
theorem read_of_short (h : ∀ row ∈ rows s, row.length < room) :
    read s = { lines := (rows s).map content, tooLong := false } := by
  have hall : ∀ row ∈ rows s, decide (row.length < room) = true := fun row hrow =>
    decide_eq_true (h row hrow)
  have hnone : (rows s).any (room ≤ ·.length) = false := by
    simpa [List.any_eq_false] using h
  rw [read_eq, List.takeWhile_eq_self_iff.mpr hall, hnone]

/-- Every line that is returned is a row, with rows before it that there is room for. -/
theorem exists_row {before rest : List (List Char)} {line : List Char}
    (h : (read s).lines = before ++ line :: rest) :
    ∃ above row below, rows s = above ++ row :: below ∧ (∀ r ∈ above, r.length < room) ∧
      row.length < room ∧ above.map content = before ∧ content row = line := by
  rw [read_eq, List.map_eq_append_iff] at h
  obtain ⟨above, others, htake, rfl, hothers⟩ := h
  obtain ⟨row, below, rfl, rfl, -⟩ := List.map_eq_cons_iff.mp hothers
  have hshort : ∀ r ∈ above ++ row :: below, r.length < room := fun r hr => by
    rw [← htake] at hr
    simpa using List.mem_takeWhile_imp hr
  refine ⟨above, row, below ++ (rows s).dropWhile (·.length < room), ?_,
    fun r hr => hshort r (List.mem_append_left _ hr), hshort row (by simp), rfl, rfl⟩
  rw [← List.cons_append, ← List.append_assoc, ← htake, List.takeWhile_append_dropWhile]

/-- A reader that stops early stops at a row that is too long. -/
theorem exists_long_row (h : (read s).tooLong = true) :
    ∃ above row below, rows s = above ++ row :: below ∧ (∀ r ∈ above, r.length < room) ∧
      room ≤ row.length ∧ above.map content = (read s).lines := by
  rw [read_eq] at h ⊢
  obtain ⟨row, hrow⟩ := Option.isSome_iff_exists.mp
    (List.find?_isSome.mpr (List.any_eq_true.mp h))
  obtain ⟨hlong, above, below, hrows, habove⟩ := List.find?_eq_some_iff_append.mp hrow
  have hshort : ∀ r ∈ above, r.length < room := fun r hr => by simpa using habove r hr
  have htake : (rows s).takeWhile (·.length < room) = above := by
    rw [hrows, List.takeWhile_append_of_pos fun r hr => decide_eq_true (hshort r hr),
      List.takeWhile_cons_of_neg (by simpa using hlong), List.append_nil]
  exact ⟨above, row, below, hrows, hshort, by simpa using hlong, by rw [htake]⟩

end Lines

end WorstCase.Text
