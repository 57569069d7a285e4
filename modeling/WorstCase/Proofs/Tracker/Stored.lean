import WorstCase.Proofs.Data.Msgpack
import WorstCase.Proofs.Tracker.Remembered
import WorstCase.Tracker.Store

/-!
# Trackers survive being stored

A tracker changes by operations: entries are recorded, forgotten and dropped, and a stored tracker
takes the place of everything. What is stored may be anything; bytes that are no tracker of the
current version change nothing (`Tracker.Operation.perform`).

* A tracker is a map from inputs to entries. `Tracker.Operation.file` says what the operations do to
  such a map, whatever its keys are; each entry stays filed under its own input
  (`Tracker.Filed.file`), and a tracker is the map of its operations (`Tracker.find?_performAll`).
* Entries are in strict order after any operations (`Tracker.ordered_performAll`). So the bytes of a
  tracker depend on nothing but its entries.
* What a tracker holds has a place in the format, also when it was read from somewhere
  (`Tracker.Operation.carried_perform`), and is read back (`Tracker.Ordered.ofBytes_toBytes`).
-/

namespace WorstCase

open Msg

namespace TrackerEntry

/-- An entry that the format of stored trackers has room for. -/
structure Carried (e : TrackerEntry) : Prop where
  input : Carries e.input
  digest : Carries e.digest
  output : Carries e.output

theorem carried_empty : Carried {} := ⟨carries_empty, carries_empty, carries_empty⟩

variable {e e' : TrackerEntry}

theorem Carried.fits_packed (h : e.Carried) : Fits e.packed := by
  refine .map (by simp) ?_ ?_
  · simp only [List.forall_mem_cons, List.not_mem_nil, false_implies, implies_true, and_true]
    exact ⟨fits_ofText (by decide), fits_ofText (by decide), fits_ofText (by decide),
      fits_ofText (by decide)⟩
  · simp only [List.forall_mem_cons, List.not_mem_nil, false_implies, implies_true, and_true]
    exact ⟨fits_ofText h.input, fits_ofText h.digest, fits_ofText h.output, .int64 e.built⟩

theorem reread_packed (e : TrackerEntry) : reread e.packed = e.packed := by
  simp [packed]

/-- **An entry is read back.** -/
theorem Carried.overPacked (h : e.Carried) : TrackerEntry.overPacked {} e.packed = some e := by
  simp [TrackerEntry.overPacked, packed, overRecord, asText?_ofText (show Carries "input" by decide),
    asText?_ofText (show Carries "digest" by decide),
    asText?_ofText (show Carries "output" by decide),
    asText?_ofText (show Carries "built" by decide), putPacked, asText?_ofText h.input,
    asText?_ofText h.digest, asText?_ofText h.output, asInt?]

theorem Carried.putPacked {f : String × Msg} (he : e.Carried) (hf : Fits f.2)
    (h : e.putPacked f = some e') : e'.Carried := by
  unfold TrackerEntry.putPacked at h
  split at h
  · obtain ⟨s, hs, rfl⟩ := Option.map_eq_some_iff.mp h
    exact ⟨hf.carries hs, he.digest, he.output⟩
  · obtain ⟨s, hs, rfl⟩ := Option.map_eq_some_iff.mp h
    exact ⟨he.input, hf.carries hs, he.output⟩
  · obtain ⟨s, hs, rfl⟩ := Option.map_eq_some_iff.mp h
    exact ⟨he.input, he.digest, hf.carries hs⟩
  · obtain ⟨n, -, rfl⟩ := Option.map_eq_some_iff.mp h
    exact ⟨he.input, he.digest, he.output⟩
  · obtain rfl := Option.some_inj.mp h
    exact he

/-- What is read into an entry keeps to what the format has room for. -/
theorem Carried.of_overPacked {m : Msg} (he : e.Carried) (hm : Fits m)
    (h : TrackerEntry.overPacked e m = some e') : e'.Carried :=
  hm.overRecord_preserves carried_empty he Carried.putPacked h

end TrackerEntry

namespace Tracker

variable {t t' : Tracker}

/-! ### Reading what was stored -/

/-- The entries that bytes hold, in the order in which they are stored. -/
def storedEntries (bytes : List UInt8) : Except TrackerError (List TrackerEntry) :=
  match (decode? bytes).bind StoredTracker.ofPacked? with
  | none => .error .malformed
  | some s =>
    if s.version = version then .ok (s.entries.items.getD []) else .error (.version s.version)

theorem ofBytes_eq (bytes : List UInt8) : ofBytes bytes = (storedEntries bytes).map ofEntries := by
  rw [ofBytes, storedEntries]
  rcases (decode? bytes).bind StoredTracker.ofPacked? with _ | s
  · rfl
  · simp only
    split <;> rfl

theorem storedEntries_toBytes (h : ∀ e ∈ t.entries, e.Carried) (hsize : t.size < 2 ^ 32) :
    storedEntries t.toBytes = .ok t.entries := by
  have hentries : Fits (.array (t.entries.map TrackerEntry.packed)) := by
    refine .array (by simpa [size] using hsize) fun m hm => ?_
    obtain ⟨e, he, rfl⟩ := List.mem_map.mp hm
    exact (h e he).fits_packed
  have hfits : Fits (.map [(ofText "version", .int version.toInt),
      (ofText "entries", .array (t.entries.map TrackerEntry.packed))]) := by
    refine .map (by simp) ?_ ?_
    · simp only [List.forall_mem_cons, List.not_mem_nil, false_implies, implies_true, and_true]
      exact ⟨fits_ofText (by decide), fits_ofText (by decide)⟩
    · simp only [List.forall_mem_cons, List.not_mem_nil, false_implies, implies_true, and_true]
      exact ⟨.int (by decide) (by decide), hentries⟩
  have hdecode := hfits.decode?_encode []
  have hitems : rereadItems (t.entries.map TrackerEntry.packed) =
      t.entries.map TrackerEntry.packed := by
    rw [rereadItems_eq, List.map_map]
    exact List.map_congr_left fun e _ => TrackerEntry.reread_packed e
  have hversion : reread (.int version.toInt) = .int version.toInt := reread_int (by decide)
  rw [List.append_nil, reread_map, rereadEntries_cons, rereadEntries_cons, rereadEntries_nil,
    reread_array, hitems, hversion, reread_ofText, reread_ofText] at hdecode
  have hread : StoredTracker.ofPacked? (.map [(ofText "version", .int version.toInt),
      (ofText "entries", .array (t.entries.map TrackerEntry.packed))]) =
      some { version := version, entries := ⟨some t.entries, []⟩ } := by
    simp [StoredTracker.ofPacked?, overRecord, asText?_ofText (show Carries "version" by decide),
      asText?_ofText (show Carries "entries" by decide), StoredTracker.putPacked, asInt?, overShelf,
      Shelf.layOver, Shelf.places, lay_map fun e he => (h e he).overPacked, Shelf.put]
  rw [storedEntries, toBytes, hdecode, Option.bind_some, hread]
  rfl

/-- Recording entries that come in order puts them one after the other. -/
theorem foldl_record {done entries : List TrackerEntry}
    (h : (done ++ entries).Pairwise fun a b => a.input < b.input) :
    entries.foldl record { entries := done } = { entries := done ++ entries } := by
  induction entries generalizing done with
  | nil => rw [List.foldl_nil, List.append_nil]
  | cons e entries ih =>
    have hlast : ∀ done : List TrackerEntry, (∀ x ∈ done, x.input < e.input) →
        insertEntry e done = done ++ [e] := by
      intro done
      induction done with
      | nil => exact fun _ => rfl
      | cons x done ih =>
        intro hlt
        have hx := hlt x List.mem_cons_self
        rw [insertEntry, if_neg (ne_of_gt hx), if_neg (not_lt_of_gt hx),
          ih fun y hy => hlt y (List.mem_cons_of_mem _ hy), List.cons_append]
    have hdone : ∀ x ∈ done, x.input < e.input := fun x hx =>
      (List.pairwise_append.mp h).2.2 x hx e List.mem_cons_self
    rw [List.foldl_cons, record, hlast done hdone, ih (by simpa using h), List.append_assoc,
      List.singleton_append]

theorem Ordered.ofEntries_entries (h : t.Ordered) : ofEntries t.entries = t :=
  foldl_record h

/-- **A tracker is read back from its bytes.** -/
theorem Ordered.ofBytes_toBytes (h : t.Ordered) (hcarried : ∀ e ∈ t.entries, e.Carried)
    (hsize : t.size < 2 ^ 32) : ofBytes t.toBytes = .ok t := by
  rw [ofBytes_eq, storedEntries_toBytes hcarried hsize, Except.map, h.ofEntries_entries]

/-- What bytes hold keeps to what the format has room for. -/
theorem carried_of_storedEntries {bytes : List UInt8} {entries : List TrackerEntry}
    (h : storedEntries bytes = .ok entries) : ∀ e ∈ entries, e.Carried := by
  unfold storedEntries at h
  split at h
  · simp at h
  rename_i s hs
  split at h
  · obtain rfl := Except.ok.inj h
    obtain ⟨m, hm, hs⟩ := Option.bind_eq_some_iff.mp hs
    have hplaces : ∀ e ∈ s.entries.places, e.Carried := by
      refine (fits_of_decode? hm).overRecord_preserves
        (P := fun s : StoredTracker => ∀ e ∈ s.entries.places, e.Carried) ?_ ?_ ?_ hs
      · simp [Shelf.places]
      · simp [Shelf.places]
      · intro s s' f hs hf h
        unfold StoredTracker.putPacked at h
        split at h
        · obtain ⟨n, -, rfl⟩ := Option.map_eq_some_iff.mp h
          exact hs
        · obtain ⟨shelf, hshelf, rfl⟩ := Option.map_eq_some_iff.mp h
          exact hf.overShelf_preserves TrackerEntry.carried_empty hs
            TrackerEntry.Carried.of_overPacked hshelf
        · obtain rfl := Option.some_inj.mp h
          exact hs
    exact fun e he => hplaces e (List.mem_append_left _ he)
  · simp at h

/-! ### Operations -/

/-- What is done to a tracker. -/
inductive Operation where
  | record (e : TrackerEntry)
  | forget (input : String)
  | prune (keep : List String)
  /-- A tracker that is stored as these bytes takes the place of everything. -/
  | load (bytes : List UInt8)

/-- A tracker after an operation. Bytes that cannot be read change nothing. -/
def Operation.perform (t : Tracker) : Operation → Tracker
  | .record e => t.record e
  | .forget input => t.forget input
  | .prune keep => t.prune keep
  | .load bytes =>
    match ofBytes bytes with
    | .ok t' => t'
    | .error _ => t

/-- A tracker that remembers nothing after operations. -/
def performAll (ops : List Operation) : Tracker :=
  ops.foldl Operation.perform {}

/-- What holds at first and is kept by every operation holds after any operations. -/
theorem performAll_induction {P : Tracker → Prop} (hempty : P {}) {ops : List Operation}
    (hstep : ∀ t, ∀ op ∈ ops, P t → P (op.perform t)) : P (performAll ops) := by
  have hfold : ∀ (ops : List Operation) (t : Tracker), P t →
      (∀ t, ∀ op ∈ ops, P t → P (op.perform t)) → P (ops.foldl Operation.perform t) := by
    intro ops
    induction ops with
    | nil => exact fun t ht _ => ht
    | cons op ops ih =>
      intro t ht hstep
      exact ih _ (hstep t op List.mem_cons_self ht)
        fun t op hop => hstep t op (List.mem_cons_of_mem _ hop)
  exact hfold ops {} hempty hstep

theorem Ordered.perform (h : t.Ordered) (op : Operation) : (op.perform t).Ordered := by
  cases op with
  | record e => exact h.record e
  | forget input => exact h.forget input
  | prune keep => exact h.prune keep
  | load bytes =>
    rw [Operation.perform, ofBytes_eq]
    rcases storedEntries bytes with e | entries
    · exact h
    · exact ordered_ofEntries entries

theorem ordered_performAll (ops : List Operation) : (performAll ops).Ordered :=
  performAll_induction ordered_empty fun _ op _ h => h.perform op

/-- An operation that records nothing but what the format has room for. -/
def Operation.Carried : Operation → Prop
  | .record e => e.Carried
  | _ => True

theorem mem_record {e x : TrackerEntry} (h : x ∈ (t.record e).entries) :
    x = e ∨ x ∈ t.entries :=
  mem_insertEntry h

theorem carried_ofEntries {entries : List TrackerEntry} (h : ∀ e ∈ entries, e.Carried) :
    ∀ e ∈ (ofEntries entries).entries, e.Carried := by
  have hfold : ∀ (entries : List TrackerEntry) (t : Tracker), (∀ e ∈ entries, e.Carried) →
      (∀ e ∈ t.entries, e.Carried) → ∀ e ∈ (entries.foldl record t).entries, e.Carried := by
    intro entries
    induction entries with
    | nil => exact fun t _ ht => ht
    | cons e entries ih =>
      intro t h ht
      refine ih (t.record e) (fun x hx => h x (List.mem_cons_of_mem _ hx)) fun x hx => ?_
      rcases mem_record hx with rfl | hx
      · exact h _ List.mem_cons_self
      · exact ht x hx
  exact hfold entries {} h (by simp)

/-- **Operations keep to what the format has room for**, whatever is loaded. -/
theorem Operation.carried_perform {op : Operation} (hop : op.Carried)
    (h : ∀ e ∈ t.entries, e.Carried) : ∀ e ∈ (op.perform t).entries, e.Carried := by
  cases op with
  | record e =>
    intro x hx
    rcases mem_record hx with rfl | hx
    · exact hop
    · exact h x hx
  | forget input => exact fun x hx => h x (List.mem_of_mem_filter hx)
  | prune keep => exact fun x hx => h x (List.mem_of_mem_filter hx)
  | load bytes =>
    rw [perform, ofBytes_eq]
    rcases hstored : storedEntries bytes with e | entries
    · exact h
    · exact carried_ofEntries (carried_of_storedEntries hstored)

/-! ### Trackers as maps -/

/-- Entries filed under keys. -/
abbrev Filing := String → Option TrackerEntry

/-- Files an entry under its input. -/
def Filing.put (m : Filing) (e : TrackerEntry) : Filing :=
  Function.update m e.input (some e)

/-- Every entry is filed under its own input. -/
def Filed (m : Filing) : Prop :=
  ∀ k e, m k = some e → e.input = k

/-- Entries filed after an operation. -/
def Operation.file (m : Filing) : Operation → Filing
  | .record e => m.put e
  | .forget input => Function.update m input none
  | .prune keep => fun k => if k ∈ keep then m k else none
  | .load bytes =>
    match storedEntries bytes with
    | .ok entries => entries.foldl Filing.put fun _ => none
    | .error _ => m

/-- Entries filed after operations. -/
def fileAll (ops : List Operation) : Filing :=
  ops.foldl Operation.file fun _ => none

theorem Filed.put {m : Filing} (h : Filed m) (e : TrackerEntry) : Filed (m.put e) := by
  intro k x hx
  rw [Filing.put] at hx
  by_cases hk : k = e.input
  · subst hk
    rw [Function.update_self] at hx
    exact congrArg TrackerEntry.input (Option.some_inj.mp hx).symm
  · rw [Function.update_of_ne hk] at hx
    exact h k x hx

theorem filed_none : Filed fun _ => none := fun _ _ h => absurd h (by simp)

/-- **Each operation files every entry under its own input.** -/
theorem Filed.file {m : Filing} (h : Filed m) (op : Operation) : Filed (op.file m) := by
  cases op with
  | record e => exact h.put e
  | forget input =>
    intro k x hx
    by_cases hk : k = input
    · subst hk
      simp [Operation.file] at hx
    · rw [Operation.file, Function.update_of_ne hk] at hx
      exact h k x hx
  | prune keep =>
    intro k x hx
    simp only [Operation.file] at hx
    split at hx
    · exact h k x hx
    · simp at hx
  | load bytes =>
    rw [Operation.file]
    rcases storedEntries bytes with e | entries
    · exact h
    · have hfold : ∀ (entries : List TrackerEntry) (m : Filing), Filed m →
          Filed (entries.foldl Filing.put m) := by
        intro entries
        induction entries with
        | nil => exact fun m hm => hm
        | cons e entries ih => exact fun m hm => ih _ (hm.put e)
      exact hfold entries _ filed_none

theorem filed_fileAll (ops : List Operation) : Filed (fileAll ops) := by
  have hfold : ∀ (ops : List Operation) (m : Filing), Filed m →
      Filed (ops.foldl Operation.file m) := by
    intro ops
    induction ops with
    | nil => exact fun m hm => hm
    | cons op ops ih => exact fun m hm => ih _ (hm.file op)
  exact hfold ops _ filed_none

theorem find?_record_eq_put (t : Tracker) (e : TrackerEntry) :
    (t.record e).find? = Filing.put t.find? e := by
  funext k
  rw [find?_record, Filing.put, Function.update_apply]

theorem find?_ofEntries (entries : List TrackerEntry) :
    (ofEntries entries).find? = entries.foldl Filing.put fun _ => none := by
  have hfold : ∀ (entries : List TrackerEntry) (t : Tracker),
      (entries.foldl record t).find? = entries.foldl Filing.put t.find? := by
    intro entries
    induction entries with
    | nil => exact fun t => rfl
    | cons e entries ih =>
      intro t
      rw [List.foldl_cons, ih, find?_record_eq_put, List.foldl_cons]
  exact hfold entries {}

/-- A tracker after an operation is the map after it. -/
theorem find?_perform (t : Tracker) (op : Operation) :
    (op.perform t).find? = op.file t.find? := by
  cases op with
  | record e => exact find?_record_eq_put t e
  | forget input =>
    funext k
    rw [Operation.perform, find?_forget, Operation.file, Function.update_apply]
  | prune keep =>
    funext k
    rw [Operation.perform, find?_prune, Operation.file]
  | load bytes =>
    rw [Operation.perform, Operation.file, ofBytes_eq]
    rcases storedEntries bytes with e | entries
    · rfl
    · exact find?_ofEntries entries

theorem find?_performAll (ops : List Operation) : (performAll ops).find? = fileAll ops := by
  have hfold : ∀ (ops : List Operation) (t : Tracker),
      (ops.foldl Operation.perform t).find? = ops.foldl Operation.file t.find? := by
    intro ops
    induction ops with
    | nil => exact fun t => rfl
    | cons op ops ih =>
      intro t
      rw [List.foldl_cons, ih, find?_perform, List.foldl_cons]
  exact hfold ops {}

/-! ### Persistence -/

/-- **Trackers survive being stored.** After any operations, loads of arbitrary bytes among them:
a tracker is the map that files every entry under its own input; loading its bytes makes any other
tracker equal to it, unless it has more entries than the format can count; its bytes are those of
every other tracker with the same entries, whatever led to it; and bytes that cannot be read leave
it as it is. -/
theorem performAll_persists (ops : List Operation) :
    ((performAll ops).find? = fileAll ops ∧ ∀ k e, fileAll ops k = some e →
      e.input = k ∧ e ∈ (performAll ops).entries) ∧
    ((∀ op ∈ ops, op.Carried) → (performAll ops).size < 2 ^ 32 →
      ∀ t : Tracker, (Operation.load (performAll ops).toBytes).perform t = performAll ops) ∧
    (∀ ops', (∀ e, e ∈ (performAll ops').entries ↔ e ∈ (performAll ops).entries) →
      (performAll ops').toBytes = (performAll ops).toBytes) ∧
    ∀ bytes error, ofBytes bytes = .error error →
      (Operation.load bytes).perform (performAll ops) = performAll ops := by
  have hordered := ordered_performAll ops
  have hfind := find?_performAll ops
  refine ⟨⟨hfind, fun k e he => ⟨filed_fileAll ops k e he, ?_⟩⟩, fun hops hsize t => ?_,
    fun ops' hmem => ?_, fun bytes error herror => ?_⟩
  · exact mem_of_find? (by rw [hfind, he])
  · have hcarried : ∀ e ∈ (performAll ops).entries, e.Carried :=
      performAll_induction (P := fun t => ∀ e ∈ t.entries, e.Carried) (by simp)
        fun t op hop h => Operation.carried_perform (hops op hop) h
    rw [Operation.perform, hordered.ofBytes_toBytes hcarried hsize]
  · have heq : performAll ops' = performAll ops := by
      refine (ordered_performAll ops').ext hordered fun k => Option.ext fun e => ?_
      rw [(ordered_performAll ops').find?_eq_some_iff, hordered.find?_eq_some_iff, hmem]
    rw [heq]
  · rw [Operation.perform, herror]

/-- Two inputs that come out of order, one of them recorded twice, and bytes that are no tracker. -/
def fewOperations : List Operation :=
  [ .record { input := "/b.wcet", digest := "e1", output := "/b.smt2", built := -7 },
    .load [0xC1],
    .record { input := "/a.wcet", digest := "f0", output := "/a.smt2", built := 1700000000 },
    .record { input := "/b.wcet", digest := "e2", output := "/b.smt2", built := 1700000001 } ]

theorem performAll_persists_fewOperations :
    (performAll fewOperations).inputs = ["/a.wcet", "/b.wcet"] ∧
      (Operation.load (performAll fewOperations).toBytes).perform {} = performAll fewOperations := by
  have hops : ∀ op ∈ fewOperations, op.Carried := by
    simp only [fewOperations, List.forall_mem_cons, List.not_mem_nil, false_implies, implies_true,
      and_true]
    exact ⟨⟨by decide, by decide, by decide⟩, trivial, ⟨by decide, by decide, by decide⟩,
      by decide, by decide, by decide⟩
  exact ⟨by decide, (performAll_persists fewOperations).2.1 hops (by decide) {}⟩

end Tracker

end WorstCase
