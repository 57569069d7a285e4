import WorstCase.Proofs.Ascending
import WorstCase.Proofs.Health.Toolkit
import Mathlib.Data.Set.Card

/-!
# What is seen in a mirror

In the mirror of a valid graph, the searches of a lawful toolkit show the graph itself:

* a walk from the start visits what the start reaches, and a walk backward from the end visits what
  reaches the end (`Health.mem_walk_forward_iff`, `Health.mem_walk_backward_iff`);
* no block is its own successor and nothing stops a sort iff there is no loop
  (`Health.selfLoops_sort_iff`);
* **climbing a dominator tree** from a reachable block meets exactly the blocks that strictly
  dominate it (`Health.climbs_iff`). The climb ends because every step leaves a strict dominator
  behind.

Mirrors are made as the contract asks (`Health.shows_ofGraph`): blocks are added once, since uids do
not repeat, and edges are set once and only between different blocks.
-/

namespace WorstCase.Health

open WorstCase.Graph

variable {t : Toolkit} {g : Graph} {a b x : Int}

/-! ### Mirrors are properly made -/

/-- The edges between different blocks. -/
def properIds (ids : List EdgeId) : List EdgeId :=
  ids.filter fun id => id.src ≠ id.dst

/-- An edge that is turned around. -/
def flip (id : EdgeId) : EdgeId := ⟨id.dst, id.src⟩

theorem flip_injective : Function.Injective flip := by
  rintro ⟨a, b⟩ ⟨c, d⟩ h
  obtain ⟨rfl, rfl⟩ := EdgeId.mk.inj h
  rfl

/-- A mirror that was properly made of blocks and edges. -/
structure Mirror.Shows (m : Mirror t) (uids : List Int) (ids : List EdgeId) : Prop where
  forward : t.Holds m.forward uids (properIds ids)
  backward : t.Holds m.backward uids ((properIds ids).map flip)
  selfLoops_eq : m.selfLoops = (ids.filter fun id => id.src = id.dst).map (·.src)

namespace Mirror.Shows

variable {m : Mirror t} {uids : List Int} {ids : List EdgeId}

theorem addBlock {uid : Int} (h : m.Shows uids []) (hnew : uid ∉ uids) :
    (m.addBlock uid).Shows (uids ++ [uid]) [] where
  forward := h.forward.addNode hnew
  backward := h.backward.addNode hnew
  selfLoops_eq := h.selfLoops_eq

theorem addEdge {id : EdgeId} (h : m.Shows uids ids) (hsrc : id.src ∈ uids) (hdst : id.dst ∈ uids)
    (hnew : id ∉ ids) : (m.addEdge id).Shows uids (ids ++ [id]) := by
  rw [Mirror.addEdge]
  split_ifs with heq
  · -- kept apart
    have hproper : properIds (ids ++ [id]) = properIds ids := by
      simp [properIds, heq]
    refine ⟨hproper ▸ h.forward, hproper ▸ h.backward, ?_⟩
    simp [h.selfLoops_eq, heq]
  · have hproper : properIds (ids ++ [id]) = properIds ids ++ [id] := by
      simp [properIds, heq]
    have hid : id ∉ properIds ids := fun hmem => hnew (List.mem_of_mem_filter hmem)
    refine ⟨?_, ?_, ?_⟩
    · rw [hproper]
      exact h.forward.setEdge hsrc hdst heq hid
    · rw [hproper, List.map_append]
      refine h.backward.setEdge hdst hsrc (Ne.symm heq) fun hmem => hid ?_
      exact (List.mem_map_of_injective flip_injective).mp hmem
    · simp [h.selfLoops_eq, heq]

theorem foldl_addBlock {new : List Int} (h : m.Shows uids []) (hnd : (uids ++ new).Nodup) :
    (new.foldl Mirror.addBlock m).Shows (uids ++ new) [] := by
  induction new generalizing m uids with
  | nil => simpa using h
  | cons uid new ih =>
    have hnew : uid ∉ uids := fun hmem =>
      (List.nodup_append.mp hnd).2.2 uid hmem uid List.mem_cons_self rfl
    rw [List.append_cons] at hnd ⊢
    exact ih (h.addBlock hnew) hnd

theorem foldl_addEdge {new : List EdgeId} (h : m.Shows uids ids) (hnd : (ids ++ new).Nodup)
    (hends : ∀ id ∈ new, id.src ∈ uids ∧ id.dst ∈ uids) :
    (new.foldl Mirror.addEdge m).Shows uids (ids ++ new) := by
  induction new generalizing m ids with
  | nil => simpa using h
  | cons id new ih =>
    have hnew : id ∉ ids := fun hmem =>
      (List.nodup_append.mp hnd).2.2 id hmem id List.mem_cons_self rfl
    obtain ⟨⟨hsrc, hdst⟩, hrest⟩ := List.forall_mem_cons.mp hends
    rw [List.append_cons] at hnd ⊢
    exact ih (h.addEdge hsrc hdst hnew) hnd hrest

end Mirror.Shows

theorem mem_edgeIds : (⟨a, b⟩ : EdgeId) ∈ g.edgeIds ↔ g.Arc a b :=
  (sortBy_perm _ _).mem_iff

/-- **Mirrors are made as the contract asks**, of all blocks and edges of a graph. -/
theorem shows_ofGraph (hg : g.Valid) : (Mirror.ofGraph t g).Shows g.uids g.edgeIds := by
  have hempty : ({} : Mirror t).Shows [] [] := ⟨.empty, .empty, rfl⟩
  have huids : g.uids.Nodup := (sortBy_perm _ _).nodup_iff.mpr hg.uids_nodup
  have hids : g.edgeIds.Nodup := (sortBy_perm _ _).nodup_iff.mpr hg.ids_nodup
  refine (hempty.foldl_addBlock huids).foldl_addEdge hids fun id hid => ?_
  obtain ⟨hsrc, hdst⟩ := hg.arc_known (mem_edgeIds.mp hid)
  exact ⟨mem_uids.mpr hsrc, mem_uids.mpr hdst⟩

/-! ### Walks -/

/-- The forward mirror has the ways of the graph. -/
theorem sameWays_properIds (g : Graph) : SameWays g (bare g.start (properIds g.edgeIds)) where
  start := rfl
  arc hab := by
    rw [arc_bare] at hab
    exact mem_edgeIds.mp (List.mem_of_mem_filter hab)
  arc_of_ne hab hne := by
    rw [arc_bare, properIds, List.mem_filter, mem_edgeIds]
    exact ⟨hab, by simpa using hne⟩

/-- The backward mirror has them the other way round. -/
theorem reaches_bare_map_flip {root root' : Int} {ids : List EdgeId} :
    (bare root (ids.map flip)).Reaches a b ↔ (bare root' ids).Reaches b a := by
  have harc : (bare root (ids.map flip)).Arc = Function.swap (bare root' ids).Arc := by
    funext a b
    change (bare root (ids.map flip)).Arc a b = (bare root' ids).Arc b a
    rw [arc_bare, arc_bare]
    exact propext (List.mem_map_of_injective flip_injective (a := ⟨b, a⟩))
  rw [Reaches, harc]
  exact Relation.reflTransGen_swap

section Lawful

variable (ht : t.Lawful) (hg : g.Valid)
include ht hg

/-- **A walk from the start** visits what can be reached from it. -/
theorem mem_walk_forward_iff (hstart : g.start ∈ g.blocks.map (·.uid)) :
    x ∈ t.walk (Mirror.ofGraph t g).forward g.start ↔ g.Reaches g.start x :=
  (ht.mem_walk_iff (shows_ofGraph hg).forward (mem_uids.mpr hstart)).trans
    (sameWays_properIds g).reaches_iff

/-- **A walk backward from the end** visits what reaches it. -/
theorem mem_walk_backward_iff (hstop : g.stop ∈ g.blocks.map (·.uid)) :
    x ∈ t.walk (Mirror.ofGraph t g).backward g.stop ↔ g.Reaches x g.stop := by
  rw [ht.mem_walk_iff (shows_ofGraph hg).backward (mem_uids.mpr hstop), reaches_bare_map_flip]
  exact (sameWays_properIds g).reaches_iff

/-! ### Loops -/

/-- What stops a sort are cyclic components, and then there is a loop. -/
theorem exists_unorderable {e : SortError}
    (h : t.sortError? (Mirror.ofGraph t g).forward = some e) :
    (∃ components, e = .unorderable components) ∧ ∃ x, g.OnLoop x := by
  obtain ⟨components, rfl, hne, hcycle⟩ := ht.sort_eq_some (shows_ofGraph hg).forward h
  obtain ⟨c, hc⟩ := List.exists_mem_of_ne_nil components hne
  obtain ⟨hcne, hreach⟩ := hcycle c hc
  obtain ⟨x, hx⟩ := List.exists_mem_of_ne_nil c hcne
  exact ⟨⟨components, rfl⟩, x, (hreach x hx x hx).lift id fun _ _ => (sameWays_properIds g).arc⟩

/-- **There is no loop** iff no block is its own successor and nothing stops a sort. -/
theorem selfLoops_sort_iff :
    (Mirror.ofGraph t g).selfLoops = [] ∧ t.sortError? (Mirror.ofGraph t g).forward = none ↔
      ∀ x, ¬ g.OnLoop x := by
  have hshows := shows_ofGraph (t := t) hg
  have hself : (Mirror.ofGraph t g).selfLoops = [] ↔ ∀ x, ¬ g.Arc x x := by
    rw [hshows.selfLoops_eq, List.map_eq_nil_iff, List.filter_eq_nil_iff]
    constructor
    · exact fun h x hx => h ⟨x, x⟩ (mem_edgeIds.mpr hx) (by simp)
    · rintro h ⟨a, b⟩ hab heq
      obtain rfl : a = b := by simpa using heq
      exact h a (mem_edgeIds.mp hab)
  rw [hself]
  constructor
  · rintro ⟨hnone, hsort⟩ x hx
    -- along a loop the places in the order would grow
    obtain ⟨place, hplace⟩ := ht.sort_eq_none hshows.forward hsort
    rcases (sameWays_properIds g).exists_onLoop_iff.mp ⟨x, hx⟩ with ⟨y, hy⟩ | ⟨y, hy⟩
    · exact hnone y hy
    · have hlt : Relation.TransGen (· < ·) (place y) (place y) :=
        hy.lift place fun a b hab => hplace ⟨a, b⟩ (arc_bare.mp hab)
      exact lt_irrefl _ (Relation.transGen_eq_self (r := (· < · : Nat → Nat → Prop)) ▸ hlt)
  · intro hnone
    refine ⟨fun x hx => hnone x (.single hx), Option.eq_none_iff_forall_ne_some.mpr fun e he => ?_⟩
    obtain ⟨-, x, hx⟩ := exists_unorderable ht hg he
    exact hnone x hx

/-! ### Dominator trees -/

variable (hstart : g.start ∈ g.blocks.map (·.uid))
include hstart

/-- A reachable block stands below its immediate dominator. -/
theorem exists_dominatorOf (hx : g.Reaches g.start x) (hne : x ≠ g.start) :
    ∃ i, t.dominatorOf? (t.dominators g.start (Mirror.ofGraph t g).forward) x = some i ∧
      g.ImmediatelyDominates i x := by
  have hways := sameWays_properIds g
  obtain ⟨i, hi, himm⟩ := ht.exists_dominatorOf (shows_ofGraph hg).forward (mem_uids.mpr hstart)
    (hways.reaches_iff.mpr hx) hne
  exact ⟨i, hi, hways.immediatelyDominates_iff.mp himm⟩

omit ht in
/-- Strict dominators of a reachable block are blocks. -/
theorem strictlyDominates_subset (hx : g.Reaches g.start x) :
    {a | g.StrictlyDominates a x} ⊆ ((g.blocks.map (·.uid)).toFinset : Set Int) := fun _ ha =>
  List.mem_toFinset.mpr (hg.known_of_reaches hstart (ha.2.reaches hx).1)

/-- A climb meets exactly the strict dominators of a reachable block, if its bound exceeds their
number: an immediate dominator has one strict dominator less. -/
theorem climbs_iff_of_lt {bound : Nat} (hx : g.Reaches g.start x)
    (hbound : {a | g.StrictlyDominates a x}.ncard < bound) :
    climbs (t.dominators g.start (Mirror.ofGraph t g).forward) a bound x = true ↔
      g.StrictlyDominates a x := by
  induction bound generalizing x with
  | zero => exact absurd hbound (Nat.not_lt_zero _)
  | succ bound ih =>
    by_cases hne : x = g.start
    · subst hne
      have hroot := ht.dominatorOf_root (shows_ofGraph hg).forward (mem_uids.mpr hstart)
      simp [climbs, hroot, not_strictlyDominates_start]
    · obtain ⟨i, hi, himm⟩ := exists_dominatorOf ht hg hstart hx hne
      have hreach : g.Reaches g.start i := (himm.1.2.reaches hx).1
      have hsub : {a | g.StrictlyDominates a i} ⊂ {a | g.StrictlyDominates a x} :=
        (Set.ssubset_iff_of_subset fun _ ha => (himm.strictlyDominates_iff hx).mpr (.inr ha)).mpr
          ⟨i, himm.1, fun h => h.1 rfl⟩
      have hlt := Set.ncard_lt_ncard hsub
        ((Finset.finite_toSet _).subset (strictlyDominates_subset hg hstart hx))
      rw [climbs, hi, himm.strictlyDominates_iff hx]
      simp only [Bool.or_eq_true, decide_eq_true_eq, ih hreach (by omega), eq_comm (a := i)]

/-- **Climbing a dominator tree** finds out whether a block strictly dominates a reachable one. -/
theorem climbs_iff (hx : g.Reaches g.start x) :
    climbs (t.dominators g.start (Mirror.ofGraph t g).forward) a (g.blocks.length + 1) x = true ↔
      g.StrictlyDominates a x := by
  refine climbs_iff_of_lt ht hg hstart hx (Nat.lt_succ_of_le ?_)
  calc {a | g.StrictlyDominates a x}.ncard
      ≤ ((g.blocks.map (·.uid)).toFinset : Set Int).ncard :=
        Set.ncard_le_ncard (strictlyDominates_subset hg hstart hx) (Finset.finite_toSet _)
    _ = (g.blocks.map (·.uid)).toFinset.card := Set.ncard_coe_finset _
    _ ≤ (g.blocks.map (·.uid)).length := List.toFinset_card_le _
    _ = g.blocks.length := List.length_map _

end Lawful

end WorstCase.Health
