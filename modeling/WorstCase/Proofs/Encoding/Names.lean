import WorstCase.Encoding.Emit
import WorstCase.Proofs.Graph.Current
import WorstCase.Proofs.Text.Decimal
import Mathlib.Data.List.Nodup

/-!
# Generated names

The variables of a problem are the selectors of the blocks, which the graph gives, and **generated
names**: `t_s_d` for taking an edge, `cu` and `c_s_d` for the costs of blocks and edges, `cost` for
the objective and `cut_h_t` for the cost of a cut.

Integers are written with digits and a minus sign, so a generated name tells what it was generated
for: the names that a graph generates are pairwise different (`Graph.generatedNames_nodup`). They
contain no space, so a printed term that begins with one also tells which.
-/

namespace WorstCase

/-! ### Pairs of integers -/

theorem toList_pairText (a b : Int) :
    (pairText a b).toList = Decimal.chars a ++ '_' :: Decimal.chars b := by
  simp [pairText]

theorem underscore_notMem_chars (n : Int) : '_' ∉ Decimal.chars n := fun h => by
  simpa using Decimal.mem_chars h

theorem pairText_injective {a b a' b' : Int} (h : pairText a b = pairText a' b') :
    a = a' ∧ b = b' := by
  have hlist := congrArg String.toList h
  rw [toList_pairText, toList_pairText, List.append_cons_inj_of_notMem
    (underscore_notMem_chars a) (underscore_notMem_chars b)] at hlist
  exact ⟨Decimal.chars_injective hlist.1, Decimal.chars_injective hlist.2.2⟩

/-! ### The shapes of generated names -/

theorem Block.toList_costName (b : Block) : b.costName.toList = 'c' :: Decimal.chars b.uid := by
  simp [Block.costName]

theorem Edge.toList_costName (e : Edge) :
    e.costName.toList = 'c' :: '_' :: (pairText e.id.src e.id.dst).toList := by
  simp [Edge.costName, EdgeId.text]

theorem Edge.toList_selector (e : Edge) :
    e.selector.toList = 't' :: '_' :: (pairText e.id.src e.id.dst).toList := by
  simp [Edge.selector, EdgeId.text]

theorem Cut.toList_costName (c : Cut) :
    c.costName.toList = 'c' :: 'u' :: 't' :: '_' :: (pairText c.id.head c.id.tail).toList := by
  simp [Cut.costName, CutId.text]

theorem toList_objectiveName : Encoding.objectiveName.toList = ['c', 'o', 's', 't'] := by
  decide

theorem EdgeId.text_injective {i j : EdgeId} (h : i.text = j.text) : i = j := by
  obtain ⟨hsrc, hdst⟩ := pairText_injective h
  cases i
  cases j
  simp_all

theorem CutId.text_injective {i j : CutId} (h : i.text = j.text) : i = j := by
  obtain ⟨hhead, htail⟩ := pairText_injective h
  cases i
  cases j
  simp_all

theorem Block.uid_eq_of_costName {b b' : Block} (h : b.costName = b'.costName) :
    b.uid = b'.uid := by
  have hlist := congrArg String.toList h
  rw [Block.toList_costName, Block.toList_costName, List.cons_inj_right] at hlist
  exact Decimal.chars_injective hlist

theorem Edge.id_eq_of_costName {e e' : Edge} (h : e.costName = e'.costName) : e.id = e'.id :=
  EdgeId.text_injective (String.append_right_inj "c_" |>.mp h)

theorem Edge.id_eq_of_selector {e e' : Edge} (h : e.selector = e'.selector) : e.id = e'.id :=
  EdgeId.text_injective (String.append_right_inj "t_" |>.mp h)

theorem Cut.id_eq_of_costName {c c' : Cut} (h : c.costName = c'.costName) : c.id = c'.id :=
  CutId.text_injective (String.append_right_inj "cut_" |>.mp h)

/-- After its first letter the cost variable of a block is a number. -/
theorem Block.costName_ne {b : Block} {name : String} {x : Char} {rest : List Char}
    (hname : name.toList = 'c' :: x :: rest) (hx : ¬ (x = '-' ∨ x.isDigit)) :
    b.costName ≠ name := by
  rintro rfl
  rw [Block.toList_costName, List.cons_inj_right] at hname
  exact hx (Decimal.mem_chars (hname ▸ List.mem_cons_self))

/-! ### The names that a graph generates -/

/-- What tells the elements of a list apart makes their names differ. -/
theorem nodup_map_of_key {α κ β : Type} {key : α → κ} {name : α → β} {l : List α}
    (hl : (l.map key).Nodup) (hname : ∀ {a b}, name a = name b → key a = key b) :
    (l.map name).Nodup :=
  hl.of_map.map_on fun _ ha _ hb h => List.inj_on_of_nodup_map hl ha hb (hname h)

theorem nodup_map_append {α β : Type} {name : α → β} {l : List α} {names : List β}
    (hl : (l.map name).Nodup) (hnames : names.Nodup) (h : ∀ a, name a ∉ names) :
    (l.map name ++ names).Nodup := by
  refine List.nodup_append.mpr ⟨hl, hnames, ?_⟩
  rintro x hx y hy rfl
  obtain ⟨a, -, rfl⟩ := List.mem_map.mp hx
  exact h a hy

namespace Graph

/-- The names that a graph generates. -/
def generatedNames (g : Graph) : List String :=
  g.edges.map Edge.selector ++ (g.blocks.map Block.costName ++ (g.edges.map Edge.costName ++
    (Encoding.objectiveName :: g.cuts.map Cut.costName)))

/-- **Generated names are pairwise different.** -/
theorem generatedNames_nodup {g : Graph} (hg : g.Valid) (hcuts : (g.cuts.map (·.id)).Nodup) :
    g.generatedNames.Nodup := by
  have hcost : (Encoding.objectiveName :: g.cuts.map Cut.costName).Nodup := by
    refine List.nodup_cons.mpr ⟨fun h => ?_, nodup_map_of_key hcuts Cut.id_eq_of_costName⟩
    obtain ⟨c, -, hc⟩ := List.mem_map.mp h
    have hlist := congrArg String.toList hc
    simp [Cut.toList_costName, toList_objectiveName] at hlist
  have hedge : ∀ e : Edge, e.costName ∉ Encoding.objectiveName :: g.cuts.map Cut.costName := by
    intro e h
    rcases List.mem_cons.mp h with h | h
    · have hlist := congrArg String.toList h
      simp [Edge.toList_costName, toList_objectiveName] at hlist
    · obtain ⟨c, -, hc⟩ := List.mem_map.mp h
      have hlist := congrArg String.toList hc
      simp [Edge.toList_costName, Cut.toList_costName] at hlist
  have hblock : ∀ b : Block, b.costName ∉
      g.edges.map Edge.costName ++ (Encoding.objectiveName :: g.cuts.map Cut.costName) := by
    intro b h
    rcases List.mem_append.mp h with h | h
    · obtain ⟨e, -, he⟩ := List.mem_map.mp h
      exact Block.costName_ne e.toList_costName (by decide) he.symm
    · rcases List.mem_cons.mp h with h | h
      · exact Block.costName_ne toList_objectiveName (by decide) h
      · obtain ⟨c, -, hc⟩ := List.mem_map.mp h
        exact Block.costName_ne c.toList_costName (by decide) hc.symm
  -- all names but the selectors of edges begin with the letter c
  have hselector : ∀ e : Edge, e.selector ∉ g.blocks.map Block.costName ++
      (g.edges.map Edge.costName ++ (Encoding.objectiveName :: g.cuts.map Cut.costName)) := by
    intro e h
    have hlist := e.toList_selector
    simp only [List.mem_append, List.mem_cons, List.mem_map] at h
    rcases h with ⟨b, -, hb⟩ | ⟨e', -, he⟩ | h | ⟨c, -, hc⟩
    · simp [← hb, Block.toList_costName] at hlist
    · simp [← he, Edge.toList_costName] at hlist
    · simp [h, toList_objectiveName] at hlist
    · simp [← hc, Cut.toList_costName] at hlist
  refine nodup_map_append (nodup_map_of_key hg.ids_nodup Edge.id_eq_of_selector) ?_ hselector
  refine nodup_map_append (nodup_map_of_key hg.uids_nodup Block.uid_eq_of_costName) ?_ hblock
  exact nodup_map_append (nodup_map_of_key hg.ids_nodup Edge.id_eq_of_costName) hcost hedge

theorem space_notMem_pairText (a b : Int) : ' ' ∉ (pairText a b).toList := by
  have hchars : ∀ n, ' ' ∉ Decimal.chars n := fun n h => by simpa using Decimal.mem_chars h
  rw [toList_pairText]
  simp [hchars]

/-- **Generated names contain no space.** -/
theorem space_notMem_of_mem_generatedNames {g : Graph} {name : String}
    (h : name ∈ g.generatedNames) : ' ' ∉ name.toList := by
  simp only [generatedNames, List.mem_append, List.mem_cons, List.mem_map] at h
  rcases h with ⟨e, -, rfl⟩ | ⟨b, -, rfl⟩ | ⟨e, -, rfl⟩ | rfl | ⟨c, -, rfl⟩
  · simp [Edge.toList_selector, space_notMem_pairText]
  · intro h
    rw [Block.toList_costName] at h
    simpa using Decimal.mem_chars ((List.mem_cons.mp h).resolve_left (by decide))
  · simp [Edge.toList_costName, space_notMem_pairText]
  · simp [toList_objectiveName]
  · simp [Cut.toList_costName, space_notMem_pairText]

end Graph

end WorstCase
