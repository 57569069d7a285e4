import WorstCase.Graph.LongestPath
import WorstCase.Proofs.Graph.Sweep

/-!
# What the outlooks say after a sweep

Relaxing the steps of a sweep keeps three facts about the outlooks (`Graph.Outlooking`):

* **stop**: the outlook of `dst` is its own cost;
* **link**: every other outlook points to a visited block, and its cost is that of the block
  pointed to plus the edge and the block itself;
* **best**: no edge into a visited block offers more than the outlook of its source.

The point is that outlooks of visited blocks never change again: a step that offers something to
a visited block would come from one of its successors, which all have been visited before it.
All three facts are about 64-bit costs as they are stored, whether or not sums wrap.
-/

namespace WorstCase

namespace Graph

variable {g : Graph} {src dst : Int}

/-! ### One relaxation -/

/-- What a step offers to its predecessor, given the outlook of its block. -/
def Step.offer (s : Step) (ahead : Outlook) : Outlook :=
  { cost := ahead.cost + s.edge.cost + s.pred.cost, next := some s.uid }

theorem Step.lookup_relax_of_ne {known : Outlooks} {s : Step} {u : Int} (hu : s.pred.uid ≠ u) :
    (s.relax known).lookup u = known.lookup u := by
  unfold Step.relax
  split
  · rfl
  · dsimp only
    split
    · split
      · rw [List.lookup_cons, beq_false_of_ne hu.symm]
      · rfl
    · rw [List.lookup_cons, beq_false_of_ne hu.symm]

/-- After a relaxation the predecessor has what it had or what is offered, whichever is more. -/
theorem Step.lookup_relax_pred {known : Outlooks} {s : Step} {ahead : Outlook}
    (h : known.lookup s.uid = some ahead) :
    ∃ o, (s.relax known).lookup s.pred.uid = some o ∧
      (o = s.offer ahead ∨ known.lookup s.pred.uid = some o) ∧
      (s.offer ahead).cost ≤ o.cost ∧
      ∀ old, known.lookup s.pred.uid = some old → old.cost ≤ o.cost := by
  simp only [Step.relax, h]
  rcases hold : known.lookup s.pred.uid with _ | old
  · exact ⟨s.offer ahead, by simp [Step.offer], .inl rfl, Int64.le_refl _, by simp⟩
  · dsimp only
    split
    · rename_i hlt
      refine ⟨s.offer ahead, by simp [Step.offer], .inl rfl, Int64.le_refl _, ?_⟩
      rintro _ ⟨⟩
      exact Int64.le_of_lt hlt
    · rename_i hge
      refine ⟨old, hold, .inr rfl, Int64.not_lt.mp hge, ?_⟩
      rintro _ ⟨⟩
      exact Int64.le_refl _

/-! ### The relaxations of one visit -/

section Visit

variable {x : Int} {ahead : Outlook} {steps : List Step}

theorem lookup_foldl_relax_of_ne {u : Int} (hu : ∀ s ∈ steps, s.pred.uid ≠ u) (known : Outlooks) :
    (steps.foldl Step.relax known).lookup u = known.lookup u := by
  induction steps generalizing known with
  | nil => rfl
  | cons s steps ih =>
    rw [List.foldl_cons, ih fun s' hs' => hu s' (List.mem_cons_of_mem _ hs')]
    exact Step.lookup_relax_of_ne (hu s List.mem_cons_self)

/-- An outlook after a visit was there before or is an offer of the visit. -/
theorem lookup_foldl_relax (hsteps : ∀ s ∈ steps, s.uid = x ∧ s.pred.uid ≠ x)
    {known : Outlooks} (hx : known.lookup x = some ahead) {u : Int} {o : Outlook}
    (h : (steps.foldl Step.relax known).lookup u = some o) :
    known.lookup u = some o ∨ ∃ s ∈ steps, s.pred.uid = u ∧ o = s.offer ahead := by
  induction steps generalizing known with
  | nil => exact .inl h
  | cons s steps ih =>
    obtain ⟨rfl, hne⟩ := hsteps s List.mem_cons_self
    have hx' : (s.relax known).lookup s.uid = some ahead := by
      rw [Step.lookup_relax_of_ne hne, hx]
    rcases ih (fun s' hs' => hsteps s' (List.mem_cons_of_mem _ hs')) hx' h with h | ⟨s', hs', h⟩
    · by_cases hu : s.pred.uid = u
      · subst hu
        obtain ⟨o', ho', hor, -⟩ := Step.lookup_relax_pred hx
        obtain rfl : o' = o := Option.some_inj.mp (ho'.symm.trans h)
        exact hor.elim (fun h => .inr ⟨s, List.mem_cons_self, rfl, h⟩) .inl
      · exact .inl (by rwa [Step.lookup_relax_of_ne hu] at h)
    · exact .inr ⟨s', List.mem_cons_of_mem _ hs', h⟩

/-- A visit never lowers an outlook. -/
theorem exists_le_lookup_foldl_relax (hsteps : ∀ s ∈ steps, s.uid = x ∧ s.pred.uid ≠ x)
    {known : Outlooks} (hx : known.lookup x = some ahead) {u : Int} {old : Outlook}
    (h : known.lookup u = some old) :
    ∃ o, (steps.foldl Step.relax known).lookup u = some o ∧ old.cost ≤ o.cost := by
  induction steps generalizing known old with
  | nil => exact ⟨old, h, Int64.le_refl _⟩
  | cons s steps ih =>
    obtain ⟨rfl, hne⟩ := hsteps s List.mem_cons_self
    have hx' : (s.relax known).lookup s.uid = some ahead := by
      rw [Step.lookup_relax_of_ne hne, hx]
    have hrest := fun s' hs' => hsteps s' (List.mem_cons_of_mem s hs')
    by_cases hu : s.pred.uid = u
    · subst hu
      obtain ⟨o₁, ho₁, -, -, hle₁⟩ := Step.lookup_relax_pred hx
      obtain ⟨o, ho, hle⟩ := ih hrest hx' ho₁
      exact ⟨o, ho, Int64.le_trans (hle₁ old h) hle⟩
    · exact ih hrest hx' (by rw [Step.lookup_relax_of_ne hu, h])

/-- A visit leaves every predecessor with at least what it is offered. -/
theorem exists_offer_le_lookup_foldl_relax (hsteps : ∀ s ∈ steps, s.uid = x ∧ s.pred.uid ≠ x)
    {known : Outlooks} (hx : known.lookup x = some ahead) {s : Step} (hs : s ∈ steps) :
    ∃ o, (steps.foldl Step.relax known).lookup s.pred.uid = some o ∧
      (s.offer ahead).cost ≤ o.cost := by
  induction steps generalizing known with
  | nil => exact absurd hs List.not_mem_nil
  | cons s' steps ih =>
    obtain ⟨rfl, hne⟩ := hsteps s' List.mem_cons_self
    have hx' : (s'.relax known).lookup s'.uid = some ahead := by
      rw [Step.lookup_relax_of_ne hne, hx]
    have hrest := fun s₁ hs₁ => hsteps s₁ (List.mem_cons_of_mem s' hs₁)
    rcases List.mem_cons.mp hs with rfl | hs
    · obtain ⟨o₁, ho₁, -, hle₁, -⟩ := Step.lookup_relax_pred hx
      obtain ⟨o, ho, hle⟩ := exists_le_lookup_foldl_relax hrest hx' ho₁
      exact ⟨o, ho, Int64.le_trans hle₁ hle⟩
    · exact ih hrest hx' hs

end Visit

/-! ### The invariant -/

/-- What the outlooks say when the blocks `visited` have been visited. -/
structure Outlooking (g : Graph) (dst : Int) (visited : List Int) (known : Outlooks) : Prop where
  stop : ∃ last, g.block? dst = some last ∧ known.lookup dst = some ⟨last.cost, none⟩
  link : ∀ u o, u ≠ dst → known.lookup u = some o →
    ∃ n ahead e b, n ∈ visited ∧ known.lookup n = some ahead ∧ g.edge? u n = some e ∧
      g.block? u = some b ∧ o = ⟨ahead.cost + e.cost + b.cost, some n⟩
  best : ∀ n ∈ visited, ∃ ahead, known.lookup n = some ahead ∧
    ∀ u e b, g.edge? u n = some e → g.block? u = some b →
      ∃ o, known.lookup u = some o ∧ ahead.cost + e.cost + b.cost ≤ o.cost

theorem outlooking_init {last : Block} (h : g.block? dst = some last) :
    Outlooking g dst [] [(dst, ⟨last.cost, none⟩)] where
  stop := ⟨last, h, by simp⟩
  link := by
    intro u o hu ho
    rw [List.lookup_cons, beq_false_of_ne hu] at ho
    simp at ho
  best := by simp

/-- A block that is about to be visited has an outlook. -/
theorem Outlooking.exists_lookup {visited : List Int} {known : Outlooks} {x : Int}
    (hg : g.Valid) (hk : Outlooking g dst visited known) (hreach : g.Reaches x dst)
    (hready : ∀ s, g.Arc x s → g.Reaches s dst → s ∈ visited) :
    ∃ ahead, known.lookup x = some ahead := by
  rcases hreach.cases_head with rfl | ⟨s, hxs, hs⟩
  · obtain ⟨last, -, hlast⟩ := hk.stop
    exact ⟨_, hlast⟩
  · obtain ⟨_, -, hbest⟩ := hk.best s (hready s hxs hs)
    obtain ⟨e, he, hmem, hid⟩ := hg.exists_edge hxs
    obtain ⟨b, hb⟩ := hg.exists_block_src hmem
    rw [hid] at hb
    obtain ⟨o, ho, -⟩ := hbest x e b he hb
    exact ⟨o, ho⟩

/-- **One visit keeps the invariant.** -/
theorem Outlooking.visit {visited : List Int} {known : Outlooks} {x : Int} (hg : g.Valid)
    (hv : Settled g src dst (x :: visited)) (hk : Outlooking g dst visited known) :
    Outlooking g dst (x :: visited) ((g.stepsInto x).foldl Step.relax known) := by
  obtain ⟨hreach, hready⟩ : g.Reaches x dst ∧
      ∀ s, g.Arc x s → g.Reaches s dst → s ∈ visited := by
    cases hv with
    | visit _ _ _ hreach hready => exact ⟨hreach, hready⟩
  obtain ⟨ahead, hahead⟩ := hk.exists_lookup hg hreach hready
  -- nothing is offered to a visited block, nor to `x` itself
  have hsame : ∀ u ∈ x :: visited,
      ((g.stepsInto x).foldl Step.relax known).lookup u = known.lookup u := fun u hu =>
    lookup_foldl_relax_of_ne (fun s hs heq => hv.pred_notMem hs (heq ▸ hu)) known
  have hsteps : ∀ s ∈ g.stepsInto x, s.uid = x ∧ s.pred.uid ≠ x := fun s hs =>
    ⟨(mem_stepsInto.mp hs).1, List.ne_of_not_mem_cons (hv.pred_notMem hs)⟩
  refine ⟨?_, fun u o hu ho => ?_, fun n hn => ?_⟩
  · obtain ⟨last, hlast, hlook⟩ := hk.stop
    have hdst : dst ∈ x :: visited := hv.mem_of_reaches List.mem_cons_self hreach .refl
    exact ⟨last, hlast, by rw [hsame dst hdst, hlook]⟩
  · rcases lookup_foldl_relax hsteps hahead ho with h | ⟨s, hs, rfl, rfl⟩
    · obtain ⟨n, ahead', e, b, hn, hn', he, hb, rfl⟩ := hk.link u o hu h
      have hn₁ := List.mem_cons_of_mem x hn
      exact ⟨n, ahead', e, b, hn₁, by rw [hsame n hn₁, hn'], he, hb, rfl⟩
    · obtain ⟨rfl, he, -, hb⟩ := mem_stepsInto.mp hs
      exact ⟨s.uid, ahead, s.edge, s.pred, List.mem_cons_self,
        by rw [hsame _ List.mem_cons_self, hahead],
        hg.edge?_eq_some_iff.mpr ⟨he, id_of_mem_stepsInto hs⟩, uid_of_block? hb ▸ hb, rfl⟩
  · rcases List.mem_cons.mp hn with rfl | hn'
    · refine ⟨ahead, by rw [hsame _ hn, hahead], fun u e b he hb => ?_⟩
      have hs := mem_stepsInto_of_edge? he hb
      obtain ⟨o, ho, hle⟩ := exists_offer_le_lookup_foldl_relax hsteps hahead hs
      exact ⟨o, uid_of_block? hb ▸ ho, hle⟩
    · obtain ⟨ahead', hlook, hbest⟩ := hk.best n hn'
      refine ⟨ahead', by rw [hsame n hn, hlook], fun u e b he hb => ?_⟩
      obtain ⟨o₁, ho₁, hle₁⟩ := hbest u e b he hb
      obtain ⟨o, ho, hle⟩ := exists_le_lookup_foldl_relax hsteps hahead ho₁
      exact ⟨o, ho, Int64.le_trans hle₁ hle⟩

/-- **The outlooks after a whole sweep**, by induction on its history. -/
theorem Settled.outlooking {visited : List Int} (hg : g.Valid)
    (hv : Settled g src dst visited) {last : Block} (hlast : g.block? dst = some last) :
    Outlooking g dst visited
      ((visited.reverse.flatMap g.stepsInto).foldl Step.relax [(dst, ⟨last.cost, none⟩)]) := by
  induction hv with
  | nil => exact outlooking_init hlast
  | visit hv hnew hsrc hreach hready ih =>
    rw [List.reverse_cons, List.flatMap_append, List.foldl_append, List.flatMap_singleton]
    exact ih.visit hg (.visit hv hnew hsrc hreach hready)

end Graph

end WorstCase
