import WorstCase.Proofs.Store.Linked

/-!
# Searching linked stores

A search through the indexes and the stored neighbours of a linked store returns what the search
of its graph returns, violations included. Each part of a search agrees with its counterpart:
climbing the declared dominators, the blocks that reach the destination, the first block that is
ready, the edges into a block, the rounds of a sweep, and so the longest path
(`Store.Linked.longestPath_eq`).
-/

namespace WorstCase

namespace Store

namespace Linked

variable {s : Store}

theorem blockOrFail_graph (hs : s.Linked) (uid : Int) :
    s.graph.blockOrFail uid = s.blockOf <$> s.nodeOrFail uid := by
  rw [Graph.blockOrFail, hs.block?_graph, nodeOrFail]
  rcases s.node? uid with _ | n <;> rfl

theorem climb_eq (hs : s.Linked) (src dst : Int) (bound : Nat) (cur : Int) :
    s.climb src dst bound cur = s.graph.climb src dst bound cur := by
  induction bound generalizing cur with
  | zero => rfl
  | succ bound ih =>
    rw [climb, Graph.climb, hs.block?_graph]
    rcases s.node? cur with _ | n
    · rfl
    · simp only [Option.map_some, ih]
      rfl

theorem length_blocks_graph (s : Store) : s.graph.blocks.length = s.nodes.length :=
  List.length_map _

theorem checkDominates_eq (hs : s.Linked) (src dst : Int) :
    s.checkDominates src dst = s.graph.checkDominates src dst := by
  rw [checkDominates, Graph.checkDominates, length_blocks_graph, hs.climb_eq]

/-! ### Neighbours -/

theorem preds_of_node? (hs : s.Linked) {uid : Int} {n : Node} (h : s.node? uid = some n) :
    n.preds = s.graph.preds uid := by
  obtain ⟨hn, rfl⟩ := hs.mem_of_node? h
  exact hs.preds n hn

theorem succs_of_node? (hs : s.Linked) {uid : Int} {n : Node} (h : s.node? uid = some n) :
    n.succs = s.graph.succs uid := by
  obtain ⟨hn, rfl⟩ := hs.mem_of_node? h
  exact hs.succs n hn

theorem preds_eq (hs : s.Linked) : s.preds = s.graph.preds := by
  funext uid
  rw [Store.preds]
  rcases h : s.node? uid with _ | n
  · refine (neighbours_eq_nil hs.coherent.valid fun hmem => ?_).1.symm
    rw [← Graph.block?_isSome_iff, hs.block?_graph, h] at hmem
    exact Bool.false_ne_true hmem
  · exact hs.preds_of_node? h

theorem reaching_eq (hs : s.Linked) (dst : Int) : s.reaching dst = s.graph.reaching dst := by
  rw [reaching, Graph.reaching, length_blocks_graph, hs.preds_eq]

theorem incoming_eq (hs : s.Linked) {uid : Int} {n : Node} (h : s.node? uid = some n) :
    s.incoming uid n = s.graph.incoming uid := by
  rw [incoming, Graph.incoming, hs.preds_of_node? h]
  congr 1
  funext p
  rw [hs.blockOrFail_graph, hs.edge?_eq]
  rcases s.nodeOrFail p with _ | m <;> rfl

/-! ### Sweeps -/

/-- The first block that is ready is the same, and comes with its node. -/
theorem firstReady_eq (hs : s.Linked) (reaching visited worklist : List Int) :
    s.graph.firstReady reaching visited worklist =
        Option.map Prod.fst <$> s.firstReady reaching visited worklist ∧
      ∀ uid n, s.firstReady reaching visited worklist = .ok (some (uid, n)) →
        s.node? uid = some n := by
  induction worklist with
  | nil => exact ⟨rfl, fun uid n h => by simp [firstReady] at h⟩
  | cons uid rest ih =>
    rw [firstReady, Graph.firstReady, hs.blockOrFail_graph, nodeOrFail, Graph.isReady]
    by_cases hvisited : visited.contains uid
    · simp only [hvisited, ↓reduceIte]
      exact ⟨rfl, fun uid' n h => by cases h⟩
    simp only [hvisited, Bool.false_eq_true, ↓reduceIte]
    rcases hnode : s.node? uid with _ | n
    · exact ⟨rfl, fun uid' n h => by cases h⟩
    rw [← hs.succs_of_node? hnode]
    simp only [bind, Except.bind, Functor.map, Except.map]
    by_cases hready : n.succs.all fun v => !reaching.contains v || visited.contains v
    · rw [if_pos hready, if_pos hready]
      refine ⟨rfl, fun uid' n' h => ?_⟩
      cases h
      exact hnode
    · rw [if_neg hready, if_neg hready]
      exact ih

theorem sweepFrom_eq (hs : s.Linked) (src dst : Int) (reaching : List Int) (rounds : Nat)
    (worklist visited : List Int) :
    s.sweepFrom src dst reaching rounds worklist visited =
      s.graph.sweepFrom src dst reaching rounds worklist visited := by
  induction rounds generalizing worklist visited with
  | zero => cases worklist <;> rfl
  | succ rounds ih =>
    rcases worklist with _ | ⟨uid, worklist⟩
    · rfl
    obtain ⟨hready, hnode⟩ := hs.firstReady_eq reaching visited (uid :: worklist)
    simp only [sweepFrom, Graph.sweepFrom, hready]
    rcases h : s.firstReady reaching visited (uid :: worklist) with v | _ | ⟨uid', n⟩
    · rfl
    · rfl
    · have hn := hnode uid' n h
      simp only [bind, Except.bind, Functor.map, Except.map, Option.map_some, hs.incoming_eq hn,
        hs.preds_of_node? hn, ih]

theorem sweep_eq (hs : s.Linked) (src dst : Int) : s.sweep src dst = s.graph.sweep src dst := by
  rw [sweep, Graph.sweep, hs.blockOrFail_graph, hs.checkDominates_eq, hs.reaching_eq,
    length_blocks_graph]
  simp only [hs.sweepFrom_eq]
  rcases s.nodeOrFail src with _ | n <;> rfl

/-- **The search of a linked store finds the longest path of its graph.** -/
theorem longestPath_eq (hs : s.Linked) (src dst : Int) :
    s.longestPath src dst = s.graph.longestPath src dst := by
  rw [longestPath, Graph.longestPath, hs.blockOrFail_graph, hs.sweep_eq, length_blocks_graph]
  rcases s.nodeOrFail dst with _ | n <;> rfl

end Linked

end Store

end WorstCase
