import EasyLib.Leecode.MinimumTree
import EasyLib.Lib.TreePeeling

/-!
# What the peeling finds

The nodes that are left are a part of the tree, the sets of the nodes in it hold their neighbours in it, and
`leaves` are its leaves. A round goes from one part to the next: between two of its leaves the sets lack the
leaves that are done, and a node is in `new_leaves` from the moment it has one neighbour left. Peeling keeps
the centre, so the last one or two nodes are the centre of the whole tree.
-/

namespace EasyLib.Leecode.Solution

open Loop TreePeeling

variable {n : ℕ}

section Edges

variable {edges : List (Fin n × Fin n)} {v w : Fin n}

def edgeGraph (edges : List (Fin n × Fin n)) : SimpleGraph (Fin n) :=
  SimpleGraph.fromRel fun left right => (left, right) ∈ edges

instance : DecidableRel (edgeGraph edges).Adj :=
  inferInstanceAs (DecidableRel (SimpleGraph.fromRel fun left right => (left, right) ∈ edges).Adj)

structure FormsTree (edges : List (Fin n × Fin n)) : Prop where
  loopless : ∀ edge ∈ edges, edge.1 ≠ edge.2
  isTree : (edgeGraph edges).IsTree

/-- The height of the tree at a root, the number of edges down to a deepest node. -/
noncomputable def treeHeight (edges : List (Fin n × Fin n)) (root : Fin n) : ℕ :=
  height (edgeGraph edges) Finset.univ root

theorem mem_insertEdge {graph : Graph n} {edge : Fin n × Fin n} :
    w ∈ insertEdge graph edge v ↔ w ∈ graph v ∨ (v, w) = edge ∨ (w, v) = edge := by
  obtain ⟨first, second⟩ := edge
  simp only [insertEdge, Function.update_apply, Prod.mk.injEq]
  grind

theorem mem_foldl_insertEdge (edges : List (Fin n × Fin n)) (graph : Graph n) :
    w ∈ edges.foldl insertEdge graph v ↔ w ∈ graph v ∨ (v, w) ∈ edges ∨ (w, v) ∈ edges := by
  induction edges generalizing graph with
  | nil => simp
  | cons edge edges ih =>
      rw [List.foldl_cons, ih, mem_insertEdge, List.mem_cons, List.mem_cons]
      tauto

theorem foldl_insertEdge_eq (hloopless : ∀ edge ∈ edges, edge.1 ≠ edge.2) (v : Fin n) :
    edges.foldl insertEdge (fun _ => ∅) v = neighbours (edgeGraph edges) Finset.univ v := by
  ext w
  rw [mem_foldl_insertEdge, mem_neighbours, edgeGraph, SimpleGraph.fromRel_adj]
  constructor
  · rintro (hempty | hedge | hedge)
    · exact absurd hempty (Finset.notMem_empty w)
    · exact ⟨Finset.mem_univ w, hloopless _ hedge, Or.inl hedge⟩
    · exact ⟨Finset.mem_univ w, (hloopless _ hedge).symm, Or.inr hedge⟩
  · rintro ⟨-, -, hedge⟩
    exact Or.inr hedge

end Edges

theorem ascending_singleton (v : Fin n) : ascending {v} = [v] := by
  apply List.perm_singleton.mp
  refine (List.perm_ext_iff_of_nodup ((List.nodup_finRange n).filter _) (List.nodup_singleton v)).mpr ?_
  intro w
  simp

theorem eraseLeaf_fst (leaf p : Fin n) (state : Graph n × List (Fin n)) :
    (eraseLeaf leaf state p).1 = Function.update state.1 p ((state.1 p).erase leaf) := rfl

theorem eraseLeaf_snd (leaf p : Fin n) (state : Graph n × List (Fin n)) :
    (eraseLeaf leaf state p).2 = if ((state.1 p).erase leaf).card = 1 then state.2 ++ [p] else state.2 := by
  simp only [eraseLeaf, Function.update_self]

theorem peelLeaf_eq {state : Graph n × List (Fin n)} {leaf p : Fin n} (hgraph : state.1 leaf = {p})
    (hne : leaf ≠ p) : peelLeaf state leaf = some (eraseLeaf leaf state p) := by
  have hnot : leaf ∉ state.1 leaf := by rwa [hgraph, Finset.mem_singleton]
  rw [peelLeaf, if_neg hnot, hgraph, ascending_singleton, List.foldl_cons, List.foldl_nil]

section Rounds

variable {G : SimpleGraph (Fin n)} [DecidableRel G.Adj] {R done : Finset (Fin n)} {leaf p v : Fin n}

variable (G R) in
/-- The graph and `new_leaves` within a round, with the leaves in `done` behind it. -/
structure Peeling (done : Finset (Fin n)) (state : Graph n × List (Fin n)) : Prop where
  kept : ∀ v ∈ peel G R, state.1 v = neighbours G R v \ done
  waiting : ∀ leaf ∈ leaves G R, state.1 leaf = neighbours G R leaf
  nodup : state.2.Nodup
  mem_iff : ∀ v, v ∈ state.2 ↔ v ∈ peel G R ∧ (neighbours G R v \ done).card ≤ 1

theorem exists_neighbours_eq_singleton (hG : G.IsTree) (hR : Convex G R) (hcard : 2 < R.card)
    (hleaf : leaf ∈ leaves G R) : ∃ p ∈ peel G R, neighbours G R leaf = {p} := by
  obtain ⟨hleafR, hone⟩ := mem_leaves.mp hleaf
  obtain ⟨other, hother, hne, -⟩ := exists_third hcard leaf leaf
  obtain ⟨p, hp, -⟩ := hR.exists_closer hG hother hleafR hne
  refine ⟨p, hR.neighbour_mem_peel hG hcard hleaf hp, ?_⟩
  exact Finset.eq_singleton_iff_unique_mem.mpr ⟨hp, fun w hw => Finset.card_le_one.mp hone w hw p hp⟩

/-- A leaf is missed by its one neighbour only. -/
theorem neighbours_sdiff_insert (hneighbours : neighbours G R leaf = {p}) (hv : v ∈ peel G R) (hne : v ≠ p) :
    neighbours G R v \ insert leaf done = neighbours G R v \ done := by
  refine Finset.sdiff_insert_of_notMem (fun hmem => hne ?_) done
  have hsymm := neighbours_symm (mem_peel.mp hv).1 hmem
  rwa [hneighbours, Finset.mem_singleton] at hsymm

variable {state : Graph n × List (Fin n)}

theorem Peeling.eraseLeaf (h : Peeling G R done state) (hleaf : leaf ∈ leaves G R) (hdone : leaf ∉ done)
    (hp : p ∈ peel G R) (hneighbours : neighbours G R leaf = {p}) :
    Peeling G R (insert leaf done) (Solution.eraseLeaf leaf state p) := by
  have hgraph : (state.1 p).erase leaf = neighbours G R p \ insert leaf done := by
    rw [h.kept p hp, Finset.sdiff_insert]
  have hmem : leaf ∈ neighbours G R p \ done := by
    refine Finset.mem_sdiff.mpr ⟨neighbours_symm (mem_leaves.mp hleaf).1 ?_, hdone⟩
    rw [hneighbours, Finset.mem_singleton]
  have hless : (neighbours G R p \ insert leaf done).card + 1 = (neighbours G R p \ done).card := by
    rw [Finset.sdiff_insert, Finset.card_erase_add_one hmem]
  have hpnew : p ∈ state.2 ↔ (neighbours G R p \ done).card ≤ 1 :=
    (h.mem_iff p).trans (and_iff_right hp)
  refine ⟨fun v hv => ?_, fun other hother => ?_, ?_, fun v => ?_⟩
  · rw [eraseLeaf_fst]
    by_cases hne : v = p
    · rw [hne, Function.update_self, hgraph]
    · rw [Function.update_of_ne hne, h.kept v hv, neighbours_sdiff_insert hneighbours hv hne]
  · have hne : other ≠ p := by
      rintro rfl
      exact (mem_peel.mp hp).2 (mem_leaves.mp hother).2
    rw [eraseLeaf_fst, Function.update_of_ne hne, h.waiting other hother]
  · rw [eraseLeaf_snd, hgraph]
    split_ifs with hone
    · -- The neighbour had two neighbours left, so it has not been a new leaf before.
      have hnot : p ∉ state.2 := by
        rw [hpnew]
        omega
      exact List.nodup_append_comm.mp (List.nodup_cons.mpr ⟨hnot, h.nodup⟩)
    · exact h.nodup
  · rw [eraseLeaf_snd, hgraph]
    by_cases hne : v = p
    · rw [hne, and_iff_right hp]
      split_ifs with hone
      · simp [hone]
      · rw [hpnew]
        omega
    · have hsame : v ∈ (if (neighbours G R p \ insert leaf done).card = 1 then state.2 ++ [p] else state.2) ↔
          v ∈ state.2 := by
        split_ifs
        · rw [List.mem_append, List.mem_singleton, or_iff_left hne]
        · rfl
      rw [hsame, h.mem_iff v]
      refine and_congr_right fun hv => ?_
      rw [neighbours_sdiff_insert hneighbours hv hne]

theorem Peeling.peelLeaf (h : Peeling G R done state) (hG : G.IsTree) (hR : Convex G R) (hcard : 2 < R.card)
    (hleaf : leaf ∈ leaves G R) (hdone : leaf ∉ done) :
    ∃ state', Solution.peelLeaf state leaf = some state' ∧ Peeling G R (insert leaf done) state' := by
  obtain ⟨p, hp, hneighbours⟩ := exists_neighbours_eq_singleton hG hR hcard hleaf
  have hne : leaf ≠ p := by
    rintro rfl
    exact (mem_peel.mp hp).2 (mem_leaves.mp hleaf).2
  refine ⟨_, peelLeaf_eq ?_ hne, h.eraseLeaf hleaf hdone hp hneighbours⟩
  rw [h.waiting leaf hleaf, hneighbours]

theorem Peeling.foldlM (hG : G.IsTree) (hR : Convex G R) (hcard : 2 < R.card) :
    ∀ (rest : List (Fin n)) (done : Finset (Fin n)) (state : Graph n × List (Fin n)),
      Peeling G R done state → rest.Nodup → (∀ leaf ∈ rest, leaf ∈ leaves G R ∧ leaf ∉ done) →
      ∃ state', rest.foldlM Solution.peelLeaf state = some state' ∧
        Peeling G R (done ∪ rest.toFinset) state' := by
  intro rest
  induction rest with
  | nil =>
      intro done state h _ _
      refine ⟨state, rfl, ?_⟩
      rwa [List.toFinset_nil, Finset.union_empty]
  | cons leaf rest ih =>
      intro done state h hnodup hrest
      obtain ⟨hnot, hnodup'⟩ := List.nodup_cons.mp hnodup
      obtain ⟨hleaf, hdone⟩ := hrest leaf List.mem_cons_self
      obtain ⟨next, hnext, h'⟩ := h.peelLeaf hG hR hcard hleaf hdone
      obtain ⟨state', hfold, hstate'⟩ := ih (insert leaf done) next h' hnodup' fun other hother => by
        obtain ⟨hleaf', hdone'⟩ := hrest other (List.mem_cons_of_mem leaf hother)
        refine ⟨hleaf', fun hmem => ?_⟩
        obtain rfl | hmem := Finset.mem_insert.mp hmem
        · exact hnot hother
        · exact hdone' hmem
      refine ⟨state', ?_, ?_⟩
      · rw [List.foldlM_cons, hnext]
        exact hfold
      · rwa [List.toFinset_cons, Finset.union_insert, ← Finset.insert_union]

variable (G R) in
/-- The variables of the loop, with the nodes in `R` left. -/
structure Remaining (state : Int × Graph n × List (Fin n)) : Prop where
  convex : Convex G R
  count : state.1 = R.card
  graph : ∀ v ∈ R, state.2.1 v = neighbours G R v
  nodup : state.2.2.Nodup
  mem_leaves : ∀ v, v ∈ state.2.2 ↔ v ∈ leaves G R
  centre : ∀ v, IsCentre G R v ↔ IsCentre G Finset.univ v

theorem Remaining.peelRound {state : Int × Graph n × List (Fin n)} (h : Remaining G R state) (hG : G.IsTree)
    (hcount : state.1 > 2) :
    ∃ next, Solution.peelRound state = .inl next ∧ Remaining G (peel G R) next ∧ next.1 < state.1 := by
  obtain ⟨count, graph, nodes⟩ := state
  obtain rfl : count = R.card := h.count
  have hcard : 2 < R.card := by simpa using hcount
  have hleaves : nodes.toFinset = leaves G R := by
    ext v
    rw [List.mem_toFinset, h.mem_leaves v]
  have hlength : nodes.length = (leaves G R).card := by
    rw [← hleaves, List.toFinset_card_of_nodup h.nodup]
  have hstart : Peeling G R ∅ (graph, []) := by
    refine ⟨fun v hv => ?_, fun leaf hleaf => h.graph leaf (TreePeeling.mem_leaves.mp hleaf).1,
      List.nodup_nil, fun v => ?_⟩
    · rw [Finset.sdiff_empty]
      exact h.graph v (mem_peel.mp hv).1
    · rw [Finset.sdiff_empty, mem_peel]
      simp
  obtain ⟨⟨graph', newLeaves⟩, hfold, hpeeling⟩ := Peeling.foldlM hG h.convex hcard nodes ∅ (graph, []) hstart
    h.nodup fun leaf hleaf => ⟨(h.mem_leaves leaf).mp hleaf, Finset.notMem_empty leaf⟩
  rw [Finset.empty_union, hleaves] at hpeeling
  have hsum := card_leaves_add_card_peel (G := G) (R := R)
  have hpos := (leaves_nonempty hG (Finset.card_pos.mp (by omega : 0 < R.card))).card_pos
  refine ⟨(R.card - nodes.length, graph', newLeaves), ?_, ⟨h.convex.peeled hG, ?_, ?_, hpeeling.nodup, ?_, ?_⟩,
    ?_⟩
  · rw [Solution.peelRound, if_pos hcount, hfold]
    rfl
  · dsimp only
    omega
  · intro v hv
    rw [neighbours_peel]
    exact hpeeling.kept v hv
  · intro v
    rw [TreePeeling.mem_leaves, neighbours_peel]
    exact hpeeling.mem_iff v
  · intro v
    rw [h.convex.isCentre_peel_iff hG hcard, h.centre v]
  · dsimp only
    omega

variable (G) in
/-- The loop is left with the centre of the tree, each node once. -/
def LeftWithCentre (result : Option (List (Fin n))) : Prop :=
  ∃ roots, result = some roots ∧ roots.Nodup ∧ ∀ v, v ∈ roots ↔ IsCentre G Finset.univ v

theorem Remaining.of_next {state next : Int × Graph n × List (Fin n)} (h : Remaining G R state) (hG : G.IsTree)
    (hround : Solution.peelRound state = .inl next) :
    (∃ R, Remaining G R next) ∧ next.1.toNat < state.1.toNat := by
  by_cases hcount : state.1 > 2
  · obtain ⟨next', hround', hnext, hless⟩ := h.peelRound hG hcount
    obtain rfl : next' = next := Sum.inl.inj (hround'.symm.trans hround)
    exact ⟨⟨_, hnext⟩, by omega⟩
  · rw [Solution.peelRound, if_neg hcount] at hround
    cases hround

theorem Remaining.of_done {state : Int × Graph n × List (Fin n)} {result : Option (List (Fin n))}
    (h : Remaining G R state) (hG : G.IsTree) (hround : Solution.peelRound state = .inr result) :
    LeftWithCentre G result := by
  have hcount : ¬ state.1 > 2 := by
    intro hcount
    obtain ⟨next, hround', -⟩ := h.peelRound hG hcount
    cases hround'.symm.trans hround
  rw [Solution.peelRound, if_neg hcount] at hround
  refine ⟨state.2.2, (Sum.inr.inj hround).symm, h.nodup, fun v => ?_⟩
  -- What is left are one or two nodes, all of them leaves and all of them the centre.
  have hcard : R.card ≤ 2 := by
    have hcard := h.count
    omega
  rw [h.mem_leaves v, leaves_eq_of_card_le_two hcard, ← h.centre v, isCentre_iff_of_card_le_two hcard]

theorem Remaining.iterate_peelRound {state : Int × Graph n × List (Fin n)} {rounds : ℕ}
    (h : Remaining G R state) (hG : G.IsTree) (hrounds : R.card < rounds) :
    LeftWithCentre G (iterate Solution.peelRound rounds state).join := by
  have hmeasure : state.1.toNat < rounds := by rwa [h.count, Int.toNat_natCast]
  obtain ⟨result, hiterate, hleft⟩ := iterate_of_measure (fun state => ∃ R, Remaining G R state)
    (LeftWithCentre G) (fun state => state.1.toNat) (fun _ _ ⟨_, h⟩ hround => h.of_next hG hround)
    (fun _ _ ⟨_, h⟩ hround => h.of_done hG hround) rounds state ⟨R, h⟩ hmeasure
  rwa [hiterate, Option.join_some]

end Rounds

variable {edges : List (Fin n × Fin n)} {rounds : ℕ}

theorem FormsTree.remaining (h : FormsTree edges) (hn : n ≠ 1) :
    Remaining (edgeGraph edges) Finset.univ
      (n, edges.foldl insertEdge fun _ => ∅,
        (List.finRange n).filter fun node => (edges.foldl insertEdge (fun _ => ∅) node).card = 1) := by
  refine ⟨fun _ _ _ _ w _ _ => Finset.mem_univ w, by simp, fun v _ => foldl_insertEdge_eq h.loopless v,
    (List.nodup_finRange n).filter _, fun v => ?_, fun v => Iff.rfl⟩
  -- No node of a tree is alone, so to have at most one neighbour is to have one.
  have hpos : 0 < (neighbours (edgeGraph edges) Finset.univ v).card := by
    have hcard : 1 < Fintype.card (Fin n) := by
      rw [Fintype.card_fin]
      have := v.isLt
      omega
    obtain ⟨other, hne⟩ := Fintype.exists_ne_of_one_lt_card hcard v
    obtain ⟨w, hadj, -⟩ := exists_closer h.isTree.connected hne
    exact Finset.card_pos.mpr ⟨w, mem_neighbours.mpr ⟨Finset.mem_univ w, hadj⟩⟩
  rw [List.mem_filter, decide_eq_true_iff, foldl_insertEdge_eq h.loopless, mem_leaves]
  simp only [List.mem_finRange, Finset.mem_univ, true_and]
  omega

/-- `findMinHeightTrees` ends and has found the roots at which the tree is lowest, each of them once. -/
theorem findMinHeightTrees_lowest (htree : FormsTree edges) (hrounds : n < rounds) :
    ∃ roots, findMinHeightTrees rounds edges = some roots ∧ roots.Nodup ∧
      ∀ root, root ∈ roots ↔ ∀ other, treeHeight edges root ≤ treeHeight edges other := by
  by_cases hone : n = 1
  · subst hone
    refine ⟨[0], rfl, List.nodup_singleton 0, fun root => ?_⟩
    rw [Subsingleton.elim root 0, List.mem_singleton]
    refine ⟨fun _ other => ?_, fun _ => rfl⟩
    rw [Subsingleton.elim other 0]
  · obtain ⟨roots, hroots, hnodup, hmem⟩ :=
      (htree.remaining hone).iterate_peelRound htree.isTree (by rwa [Finset.card_fin])
    refine ⟨roots, ?_, hnodup, fun root => ?_⟩
    · rw [findMinHeightTrees, dif_neg hone, hroots]
    · rw [hmem, IsCentre]
      simp only [Finset.mem_univ, true_and, forall_const]
      rfl

theorem formsTree_path : FormsTree [((0 : Fin 3), 1), (1, 2)] where
  loopless := by decide
  isTree := by
    rw [SimpleGraph.isTree_iff_connected_and_card]
    constructor
    · rw [SimpleGraph.connected_iff_exists_forall_reachable]
      refine ⟨1, fun v => ?_⟩
      by_cases hv : 1 = v
      · rw [hv]
      · exact SimpleGraph.Adj.reachable (by revert v; decide)
    · rw [Nat.card_eq_fintype_card, Nat.card_eq_fintype_card]
      decide

theorem findMinHeightTrees_lowest_path :
    FormsTree [((0 : Fin 3), 1), (1, 2)] ∧
    ∃ roots, findMinHeightTrees 4 [((0 : Fin 3), 1), (1, 2)] = some roots ∧ roots.Nodup ∧
      ∀ root, root ∈ roots ↔ ∀ other,
        treeHeight [((0 : Fin 3), 1), (1, 2)] root ≤ treeHeight [((0 : Fin 3), 1), (1, 2)] other :=
  ⟨formsTree_path, findMinHeightTrees_lowest formsTree_path (by decide)⟩

end EasyLib.Leecode.Solution
