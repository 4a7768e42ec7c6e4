import Mathlib.Combinatorics.SimpleGraph.Acyclic

/-!
# Peeling the leaves of a tree

A part of a tree is a set `R` of its nodes that has the paths between them. To peel it is to take away all of
its leaves at once. What is left is a part again, every node in it is one step nearer to the node that is
farthest from it, and so the nodes in the middle stay the same, down to a part of one or two nodes. All
distances are those of the whole tree.
-/

namespace EasyLib.TreePeeling

open SimpleGraph

variable {V : Type*} {G : SimpleGraph V} {root v w : V}

theorem exists_closer (hG : G.Connected) (hne : root ≠ v) :
    ∃ w, G.Adj v w ∧ G.dist root v = G.dist root w + 1 := by
  obtain ⟨walk, hwalk⟩ := hG.exists_walk_length_eq_dist v root
  cases walk with
  | nil => exact absurd rfl hne
  | @cons _ w _ hadj rest =>
      refine ⟨w, hadj, ?_⟩
      have hle : G.dist root w ≤ rest.length := dist_comm (G := G) ▸ dist_le rest
      have hlen : rest.length + 1 = G.dist root v := by rw [← Walk.length_cons hadj, hwalk, dist_comm]
      have hdiff := hadj.diff_dist_adj (u := root)
      omega

/-- There is one way from a node to the root. -/
theorem closer_unique (hG : G.IsTree) {w' : V} (hadj : G.Adj v w) (hadj' : G.Adj v w')
    (hdist : G.dist root v = G.dist root w + 1) (hdist' : G.dist root v = G.dist root w' + 1) : w = w' := by
  have hpath : ∀ x, (hx : G.Adj v x) → G.dist root v = G.dist root x + 1 →
      ∃ rest : G.Walk x root, (Walk.cons hx rest).IsPath := by
    intro x hx hdistx
    obtain ⟨rest, hrest⟩ := hG.connected.exists_walk_length_eq_dist x root
    refine ⟨rest, Walk.isPath_of_length_eq_dist _ ?_⟩
    rw [Walk.length_cons, hrest, dist_comm, ← hdistx, dist_comm]
  obtain ⟨rest, hrest⟩ := hpath w hadj hdist
  obtain ⟨rest', hrest'⟩ := hpath w' hadj' hdist'
  have heq := (hG.isAcyclic.subsingleton_path v root).elim ⟨_, hrest⟩ ⟨_, hrest'⟩
  calc
    w = (Walk.cons hadj rest).snd := (Walk.snd_cons rest hadj).symm
    _ = (Walk.cons hadj' rest').snd := congrArg Walk.snd (congrArg Subtype.val heq)
    _ = w' := Walk.snd_cons rest' hadj'

variable {R : Finset V} {leaf p u : V}

variable (G) in
/-- How far the farthest of the nodes is from the root. -/
noncomputable def height (R : Finset V) (root : V) : ℕ := R.sup (G.dist root)

theorem dist_le_height (root : V) (hu : u ∈ R) : G.dist root u ≤ height G R root := Finset.le_sup hu

theorem exists_farthest (hR : R.Nonempty) (root : V) : ∃ u ∈ R, height G R root = G.dist root u :=
  Finset.exists_mem_eq_sup R hR (G.dist root)

variable (G) in
/-- The nodes that make the lowest roots. -/
def IsCentre (R : Finset V) (v : V) : Prop := v ∈ R ∧ ∀ u ∈ R, height G R v ≤ height G R u

/-- Of two nodes each is as far from the other. -/
theorem isCentre_iff_of_card_le_two (hcard : R.card ≤ 2) : IsCentre G R v ↔ v ∈ R := by
  refine ⟨And.left, fun hv => ⟨hv, fun u hu => ?_⟩⟩
  by_cases huv : u = v
  · rw [huv]
  refine Finset.sup_le fun w hw => ?_
  obtain rfl | hwv := eq_or_ne w v
  · rw [dist_self]
    exact Nat.zero_le _
  · have hwu : w = u := by
      by_contra hne
      exact hcard.not_gt (Finset.two_lt_card.mpr ⟨u, hu, v, hv, w, hw, huv, Ne.symm hne, hwv.symm⟩)
    rw [hwu, dist_comm]
    exact dist_le_height u hv

section Parts

variable [DecidableRel G.Adj]

variable (G) in
/-- A step from one of the nodes towards another stays in the set. -/
def Convex (R : Finset V) : Prop :=
  ∀ ⦃root⦄, root ∈ R → ∀ ⦃v⦄, v ∈ R → ∀ ⦃w⦄, G.Adj v w → G.dist root v = G.dist root w + 1 → w ∈ R

variable (G) in
def neighbours (R : Finset V) (v : V) : Finset V := R.filter (G.Adj v)

variable (G) in
def leaves (R : Finset V) : Finset V := R.filter fun v => (neighbours G R v).card ≤ 1

variable (G) in
def peel (R : Finset V) : Finset V := R.filter fun v => ¬ (neighbours G R v).card ≤ 1

theorem mem_neighbours : w ∈ neighbours G R v ↔ w ∈ R ∧ G.Adj v w := Finset.mem_filter

theorem mem_leaves : v ∈ leaves G R ↔ v ∈ R ∧ (neighbours G R v).card ≤ 1 := Finset.mem_filter

theorem mem_peel : v ∈ peel G R ↔ v ∈ R ∧ ¬ (neighbours G R v).card ≤ 1 := Finset.mem_filter

theorem mem_leaves_or_mem_peel (hv : v ∈ R) : v ∈ leaves G R ∨ v ∈ peel G R := by
  by_cases hcard : (neighbours G R v).card ≤ 1
  · exact Or.inl (mem_leaves.mpr ⟨hv, hcard⟩)
  · exact Or.inr (mem_peel.mpr ⟨hv, hcard⟩)

theorem card_leaves_add_card_peel : (leaves G R).card + (peel G R).card = R.card :=
  Finset.card_filter_add_card_filter_not _

theorem neighbours_peel [DecidableEq V] : neighbours G (peel G R) v = neighbours G R v \ leaves G R := by
  ext w
  rw [Finset.mem_sdiff, mem_neighbours, mem_neighbours, mem_peel, mem_leaves]
  tauto

theorem Convex.exists_closer (hR : Convex G R) (hG : G.IsTree) (hroot : root ∈ R) (hv : v ∈ R)
    (hne : root ≠ v) : ∃ w ∈ neighbours G R v, G.dist root v = G.dist root w + 1 := by
  obtain ⟨w, hadj, hdist⟩ := TreePeeling.exists_closer hG.connected hne
  exact ⟨w, mem_neighbours.mpr ⟨hR hroot hv hadj hdist, hadj⟩, hdist⟩

/-- A node on the way between two others is not a leaf. -/
theorem Convex.mem_peel_of_between (hR : Convex G R) (hG : G.IsTree) (hroot : root ∈ R) (hv : v ∈ R)
    (hne : root ≠ v) (hw : w ∈ neighbours G R v) (hdist : G.dist root w = G.dist root v + 1) :
    v ∈ peel G R := by
  refine mem_peel.mpr ⟨hv, fun hcard => ?_⟩
  obtain ⟨closer, hcloser, hdist'⟩ := hR.exists_closer hG hroot hv hne
  obtain rfl : closer = w := Finset.card_le_one.mp hcard _ hcloser _ hw
  omega

/-- All ways to a leaf lead over its neighbour. -/
theorem Convex.dist_leaf (hR : Convex G R) (hG : G.IsTree) (hleaf : leaf ∈ leaves G R)
    (hp : p ∈ neighbours G R leaf) (hroot : root ∈ R) (hne : root ≠ leaf) :
    G.dist root leaf = G.dist root p + 1 := by
  obtain ⟨hmem, hcard⟩ := mem_leaves.mp hleaf
  obtain ⟨w, hw, hdist⟩ := hR.exists_closer hG hroot hmem hne
  rwa [Finset.card_le_one.mp hcard p hp w hw]

theorem neighbours_symm (hv : v ∈ R) (hw : w ∈ neighbours G R v) : v ∈ neighbours G R w :=
  mem_neighbours.mpr ⟨hv, (mem_neighbours.mp hw).2.symm⟩

theorem exists_third (hcard : 2 < R.card) (a b : V) : ∃ u ∈ R, u ≠ a ∧ u ≠ b := by
  classical
  obtain ⟨u, hu, hnot⟩ := Finset.exists_mem_notMem_of_card_lt_card (Finset.card_le_two.trans_lt hcard)
  rw [Finset.mem_insert, Finset.mem_singleton, not_or] at hnot
  exact ⟨u, hu, hnot⟩

/-- Two leaves are neighbours only where there is nothing else. -/
theorem Convex.neighbour_mem_peel (hR : Convex G R) (hG : G.IsTree) (hcard : 2 < R.card)
    (hleaf : leaf ∈ leaves G R) (hp : p ∈ neighbours G R leaf) : p ∈ peel G R := by
  have hleafR := (mem_leaves.mp hleaf).1
  refine (mem_leaves_or_mem_peel (mem_neighbours.mp hp).1).resolve_left fun hpleaf => ?_
  obtain ⟨u, hu, hneLeaf, hneP⟩ := exists_third hcard leaf p
  have hdist := hR.dist_leaf hG hleaf hp hu hneLeaf
  have hdist' := hR.dist_leaf hG hpleaf (neighbours_symm hleafR hp) hu hneP
  omega

/-- A node with none farther away is a leaf: all its neighbours are nearer to the root. -/
theorem mem_leaves_of_farthest (hG : G.IsTree) (hv : v ∈ R)
    (hfar : ∀ u ∈ R, G.dist root u ≤ G.dist root v) : v ∈ leaves G R := by
  have hcloser : ∀ w ∈ neighbours G R v, G.dist root v = G.dist root w + 1 := by
    intro w hw
    have hle := hfar w (mem_neighbours.mp hw).1
    have hdist := hG.dist_eq_dist_add_one_of_adj root (mem_neighbours.mp hw).2
    omega
  refine mem_leaves.mpr ⟨hv, Finset.card_le_one.mpr fun a ha b hb => ?_⟩
  exact closer_unique hG (mem_neighbours.mp ha).2 (mem_neighbours.mp hb).2 (hcloser a ha) (hcloser b hb)

theorem leaves_nonempty (hG : G.IsTree) (hR : R.Nonempty) : (leaves G R).Nonempty := by
  obtain ⟨root, hroot⟩ := hR
  obtain ⟨u, hu, hfar⟩ := exists_farthest (G := G) ⟨root, hroot⟩ root
  exact ⟨u, mem_leaves_of_farthest hG hu fun w hw => hfar ▸ dist_le_height root hw⟩

theorem Convex.peeled (hR : Convex G R) (hG : G.IsTree) : Convex G (peel G R) := by
  intro root hroot v hv w hadj hdist
  have hrootR := (mem_peel.mp hroot).1
  have hvR := (mem_peel.mp hv).1
  have hwR := hR hrootR hvR hadj hdist
  by_cases hne : root = w
  · exact hne ▸ hroot
  · exact hR.mem_peel_of_between hG hrootR hwR hne (mem_neighbours.mpr ⟨hvR, hadj.symm⟩) hdist

/-- The node farthest from a root is a leaf, and behind every node that is left there was one. -/
theorem Convex.height_peel (hR : Convex G R) (hG : G.IsTree) (hroot : root ∈ peel G R) :
    height G R root = height G (peel G R) root + 1 := by
  obtain ⟨hrootR, hrootcard⟩ := mem_peel.mp hroot
  apply le_antisymm
  · refine Finset.sup_le fun u hu => ?_
    obtain hleaf | hu' := mem_leaves_or_mem_peel (G := G) hu
    · have hne : root ≠ u := by
        rintro rfl
        exact hrootcard (mem_leaves.mp hleaf).2
      obtain ⟨p, hp, hdist⟩ := hR.exists_closer hG hrootR hu hne
      have hppeel : p ∈ peel G R := by
        by_cases hnep : root = p
        · exact hnep ▸ hroot
        · exact hR.mem_peel_of_between hG hrootR (mem_neighbours.mp hp).1 hnep (neighbours_symm hu hp) hdist
      rw [hdist]
      exact Nat.succ_le_succ (dist_le_height root hppeel)
    · exact (dist_le_height root hu').trans (Nat.le_succ _)
  · obtain ⟨u, hu, hfar⟩ := exists_farthest (G := G) ⟨root, hroot⟩ root
    obtain ⟨huR, hucard⟩ := mem_peel.mp hu
    obtain ⟨a, b, ha, hb, hab⟩ := Finset.one_lt_card_iff.mp (not_le.mp hucard)
    have hbehind : ∃ w ∈ neighbours G R u, G.dist root w = G.dist root u + 1 := by
      obtain hcloser | hbehind := hG.dist_eq_dist_add_one_of_adj root (mem_neighbours.mp ha).2
      · obtain hcloser' | hbehind := hG.dist_eq_dist_add_one_of_adj root (mem_neighbours.mp hb).2
        · exact absurd
            (closer_unique hG (mem_neighbours.mp ha).2 (mem_neighbours.mp hb).2 hcloser hcloser') hab
        · exact ⟨b, hb, hbehind⟩
      · exact ⟨a, ha, hbehind⟩
    obtain ⟨w, hw, hdist⟩ := hbehind
    calc
      height G (peel G R) root + 1 = G.dist root w := by rw [hfar, hdist]
      _ ≤ height G R root := dist_le_height root (mem_neighbours.mp hw).1

theorem Convex.height_lt_leaf (hR : Convex G R) (hG : G.IsTree) (hcard : 2 < R.card)
    (hleaf : leaf ∈ leaves G R) (hp : p ∈ neighbours G R leaf) : height G R p < height G R leaf := by
  have hdist : ∀ u ∈ R, u ≠ leaf → G.dist leaf u = G.dist p u + 1 := by
    intro u hu hne
    rw [dist_comm, hR.dist_leaf hG hleaf hp hu hne, dist_comm]
  obtain ⟨third, hthird, hneLeaf, hneP⟩ := exists_third hcard leaf p
  have hthirdDist := hdist third hthird hneLeaf
  have hpos := hG.connected.pos_dist_of_ne hneP.symm
  have hfar := dist_le_height (G := G) leaf hthird
  have hheight : ⊥ < height G R leaf := by rw [Nat.bot_eq_zero]; omega
  refine (Finset.sup_lt_iff hheight).mpr fun u hu => ?_
  by_cases hne : u = leaf
  · rw [hne, dist_eq_one_iff_adj.mpr (mem_neighbours.mp hp).2.symm]
    omega
  · have hdistu := hdist u hu hne
    have hleu := dist_le_height (G := G) leaf hu
    omega

/-- **Peeling keeps the centre.** -/
theorem Convex.isCentre_peel_iff (hR : Convex G R) (hG : G.IsTree) (hcard : 2 < R.card) :
    IsCentre G (peel G R) v ↔ IsCentre G R v := by
  -- A leaf is never in the centre: the node beside it is lower, and it is not peeled.
  have hlower : ∀ u ∈ R, u ∉ peel G R → ∃ p ∈ peel G R, height G R p < height G R u := by
    intro u hu hnot
    have hleaf := (mem_leaves_or_mem_peel hu).resolve_right hnot
    obtain ⟨third, hthird, hne, -⟩ := exists_third hcard u u
    obtain ⟨p, hp, -⟩ := hR.exists_closer hG hthird hu hne
    exact ⟨p, hR.neighbour_mem_peel hG hcard hleaf hp, hR.height_lt_leaf hG hcard hleaf hp⟩
  have hshift : ∀ {a b}, a ∈ peel G R → b ∈ peel G R →
      (height G (peel G R) a ≤ height G (peel G R) b ↔ height G R a ≤ height G R b) := by
    intro a b ha hb
    rw [hR.height_peel hG ha, hR.height_peel hG hb, Nat.add_le_add_iff_right]
  constructor
  · rintro ⟨hv, hmin⟩
    refine ⟨(mem_peel.mp hv).1, fun u hu => ?_⟩
    by_cases hpeel : u ∈ peel G R
    · exact (hshift hv hpeel).mp (hmin u hpeel)
    · obtain ⟨p, hp, hlt⟩ := hlower u hu hpeel
      exact ((hshift hv hp).mp (hmin p hp)).trans hlt.le
  · rintro ⟨hv, hmin⟩
    have hpeel : v ∈ peel G R := by
      by_contra hnot
      obtain ⟨p, hp, hlt⟩ := hlower v hv hnot
      exact hlt.not_ge (hmin p (mem_peel.mp hp).1)
    exact ⟨hpeel, fun u hu => (hshift hpeel hu).mpr (hmin u (mem_peel.mp hu).1)⟩

theorem leaves_eq_of_card_le_two (hcard : R.card ≤ 2) : leaves G R = R := by
  refine Finset.filter_true_of_mem fun v hv => Finset.card_le_one.mpr fun a ha b hb => ?_
  obtain ⟨haR, hva⟩ := mem_neighbours.mp ha
  obtain ⟨hbR, hvb⟩ := mem_neighbours.mp hb
  by_contra hne
  exact hcard.not_gt (Finset.two_lt_card.mpr ⟨v, hv, a, haR, b, hbR, hva.ne, hvb.ne, hne⟩)

end Parts

end EasyLib.TreePeeling
