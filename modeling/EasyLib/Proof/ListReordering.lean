import EasyLib.Leecode.ReorderList
import Mathlib.Data.List.Induction
import Mathlib.Data.List.OfFn

/-!
# Folding a list

The list `a1, …, an` is to become `a1, an, a2, a(n-1), …`. Taking away both ends gives the same task for the
nodes between them, and merging the first part with the second one from its end does just that. The three
loops only change links of nodes of the list, each of nodes that the other segments do not have.
-/

namespace EasyLib.Leecode.Solution

open LinkedList Loop

variable {Addr : Type*} {heap heap' : ListHeap Addr} {head p q one two cur prev : Option Addr}
  {nodes first second xs ys : List Addr} {rounds : ℕ}

/-! ### The order -/

/-- At the even places the nodes from the front, at the odd ones those from the end. -/
def reordered (nodes : List Addr) : List Addr :=
  List.ofFn fun i : Fin nodes.length =>
    if i.val % 2 = 0 then nodes.get ⟨i / 2, by omega⟩ else nodes.get ⟨nodes.length - 1 - i / 2, by omega⟩

theorem length_reordered (nodes : List Addr) : (reordered nodes).length = nodes.length :=
  List.length_ofFn

theorem getElem?_reordered {i : ℕ} (h : i < nodes.length) :
    (reordered nodes)[i]? = if i % 2 = 0 then nodes[i / 2]? else nodes[nodes.length - 1 - i / 2]? := by
  rw [reordered, List.getElem?_ofFn, dif_pos h]
  split_ifs with heven
  · rw [List.getElem?_eq_getElem (by omega), List.get_eq_getElem]
  · rw [List.getElem?_eq_getElem (by omega), List.get_eq_getElem]

/-- Both ends come first. -/
theorem reordered_ends (a z : Addr) (middle : List Addr) :
    reordered (a :: (middle ++ [z])) = a :: z :: reordered middle := by
  have hlen : (a :: (middle ++ [z])).length = middle.length + 2 := by
    rw [List.length_cons, List.length_append, List.length_singleton]
  apply List.ext_getElem?
  intro i
  by_cases hi : i < middle.length + 2
  · rw [getElem?_reordered (hlen ▸ hi), hlen]
    match i with
    | 0 => rfl
    | 1 =>
        have hlast : middle.length + 2 - 1 - 1 / 2 = middle.length + 1 := by omega
        rw [if_neg (by decide), hlast, List.getElem?_cons_succ, List.getElem?_append_right le_rfl,
          Nat.sub_self]
        rfl
    | i + 2 =>
        have hi' : i < middle.length := by omega
        rw [List.getElem?_cons_succ, List.getElem?_cons_succ, getElem?_reordered hi', Nat.add_mod_right,
          Nat.add_div_right i (by decide), List.getElem?_cons_succ, List.getElem?_append_left (by omega)]
        congr 1
        have hback : middle.length + 2 - 1 - (i / 2).succ = middle.length - 1 - i / 2 + 1 := by omega
        rw [hback, List.getElem?_cons_succ, List.getElem?_append_left (by omega)]
  · have hlen' : (a :: z :: reordered middle).length ≤ i := by
      simp only [List.length_cons, length_reordered]
      omega
    have hlen'' : (reordered (a :: (middle ++ [z]))).length ≤ i := by
      rw [length_reordered, hlen]
      omega
    rw [List.getElem?_eq_none hlen', List.getElem?_eq_none hlen'']

theorem reordered_of_length_le (h : nodes.length ≤ 2) : reordered nodes = nodes := by
  match nodes with
  | [] => rfl
  | [a] => simp [reordered]
  | [a, z] => exact reordered_ends a z []

theorem reordered_perm (nodes : List Addr) : (reordered nodes).Perm nodes := by
  induction nodes using List.bidirectionalRec with
  | nil => exact List.Perm.refl _
  | singleton a => rw [reordered_of_length_le (by simp)]
  | cons_append a middle z ih =>
      rw [reordered_ends]
      refine List.Perm.cons a ?_
      exact (List.Perm.cons z ih).trans (List.perm_append_singleton z middle).symm

/-- What the last loop makes of two lists, the second one not longer than the first. -/
def weave : List Addr → List Addr → List Addr
  | xs, [] => xs
  | [], _ :: _ => []
  | x :: xs, y :: ys => x :: y :: weave xs ys

theorem weave_eq_reordered (hle : ys.length ≤ xs.length) (hge : xs.length ≤ ys.length + 2) :
    weave xs ys = reordered (xs ++ ys.reverse) := by
  induction ys generalizing xs with
  | nil =>
      rw [List.reverse_nil, List.append_nil, reordered_of_length_le hge]
      cases xs <;> rfl
  | cons y ys ih =>
      cases xs with
      | nil => exact absurd hle (Nat.not_succ_le_zero _)
      | cons x xs =>
          have hrest := ih (Nat.le_of_succ_le_succ hle) (Nat.le_of_succ_le_succ hge)
          rw [List.reverse_cons, List.cons_append, ← List.append_assoc, reordered_ends, ← hrest]
          rfl

/-! ### The middle -/

theorem iterate_middleRound (rounds : ℕ) :
    ∀ {one two : Option Addr} {xs ys : List Addr}, Segment heap one xs none → Segment heap two ys none →
      ys.length ≤ xs.length → ys.length < rounds →
      ∃ onestep, iterate (middleRound heap) rounds (one, two) = some (some onestep) ∧
        Segment heap onestep (xs.drop (ys.length / 2)) none := by
  induction rounds with
  | zero =>
      intro one two xs ys _ _ _ hrounds
      exact absurd hrounds (Nat.not_lt_zero _)
  | succ rounds ih =>
      intro one two xs ys hone htwo hle hrounds
      match ys with
      | [] =>
          cases segment_nil.mp htwo
          exact ⟨one, iterate_done rfl, by simpa using hone⟩
      | [y] =>
          obtain ⟨rfl, node, hnode, hnext⟩ := htwo
          refine ⟨one, iterate_done ?_, by simpa using hone⟩
          rw [middleRound, readNext_some hnode, segment_nil.mp hnext]
      | y :: z :: ys =>
          obtain ⟨rfl, node, hnode, hnext, node', hnode', hrest⟩ := htwo
          match xs with
          | [] => exact absurd hle (Nat.not_succ_le_zero _)
          | x :: xs =>
              obtain ⟨rfl, node'', hnode'', hone'⟩ := hone
              obtain ⟨onestep, hloop, hsegment⟩ := ih hone' hrest
                (by simp only [List.length_cons] at hle; omega)
                (by simp only [List.length_cons] at hrounds; omega)
              refine ⟨onestep, ?_, ?_⟩
              · rw [← hloop]
                apply iterate_next
                rw [middleRound, readNext_some hnode, hnext]
                simp only [readNext_some hnode', readNext_some hnode'']
              · have hhalf : (y :: z :: ys).length / 2 = ys.length / 2 + 1 := by
                  simp only [List.length_cons]
                  omega
                rwa [hhalf, List.drop_succ_cons]

variable [DecidableEq Addr]

/-! ### The reversal -/

theorem iterate_reverseRound (xs : List Addr) :
    ∀ {heap : ListHeap Addr} {prev cur : Option Addr} {ys : List Addr} (rounds : ℕ),
      Segment heap cur xs none → Segment heap prev ys none → (xs ++ ys).Nodup → xs.length < rounds →
      ∃ heap' p, iterate reverseRound rounds (heap, prev, cur) = some (some (heap', p)) ∧
        Segment heap' p (xs.reverse ++ ys) none ∧ Relinked xs heap heap' := by
  induction xs with
  | nil =>
      intro heap prev cur ys rounds hcur hprev _ hrounds
      obtain ⟨rounds, rfl⟩ := Nat.exists_eq_succ_of_ne_zero (Nat.ne_of_gt hrounds)
      cases segment_nil.mp hcur
      exact ⟨heap, prev, iterate_done rfl, hprev, Relinked.refl [] heap⟩
  | cons x xs ih =>
      intro heap prev cur ys rounds hcur hprev hnodup hrounds
      obtain ⟨rounds, rfl⟩ := Nat.exists_eq_succ_of_ne_zero (Nat.ne_zero_of_lt hrounds)
      obtain ⟨rfl, node, hnode, hrest⟩ := hcur
      obtain ⟨hx, hnodup'⟩ := List.nodup_cons.mp hnodup
      have hxs : x ∉ xs := fun hmem => hx (List.mem_append_left ys hmem)
      have hys : x ∉ ys := fun hmem => hx (List.mem_append_right xs hmem)
      -- The node is taken from the front of what is left to the front of what is reversed.
      obtain ⟨heap1, hwrite, hx1, hrelinked1⟩ := exists_writeNext hnode prev
      have hrest1 := hrest.of_relinked hrelinked1 (List.disjoint_singleton.mpr hxs)
      have hprev1 : Segment heap1 (some x) (x :: ys) none :=
        ⟨rfl, _, hx1, hprev.of_relinked hrelinked1 (List.disjoint_singleton.mpr hys)⟩
      have hperm : (xs ++ x :: ys).Nodup := (List.perm_middle.nodup_iff).mpr hnodup
      obtain ⟨heap', p, hloop, hsegment, hrelinked⟩ := ih rounds hrest1 hprev1 hperm
        (Nat.lt_of_succ_lt_succ hrounds)
      refine ⟨heap', p, ?_, ?_, ?_⟩
      · rw [← hloop]
        apply iterate_next
        rw [reverseRound, readNext_some hnode, hwrite]
      · rw [List.reverse_cons, List.append_assoc]
        exact hsegment
      · exact (hrelinked1.mono (by simp)).trans (hrelinked.mono (List.subset_cons_self x xs))

/-! ### The merge -/

theorem mergeRound_next {x y : Addr} {nodeX nodeY : Node Addr Int} (hx : heap x = some nodeX)
    (hy : heap y = some nodeY) (hne : x ≠ y) :
    ∃ heap', mergeRound (heap, some x, some y) = .inl (heap', nodeX.next, nodeY.next) ∧
      heap' x = some { nodeX with next := some y } ∧ heap' y = some { nodeY with next := nodeX.next } ∧
      Relinked [x, y] heap heap' := by
  obtain ⟨heap1, hwrite1, hx1, hrelinked1⟩ := exists_writeNext hx (some y)
  have hy1 : heap1 y = some nodeY := (hrelinked1.outside y (List.mem_singleton.not.mpr hne.symm)).trans hy
  obtain ⟨heap2, hwrite2, hy2, hrelinked2⟩ := exists_writeNext hy1 nodeX.next
  have hx2 := (hrelinked2.outside x (List.mem_singleton.not.mpr hne)).trans hx1
  refine ⟨heap2, ?_, hx2, hy2, (hrelinked1.mono (by simp)).trans (hrelinked2.mono (by simp))⟩
  rw [mergeRound, readNext_some hx, readNext_some hy, hwrite1]
  simp only [Option.bind_some, hwrite2, attempt]

theorem iterate_mergeRound (ys : List Addr) :
    ∀ {heap : ListHeap Addr} {p q : Option Addr} {xs : List Addr} (rounds : ℕ),
      Segment heap p xs none → Segment heap q ys none → (xs ++ ys).Nodup → ys.length ≤ xs.length →
      ys.length < rounds →
      ∃ heap', iterate mergeRound rounds (heap, p, q) = some (some heap') ∧
        Segment heap' p (weave xs ys) none ∧ Relinked (xs ++ ys) heap heap' := by
  induction ys with
  | nil =>
      intro heap p q xs rounds hp hq _ _ hrounds
      obtain ⟨rounds, rfl⟩ := Nat.exists_eq_succ_of_ne_zero (Nat.ne_of_gt hrounds)
      cases segment_nil.mp hq
      refine ⟨heap, iterate_done ?_, ?_, Relinked.refl _ heap⟩
      · cases p <;> rfl
      · cases xs <;> exact hp
  | cons y ys ih =>
      intro heap p q xs rounds hp hq hnodup hle hrounds
      obtain ⟨rounds, rfl⟩ := Nat.exists_eq_succ_of_ne_zero (Nat.ne_zero_of_lt hrounds)
      match xs with
      | [] => exact absurd hle (Nat.not_succ_le_zero _)
      | x :: xs =>
          obtain ⟨rfl, nodeX, hnodeX, hxs⟩ := hp
          obtain ⟨rfl, nodeY, hnodeY, hys⟩ := hq
          rw [List.cons_append] at hnodup
          obtain ⟨hx, hrest⟩ := List.nodup_cons.mp hnodup
          obtain ⟨hy, hnodup'⟩ := List.nodup_cons.mp (List.perm_middle.nodup_iff.mp hrest)
          simp only [List.mem_append, List.mem_cons, not_or] at hx hy
          obtain ⟨hxxs, hxy, hxys⟩ := hx
          obtain ⟨heap1, hround, hx1, hy1, hrelinked1⟩ := mergeRound_next hnodeX hnodeY hxy
          have hxs1 := hxs.of_relinked hrelinked1 (by simp [hxxs, hy.1])
          have hys1 := hys.of_relinked hrelinked1 (by simp [hxys, hy.2])
          obtain ⟨heap', hloop, hsegment, hrelinked⟩ := ih rounds hxs1 hys1 hnodup'
            (Nat.le_of_succ_le_succ hle) (Nat.lt_of_succ_lt_succ hrounds)
          refine ⟨heap', (iterate_next hround).trans hloop, ?_, ?_⟩
          · have hx' : heap' x = heap1 x := hrelinked.outside x (by simp [hxxs, hxys])
            have hy' : heap' y = heap1 y := hrelinked.outside y (by simp [hy])
            exact ⟨rfl, _, hx'.trans hx1, rfl, _, hy'.trans hy1, hsegment⟩
          · refine (hrelinked1.mono (by simp)).trans (hrelinked.mono fun a ha => ?_)
            rcases List.mem_append.mp ha with hmem | hmem <;> simp [hmem]

/-! ### The whole function -/

/-- The two lists on both sides of the cut: the second one is reversed and merged into the first. -/
theorem reverse_merge_spec (hfirst : Segment heap head first none) (hsecond : Segment heap p second none)
    (hnodup : (first ++ second).Nodup) (hle : second.length ≤ first.length)
    (hge : first.length ≤ second.length + 2) (hrounds : second.length < rounds) :
    ∃ heap', ((iterate reverseRound rounds (heap, none, p)).join.bind fun (heap, second) =>
        (iterate mergeRound rounds (heap, head, second)).join) = some heap' ∧
      Segment heap' head (reordered (first ++ second)) none ∧ Relinked (first ++ second) heap heap' := by
  obtain ⟨-, hnodupSecond, hdisjoint⟩ := List.nodup_append'.mp hnodup
  obtain ⟨heap1, q, hreverse, hsecond1, hrelinked1⟩ := iterate_reverseRound second rounds hsecond
    (segment_nil.mpr rfl) (by rwa [List.append_nil]) hrounds
  rw [List.append_nil] at hsecond1
  have hfirst1 := hfirst.of_relinked hrelinked1 hdisjoint
  have hnodup1 : (first ++ second.reverse).Nodup :=
    (List.Perm.append_left _ (List.reverse_perm second)).nodup_iff.mpr hnodup
  obtain ⟨heap2, hmerge, hsegment, hrelinked2⟩ := iterate_mergeRound second.reverse rounds hfirst1 hsecond1
    hnodup1 (by rwa [List.length_reverse]) (by rwa [List.length_reverse])
  have hweave : weave first second.reverse = reordered (first ++ second) := by
    rw [weave_eq_reordered (by rwa [List.length_reverse]) (by rwa [List.length_reverse]), List.reverse_reverse]
  refine ⟨heap2, ?_, hweave ▸ hsegment, (hrelinked1.mono (by simp)).trans (hrelinked2.mono (by simp))⟩
  rw [hreverse, Option.join_some, Option.bind_some]
  exact congrArg Option.join hmerge

/-- From the cut on, with the null pointer behind the first nodes. -/
theorem reorderFrom_spec {m : Addr} (hhead : Segment heap head (first ++ m :: second) none)
    (hle : second.length ≤ first.length + 1) (hge : first.length ≤ second.length + 1)
    (hrounds : second.length < rounds) :
    ∃ heap', reorderFrom rounds heap head (some m) = some heap' ∧
      Segment heap' head (reordered (first ++ m :: second)) none ∧
      Relinked (first ++ m :: second) heap heap' := by
  have hsplit : first ++ m :: second = first ++ [m] ++ second := by
    rw [List.append_assoc, List.singleton_append]
  have hnodup := hhead.nodup
  obtain ⟨r, hfirst, rfl, node, hnode, hsecond⟩ := segment_append.mp hhead
  obtain ⟨hm, -⟩ := List.nodup_cons.mp (List.perm_middle.nodup_iff.mp hnodup)
  rw [List.mem_append, not_or] at hm
  obtain ⟨heap1, hwrite, hm1, hrelinked⟩ := exists_writeNext hnode none
  have hrelinked1 : Relinked (first ++ m :: second) heap heap1 := hrelinked.mono (by simp)
  have hfirst1 : Segment heap1 head (first ++ [m]) none :=
    segment_append.mpr
      ⟨some m, hfirst.of_relinked hrelinked (List.disjoint_singleton.mpr hm.1), rfl, _, hm1, rfl⟩
  have hsecond1 := hsecond.of_relinked hrelinked (List.disjoint_singleton.mpr hm.2)
  rw [reorderFrom, readNext_some hnode, Option.bind_some, hwrite, Option.bind_some]
  cases second with
  | nil =>
      rw [if_pos (segment_nil.mp hsecond), reordered_of_length_le]
      · exact ⟨heap1, rfl, hfirst1, hrelinked1⟩
      · simpa using hge
  | cons b rest =>
      have hne : node.next ≠ none := by
        rw [hsecond.1]
        exact Option.some_ne_none b
      rw [hsplit] at hnodup hrelinked1 ⊢
      obtain ⟨heap2, hloops, hsegment, hrelinked2⟩ := reverse_merge_spec hfirst1 hsecond1 hnodup
        (by rwa [List.length_append, List.length_singleton])
        (by rw [List.length_append, List.length_singleton]; omega) hrounds
      rw [if_neg hne]
      exact ⟨heap2, hloops, hsegment, hrelinked1.trans hrelinked2⟩

/-- `reorderList` ends and leaves a list of the same nodes, from the front and from the end in turn. No value
has changed, and nothing outside of the list. -/
theorem reorderList_reorders (hlist : Segment heap head nodes none) (hrounds : nodes.length < rounds) :
    ∃ heap', reorderList rounds heap head = some heap' ∧ Segment heap' head (reordered nodes) none ∧
      (reordered nodes).Perm nodes ∧ Relinked nodes heap heap' := by
  suffices hsuffices : ∃ heap', reorderList rounds heap head = some heap' ∧
      Segment heap' head (reordered nodes) none ∧ Relinked nodes heap heap' by
    obtain ⟨heap', hresult, hsegment, hrelinked⟩ := hsuffices
    exact ⟨heap', hresult, hsegment, reordered_perm nodes, hrelinked⟩
  match nodes with
  | [] =>
      have hnone : head = none := segment_nil.mp hlist
      refine ⟨heap, ?_, hlist, Relinked.refl [] heap⟩
      rw [reorderList, if_pos hnone]
  | [a] =>
      obtain ⟨rfl, node, hnode, hnext⟩ := hlist
      refine ⟨heap, ?_, ?_, Relinked.refl [a] heap⟩
      · rw [reorderList, if_neg (Option.some_ne_none a), readNext_some hnode, Option.bind_some,
          if_pos (segment_nil.mp hnext)]
      · rw [reordered_of_length_le (by simp)]
        exact ⟨rfl, node, hnode, hnext⟩
  | a :: b :: rest =>
      obtain ⟨m, second, hdrop⟩ : ∃ m second, (a :: b :: rest).drop ((a :: b :: rest).length / 2) = m :: second :=
        List.exists_cons_of_ne_nil (List.drop_eq_nil_iff.not.mpr (by simp only [List.length_cons]; omega))
      obtain ⟨onestep, hloop, hmiddle⟩ := iterate_middleRound rounds hlist hlist le_rfl hrounds
      rw [hdrop] at hmiddle
      obtain rfl : onestep = some m := hmiddle.1
      -- The list is what the slow pointer has passed, the node it is at, and the rest.
      have hsplit := List.take_append_drop ((a :: b :: rest).length / 2) (a :: b :: rest)
      rw [hdrop] at hsplit
      have hlen := congrArg List.length hsplit
      simp only [List.length_append, List.length_take, List.length_cons] at hlen hrounds
      obtain ⟨heap', hfrom, hsegment, hrelinked⟩ := reorderFrom_spec (hsplit.symm ▸ hlist)
        (by simp only [List.length_take, List.length_cons]; omega)
        (by simp only [List.length_take, List.length_cons]; omega) (by omega : second.length < rounds)
      rw [hsplit] at hsegment hrelinked
      refine ⟨heap', ?_, hsegment, hrelinked⟩
      obtain ⟨rfl, node, hnode, hnext⟩ := hlist
      have hsome : node.next ≠ none := hnext.1 ▸ Option.some_ne_none b
      rw [reorderList, if_neg (Option.some_ne_none a), readNext_some hnode, Option.bind_some, if_neg hsome,
        hloop, Option.join_some, Option.bind_some, hfrom]

/-- Four nodes one behind the other, with the values of their addresses. -/
def fourNodes : ListHeap ℕ := fun a =>
  if a < 3 then some ⟨a, some (a + 1)⟩ else if a = 3 then some ⟨a, none⟩ else none

theorem reorderList_reorders_four :
    Segment fourNodes (some 0) [0, 1, 2, 3] none ∧
    ∃ heap', reorderList 5 fourNodes (some 0) = some heap' ∧
      Segment heap' (some 0) (reordered [0, 1, 2, 3]) none ∧
      (reordered [0, 1, 2, 3]).Perm [0, 1, 2, 3] ∧ Relinked [0, 1, 2, 3] fourNodes heap' := by
  have hlist : Segment fourNodes (some 0) [0, 1, 2, 3] none :=
    ⟨rfl, _, rfl, rfl, _, rfl, rfl, _, rfl, rfl, _, rfl, rfl⟩
  exact ⟨hlist, reorderList_reorders hlist (by decide)⟩

end EasyLib.Leecode.Solution
