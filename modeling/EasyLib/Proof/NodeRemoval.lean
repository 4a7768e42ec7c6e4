import EasyLib.Leecode.RemoveNthFromEnd

/-!
# The n-th node from the end is removed

Where the list is long enough, the two pointers are `n - 1` nodes apart, and at the end of the second loop
the one behind is at the n-th node from the end. For any other `n` the first loop runs off the list and
nothing is changed; so it is for zero, which the counter never meets.
-/

namespace EasyLib.Leecode.Solution

open LinkedList Loop MachineInt

variable {Addr : Type*} {heap heap' : ListHeap Addr} {head p : Option Addr} {n : Int} {a : Addr}
  {nodes front back : List Addr} {rounds : ℕ}

/-- The node at a place is out of the list and deleted, and no other node has changed its value. -/
structure Removed (nodes : List Addr) (place : ℕ) (a : Addr) (heap heap' : ListHeap Addr)
    (head' : Option Addr) : Prop where
  node : nodes[place]? = some a
  list : Segment heap' head' (nodes.eraseIdx place) none
  deleted : heap' a = none
  values : ∀ b ≠ a, (heap' b).map Node.val = (heap b).map Node.val
  outside : ∀ b ∉ nodes, heap' b = heap b

/-! ### The two loops -/

/-- The first loop, from the node at the place `k` on. -/
theorem iterate_countRound (back : List Addr) :
    ∀ {p : Option Addr} {k rounds : ℕ}, Segment heap p back none → back.length < rounds →
      k + back.length < 2 ^ 31 - 1 →
      iterate (countRound heap n) rounds (p, k + 1) =
        some (some (if k < n ∧ n ≤ k + back.length then back[(n - k - 1).toNat]? else none)) := by
  induction back with
  | nil =>
      intro p k rounds hsegment hrounds _
      obtain ⟨rounds, rfl⟩ := Nat.exists_eq_succ_of_ne_zero (Nat.ne_of_gt hrounds)
      cases segment_nil.mp hsegment
      have hround : countRound heap n (none, (k : Int) + 1) = .inr (some none) := rfl
      rw [iterate_done hround, List.getElem?_nil, ite_self]
  | cons a back ih =>
      intro p k rounds hsegment hrounds hsize
      obtain ⟨rounds, rfl⟩ := Nat.exists_eq_succ_of_ne_zero (Nat.ne_zero_of_lt hrounds)
      obtain ⟨rfl, node, hnode, hrest⟩ := hsegment
      rw [List.length_cons] at hrounds hsize ⊢
      by_cases hn : (k : Int) + 1 = n
      · have hround : countRound heap n (some a, (k : Int) + 1) = .inr (some (some a)) := by
          rw [countRound, if_neg (not_not.mpr hn)]
        have hzero : (n - k - 1).toNat = 0 := by omega
        rw [iterate_done hround, if_pos (by omega), hzero, List.getElem?_cons_zero]
      · have hnext : toInt32 ((k : Int) + 1 + 1) = ((k + 1 : ℕ) : Int) + 1 :=
          (toInt32_of_range (by omega) (by omega)).trans (by omega)
        have hround : countRound heap n (some a, (k : Int) + 1) =
            .inl (node.next, ((k + 1 : ℕ) : Int) + 1) := by
          rw [countRound, if_pos hn, readNext_some hnode, attempt, hnext]
        rw [iterate_next hround, ih hrest (by omega) (by omega)]
        by_cases hin : (k : Int) < n ∧ n ≤ k + (back.length + 1 : ℕ)
        · have hindex : (n - k - 1).toNat = (n - (k + 1 : ℕ) - 1).toNat + 1 := by omega
          rw [if_pos (by omega), if_pos hin, hindex, List.getElem?_cons_succ]
        · rw [if_neg (by omega), if_neg hin]

theorem iterate_countRound_head (hlist : Segment heap head nodes none)
    (hsize : nodes.length < 2 ^ 31 - 1) (hrounds : nodes.length < rounds) (n : Int) :
    iterate (countRound heap n) rounds (head, 1) =
      some (some (if 1 ≤ n ∧ n ≤ nodes.length then nodes[n.toNat - 1]? else none)) := by
  have hcount : iterate (countRound heap n) rounds (head, ((0 : ℕ) : Int) + 1) = _ :=
    iterate_countRound nodes hlist hrounds (by omega)
  have hindex : (n - ((0 : ℕ) : Int) - 1).toNat = n.toNat - 1 := by omega
  have hrange : (((0 : ℕ) : Int) < n ∧ n ≤ ((0 : ℕ) : Int) + nodes.length) ↔
      (1 ≤ n ∧ n ≤ nodes.length) := by omega
  simp only [hindex, hrange] at hcount
  exact hcount

/-- The second loop, with `d` nodes behind the pointer that is ahead. -/
theorem iterate_followRound (hlist : Segment heap p nodes none) (d : ℕ) :
    ∀ {k m rounds : ℕ}, nodes.length = k + m + 1 + d → d < rounds →
      iterate (followRound heap) rounds ((nodes.take k).getLast?, nodes[k]?, nodes[k + m]?) =
        some (some ((nodes.take (k + d)).getLast?, nodes[k + d]?)) := by
  induction d with
  | zero =>
      intro k m rounds hlength hrounds
      obtain ⟨rounds, rfl⟩ := Nat.exists_eq_succ_of_ne_zero (Nat.ne_of_gt hrounds)
      obtain ⟨curr, hcurr⟩ : ∃ curr, nodes[k + m]? = some curr :=
        ⟨_, List.getElem?_eq_getElem (by omega)⟩
      have hend : nodes[k + m + 1]? = none := List.getElem?_eq_none (by omega)
      apply iterate_done
      rw [followRound, hcurr, hlist.readNext_getElem? hcurr, hend]
      rfl
  | succ d ih =>
      intro k m rounds hlength hrounds
      obtain ⟨rounds, rfl⟩ := Nat.exists_eq_succ_of_ne_zero (Nat.ne_zero_of_lt hrounds)
      obtain ⟨curr, hcurr⟩ : ∃ curr, nodes[k + m]? = some curr :=
        ⟨_, List.getElem?_eq_getElem (by omega)⟩
      obtain ⟨next, hnext⟩ : ∃ next, nodes[k + m + 1]? = some next :=
        ⟨_, List.getElem?_eq_getElem (by omega)⟩
      obtain ⟨sec, hsec⟩ : ∃ sec, nodes[k]? = some sec := ⟨_, List.getElem?_eq_getElem (by omega)⟩
      have hprev : (nodes.take (k + 1)).getLast? = some sec := by
        rw [List.getLast?_take, if_neg (Nat.succ_ne_zero k), Nat.add_sub_cancel, hsec]
        rfl
      have hround : followRound heap ((nodes.take k).getLast?, nodes[k]?, nodes[k + m]?) =
          .inl ((nodes.take (k + 1)).getLast?, nodes[k + 1]?, nodes[k + 1 + m]?) := by
        have hplace : k + 1 + m = k + m + 1 := by omega
        rw [followRound, hcurr, hlist.readNext_getElem? hcurr, hnext, hsec,
          hlist.readNext_getElem? hsec, hprev, hplace, hnext]
        rfl
      have hplace : k + (d + 1) = k + 1 + d := by omega
      rw [iterate_next hround, hplace]
      exact ih (by omega) (by omega)

/-! ### The removal -/

variable [DecidableEq Addr]

theorem removeNode_first (hlist : Segment heap head (a :: back) none) :
    ∃ heap' head', removeNode heap head none (some a) = some (heap', head') ∧
      Removed (a :: back) 0 a heap heap' head' := by
  have hnot : a ∉ back := (List.nodup_cons.mp hlist.nodup).1
  obtain ⟨rfl, node, hnode, hback⟩ := hlist
  refine ⟨Function.update heap a none, node.next, ?_, rfl, hback.update_none hnot,
    Function.update_self .., ?_, ?_⟩
  · rw [removeNode, if_pos rfl, readNext_some hnode, Option.bind_some, delete_some hnode]
    rfl
  · intro b hb
    rw [Function.update_of_ne hb]
  · intro b hb
    exact Function.update_of_ne (List.ne_of_not_mem_cons hb) ..

theorem removeNode_behind {b : Addr} (hlist : Segment heap head (front ++ b :: a :: back) none) :
    ∃ heap' head', removeNode heap head (some b) (some a) = some (heap', head') ∧
      Removed (front ++ b :: a :: back) (front.length + 1) a heap heap' head' := by
  obtain ⟨heap1, hwrite, hlist1, hsome, hrelinked⟩ := hlist.bridge
  obtain ⟨node1, hnode1⟩ := Option.isSome_iff_exists.mp hsome
  have hplace : (front ++ b :: a :: back)[front.length + 1]? = some a := by
    rw [List.getElem?_append_right (by omega), Nat.add_sub_cancel_left]
    rfl
  have hnext : readNext heap (some a) = some back.head? := by
    rw [hlist.readNext_getElem? hplace, List.getElem?_append_right (by omega), List.head?_eq_getElem?]
    have hback : front.length + 1 + 1 - front.length = 2 := by omega
    rw [hback]
    rfl
  have hnot : a ∉ front ++ b :: back := by
    have hnodup := hlist.nodup
    rw [List.append_cons, List.nodup_middle] at hnodup
    rw [List.append_cons]
    exact (List.nodup_cons.mp hnodup).1
  have hhead : some a ≠ head := by
    rw [hlist.eq_head?]
    intro heq
    cases front with
    | nil => exact hnot (Option.some.inj heq ▸ List.mem_cons_self)
    | cons c front => exact hnot (Option.some.inj heq ▸ List.mem_cons_self)
  have herase : (front ++ b :: a :: back).eraseIdx (front.length + 1) = front ++ b :: back := by
    rw [List.eraseIdx_append_of_length_le (by omega), Nat.add_sub_cancel_left]
    rfl
  refine ⟨Function.update heap1 a none, head, ?_, hplace, ?_, Function.update_self .., ?_, ?_⟩
  · rw [removeNode, if_neg hhead, hnext, Option.bind_some, hwrite, Option.bind_some, delete_some hnode1]
    rfl
  · rw [herase]
    exact hlist1.update_none hnot
  · intro c hc
    rw [Function.update_of_ne hc]
    exact hrelinked.values c
  · intro c hc
    have hca : c ≠ a := fun heq => hc (by simp [heq])
    have hcb : c ∉ [b] := fun hmem => hc (by simp [List.mem_singleton.mp hmem])
    rw [Function.update_of_ne hca]
    exact hrelinked.outside c hcb

theorem removeNode_removed (hlist : Segment heap head (front ++ a :: back) none) :
    ∃ heap' head', removeNode heap head front.getLast? (some a) = some (heap', head') ∧
      Removed (front ++ a :: back) front.length a heap heap' head' := by
  obtain rfl | ⟨front, b, rfl⟩ := List.eq_nil_or_concat front
  · exact removeNode_first hlist
  · rw [List.concat_eq_append] at hlist ⊢
    rw [← List.append_cons] at hlist ⊢
    rw [List.getLast?_concat, List.length_append]
    exact removeNode_behind hlist

/-! ### The whole function -/

theorem removeNthFromEnd_of_outside (hlist : Segment heap head nodes none)
    (hsize : nodes.length < 2 ^ 31 - 1) (hrounds : nodes.length < rounds)
    (hout : ¬ (1 ≤ n ∧ n ≤ nodes.length)) :
    removeNthFromEnd rounds heap head n = some (heap, head) := by
  have hcount := iterate_countRound_head hlist hsize hrounds n
  rw [if_neg hout] at hcount
  rw [removeNthFromEnd, hcount]
  split_ifs
  · rfl
  · rfl

theorem removeNthFromEnd_of_inside (hlist : Segment heap head nodes none)
    (hsize : nodes.length < 2 ^ 31 - 1) (hrounds : nodes.length < rounds) {place : ℕ}
    (hplace : n = ((nodes.length - place : ℕ) : Int)) (ha : nodes[place]? = some a) :
    removeNthFromEnd rounds heap head n = removeNode heap head (nodes.take place).getLast? (some a) := by
  obtain ⟨hlt, -⟩ := List.getElem?_eq_some_iff.mp ha
  have hcount := iterate_countRound_head hlist hsize hrounds n
  have hahead : n.toNat - 1 = nodes.length - place - 1 := by omega
  obtain ⟨curr, hcurr⟩ : ∃ curr, nodes[nodes.length - place - 1]? = some curr :=
    ⟨_, List.getElem?_eq_getElem (by omega)⟩
  rw [if_pos (by omega), hahead, hcurr] at hcount
  -- The two pointers are that far apart from the start.
  have hfollow : iterate (followRound heap) rounds ((nodes.take 0).getLast?, nodes[0]?,
      nodes[0 + (nodes.length - place - 1)]?) = _ :=
    iterate_followRound hlist place (by omega) (by omega)
  rw [Nat.zero_add, Nat.zero_add, hcurr, ← List.head?_eq_getElem?, ← hlist.eq_head?, ha] at hfollow
  have hhead : ¬ (head = none ∨ n < 0) := by
    rintro (rfl | hneg)
    · rw [show nodes = [] from hlist.unique rfl] at hlt
      exact Nat.not_lt_zero _ hlt
    · omega
  have hfollow' : iterate (followRound heap) rounds (none, head, some curr) = _ := hfollow
  rw [removeNthFromEnd, if_neg hhead, hcount, Option.join_some, Option.bind_some,
    if_neg (Option.some_ne_none curr), hfollow', Option.join_some, Option.bind_some]

/-- **The n-th node from the end is removed.** Where the list has that many nodes it is taken out and
deleted, and everything else stays; for any other `n` nothing changes. -/
theorem removeNthFromEnd_removes (hlist : Segment heap head nodes none)
    (hsize : nodes.length < 2 ^ 31 - 1) (hrounds : nodes.length < rounds) (n : Int) :
    ∃ heap' head', removeNthFromEnd rounds heap head n = some (heap', head') ∧
      if 1 ≤ n ∧ n ≤ nodes.length then
        ∃ a, Removed nodes (nodes.length - n.toNat) a heap heap' head'
      else heap' = heap ∧ head' = head := by
  by_cases hin : 1 ≤ n ∧ n ≤ nodes.length
  · obtain ⟨a, ha⟩ : ∃ a, nodes[nodes.length - n.toNat]? = some a :=
      ⟨_, List.getElem?_eq_getElem (by omega)⟩
    obtain ⟨hlt, hget⟩ := List.getElem?_eq_some_iff.mp ha
    have hsplit : nodes.take (nodes.length - n.toNat) ++ a :: nodes.drop (nodes.length - n.toNat + 1) =
        nodes := by
      rw [← hget, List.getElem_cons_drop, List.take_append_drop]
    have hfront : (nodes.take (nodes.length - n.toNat)).length = nodes.length - n.toNat :=
      List.length_take_of_le (Nat.le_of_lt hlt)
    obtain ⟨heap', head', hremove, hremoved⟩ := removeNode_removed (hsplit ▸ hlist)
    rw [hsplit, hfront] at hremoved
    refine ⟨heap', head', ?_, ?_⟩
    · rw [removeNthFromEnd_of_inside hlist hsize hrounds (by omega) ha]
      exact hremove
    · rw [if_pos hin]
      exact ⟨a, hremoved⟩
  · refine ⟨heap, head, removeNthFromEnd_of_outside hlist hsize hrounds hin, ?_⟩
    rw [if_neg hin]
    exact ⟨rfl, rfl⟩

/-- Three nodes one behind the other, with the values of their addresses. -/
def threeNodes : ListHeap ℕ := fun a =>
  if a < 2 then some ⟨a, some (a + 1)⟩ else if a = 2 then some ⟨a, none⟩ else none

theorem removeNthFromEnd_removes_second :
    Segment threeNodes (some 0) [0, 1, 2] none ∧
    ∃ heap' head', removeNthFromEnd 4 threeNodes (some 0) 2 = some (heap', head') ∧
      ∃ a, Removed [0, 1, 2] 1 a threeNodes heap' head' := by
  have hlist : Segment threeNodes (some 0) [0, 1, 2] none :=
    ⟨rfl, _, rfl, rfl, _, rfl, rfl, _, rfl, rfl⟩
  obtain ⟨heap', head', hremove, hremoved⟩ := removeNthFromEnd_removes hlist (by decide)
    (by decide : [0, 1, 2].length < 4) 2
  exact ⟨hlist, heap', head', hremove, hremoved⟩

end EasyLib.Leecode.Solution
