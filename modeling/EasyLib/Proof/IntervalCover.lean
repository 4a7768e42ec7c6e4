import EasyLib.Leecode.MergeInterval
import Mathlib.Order.Lattice

/-!
# What merged intervals cover

The loop of `merge` takes the end of the interval it erases for the end of the current one, also where that
lies further back. What this takes away from the current interval is lost, unless the next interval begins
where it has ended before. So the intervals it leaves are always in order and apart from each other, and they
cover the same numbers exactly if at each gap, and at the end, the interval in front of it is the one that
reaches furthest.
-/

namespace EasyLib.Leecode.MergeInterval

open Loop

variable {intervals sorted front rest : List Interval} {current next : Interval} {reach point : Int}
  {rounds : ℕ}

/-! ### The loop as a recursion -/

/-- The intervals from the current one on, as the loop leaves them. -/
def joinFrom (current : Interval) : List Interval → List Interval
  | [] => [current]
  | next :: rest =>
      if next.start ≤ current.last then joinFrom { current with last := next.last } rest
      else current :: joinFrom next rest

theorem joinFrom_join (h : next.start ≤ current.last) :
    joinFrom current (next :: rest) = joinFrom { current with last := next.last } rest := if_pos h

theorem joinFrom_gap (h : ¬ next.start ≤ current.last) :
    joinFrom current (next :: rest) = current :: joinFrom next rest := if_neg h

theorem getElem?_current : (front ++ current :: rest)[front.length]? = some current := by
  rw [List.getElem?_append_right le_rfl, Nat.sub_self, List.getElem?_cons_zero]

theorem getElem?_next : (front ++ current :: rest)[front.length + 1]? = rest.head? := by
  rw [List.getElem?_append_right (Nat.le_add_right _ _), Nat.add_sub_cancel_left, List.getElem?_cons_succ,
    List.head?_eq_getElem?]

theorem mergeRound_done :
    mergeRound (front ++ [current], front.length) = .inr (front ++ [current]) := by
  rw [mergeRound, getElem?_current, getElem?_next, List.head?_nil]

theorem mergeRound_join (h : next.start ≤ current.last) :
    mergeRound (front ++ current :: next :: rest, front.length) =
      .inl (front ++ { current with last := next.last } :: rest, front.length) := by
  have hset : (front ++ current :: next :: rest).set front.length { current with last := next.last } =
      front ++ { current with last := next.last } :: next :: rest := by
    rw [List.set_append_right _ _ le_rfl, Nat.sub_self, List.set_cons_zero]
  have herase : (front ++ { current with last := next.last } :: next :: rest).eraseIdx (front.length + 1) =
      front ++ { current with last := next.last } :: rest := by
    rw [List.eraseIdx_append_of_length_le (Nat.le_add_right _ _), Nat.add_sub_cancel_left]
    rfl
  rw [mergeRound, getElem?_current, getElem?_next, List.head?_cons]
  simp only [ge_iff_le, if_pos h, hset, herase]

theorem mergeRound_gap (h : ¬ next.start ≤ current.last) :
    mergeRound (front ++ current :: next :: rest, front.length) =
      .inl (front ++ current :: next :: rest, (front ++ [current]).length) := by
  rw [mergeRound, getElem?_current, getElem?_next, List.head?_cons, List.length_append]
  simp only [ge_iff_le, if_neg h, List.length_singleton]

theorem iterate_mergeRound (rest : List Interval) :
    ∀ (front : List Interval) (current : Interval) (rounds : ℕ), rest.length < rounds →
      iterate mergeRound rounds (front ++ current :: rest, front.length) =
        some (front ++ joinFrom current rest) := by
  induction rest with
  | nil =>
      intro front current rounds hrounds
      obtain ⟨rounds, rfl⟩ := Nat.exists_eq_succ_of_ne_zero (Nat.ne_of_gt hrounds)
      exact iterate_done mergeRound_done
  | cons next rest ih =>
      intro front current rounds hrounds
      obtain ⟨rounds, rfl⟩ := Nat.exists_eq_succ_of_ne_zero (Nat.ne_zero_of_lt hrounds)
      have hless : rest.length < rounds := Nat.lt_of_succ_lt_succ hrounds
      by_cases h : next.start ≤ current.last
      · rw [iterate_next (mergeRound_join h), ih front _ rounds hless, joinFrom_join h]
      · have hrest := ih (front ++ [current]) next rounds hless
        rw [List.append_assoc, List.append_assoc, List.singleton_append, List.singleton_append] at hrest
        rw [iterate_next (mergeRound_gap h), hrest, joinFrom_gap h]

theorem mergeSorted_cons (current : Interval) (rest : List Interval) :
    mergeSorted (current :: rest) = some (joinFrom current rest) :=
  iterate_mergeRound rest [] current _ (Nat.lt_succ_of_le (Nat.le_succ _))

/-! ### Order and gaps -/

theorem joinFrom_head (current : Interval) (rest : List Interval) :
    ∃ last tail, joinFrom current rest = { current with last := last } :: tail := by
  induction rest generalizing current with
  | nil => exact ⟨current.last, [], rfl⟩
  | cons next rest ih =>
      by_cases h : next.start ≤ current.last
      · rw [joinFrom_join h]
        exact ih { current with last := next.last }
      · rw [joinFrom_gap h]
        exact ⟨current.last, joinFrom next rest, rfl⟩

/-- Two intervals in a row have a gap between them. -/
theorem joinFrom_gaps (current : Interval) (rest : List Interval) :
    (joinFrom current rest).IsChain fun left right => left.last < right.start := by
  induction rest generalizing current with
  | nil => exact List.IsChain.singleton _
  | cons next rest ih =>
      by_cases h : next.start ≤ current.last
      · rw [joinFrom_join h]
        exact ih _
      · obtain ⟨last, tail, heq⟩ := joinFrom_head next rest
        have hchain := ih next
        rw [joinFrom_gap h, heq] at *
        exact List.isChain_cons_cons.mpr ⟨not_le.mp h, hchain⟩

/-- The intervals are in the order of their starts. -/
def Ordered (intervals : List Interval) : Prop :=
  intervals.Pairwise fun left right => left.start ≤ right.start

theorem Ordered.join (h : Ordered (current :: next :: rest)) :
    Ordered ({ current with last := next.last } :: rest) := by
  obtain ⟨hcurrent, hnext⟩ := List.pairwise_cons.mp h
  refine List.pairwise_cons.mpr ⟨fun interval hmem => ?_, (List.pairwise_cons.mp hnext).2⟩
  exact hcurrent interval (List.mem_cons_of_mem _ hmem)

theorem Ordered.start_le (h : Ordered (current :: rest)) :
    ∀ interval ∈ current :: rest, current.start ≤ interval.start :=
  List.forall_mem_cons.mpr ⟨le_rfl, (List.pairwise_cons.mp h).1⟩

theorem start_le_of_mem (hsorted : Ordered (current :: rest)) :
    ∀ interval ∈ joinFrom current rest, current.start ≤ interval.start := by
  induction rest generalizing current with
  | nil => exact List.forall_mem_singleton.mpr le_rfl
  | cons next rest ih =>
      obtain ⟨hcurrent, hnext⟩ := List.pairwise_cons.mp hsorted
      by_cases h : next.start ≤ current.last
      · rw [joinFrom_join h]
        exact ih hsorted.join
      · rw [joinFrom_gap h]
        refine List.forall_mem_cons.mpr ⟨le_rfl, fun interval hmem => ?_⟩
        exact (hcurrent next List.mem_cons_self).trans (ih hnext interval hmem)

theorem joinFrom_ordered (hsorted : Ordered (current :: rest)) : Ordered (joinFrom current rest) := by
  induction rest generalizing current with
  | nil => exact List.pairwise_singleton _ _
  | cons next rest ih =>
      obtain ⟨hcurrent, hnext⟩ := List.pairwise_cons.mp hsorted
      by_cases h : next.start ≤ current.last
      · rw [joinFrom_join h]
        exact ih hsorted.join
      · rw [joinFrom_gap h]
        refine List.pairwise_cons.mpr ⟨fun interval hmem => ?_, ih hnext⟩
        exact (hcurrent next List.mem_cons_self).trans (start_le_of_mem hnext interval hmem)

/-! ### What is covered -/

def Covers (intervals : List Interval) (point : Int) : Prop :=
  ∃ interval ∈ intervals, interval.start ≤ point ∧ point ≤ interval.last

theorem covers_cons_iff :
    Covers (current :: rest) point ↔ current.start ≤ point ∧ point ≤ current.last ∨ Covers rest point := by
  simp only [Covers, List.mem_cons, exists_eq_or_imp]

theorem not_covers_of_lt {bound : Int} (h : ∀ interval ∈ intervals, bound ≤ interval.start)
    (hlt : point < bound) : ¬ Covers intervals point := by
  rintro ⟨interval, hmem, hstart, -⟩
  have hbound := h interval hmem
  omega

theorem not_covers_nil : ¬ Covers [] point := by
  rintro ⟨interval, hmem, -⟩
  cases hmem

/-- The merged intervals cover nothing new. -/
theorem covers_of_joinFrom (h : Covers (joinFrom current rest) point) : Covers (current :: rest) point := by
  induction rest generalizing current with
  | nil => exact h
  | cons next rest ih =>
      by_cases hjoin : next.start ≤ current.last
      · rw [joinFrom_join hjoin] at h
        have hcover := ih h
        rw [covers_cons_iff] at hcover
        rw [covers_cons_iff, covers_cons_iff]
        rcases hcover with ⟨hstart, hlast⟩ | hcover
        · dsimp only at hstart hlast
          by_cases hle : point ≤ current.last
          · exact Or.inl ⟨hstart, hle⟩
          · exact Or.inr (Or.inl ⟨by omega, hlast⟩)
        · exact Or.inr (Or.inr hcover)
      · rw [joinFrom_gap hjoin, covers_cons_iff] at h
        rw [covers_cons_iff]
        exact h.imp_right ih

/-- `reach` is the largest end of the intervals so far, and `last` the end of the one before. Where there is
a gap behind that one, it reaches furthest or the next one begins right behind it, and behind the last
interval of all it reaches furthest. -/
def Kept (reach last : Int) : List Interval → Prop
  | [] => reach ≤ last
  | next :: rest =>
      (last < next.start → reach ≤ last ∨ next.start = last + 1) ∧ Kept (max reach next.last) next.last rest

/-- The condition for intervals in the order of their starts. -/
def NoneLost : List Interval → Prop
  | [] => True
  | first :: rest => Kept first.last first.last rest

/-- An interval that begins below `reach` only moves it. -/
theorem reach_cons_iff (h : next.start ≤ reach ∨ next.start ≤ point) :
    point ≤ reach ∨ Covers (next :: rest) point ↔ point ≤ max reach next.last ∨ Covers rest point := by
  rw [covers_cons_iff, ← or_assoc]
  refine or_congr_left ?_
  omega

/-- Behind a gap the merged intervals go on with the next one. The current interval alone has to cover what
lies in front of it. -/
theorem covers_gap_iff (h : current.last < next.start) (hcurrent : current.start ≤ current.last)
    (hnext : Ordered (next :: rest)) :
    (∀ point, current.start ≤ point → point ≤ reach ∨ Covers (next :: rest) point →
      Covers (current :: joinFrom next rest) point) ↔
    (reach ≤ current.last ∨ next.start = current.last + 1) ∧
      ∀ point, next.start ≤ point → point ≤ max reach next.last ∨ Covers rest point →
        Covers (joinFrom next rest) point := by
  constructor
  · intro hall
    refine ⟨?_, fun point hstart hpoint => ?_⟩
    -- The number behind the current interval is covered by what reaches further.
    · by_contra hlost
      have hcovers := hall (current.last + 1) (by omega) (Or.inl (by omega))
      rcases covers_cons_iff.mp hcovers with hcovers | hcovers
      · omega
      · exact not_covers_of_lt (start_le_of_mem hnext) (by omega) hcovers
    · have hcovers := hall point (by omega) ((reach_cons_iff (Or.inr hstart)).mpr hpoint)
      exact (covers_cons_iff.mp hcovers).resolve_left (by omega)
  · rintro ⟨hgap, hall⟩ point hstart hpoint
    rw [covers_cons_iff]
    by_cases hle : point ≤ current.last
    · exact Or.inl ⟨hstart, hle⟩
    · right
      have hpast : next.start ≤ point := by
        by_contra hlt
        have hreached := hpoint.resolve_right (not_covers_of_lt hnext.start_le (not_le.mp hlt))
        omega
      exact hall point hpast ((reach_cons_iff (Or.inr hpast)).mp hpoint)

/-- From the start of the current interval on, the input covers all up to `reach` and what the rest covers.
The merged intervals cover it as well exactly if nothing is lost. -/
theorem covers_iff_kept (hvalid : ∀ interval ∈ current :: rest, interval.start ≤ interval.last)
    (hsorted : Ordered (current :: rest)) (hreach : current.last ≤ reach) :
    (∀ point, current.start ≤ point → point ≤ reach ∨ Covers rest point →
      Covers (joinFrom current rest) point) ↔ Kept reach current.last rest := by
  induction rest generalizing current reach with
  | nil =>
      have hcurrent := hvalid current List.mem_cons_self
      constructor
      · intro hall
        have hcovers := hall reach (hcurrent.trans hreach) (Or.inl le_rfl)
        exact ((covers_cons_iff.mp hcovers).resolve_right not_covers_nil).2
      · intro hkept point hstart hpoint
        exact covers_cons_iff.mpr (Or.inl ⟨hstart, (hpoint.resolve_right not_covers_nil).trans hkept⟩)
  | cons next rest ih =>
      obtain ⟨hcurrent, hvalidNext⟩ := List.forall_mem_cons.mp hvalid
      have hnext := hvalidNext next List.mem_cons_self
      obtain ⟨hstarts, hsortedNext⟩ := List.pairwise_cons.mp hsorted
      have hstartNext := hstarts next List.mem_cons_self
      by_cases h : next.start ≤ current.last
      · have hvalidJoin : ∀ interval ∈ { current with last := next.last } :: rest,
            interval.start ≤ interval.last := by
          refine List.forall_mem_cons.mpr ⟨hstartNext.trans hnext, fun interval hmem => ?_⟩
          exact hvalidNext interval (List.mem_cons_of_mem _ hmem)
        have hrest := ih hvalidJoin hsorted.join (le_max_right reach next.last)
        rw [Kept, ← hrest, joinFrom_join h]
        simp only [reach_cons_iff (Or.inl (h.trans hreach)), not_lt.mpr h, false_implies, true_and]
      · have hrest := ih hvalidNext hsortedNext (le_max_right reach next.last)
        rw [Kept, ← hrest, joinFrom_gap h, covers_gap_iff (not_le.mp h) hcurrent hsortedNext]
        simp only [not_le.mp h, forall_const]

/-- Everything the input covers from the first start on is all it covers. -/
theorem covers_joinFrom_iff (hvalid : ∀ interval ∈ current :: rest, interval.start ≤ interval.last)
    (hsorted : Ordered (current :: rest)) :
    (∀ point, Covers (joinFrom current rest) point ↔ Covers (current :: rest) point) ↔
      Kept current.last current.last rest := by
  rw [← covers_iff_kept hvalid hsorted le_rfl]
  constructor
  · intro hiff point hstart hpoint
    refine (hiff point).mpr (covers_cons_iff.mpr ?_)
    exact hpoint.imp_left fun hle => ⟨hstart, hle⟩
  · intro hall point
    refine ⟨covers_of_joinFrom, fun hcovers => hall point ?_ ?_⟩
    · by_contra hlt
      exact not_covers_of_lt hsorted.start_le (not_le.mp hlt) hcovers
    · exact (covers_cons_iff.mp hcovers).imp_left And.right

/-! ### `merge` -/

theorem Sorts.ordered (h : Sorts intervals sorted) : Ordered sorted := by
  refine h.order.imp fun hnot => ?_
  simpa [compare] using hnot

theorem Sorts.covers_iff (h : Sorts intervals sorted) : Covers sorted point ↔ Covers intervals point := by
  simp only [Covers, h.perm.mem_iff]

/-- `merge` ends with intervals in the order of their starts and with gaps between them, and these cover the
same numbers as before exactly if none is lost, in the order that `sort` leaves. -/
theorem mergeSorted_covers (hvalid : ∀ interval ∈ intervals, interval.start ≤ interval.last)
    (hsort : Sorts intervals sorted) :
    ∃ result, mergeSorted sorted = some result ∧ Ordered result ∧
      (result.IsChain fun left right => left.last < right.start) ∧
      ((∀ point, Covers result point ↔ Covers intervals point) ↔ NoneLost sorted) := by
  cases sorted with
  | nil =>
      refine ⟨[], rfl, List.Pairwise.nil, List.IsChain.nil, iff_of_true (fun point => ?_) trivial⟩
      exact hsort.covers_iff
  | cons current rest =>
      have hvalid' : ∀ interval ∈ current :: rest, interval.start ≤ interval.last :=
        fun interval hmem => hvalid interval (hsort.perm.mem_iff.mp hmem)
      refine ⟨joinFrom current rest, mergeSorted_cons current rest, joinFrom_ordered hsort.ordered,
        joinFrom_gaps current rest, ?_⟩
      rw [NoneLost, ← covers_joinFrom_iff hvalid' hsort.ordered]
      simp only [hsort.covers_iff]

theorem mergeSorted_covers_three :
    ∃ result, mergeSorted [⟨1, 3⟩, ⟨2, 6⟩, ⟨8, 10⟩] = some result ∧ Ordered result ∧
      (result.IsChain fun left right => left.last < right.start) ∧
      ((∀ point, Covers result point ↔ Covers [⟨8, 10⟩, ⟨1, 3⟩, ⟨2, 6⟩] point) ↔
        NoneLost [⟨1, 3⟩, ⟨2, 6⟩, ⟨8, 10⟩]) :=
  mergeSorted_covers (by simp) ⟨by decide, by decide⟩

/-- The interval inside the other one takes what lies behind it away. -/
theorem mergeSorted_nested :
    mergeSorted [⟨1, 10⟩, ⟨2, 3⟩] = some [⟨1, 3⟩] ∧ Sorts [⟨1, 10⟩, ⟨2, 3⟩] [⟨1, 10⟩, ⟨2, 3⟩] ∧
    Covers [⟨1, 10⟩, ⟨2, 3⟩] 5 ∧ ¬ Covers [⟨1, 3⟩] 5 := by
  refine ⟨by decide, ⟨List.Perm.refl _, by decide⟩, ⟨⟨1, 10⟩, List.mem_cons_self, by decide⟩, ?_⟩
  rw [covers_cons_iff]
  exact fun hcovers => hcovers.elim (by decide) not_covers_nil

end EasyLib.Leecode.MergeInterval
