import EasyLib.Lib.Loop
import Mathlib.Data.List.Basic

/-!
# Merging intervals

`leecode/mergeinterval.cpp`. The intervals are sorted by their starts and then merged in place: an iterator
goes over the vector, and an interval that begins before the current one has ended is erased behind it. The
order `sort` leaves intervals in that begin at the same place is not specified, so it is any such order.
-/

namespace EasyLib.Leecode.MergeInterval

open Loop

/-- `last` is the `end` of the source. -/
structure Interval where
  start : Int
  last : Int
deriving DecidableEq

def compare (val1 val2 : Interval) : Bool := decide (val1.start < val2.start)

/-- What `sort(begin, end, compare)` may leave in the vector. -/
structure Sorts (intervals sorted : List Interval) : Prop where
  perm : sorted.Perm intervals
  order : sorted.Pairwise fun left right => ¬ compare right left

/-- A round of the loop, on `intervals` and `curr`. -/
def mergeRound : List Interval × ℕ → (List Interval × ℕ) ⊕ List Interval
  | (intervals, curr) =>
      match intervals[curr]?, intervals[curr + 1]? with
      | some current, some next =>
          if current.last ≥ next.start then
            .inl ((intervals.set curr { current with last := next.last }).eraseIdx (curr + 1), curr)
          else .inl (intervals, curr + 1)
      | _, _ => .inr intervals

/-- `merge` behind the `sort`. -/
def mergeSorted (intervals : List Interval) : Option (List Interval) :=
  iterate mergeRound (intervals.length + 1) (intervals, 0)

end EasyLib.Leecode.MergeInterval
