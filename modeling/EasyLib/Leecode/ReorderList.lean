import EasyLib.Lib.LinkedList
import EasyLib.Lib.Loop

/-!
# Reordering a list

`leecode/reorderlist.cpp`. Two pointers of different speed find the middle of the list, the list is cut
behind it, the second part is reversed in place, and the two parts are merged. The heap is a parameter, and
so is the number of rounds after which each of the loops is cut off. A pointer that cannot be followed has no
result.
-/

namespace EasyLib.Leecode.Solution

open LinkedList Loop

variable {Addr : Type*} [DecidableEq Addr]

abbrev ListHeap (Addr : Type*) := Heap Addr Int

/-- A round of the first loop, on `onestep` and `twostep`. -/
def middleRound (heap : ListHeap Addr) :
    Option Addr × Option Addr → (Option Addr × Option Addr) ⊕ Option (Option Addr)
  | (onestep, none) => .inr (some onestep)
  | (onestep, some twostep) =>
      match readNext heap (some twostep) with
      | none => .inr none
      | some none => .inr (some onestep)
      | some (some next) =>
          match readNext heap (some next), readNext heap onestep with
          | some twostep, some onestep => .inl (onestep, twostep)
          | _, _ => .inr none

/-- A round of the loop that reverses, on the heap, `prev` and `cur`. -/
def reverseRound : ListHeap Addr × Option Addr × Option Addr →
    (ListHeap Addr × Option Addr × Option Addr) ⊕ Option (ListHeap Addr × Option Addr)
  | (heap, prev, none) => .inr (some (heap, prev))
  | (heap, prev, some cur) =>
      match readNext heap (some cur), writeNext heap (some cur) prev with
      | some next, some heap => .inl (heap, some cur, next)
      | _, _ => .inr none

/-- A round of the loop that merges, on the heap, `cur1` and `cur2`. -/
def mergeRound : ListHeap Addr × Option Addr × Option Addr →
    (ListHeap Addr × Option Addr × Option Addr) ⊕ Option (ListHeap Addr)
  | (heap, some cur1, some cur2) =>
      match readNext heap (some cur1), readNext heap (some cur2) with
      | some tmp1, some tmp2 =>
          attempt ((writeNext heap (some cur1) (some cur2)).bind fun heap => writeNext heap (some cur2) tmp1)
            fun heap => (heap, tmp1, tmp2)
      | _, _ => .inr none
  | (heap, _, _) => .inr (some heap)

/-- The second part, from the cut behind `onestep` on. -/
def reorderFrom (rounds : ℕ) (heap : ListHeap Addr) (head onestep : Option Addr) :
    Option (ListHeap Addr) :=
  (readNext heap onestep).bind fun second =>
    (writeNext heap onestep none).bind fun heap =>
      if second = none then some heap
      else
        (iterate reverseRound rounds (heap, none, second)).join.bind fun (heap, second) =>
          (iterate mergeRound rounds (heap, head, second)).join

/-- `reorderList`, as the heap is left. -/
def reorderList (rounds : ℕ) (heap : ListHeap Addr) (head : Option Addr) : Option (ListHeap Addr) :=
  if head = none then some heap
  else
    (readNext heap head).bind fun next =>
      if next = none then some heap
      else (iterate (middleRound heap) rounds (head, head)).join.bind (reorderFrom rounds heap head)

end EasyLib.Leecode.Solution
