import EasyLib.Leecode.ReorderList
import EasyLib.Lib.MachineInt

/-!
# Removing a node counted from the end

`leecode/removekthnode.cpp`. One pointer goes `n` nodes ahead, then two go on together until the first of
them is at the last node, and the second one's node is taken out of the list and deleted. The loops are cut
off as those of `reorderList` are.
-/

namespace EasyLib.Leecode.Solution

open LinkedList Loop MachineInt

variable {Addr : Type*} [DecidableEq Addr]

/-- A round of the first loop, on `curr` and `i`. -/
def countRound (heap : ListHeap Addr) (n : Int) :
    Option Addr × Int → (Option Addr × Int) ⊕ Option (Option Addr)
  | (none, _) => .inr (some none)
  | (some curr, i) =>
      if i ≠ n then attempt (readNext heap (some curr)) fun next => (next, toInt32 (i + 1))
      else .inr (some (some curr))

/-- A round of the second loop, on `prev`, `sec` and `curr`. -/
def followRound (heap : ListHeap Addr) :
    Option Addr × Option Addr × Option Addr →
      (Option Addr × Option Addr × Option Addr) ⊕ Option (Option Addr × Option Addr)
  | (prev, sec, curr) =>
      match readNext heap curr with
      | none => .inr none
      | some none => .inr (some (prev, sec))
      | some (some next) => attempt (readNext heap sec) fun next' => (sec, next', some next)

/-- The end of the function, with the heap it leaves and what it returns. -/
def removeNode (heap : ListHeap Addr) (head prev sec : Option Addr) :
    Option (ListHeap Addr × Option Addr) :=
  if sec = head then
    (readNext heap head).bind fun newhead => (delete heap sec).map fun heap => (heap, newhead)
  else
    (readNext heap sec).bind fun next =>
      (writeNext heap prev next).bind fun heap => (delete heap sec).map fun heap => (heap, head)

def removeNthFromEnd (rounds : ℕ) (heap : ListHeap Addr) (head : Option Addr) (n : Int) :
    Option (ListHeap Addr × Option Addr) :=
  if head = none ∨ n < 0 then some (heap, head)
  else
    (iterate (countRound heap n) rounds (head, 1)).join.bind fun curr =>
      if curr = none then some (heap, head)
      else
        (iterate (followRound heap) rounds (none, head, curr)).join.bind fun (prev, sec) =>
          removeNode heap head prev sec

end EasyLib.Leecode.Solution
