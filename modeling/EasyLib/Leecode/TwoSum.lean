import EasyLib.Lib.ForLoop
import EasyLib.Lib.OrdMap

/-!
# Two numbers with a given sum

`leecode/2sum.cpp`. The first loop writes the index of each number into a map, so that the last index of a
number stays. The second one looks up what is missing to the target. An `int` is an `Int` in its range, and
the subtraction wraps around.
-/

namespace EasyLib.Leecode.Solution

open Loop MachineInt

/-- `vector<int>`. The bound is its `max_size()`. -/
structure IntVector where
  elems : List Int
  size_le : elems.length ≤ 2 ^ 61 - 1
  isInt : ∀ num ∈ elems, toInt32 num = num

/-- The body of the first loop. -/
def indexBody (hmap : OrdMap Int Int) (i num : Int) : OrdMap Int Int ⊕ OrdMap Int Int :=
  .inl (hmap.alter num fun _ => i)

/-- The body of the second loop, on `result`. -/
def searchBody (hmap : OrdMap Int Int) (target : Int) (result : List Int) (i num : Int) :
    List Int ⊕ List Int :=
  match hmap.find (toInt32 (target - num)) with
  | some second => if second = i then .inl result else .inr (result ++ [i] ++ [second])
  | none => .inl result

def twoSum (nums : IntVector) (target : Int) : Option (List Int) :=
  (forLoop nums.elems indexBody id OrdMap.empty).bind fun hmap =>
    forLoop nums.elems (searchBody hmap target) id []

end EasyLib.Leecode.Solution
