import EasyLib.Common.Strops

/-!
# Checking the serialization of a tree

`leecode/verifypreorder.cpp`. The string is split at its commas, and the tokens are read with a stack of the
nodes that have a child to come. The counter of the second loop is an `int`, which is compared with the
number of tokens as a `size_t`: a counter that has wrapped around is larger than any size.
-/

namespace EasyLib.Leecode.Solution

open Common CppString MachineInt Loop
open Common.EasyString (findFrom)

/-- A round of the loop that splits, on `vec`, `start_pos` and `sep_pos`. The rest behind the last comma is
added when the loop is left. -/
def splitRound (preorder : Str) :
    List Str × ℕ × Option ℕ → (List Str × ℕ × Option ℕ) ⊕ Option (List Str)
  | (vec, startPos, none) => .inr ((substr preorder startPos (-1)).map fun rest => vec ++ [rest])
  | (vec, startPos, some sepPos) =>
      attempt (substr preorder startPos (sepPos - startPos)) fun token =>
        (vec ++ [token], sepPos + 1, findFrom preorder [','] (sepPos + 1 : ℕ))

/-- A round of the loop over the tokens, on `parent` and `i`. -/
def checkRound (vec : List Str) : List Str × Int → (List Str × Int) ⊕ Bool
  | (parent, i) =>
      match vec[toUInt64 i]? with
      | none => .inr (decide (parent.length = 0))
      | some cur =>
          if cur ≠ ['#'] then .inl (cur :: parent, toInt32 (i + 1))
          else if toUInt64 i ≠ vec.length - 1 ∧ parent.length > 0 then .inl (parent.tail, toInt32 (i + 1))
          else if toUInt64 i ≠ vec.length - 1 then .inr false
          else .inl (parent, toInt32 (i + 1))

def isValidSerialization (preorder : Str) : Option Bool :=
  (iterate (splitRound preorder) (preorder.length + 1) ([], 0, findFrom preorder [','] 0)).join.bind
    fun vec => iterate (checkRound vec) (vec.length + 1) ([], 0)

end EasyLib.Leecode.Solution
