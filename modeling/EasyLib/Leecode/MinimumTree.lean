import EasyLib.Lib.Loop
import Mathlib.Data.Finset.Card
import Mathlib.Data.List.FinRange

/-!
# Roots of minimum height

`leecode/minimumtree.cpp`. The edges become a set of neighbours for each of the `n` nodes, and the leaves are
peeled off until there are no more than two nodes. A node is an index into the `n` sets. A leaf whose
neighbours are gone through must not be one of them: it would be erased from the set under the iterator, and
there is no result. The number of rounds after which the loop is cut off is a parameter.
-/

namespace EasyLib.Leecode.Solution

open Loop

variable {n : ℕ}

/-- The `vector<set<int> >` of the source. -/
abbrev Graph (n : ℕ) := Fin n → Finset (Fin n)

/-- The order in which a `set<int>` is gone through. -/
def ascending (nodes : Finset (Fin n)) : List (Fin n) := (List.finRange n).filter (· ∈ nodes)

def insertEdge (graph : Graph n) (edge : Fin n × Fin n) : Graph n :=
  let graph := Function.update graph edge.1 (insert edge.2 (graph edge.1))
  Function.update graph edge.2 (insert edge.1 (graph edge.2))

/-- The body of the innermost loop, on the graph and `new_leaves`. -/
def eraseLeaf (leaf : Fin n) : Graph n × List (Fin n) → Fin n → Graph n × List (Fin n)
  | (graph, newLeaves), neighbour =>
      let graph := Function.update graph neighbour ((graph neighbour).erase leaf)
      (graph, if (graph neighbour).card = 1 then newLeaves ++ [neighbour] else newLeaves)

/-- The innermost loop, for one of the leaves. -/
def peelLeaf (state : Graph n × List (Fin n)) (leaf : Fin n) : Option (Graph n × List (Fin n)) :=
  if leaf ∈ state.1 leaf then none
  else some ((ascending (state.1 leaf)).foldl (eraseLeaf leaf) state)

/-- A round of the outer loop, on `n`, the graph and `leaves`. -/
def peelRound : Int × Graph n × List (Fin n) → (Int × Graph n × List (Fin n)) ⊕ Option (List (Fin n))
  | (count, graph, leaves) =>
      if count > 2 then
        attempt (leaves.foldlM peelLeaf (graph, [])) fun (graph, newLeaves) =>
          (count - leaves.length, graph, newLeaves)
      else .inr (some leaves)

def findMinHeightTrees (rounds : ℕ) (edges : List (Fin n × Fin n)) : Option (List (Fin n)) :=
  if hone : n = 1 then some [⟨0, hone ▸ Nat.one_pos⟩]
  else
    let graph : Graph n := edges.foldl insertEdge fun _ => ∅
    let leaves := (List.finRange n).filter fun node => (graph node).card = 1
    (iterate peelRound rounds (n, graph, leaves)).join

end EasyLib.Leecode.Solution
