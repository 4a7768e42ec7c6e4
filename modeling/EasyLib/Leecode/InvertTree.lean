import EasyLib.Lib.HeapTree

/-!
# Inverting a tree

`leecode/deletenode.cpp`. The children of the root are swapped, and then each of the subtrees is inverted. The
heap is a parameter, and so is the depth at which the recursion is cut off. A pointer that cannot be followed
has no result.
-/

namespace EasyLib.Leecode.Solution

open HeapTree

variable {Addr : Type*} [DecidableEq Addr]

abbrev TreeHeap (Addr : Type*) := HeapTree.Heap Addr Int

/-- The assignments to `root->left` and `root->right`. -/
def swapChildren (heap : TreeHeap Addr) (root : Addr) : Option (TreeHeap Addr) :=
  (heap root).map fun node =>
    Function.update heap root (some { node with left := node.right, right := node.left })

/-- `invertTree`, with the heap it leaves and what it returns. -/
def invertTree : ℕ → TreeHeap Addr → Option Addr → Option (TreeHeap Addr × Option Addr)
  | 0, _, _ => none
  | _ + 1, heap, none => some (heap, none)
  | depth + 1, heap, some root => do
      let heap ← swapChildren heap root
      let node ← heap root
      let (heap, _) ← invertTree depth heap node.left
      let node ← heap root
      let (heap, _) ← invertTree depth heap node.right
      some (heap, some root)

end EasyLib.Leecode.Solution
