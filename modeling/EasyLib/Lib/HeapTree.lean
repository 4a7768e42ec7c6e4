import Mathlib.Data.List.Nodup
import Mathlib.Data.Tree.Basic
import Mathlib.Logic.Function.Basic
import Mathlib.Tactic.Common

/-!
# Binary trees in a heap

Nodes with a value and two pointers, in a heap that knows which addresses are nodes. `Shape heap p tree` says
that the pointers from `p` on form `tree`, a tree of addresses. It depends on the nodes of the tree only, and
together with the values it determines them.
-/

namespace EasyLib.HeapTree

variable {Addr Value : Type*}

structure TreeNode (Addr Value : Type*) where
  val : Value
  left : Option Addr
  right : Option Addr

abbrev Heap (Addr Value : Type*) := Addr → Option (TreeNode Addr Value)

def Shape (heap : Heap Addr Value) : Option Addr → BinaryTree Addr → Prop
  | p, .nil => p = none
  | p, .node a left right =>
      p = some a ∧ ∃ node, heap a = some node ∧ Shape heap node.left left ∧ Shape heap node.right right

def addrs : BinaryTree Addr → List Addr
  | .nil => []
  | .node a left right => a :: (addrs left ++ addrs right)

def mirror : BinaryTree Addr → BinaryTree Addr
  | .nil => .nil
  | .node a left right => .node a (mirror right) (mirror left)

variable {heap heap' : Heap Addr Value} {p p' : Option Addr} {tree left right : BinaryTree Addr}

theorem mirror_mirror (tree : BinaryTree Addr) : mirror (mirror tree) = tree := by
  induction tree with
  | nil => rfl
  | node a left right ihl ihr => rw [mirror, mirror, ihl, ihr]

theorem height_mirror (tree : BinaryTree Addr) : (mirror tree).height = tree.height := by
  induction tree with
  | nil => rfl
  | node a left right ihl ihr =>
      rw [mirror, BinaryTree.height, BinaryTree.height, ihl, ihr, Nat.max_comm]

theorem addrs_mirror_perm (tree : BinaryTree Addr) : (addrs (mirror tree)).Perm (addrs tree) := by
  induction tree with
  | nil => exact List.Perm.refl []
  | node a left right ihl ihr =>
      apply List.Perm.cons a
      exact (ihr.append ihl).trans List.perm_append_comm

theorem Shape.congr (h : Shape heap p tree) (hsame : ∀ a ∈ addrs tree, heap' a = heap a) :
    Shape heap' p tree := by
  induction tree generalizing p with
  | nil => exact h
  | node a left right ihl ihr =>
      obtain ⟨hp, node, hnode, hleft, hright⟩ := h
      refine ⟨hp, node, (hsame a List.mem_cons_self).trans hnode, ihl hleft ?_, ihr hright ?_⟩
      · exact fun b hb => hsame b (List.mem_cons_of_mem a (List.mem_append_left _ hb))
      · exact fun b hb => hsame b (List.mem_cons_of_mem a (List.mem_append_right _ hb))

theorem Shape.eq_root (h : Shape heap p tree) (h' : Shape heap' p' tree) : p = p' := by
  cases tree with
  | nil => exact h.trans h'.symm
  | node a left right => exact h.1.trans h'.1.symm

/-- Two heaps with the same tree and the same values have the same nodes. -/
theorem Shape.eq_of_values (h : Shape heap p tree) (h' : Shape heap' p tree)
    (hvalues : ∀ a, (heap' a).map TreeNode.val = (heap a).map TreeNode.val) :
    ∀ a ∈ addrs tree, heap' a = heap a := by
  induction tree generalizing p with
  | nil => exact fun a ha => absurd ha List.not_mem_nil
  | node a left right ihl ihr =>
      obtain ⟨-, node, hnode, hleft, hright⟩ := h
      obtain ⟨-, node', hnode', hleft', hright'⟩ := h'
      have hl : node'.left = node.left := hleft'.eq_root hleft
      have hr : node'.right = node.right := hright'.eq_root hright
      have hval : node'.val = node.val := by
        have hmap := hvalues a
        rw [hnode, hnode'] at hmap
        exact Option.some.inj hmap
      intro b hb
      obtain rfl | hb := List.mem_cons.mp hb
      · rw [hnode, hnode']
        cases node
        cases node'
        simp_all
      · obtain hb | hb := List.mem_append.mp hb
        · exact ihl hleft (hl ▸ hleft') b hb
        · exact ihr hright (hr ▸ hright') b hb

end EasyLib.HeapTree
