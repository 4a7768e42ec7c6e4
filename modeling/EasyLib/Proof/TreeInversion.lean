import EasyLib.Leecode.InvertTree

/-!
# The tree is mirrored in place

The recursion goes into the subtrees after their swap, and each call changes nodes of its own subtree only,
so that neither undoes what the other has done. Inverting a second time brings back the very heap.
-/

namespace EasyLib.Leecode.Solution

open HeapTree

variable {Addr : Type*} {heap : TreeHeap Addr} {root : Option Addr} {a : Addr} {tree : BinaryTree Addr}
  {depth : ℕ}

/-- `heap'` has the mirrored tree in the place of the tree, with the values at their addresses. -/
structure Mirrored (tree : BinaryTree Addr) (root : Option Addr) (heap heap' : TreeHeap Addr) : Prop where
  shape : Shape heap' root (mirror tree)
  outside : ∀ a ∉ addrs tree, heap' a = heap a
  values : ∀ a, (heap' a).map TreeNode.val = (heap a).map TreeNode.val

variable [DecidableEq Addr]

theorem exists_swapChildren {node : TreeNode Addr Int} (hnode : heap a = some node) :
    ∃ heap', swapChildren heap a = some heap' ∧
      heap' a = some { node with left := node.right, right := node.left } ∧
      (∀ b ≠ a, heap' b = heap b) ∧
      ∀ b, (heap' b).map TreeNode.val = (heap b).map TreeNode.val := by
  refine ⟨_, by rw [swapChildren, hnode]; rfl, Function.update_self .., ?_, ?_⟩
  · exact fun b hb => Function.update_of_ne hb ..
  · intro b
    by_cases heq : b = a
    · rw [heq, Function.update_self, hnode]
      rfl
    · rw [Function.update_of_ne heq]

theorem invertTree_mirrored (hshape : Shape heap root tree) (hnodup : (addrs tree).Nodup)
    (hdepth : tree.height < depth) :
    ∃ heap', invertTree depth heap root = some (heap', root) ∧ Mirrored tree root heap heap' := by
  induction tree generalizing heap root depth with
  | nil =>
      obtain ⟨depth, rfl⟩ := Nat.exists_eq_succ_of_ne_zero (Nat.ne_zero_of_lt hdepth)
      obtain rfl : root = none := hshape
      exact ⟨heap, rfl, rfl, fun _ _ => rfl, fun _ => rfl⟩
  | node a left right ihl ihr =>
      obtain ⟨depth, rfl⟩ := Nat.exists_eq_succ_of_ne_zero (Nat.ne_zero_of_lt hdepth)
      obtain ⟨rfl, node, hnode, hleft, hright⟩ := hshape
      rw [addrs, List.nodup_cons, List.mem_append, not_or] at hnodup
      obtain ⟨⟨haleft, haright⟩, hrest⟩ := hnodup
      obtain ⟨hnodupLeft, hnodupRight, hapart⟩ := List.nodup_append.mp hrest
      rw [BinaryTree.height] at hdepth
      obtain ⟨heap1, hswap, hnode1, hframe1, hvalues1⟩ := exists_swapChildren hnode
      -- The right subtree is on the left now, and goes first.
      have hright1 : Shape heap1 node.right right :=
        hright.congr fun b hb => hframe1 b fun heq => haright (heq ▸ hb)
      have hleft1 : Shape heap1 node.left left :=
        hleft.congr fun b hb => hframe1 b fun heq => haleft (heq ▸ hb)
      obtain ⟨heap2, hinvert2, hmirrored2⟩ := ihr hright1 hnodupRight (by omega : right.height < depth)
      have hleft2 : Shape heap2 node.left left :=
        hleft1.congr fun b hb => hmirrored2.outside b fun hmem => hapart b hb b hmem rfl
      have hnode2 := (hmirrored2.outside a haright).trans hnode1
      obtain ⟨heap3, hinvert3, hmirrored3⟩ := ihl hleft2 hnodupLeft (by omega : left.height < depth)
      have hnode3 := (hmirrored3.outside a haleft).trans hnode2
      have hright3 : Shape heap3 node.right (mirror right) := by
        apply hmirrored2.shape.congr
        intro b hb
        apply hmirrored3.outside b
        intro hmem
        exact hapart b hmem b ((addrs_mirror_perm right).mem_iff.mp hb) rfl
      refine ⟨heap3, ?_, ⟨rfl, _, hnode3, hright3, hmirrored3.shape⟩, ?_, ?_⟩
      · simp only [invertTree, hswap, hnode1, hinvert2, hnode2, hinvert3, Option.bind_eq_bind,
          Option.bind_some]
      · intro b hb
        rw [addrs, List.mem_cons, List.mem_append, not_or, not_or] at hb
        obtain ⟨hba, hbleft, hbright⟩ := hb
        rw [hmirrored3.outside b hbleft, hmirrored2.outside b hbright, hframe1 b hba]
      · intro b
        rw [hmirrored3.values b, hmirrored2.values b, hvalues1 b]

/-- **The tree is mirrored in place**, and inverting it again brings back the heap. -/
theorem invertTree_mirrors (hshape : Shape heap root tree) (hnodup : (addrs tree).Nodup)
    (hdepth : tree.height < depth) :
    ∃ heap', invertTree depth heap root = some (heap', root) ∧ Mirrored tree root heap heap' ∧
      invertTree depth heap' root = some (heap, root) := by
  obtain ⟨heap', hinvert, hmirrored⟩ := invertTree_mirrored hshape hnodup hdepth
  have hnodup' : (addrs (mirror tree)).Nodup := (addrs_mirror_perm tree).nodup_iff.mpr hnodup
  obtain ⟨heap'', hinvert', hmirrored'⟩ :=
    invertTree_mirrored hmirrored.shape hnodup' (by rwa [height_mirror])
  have hshape'' : Shape heap'' root tree := mirror_mirror tree ▸ hmirrored'.shape
  have hvalues : ∀ a, (heap'' a).map TreeNode.val = (heap a).map TreeNode.val :=
    fun a => (hmirrored'.values a).trans (hmirrored.values a)
  have hsame : heap'' = heap := by
    funext a
    by_cases hmem : a ∈ addrs tree
    · exact hshape.eq_of_values hshape'' hvalues a hmem
    · have hmem' : a ∉ addrs (mirror tree) := fun h => hmem ((addrs_mirror_perm tree).mem_iff.mp h)
      exact (hmirrored'.outside a hmem').trans (hmirrored.outside a hmem)
  rw [hsame] at hinvert'
  exact ⟨heap', hinvert, hmirrored, hinvert'⟩

/-- A root with two children, the left one with a child of its own. -/
def smallTree : TreeHeap ℕ := fun a =>
  if a = 0 then some ⟨10, some 1, some 2⟩
  else if a = 1 then some ⟨11, none, some 3⟩
  else if a < 4 then some ⟨12, none, none⟩
  else none

theorem invertTree_mirrors_small :
    let tree := BinaryTree.node 0 (.node 1 .nil (.node 3 .nil .nil)) (.node 2 .nil .nil)
    Shape smallTree (some 0) tree ∧
    ∃ heap', invertTree 4 smallTree (some 0) = some (heap', some 0) ∧
      Mirrored tree (some 0) smallTree heap' ∧ invertTree 4 heap' (some 0) = some (smallTree, some 0) := by
  intro tree
  have hshape : Shape smallTree (some 0) tree :=
    ⟨rfl, _, rfl, ⟨rfl, _, rfl, rfl, ⟨rfl, _, rfl, rfl, rfl⟩⟩, ⟨rfl, _, rfl, rfl, rfl⟩⟩
  exact ⟨hshape, invertTree_mirrors hshape (by decide) (by decide)⟩

end EasyLib.Leecode.Solution
