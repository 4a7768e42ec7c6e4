import Mathlib.Data.List.Nodup
import Mathlib.Logic.Function.Basic
import Mathlib.Tactic.Common

/-!
# Singly linked lists

Nodes with a value and a pointer to the next one, in a heap that knows which addresses are nodes. Reading
or writing through a null or a dangling pointer has no result. `Segment heap p nodes q` says that the
pointers lead from `p` over `nodes` to `q`. A segment survives whatever is written to other nodes, and a
segment to the null pointer has no node twice.
-/

namespace EasyLib.LinkedList

variable {Addr Value : Type*}

structure Node (Addr Value : Type*) where
  val : Value
  next : Option Addr

abbrev Heap (Addr Value : Type*) := Addr → Option (Node Addr Value)

/-- `p->next`. -/
def readNext (heap : Heap Addr Value) (p : Option Addr) : Option (Option Addr) :=
  p.bind fun a => (heap a).map Node.next

/-- `p->next = next`. -/
def writeNext [DecidableEq Addr] (heap : Heap Addr Value) (p next : Option Addr) :
    Option (Heap Addr Value) :=
  p.bind fun a => (heap a).map fun node => Function.update heap a (some { node with next := next })

/-- `delete p`. -/
def delete [DecidableEq Addr] (heap : Heap Addr Value) : Option Addr → Option (Heap Addr Value)
  | none => some heap
  | some a => (heap a).map fun _ => Function.update heap a none

def Segment (heap : Heap Addr Value) : Option Addr → List Addr → Option Addr → Prop
  | p, [], q => p = q
  | p, a :: nodes, q => p = some a ∧ ∃ node, heap a = some node ∧ Segment heap node.next nodes q

variable {heap heap' heap'' : Heap Addr Value} {p q next : Option Addr} {a : Addr}
  {nodes front back more : List Addr} {node : Node Addr Value}

/-! ### Segments -/

theorem segment_nil : Segment heap p [] q ↔ p = q := Iff.rfl

theorem segment_cons :
    Segment heap p (a :: nodes) q ↔ p = some a ∧ ∃ node, heap a = some node ∧ Segment heap node.next nodes q :=
  Iff.rfl

theorem segment_append :
    Segment heap p (front ++ back) q ↔ ∃ r, Segment heap p front r ∧ Segment heap r back q := by
  induction front generalizing p with
  | nil =>
      constructor
      · exact fun h => ⟨p, rfl, h⟩
      · rintro ⟨r, rfl, h⟩
        exact h
  | cons a front ih =>
      constructor
      · rintro ⟨rfl, node, hnode, hrest⟩
        obtain ⟨r, hfront, hback⟩ := ih.mp hrest
        exact ⟨r, ⟨rfl, node, hnode, hfront⟩, hback⟩
      · rintro ⟨r, ⟨rfl, node, hnode, hfront⟩, hback⟩
        exact ⟨rfl, node, hnode, ih.mpr ⟨r, hfront, hback⟩⟩

/-- From the same pointer to the null pointer there is one way. -/
theorem Segment.unique (h : Segment heap p nodes none) (h' : Segment heap p more none) : nodes = more := by
  induction nodes generalizing p more with
  | nil =>
      cases more with
      | nil => rfl
      | cons b more =>
          rw [segment_nil.mp h] at h'
          cases h'.1
  | cons a nodes ih =>
      obtain ⟨rfl, node, hnode, hrest⟩ := h
      cases more with
      | nil => cases segment_nil.mp h'
      | cons b more =>
          obtain ⟨hsame, node', hnode', hrest'⟩ := h'
          cases hsame
          rw [hnode, Option.some.injEq] at hnode'
          subst hnode'
          rw [ih hrest hrest']

theorem Segment.nodup (h : Segment heap p nodes none) : nodes.Nodup := by
  induction nodes generalizing p with
  | nil => exact List.nodup_nil
  | cons a nodes ih =>
      obtain ⟨hp, node, hnode, hrest⟩ := h
      refine List.nodup_cons.mpr ⟨fun hmem => ?_, ih hrest⟩
      -- A second `a` would start the same way again, which is shorter.
      obtain ⟨front, back, rfl⟩ := List.append_of_mem hmem
      obtain ⟨r, -, hback⟩ := segment_append.mp hrest
      have hr : r = some a := hback.1
      have hsame := Segment.unique (segment_cons.mpr ⟨rfl, node, hnode, hrest⟩) (hr ▸ hback)
      have hlen := congrArg List.length hsame
      simp only [List.length_cons, List.length_append] at hlen
      omega

theorem Segment.congr (h : Segment heap p nodes q) (hsame : ∀ a ∈ nodes, heap' a = heap a) :
    Segment heap' p nodes q := by
  induction nodes generalizing p with
  | nil => exact h
  | cons a nodes ih =>
      obtain ⟨rfl, node, hnode, hrest⟩ := h
      obtain ⟨ha, hnodes⟩ := List.forall_mem_cons.mp hsame
      exact ⟨rfl, node, ha.trans hnode, ih hrest hnodes⟩

theorem readNext_some (h : heap a = some node) : readNext heap (some a) = some node.next := by
  rw [readNext, Option.bind_some, h, Option.map_some]

theorem Segment.eq_head? (h : Segment heap p nodes none) : p = nodes.head? := by
  cases nodes with
  | nil => exact h
  | cons a nodes => exact h.1

/-- The nodes lead from one to the next. -/
theorem Segment.readNext_getElem? (h : Segment heap p nodes none) {i : ℕ} (ha : nodes[i]? = some a) :
    readNext heap (some a) = some nodes[i + 1]? := by
  induction nodes generalizing p i with
  | nil => cases ha
  | cons b nodes ih =>
      obtain ⟨-, node, hnode, hrest⟩ := h
      cases i with
      | zero =>
          obtain rfl : b = a := Option.some.inj ha
          rw [readNext_some hnode, hrest.eq_head?, List.getElem?_cons_succ, List.head?_eq_getElem?]
      | succ i => exact ih hrest ha

/-! ### Changes of links -/

/-- `heap'` is `heap` with other links in some of the nodes. -/
structure Relinked (nodes : List Addr) (heap heap' : Heap Addr Value) : Prop where
  outside : ∀ a ∉ nodes, heap' a = heap a
  values : ∀ a, (heap' a).map Node.val = (heap a).map Node.val

theorem Relinked.refl (nodes : List Addr) (heap : Heap Addr Value) : Relinked nodes heap heap :=
  ⟨fun _ _ => rfl, fun _ => rfl⟩

theorem Relinked.mono (h : Relinked nodes heap heap') (hsub : nodes ⊆ more) : Relinked more heap heap' :=
  ⟨fun a ha => h.outside a fun hmem => ha (hsub hmem), h.values⟩

theorem Relinked.trans (h : Relinked nodes heap heap') (h' : Relinked nodes heap' heap'') :
    Relinked nodes heap heap'' :=
  ⟨fun a ha => (h'.outside a ha).trans (h.outside a ha), fun a => (h'.values a).trans (h.values a)⟩

theorem Segment.of_relinked (h : Segment heap p nodes q) (hrelinked : Relinked more heap heap')
    (hdisjoint : List.Disjoint nodes more) : Segment heap' p nodes q :=
  h.congr fun a ha => hrelinked.outside a (hdisjoint ha)

variable [DecidableEq Addr]

/-- A write changes the link of one node. -/
theorem exists_writeNext (h : heap a = some node) (next : Option Addr) :
    ∃ heap', writeNext heap (some a) next = some heap' ∧ heap' a = some { node with next := next } ∧
      Relinked [a] heap heap' := by
  refine ⟨Function.update heap a (some { node with next := next }), ?_, Function.update_self _ _ _, ?_, ?_⟩
  · rw [writeNext, Option.bind_some, h, Option.map_some]
  · intro b hb
    exact Function.update_of_ne (List.mem_singleton.not.mp hb) _ _
  · intro b
    by_cases heq : b = a
    · rw [heq, Function.update_self, h]
      rfl
    · rw [Function.update_of_ne heq]

/-! ### Nodes that are deleted -/

theorem delete_some (h : heap a = some node) :
    delete heap (some a) = some (Function.update heap a none) := by
  rw [delete, h, Option.map_some]

/-- A segment survives what is deleted elsewhere. -/
theorem Segment.update_none (h : Segment heap p nodes q) (ha : a ∉ nodes) :
    Segment (Function.update heap a none) p nodes q := by
  apply h.congr
  intro b hb
  apply Function.update_of_ne
  rintro rfl
  exact ha hb

/-- A node is bridged by the link of the node before it. -/
theorem Segment.bridge {b : Addr} (h : Segment heap p (front ++ b :: a :: back) none) :
    ∃ heap', writeNext heap (some b) back.head? = some heap' ∧
      Segment heap' p (front ++ b :: back) none ∧ (heap' a).isSome ∧ Relinked [b] heap heap' := by
  have hnodup := h.nodup
  rw [List.nodup_append] at hnodup
  obtain ⟨-, htail, hapart⟩ := hnodup
  obtain ⟨r, hfront, rfl, node, hnode, hnext, node', hnode', hback⟩ := segment_append.mp h
  have hfrontNot : b ∉ front := fun hmem => hapart b hmem b List.mem_cons_self rfl
  have hbackNot : b ∉ a :: back := (List.nodup_cons.mp htail).1
  obtain ⟨heap', hwrite, hb, hrelinked⟩ := exists_writeNext hnode back.head?
  refine ⟨heap', hwrite, ?_, ?_, hrelinked⟩
  · apply segment_append.mpr
    refine ⟨some b, hfront.of_relinked hrelinked (List.disjoint_singleton.mpr hfrontNot), rfl, _, hb, ?_⟩
    rw [← hback.eq_head?]
    apply hback.of_relinked hrelinked
    exact List.disjoint_singleton.mpr fun hmem => hbackNot (List.mem_cons_of_mem a hmem)
  · have hne : a ∉ [b] := by
      rw [List.mem_singleton]
      rintro rfl
      exact hbackNot List.mem_cons_self
    rw [hrelinked.outside a hne, hnode']
    rfl

end EasyLib.LinkedList
