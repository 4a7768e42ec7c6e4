import EasyLib.Lib.Counting
import EasyLib.Lib.MachineInt
import EasyLib.Lib.Run

/-!
# Counted pointers

`common/RefPtr.h`. An object is known by the number of the `new` that has made it, and the number is not
used again. Beside its count it has the `RefPtr` members of its derived class, which are destroyed with
it. From the moment `delete` is called on it an object counts as deleted. `none` says that a function has
been called on a deleted object or has written into one, or that a chain of deletions has not ended.
-/

namespace EasyLib.Common.RefPtr

open Counting MachineInt

abbrev Ref := ℕ

/-- The base class `Object`. `bound` records whether `ref` has ever been called. -/
structure Object where
  refCount : Int
  bound : Bool
  deriving DecidableEq, Repr

namespace Object

def new : Object where
  refCount := 0
  bound := false

/-- `InterlockedInc32(&m_nRefCount)` -/
def inc (object : Object) : Object where
  refCount := toInt32 (object.refCount + 1)
  bound := true

/-- `InterlockedDec32(&m_nRefCount)` -/
def dec (object : Object) : Object :=
  { object with refCount := toInt32 (object.refCount - 1) }

end Object

structure Instance where
  object : Object
  members : List (Option Ref)
  deriving DecidableEq, Repr

/-- A root is `none` once it is destroyed. -/
structure Memory where
  heap : List (Option Instance)
  roots : List (Option (Option Ref))
  deriving DecidableEq, Repr

/-- A `RefPtr`: a root variable or a member of an object. -/
inductive Place where
  | root (var : ℕ)
  | member (r : Ref) (index : ℕ)
  deriving DecidableEq, Repr

namespace Memory

def start : Memory where
  heap := []
  roots := []

def deref (s : Memory) (r : Ref) : Option Instance := (s.heap[r]?).join

def put (s : Memory) (r : Ref) (slot : Option Instance) : Memory :=
  { s with heap := s.heap.set r slot }

def live (s : Memory) : ℕ := tally (fun slot => slot.elim 0 fun _ => 1) s.heap

/-! ### `Object` -/

def ref (s : Memory) (r : Ref) : Option Memory :=
  (s.deref r).map fun inst => s.put r (some { inst with object := inst.object.inc })

/-- `if (pRep) pRep->unref()` -/
def release (unref : Memory → Ref → Option Memory) (s : Memory) : Option Ref → Option Memory
  | none => some s
  | some r => unref s r

/-- `unref`, with at most `fuel` objects being deleted one inside the other. Members are destroyed last
one first. -/
def unrefWithin : ℕ → Memory → Ref → Option Memory
  | 0, _, _ => none
  | fuel + 1, s, r =>
      (s.deref r).bind fun inst =>
        if inst.object.dec.refCount ≤ 0 then
          inst.members.reverse.foldlM (release (unrefWithin fuel)) (s.put r none)
        else
          some (s.put r (some { inst with object := inst.object.dec }))

/-- Every object inside another one that is being deleted has been live before. -/
def unref (s : Memory) (r : Ref) : Option Memory := unrefWithin (s.live + 1) s r

/-! ### `RefPtr` -/

def read (s : Memory) : Place → Option (Option Ref)
  | .root var => (s.roots[var]?).join
  | .member r index => (s.deref r).bind fun inst => inst.members[index]?

def store (s : Memory) (place : Place) (rep : Option Ref) : Option Memory :=
  match place with
  | .root var =>
      (s.read (.root var)).map fun _ => { s with roots := s.roots.set var (some rep) }
  | .member r index =>
      (s.deref r).bind fun inst =>
        (inst.members[index]?).map fun _ =>
          s.put r (some { inst with members := inst.members.set index rep })

def refRep (s : Memory) : Option Ref → Option Memory
  | none => some s
  | some r => s.ref r

def setNull (s : Memory) (place : Place) : Option Memory :=
  (s.read place).bind fun
    | none => some s
    | some pThis => (s.store place none).bind fun s => s.unref pThis

def bind (s : Memory) (place : Place) (rep : Option Ref) : Option Memory :=
  (s.refRep rep).bind fun s => (s.setNull place).bind fun s => s.store place rep

def swap (s : Memory) (first second : Place) : Option Memory :=
  (s.read first).bind fun pRep => (s.read second).bind fun other =>
    (s.store first other).bind fun s => s.store second pRep

end Memory

/-! ### Sequences of operations -/

/-- What a `RefPtr` is constructed or assigned from. A failing `dynamic_cast` gives `null`. -/
inductive Source where
  | null
  | raw (r : Ref)
  | ptr (place : Place)
  deriving DecidableEq, Repr

/-- `create` is `new` of a class with `width` members, all null; members are assigned like roots. `assign`
is `operator=`, `bind` or `reset`. -/
inductive Op where
  | create (width : ℕ)
  | construct (source : Source)
  | assign (place : Place) (source : Source)
  | setNull (place : Place)
  | swap (first second : Place)
  | destroy (var : ℕ)
  deriving DecidableEq, Repr

namespace Memory

def value (s : Memory) : Source → Option (Option Ref)
  | .null => some none
  | .raw r => some (some r)
  | .ptr place => s.read place

def step (s : Memory) : Op → Option Memory
  | .create width =>
      let inst := { object := .new, members := List.replicate width none }
      some { s with heap := s.heap ++ [some inst] }
  | .construct source =>
      (s.value source).bind fun rep =>
        (s.refRep rep).map fun s => { s with roots := s.roots ++ [some rep] }
  | .assign place source => (s.value source).bind fun rep => s.bind place rep
  | .setNull place => s.setNull place
  | .swap first second => s.swap first second
  | .destroy var =>
      (s.setNull (.root var)).map fun s => { s with roots := s.roots.set var none }

def Usable (s : Memory) : Source → Prop
  | .null => True
  | .raw r => (s.deref r).isSome
  | .ptr place => (s.read place).isSome

/-- A member can be assigned while a root holds its object, or while nothing has held it yet. -/
def Assignable (s : Memory) (place : Place) : Prop :=
  (s.read place).isSome ∧
    match place with
    | .root _ => True
    | .member r _ => some (some r) ∈ s.roots ∨ ∀ inst ∈ s.deref r, inst.object.bound = false

/-- The operation works on `RefPtr`s that exist, and its raw pointer, if it has one, is live. -/
def Valid (s : Memory) : Op → Prop
  | .create _ => True
  | .construct source => s.Usable source
  | .assign place source => s.Assignable place ∧ s.Usable source
  | .setNull place => s.Assignable place
  | .swap first second => (s.read first).isSome ∧ (s.read second).isSome
  | .destroy var => (s.read (.root var)).isSome

def holds (rep : Option Ref) (r : Ref) : ℕ := if rep = some r then 1 else 0

/-- The number of `RefPtr`s bound to an object: roots and members of live objects. -/
def bindings (s : Memory) (r : Ref) : ℕ :=
  tally (fun root => root.elim 0 (holds · r)) s.roots +
    tally (fun slot => slot.elim 0 fun inst => tally (holds · r) inst.members) s.heap

def Counted (s : Memory) : Prop :=
  ∀ r, ∀ inst ∈ s.deref r, inst.object.bound = true →
    inst.object.refCount = s.bindings r ∧ 1 ≤ s.bindings r

/-- The operation binds one more `RefPtr` only to an object that has fewer than `2 ^ 31 - 1`. -/
def Few (s : Memory) : Op → Prop
  | .construct source | .assign _ source =>
      match s.value source with
      | some (some r) => s.bindings r < 2 ^ 31 - 1
      | _ => True
  | _ => True

instance (s : Memory) : ∀ source, Decidable (s.Usable source)
  | .null => inferInstanceAs (Decidable True)
  | .raw _ | .ptr _ => inferInstanceAs (Decidable (_ = true))

instance (s : Memory) : ∀ place, Decidable (s.Assignable place)
  | .root _ => inferInstanceAs (Decidable (_ ∧ True))
  | .member _ _ => inferInstanceAs (Decidable (_ ∧ (_ ∨ _)))

instance (s : Memory) : ∀ op, Decidable (s.Valid op)
  | .create _ => inferInstanceAs (Decidable True)
  | .construct source => inferInstanceAs (Decidable (s.Usable source))
  | .assign place source => inferInstanceAs (Decidable (s.Assignable place ∧ s.Usable source))
  | .setNull place => inferInstanceAs (Decidable (s.Assignable place))
  | .swap _ _ => inferInstanceAs (Decidable (_ ∧ _))
  | .destroy _ => inferInstanceAs (Decidable (_ = true))

instance (s : Memory) : ∀ op, Decidable (s.Few op)
  | .construct source | .assign _ source =>
      match hvalue : s.value source with
      | some (some r) => decidable_of_iff (s.bindings r < 2 ^ 31 - 1) (by simp [Few, hvalue])
      | some none | none => .isTrue (by simp [Few, hvalue])
  | .create _ | .setNull _ | .swap _ _ | .destroy _ => inferInstanceAs (Decidable True)

end Memory

end EasyLib.Common.RefPtr
