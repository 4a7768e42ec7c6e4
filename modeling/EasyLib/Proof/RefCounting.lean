import EasyLib.Common.RefPtr

/-!
# Reference counts are exact

The number of `RefPtr`s bound to an object says all about its count: it is that number, and it is that
number also inside an operation, if the pointers that are neither in a root nor in a member are added.
These are `extra`: the new pointer of a `bind` before it is stored, the old one after it is taken out,
and the members of an object that is being deleted. So `unref` is specified for any `extra` that its own
pointer is part of, and the cascade is an induction on the objects still live. When an object is deleted
its number is zero, and nothing is left that could be bound to it.
-/

namespace EasyLib.Common.RefPtr

open Counting MachineInt

namespace Object

/-- The object that `number` pointers are bound to. -/
def counted (number : ℕ) : Object where
  refCount := number
  bound := decide (0 < number)

theorem inc_counted {number : ℕ} (h : number + 1 < 2 ^ 31) :
    (counted number).inc = counted (number + 1) := by
  have hcount : toInt32 ((number : Int) + 1) = ((number + 1 : ℕ) : Int) :=
    toInt32_of_range (by omega) (by omega)
  simp [inc, counted, hcount]

theorem refCount_dec_counted {number : ℕ} (h : number < 2 ^ 31) :
    (counted (number + 1)).dec.refCount = number := by
  have hcount : toInt32 (((number + 1 : ℕ) : Int) - 1) = number := by
    rw [toInt32_of_range (by omega) (by omega)]
    omega
  exact hcount

theorem dec_counted {number : ℕ} (hpos : 0 < number) (h : number < 2 ^ 31) :
    (counted (number + 1)).dec = counted number := by
  have hcount := refCount_dec_counted h
  simp [dec, counted, hpos] at hcount ⊢
  exact hcount

end Object

namespace Memory

variable {s next : Memory} {r other : Ref} {inst : Instance} {slot : Option Instance} {place : Place}
  {old rep : Option Ref} {extra : Ref → ℕ}

@[simp]
theorem holds_none (r : Ref) : holds none r = 0 := rfl

@[simp]
theorem holds_self (r : Ref) : holds (some r) r = 1 := if_pos rfl

theorem holds_of_ne (hne : other ≠ r) : holds (some r) other = 0 :=
  if_neg fun heq => hne (Option.some.inj heq).symm

/-! ### Slots of the heap -/

theorem heap_of_deref (hderef : s.deref r = some inst) : s.heap[r]? = some (some inst) :=
  Option.join_eq_some_iff.mp hderef

theorem deref_put_self (hderef : s.deref r = some inst) : (s.put r slot).deref r = slot := by
  obtain ⟨hlt, -⟩ := List.getElem?_eq_some_iff.mp (heap_of_deref hderef)
  simp [deref, put, hlt]

theorem deref_put_of_ne (hne : other ≠ r) : (s.put r slot).deref other = s.deref other := by
  simp [deref, put, List.getElem?_set_ne hne.symm]

theorem bindings_put (hderef : s.deref r = some inst) (slot : Option Instance) (other : Ref) :
    (s.put r slot).bindings other + tally (holds · other) inst.members =
      s.bindings other + slot.elim 0 fun inst => tally (holds · other) inst.members := by
  have hset := tally_set_add (fun slot => slot.elim 0 fun inst => tally (holds · other) inst.members)
    (heap_of_deref hderef) slot
  simp only [Option.elim_some] at hset
  simp only [bindings, put]
  omega

theorem live_put (hderef : s.deref r = some inst) (slot : Option Instance) :
    (s.put r slot).live + 1 = s.live + slot.elim 0 fun _ => 1 :=
  tally_set_add (fun slot => slot.elim 0 fun _ => 1) (heap_of_deref hderef) slot

/-- The base class of an object, or that of a new one if it is deleted. -/
def object (s : Memory) (r : Ref) : Object := (s.deref r).elim .new Instance.object

theorem object_of_deref (hderef : s.deref r = some inst) : s.object r = inst.object := by
  rw [object, hderef, Option.elim_some]

theorem object_put_of_ne (hne : other ≠ r) : (s.put r slot).object other = s.object other := by
  rw [object, deref_put_of_ne hne, object]

/-! ### The invariant -/

def Balanced (s : Memory) (extra : Ref → ℕ) : Prop :=
  ∀ r, s.bindings r + extra r < 2 ^ 31 ∧ s.object r = .counted (s.bindings r + extra r)

theorem Balanced.of_eq {extra' : Ref → ℕ} (h : s.Balanced extra)
    (hobject : ∀ r, next.object r = s.object r)
    (hnumber : ∀ r, next.bindings r + extra' r = s.bindings r + extra r) : next.Balanced extra' := by
  intro r
  rw [hobject, hnumber]
  exact h r

theorem Balanced.deref_of_pos (h : s.Balanced extra) (hpos : 0 < s.bindings r + extra r) :
    ∃ inst, s.deref r = some inst := by
  cases hderef : s.deref r with
  | some inst => exact ⟨inst, rfl⟩
  | none =>
      have hcount := congrArg Object.refCount (h r).2
      rw [object, hderef] at hcount
      simp only [Option.elim_none, Object.new, Object.counted] at hcount
      omega

theorem Balanced.counted (h : s.Balanced fun _ => 0) : s.Counted := by
  intro r inst hderef hbound
  obtain ⟨-, hobject⟩ := h r
  rw [object_of_deref hderef, add_zero] at hobject
  rw [hobject] at hbound ⊢
  exact ⟨rfl, of_decide_eq_true hbound⟩

/-! ### `ref` -/

theorem ref_balanced (h : s.Balanced fun _ => 0) (hderef : s.deref r = some inst)
    (hfew : s.bindings r < 2 ^ 31 - 1) :
    (s.put r (some { inst with object := inst.object.inc })).Balanced (holds (some r)) := by
  intro other
  have hnumber := bindings_put hderef (some { inst with object := inst.object.inc }) other
  rw [Option.elim_some, Nat.add_right_cancel_iff] at hnumber
  obtain ⟨hlt, hobject⟩ := h other
  rw [hnumber]
  by_cases heq : other = r
  · subst heq
    have hlt' : s.bindings other + 1 < 2 ^ 31 := by omega
    rw [object_of_deref hderef, Nat.add_zero] at hobject
    rw [object_of_deref (deref_put_self hderef), holds_self]
    refine ⟨hlt', ?_⟩
    dsimp only
    rw [hobject, Object.inc_counted hlt']
  · rw [object_put_of_ne heq, holds_of_ne heq]
    exact ⟨hlt, hobject⟩

theorem read_put (hderef : s.deref r = some inst) {object : Object} (place : Place) :
    (s.put r (some { inst with object })).read place = s.read place := by
  cases place with
  | root var => rfl
  | member holder index =>
      by_cases heq : holder = r
      · subst heq
        rw [read, read, deref_put_self hderef, hderef]
        rfl
      · rw [read, read, deref_put_of_ne heq]

theorem refRep_spec (h : s.Balanced fun _ => 0)
    (hlive : ∀ r ∈ rep, (s.deref r).isSome ∧ s.bindings r < 2 ^ 31 - 1) :
    ∃ next, s.refRep rep = some next ∧ next.Balanced (holds rep) ∧
      (∀ place, next.read place = s.read place) ∧
      ∀ r, rep ≠ some r → next.object r = s.object r := by
  cases rep with
  | none => exact ⟨s, rfl, h, fun _ => rfl, fun _ _ => rfl⟩
  | some r =>
      obtain ⟨hsome, hfew⟩ := hlive r rfl
      obtain ⟨inst, hderef⟩ := Option.isSome_iff_exists.mp hsome
      refine ⟨_, Option.map_eq_some_iff.mpr ⟨inst, hderef, rfl⟩, ref_balanced h hderef hfew,
        read_put hderef, fun other hne => object_put_of_ne ?_⟩
      rintro rfl
      exact hne rfl

/-! ### `unref` -/

/-- What releasing pointers keeps: objects are deleted, but no other member changes, and what has never
been bound stays as it is. -/
structure Frame (s next : Memory) : Prop where
  roots : next.roots = s.roots
  members : ∀ r inst', next.deref r = some inst' →
    ∃ inst, s.deref r = some inst ∧ inst'.members = inst.members
  unbound : ∀ r inst, s.deref r = some inst → inst.object.bound = false → next.deref r = some inst
  live : next.live ≤ s.live

theorem Frame.refl (s : Memory) : Frame s s :=
  ⟨rfl, fun _ inst hderef => ⟨inst, hderef, rfl⟩, fun _ _ hderef _ => hderef, le_rfl⟩

theorem Frame.trans {middle : Memory} (h : Frame s middle) (h' : Frame middle next) : Frame s next where
  roots := h'.roots.trans h.roots
  members := by
    intro r inst' hderef
    obtain ⟨inst, hmiddle, heq⟩ := h'.members r inst' hderef
    obtain ⟨inst₀, hstart, heq₀⟩ := h.members r inst hmiddle
    exact ⟨inst₀, hstart, heq.trans heq₀⟩
  unbound := fun r inst hderef hbound => h'.unbound r inst (h.unbound r inst hderef hbound) hbound
  live := h'.live.trans h.live

theorem put_frame (hderef : s.deref r = some inst) (hbound : inst.object.bound = true)
    (hslot : ∀ inst' ∈ slot, inst'.members = inst.members) : Frame s (s.put r slot) where
  roots := rfl
  members := by
    intro other inst' hother
    by_cases heq : other = r
    · subst heq
      rw [deref_put_self hderef] at hother
      exact ⟨inst, hderef, hslot inst' hother⟩
    · rw [deref_put_of_ne heq] at hother
      exact ⟨inst', hother, rfl⟩
  unbound := by
    intro other inst' hother hunbound
    rw [deref_put_of_ne, hother]
    rintro rfl
    obtain rfl : inst = inst' := Option.some.inj (hderef.symm.trans hother)
    rw [hbound] at hunbound
    cases hunbound
  live := by
    have hlive := live_put hderef slot
    cases slot with
    | none =>
        rw [Option.elim_none] at hlive
        omega
    | some inst' =>
        rw [Option.elim_some] at hlive
        omega

theorem Balanced.pending_self (h : s.Balanced fun other => extra other + holds (some r) other) :
    s.bindings r + extra r + 1 < 2 ^ 31 ∧ s.object r = .counted (s.bindings r + extra r + 1) := by
  have hself := h r
  dsimp only at hself
  rwa [holds_self, ← Nat.add_assoc] at hself

theorem Balanced.pending_of_ne (h : s.Balanced fun other => extra other + holds (some r) other)
    (hne : other ≠ r) :
    s.bindings other + extra other < 2 ^ 31 ∧
      s.object other = .counted (s.bindings other + extra other) := by
  have hother := h other
  dsimp only at hother
  rwa [holds_of_ne hne, Nat.add_zero] at hother

/-- One pointer of several is released. -/
theorem dec_balanced (h : s.Balanced fun other => extra other + holds (some r) other)
    (hderef : s.deref r = some inst) (hpos : 0 < s.bindings r + extra r) :
    (s.put r (some { inst with object := inst.object.dec })).Balanced extra := by
  intro other
  have hnumber := bindings_put hderef (some { inst with object := inst.object.dec }) other
  rw [Option.elim_some, Nat.add_right_cancel_iff] at hnumber
  rw [hnumber]
  by_cases heq : other = r
  · subst heq
    obtain ⟨hlt, hobject⟩ := h.pending_self
    rw [object_of_deref hderef] at hobject
    rw [object_of_deref (deref_put_self hderef)]
    refine ⟨by omega, ?_⟩
    dsimp only
    rw [hobject, Object.dec_counted hpos (by omega)]
  · rw [object_put_of_ne heq]
    exact h.pending_of_ne heq

/-- The last pointer is released: the members of the object are left to be released. -/
theorem delete_balanced (h : s.Balanced fun other => extra other + holds (some r) other)
    (hderef : s.deref r = some inst) (hzero : s.bindings r + extra r = 0) :
    (s.put r none).Balanced fun other => extra other + tally (holds · other) inst.members := by
  intro other
  have hnumber := bindings_put hderef none other
  rw [Option.elim_none, Nat.add_zero] at hnumber
  have hsum : (s.put r none).bindings other + (extra other + tally (holds · other) inst.members) =
      s.bindings other + extra other := by
    omega
  dsimp only
  rw [hsum]
  by_cases heq : other = r
  · subst heq
    rw [hzero, object, deref_put_self hderef]
    exact ⟨by decide, rfl⟩
  · rw [object_put_of_ne heq]
    exact h.pending_of_ne heq

/-- What `unref` does to a pointer that is not stored any more. -/
def Releases (s : Memory) (r : Ref) (result : Option Memory) : Prop :=
  ∀ extra, (s.Balanced fun other => extra other + holds (some r) other) →
    ∃ next, result = some next ∧ next.Balanced extra ∧ Frame s next

theorem release_all {fuel : ℕ} {unref : Memory → Ref → Option Memory}
    (hunref : ∀ s r, s.live < fuel → Releases s r (unref s r)) :
    ∀ (members : List (Option Ref)) (s : Memory) (extra : Ref → ℕ), s.live < fuel →
      (s.Balanced fun other => extra other + tally (holds · other) members) →
      ∃ next, members.foldlM (release unref) s = some next ∧ next.Balanced extra ∧ Frame s next := by
  intro members
  induction members with
  | nil =>
      intro s extra _ h
      exact ⟨s, rfl, h, Frame.refl s⟩
  | cons rep members ih =>
      intro s extra hlive h
      rw [List.foldlM_cons]
      cases rep with
      | none =>
          apply ih s extra hlive
          refine h.of_eq (fun _ => rfl) fun other => ?_
          rw [tally_cons, holds_none, Nat.zero_add]
      | some r =>
          have hpending : s.Balanced fun other =>
              extra other + tally (holds · other) members + holds (some r) other := by
            refine h.of_eq (fun _ => rfl) fun other => ?_
            rw [tally_cons]
            omega
          obtain ⟨middle, hmiddle, hbalanced, hframe⟩ := hunref s r hlive _ hpending
          obtain ⟨next, hnext, hbalanced', hframe'⟩ :=
            ih middle extra (hframe.live.trans_lt hlive) hbalanced
          refine ⟨next, ?_, hbalanced', hframe.trans hframe'⟩
          rw [release, hmiddle]
          exact hnext

theorem unrefWithin_releases (fuel : ℕ) :
    ∀ (s : Memory) (r : Ref), s.live < fuel → Releases s r (unrefWithin fuel s r) := by
  induction fuel with
  | zero =>
      intro s r hlive
      omega
  | succ fuel ih =>
      intro s r hlive extra h
      obtain ⟨hlt, hobject⟩ := h.pending_self
      obtain ⟨inst, hderef⟩ := h.deref_of_pos (r := r) (by rw [holds_self]; omega)
      rw [object_of_deref hderef] at hobject
      have hcount : inst.object.dec.refCount = (s.bindings r + extra r : ℕ) := by
        rw [hobject]
        exact Object.refCount_dec_counted (by omega)
      have hbound : inst.object.bound = true := by
        rw [hobject]
        exact decide_eq_true (Nat.succ_pos (s.bindings r + extra r))
      rw [unrefWithin, hderef, Option.bind_some, hcount]
      split_ifs with hnone
      · -- The deleted object is one live object less, so that the fuel is enough for its members.
        have hlive' := live_put hderef none
        rw [Option.elim_none] at hlive'
        have hdeleted : (s.put r none).Balanced fun other =>
            extra other + tally (holds · other) inst.members.reverse := by
          simp only [tally_reverse]
          exact delete_balanced h hderef (by omega)
        obtain ⟨next, hnext, hbalanced, hframe⟩ :=
          release_all ih inst.members.reverse (s.put r none) extra (by omega) hdeleted
        refine ⟨next, hnext, hbalanced, (put_frame hderef hbound ?_).trans hframe⟩
        rintro _ ⟨⟩
      · refine ⟨_, rfl, dec_balanced h hderef (by omega), put_frame hderef hbound ?_⟩
        rintro _ ⟨⟩
        rfl

theorem unref_releases (s : Memory) (r : Ref) : Releases s r (s.unref r) :=
  unrefWithin_releases (s.live + 1) s r (Nat.lt_succ_self _)

/-! ### Places -/

structure Stored (s next : Memory) (place : Place) (old rep : Option Ref) : Prop where
  number : ∀ r, next.bindings r + holds old r = s.bindings r + holds rep r
  object : ∀ r, next.object r = s.object r
  self : next.read place = some rep
  others : ∀ place', place' ≠ place → next.read place' = s.read place'

theorem store_root_spec {var : ℕ} (hread : s.read (.root var) = some old) (rep : Option Ref) :
    ∃ next, s.store (.root var) rep = some next ∧ Stored s next (.root var) old rep := by
  have hroot : s.roots[var]? = some (some old) := Option.join_eq_some_iff.mp hread
  obtain ⟨hlt, -⟩ := List.getElem?_eq_some_iff.mp hroot
  refine ⟨_, Option.map_eq_some_iff.mpr ⟨old, hread, rfl⟩, ?_, fun _ => rfl, ?_, ?_⟩
  · intro r
    have hset := tally_set_add (fun root => root.elim 0 (holds · r)) hroot (some rep)
    simp only [Option.elim_some] at hset
    simp only [bindings]
    omega
  · simp [read, hlt]
  · intro place' hne
    cases place' with
    | root var' =>
        have hvar : var ≠ var' := fun heq => hne (congrArg Place.root heq.symm)
        simp [read, List.getElem?_set_ne hvar]
    | member r index => rfl

theorem store_member_spec {index : ℕ} (hread : s.read (.member r index) = some old)
    (rep : Option Ref) :
    ∃ next, s.store (.member r index) rep = some next ∧ Stored s next (.member r index) old rep := by
  obtain ⟨inst, hderef, hmember⟩ := Option.bind_eq_some_iff.mp hread
  obtain ⟨hlt, -⟩ := List.getElem?_eq_some_iff.mp hmember
  refine ⟨s.put r (some { inst with members := inst.members.set index rep }), ?_, ?_, ?_, ?_, ?_⟩
  · rw [store, hderef, Option.bind_some, hmember, Option.map_some]
  · intro other
    have hput := bindings_put hderef (some { inst with members := inst.members.set index rep }) other
    have hset := tally_set_add (holds · other) hmember rep
    rw [Option.elim_some] at hput
    dsimp only at hput hset
    omega
  · intro other
    by_cases heq : other = r
    · subst heq
      rw [object_of_deref (deref_put_self hderef), object_of_deref hderef]
    · exact object_put_of_ne heq
  · rw [read, deref_put_self hderef]
    simp [hlt]
  · intro place' hne
    cases place' with
    | root var => rfl
    | member other index' =>
        by_cases heq : other = r
        · subst heq
          have hindex : index ≠ index' := fun hsame => hne (hsame ▸ rfl)
          rw [read, read, deref_put_self hderef, hderef, Option.bind_some, Option.bind_some,
            List.getElem?_set_ne hindex]
        · rw [read, read, deref_put_of_ne heq]

theorem store_spec (hread : s.read place = some old) (rep : Option Ref) :
    ∃ next, s.store place rep = some next ∧ Stored s next place old rep := by
  cases place with
  | root var => exact store_root_spec hread rep
  | member r index => exact store_member_spec hread rep

theorem bindings_pos_of_root {var : ℕ} (hread : s.read (.root var) = some (some r)) :
    0 < s.bindings r := by
  have hmem := List.mem_of_getElem? (Option.join_eq_some_iff.mp hread)
  have hle := weight_le_tally (fun root => root.elim 0 (holds · r)) hmem
  rw [Option.elim_some, holds_self] at hle
  exact Nat.lt_of_lt_of_le hle (Nat.le_add_right _ _)

/-- Why the object that holds the place outlives the release of another pointer. -/
def Kept (s : Memory) (extra : Ref → ℕ) : Place → Prop
  | .root _ => True
  | .member r _ =>
      (s.object r).bound = false ∨ 0 < extra r ∨ ∃ var, s.read (.root var) = some (some r)

theorem kept_of_assignable (extra : Ref → ℕ) (hassignable : s.Assignable place) :
    s.Kept extra place := by
  obtain ⟨hread, hkept⟩ := hassignable
  cases place with
  | root var => trivial
  | member r index =>
      rcases hkept with hroot | hunbound
      · obtain ⟨var, hvar⟩ := List.mem_iff_getElem?.mp hroot
        exact .inr (.inr ⟨var, Option.join_eq_some_iff.mpr hvar⟩)
      · obtain ⟨inst, hderef, -⟩ := Option.bind_eq_some_iff.mp (Option.eq_some_of_isSome hread)
        refine .inl ?_
        rw [object_of_deref hderef]
        exact hunbound inst hderef

/-- A place that is kept is still there, with what is in it. -/
theorem read_of_frame (hkept : s.Kept extra place) (hread : s.read place = some rep)
    (hnext : next.Balanced extra) (hframe : Frame s next) : next.read place = some rep := by
  have hroot (var : ℕ) : next.read (.root var) = s.read (.root var) := by
    rw [read, read, hframe.roots]
  cases place with
  | root var => rw [hroot, hread]
  | member r index =>
      obtain ⟨inst, hderef, hmember⟩ := Option.bind_eq_some_iff.mp hread
      have hlive : ∃ inst', next.deref r = some inst' := by
        rcases hkept with hunbound | hextra | ⟨var, hvar⟩
        · rw [object_of_deref hderef] at hunbound
          exact ⟨inst, hframe.unbound r inst hderef hunbound⟩
        · exact hnext.deref_of_pos (Nat.lt_of_lt_of_le hextra (Nat.le_add_left _ _))
        · have hpos := bindings_pos_of_root ((hroot var).trans hvar)
          exact hnext.deref_of_pos (Nat.lt_of_lt_of_le hpos (Nat.le_add_right _ _))
      obtain ⟨inst', hderef'⟩ := hlive
      obtain ⟨inst₀, hderef₀, hmembers⟩ := hframe.members r inst' hderef'
      obtain rfl : inst = inst₀ := Option.some.inj (hderef.symm.trans hderef₀)
      rw [read, hderef', Option.bind_some, hmembers, hmember]

/-! ### `RefPtr` -/

theorem setNull_spec (h : s.Balanced extra) (hread : s.read place = some old)
    (hkept : s.Kept extra place) :
    ∃ next, s.setNull place = some next ∧ next.Balanced extra ∧ next.read place = some none := by
  cases old with
  | none =>
      refine ⟨s, ?_, h, hread⟩
      rw [setNull, hread, Option.bind_some]
  | some pThis =>
      obtain ⟨stored, hstore, hstored⟩ := store_spec hread none
      have hbalanced : stored.Balanced fun r => extra r + holds (some pThis) r := by
        refine h.of_eq hstored.object fun r => ?_
        have hnumber := hstored.number r
        rw [holds_none] at hnumber
        omega
      have hkept' : stored.Kept extra place := by
        cases place with
        | root var => trivial
        | member r index =>
            rcases hkept with hunbound | hextra | ⟨var, hvar⟩
            · exact .inl ((hstored.object r).symm ▸ hunbound)
            · exact .inr (.inl hextra)
            · refine .inr (.inr ⟨var, ?_⟩)
              rw [hstored.others _ Place.noConfusion, hvar]
      obtain ⟨next, hnext, hnext', hframe⟩ := unref_releases stored pThis extra hbalanced
      refine ⟨next, ?_, hnext', read_of_frame hkept' hstored.self hnext' hframe⟩
      rw [setNull, hread, Option.bind_some]
      dsimp only
      rw [hstore, Option.bind_some, hnext]

theorem bind_spec (h : s.Balanced fun _ => 0) (hassignable : s.Assignable place)
    (hlive : ∀ r ∈ rep, (s.deref r).isSome ∧ s.bindings r < 2 ^ 31 - 1) :
    ∃ next, s.bind place rep = some next ∧ next.Balanced fun _ => 0 := by
  obtain ⟨old, hread⟩ := Option.isSome_iff_exists.mp hassignable.1
  obtain ⟨counted, hcounted, hbalanced, hreads, hobjects⟩ := refRep_spec h hlive
  have hkept : counted.Kept (holds rep) place := by
    -- The holder may be what the place is bound to now; then the new pointer keeps it.
    cases place with
    | root var => trivial
    | member r index =>
        rcases kept_of_assignable (holds rep) hassignable with hunbound | hextra | ⟨var, hvar⟩
        · by_cases hself : rep = some r
          · refine .inr (.inl ?_)
            rw [hself, holds_self]
            exact Nat.one_pos
          · exact .inl ((hobjects r hself).symm ▸ hunbound)
        · exact .inr (.inl hextra)
        · exact .inr (.inr ⟨var, (hreads _).trans hvar⟩)
  obtain ⟨null, hnull, hbalanced', hread'⟩ := setNull_spec hbalanced ((hreads place).trans hread) hkept
  obtain ⟨next, hnext, hstored⟩ := store_spec hread' rep
  refine ⟨next, ?_, hbalanced'.of_eq hstored.object fun r => ?_⟩
  · rw [bind, hcounted, Option.bind_some, hnull, Option.bind_some, hnext]
  · have hnumber := hstored.number r
    rw [holds_none] at hnumber
    omega

theorem swap_spec {first second : Place} (h : s.Balanced extra) (hfirst : (s.read first).isSome)
    (hsecond : (s.read second).isSome) :
    ∃ next, s.swap first second = some next ∧ next.Balanced extra := by
  obtain ⟨pRep, hpRep⟩ := Option.isSome_iff_exists.mp hfirst
  obtain ⟨other, hother⟩ := Option.isSome_iff_exists.mp hsecond
  obtain ⟨middle, hmiddle, hstored⟩ := store_spec hpRep other
  have hread : middle.read second = some other := by
    by_cases heq : second = first
    · rw [heq, hstored.self]
    · rw [hstored.others second heq, hother]
  obtain ⟨next, hnext, hstored'⟩ := store_spec hread pRep
  refine ⟨next, ?_, h.of_eq (fun r => (hstored'.object r).trans (hstored.object r)) fun r => ?_⟩
  · rw [swap, hpRep, Option.bind_some, hother, Option.bind_some, hmiddle, Option.bind_some, hnext]
  · have hnumber := hstored.number r
    have hnumber' := hstored'.number r
    omega

/-! ### Operations -/

theorem create_balanced (h : s.Balanced extra) (width : ℕ) :
    Balanced { s with heap := s.heap ++ [some ⟨.new, List.replicate width none⟩] } extra := by
  apply h.of_eq
  · intro r
    simp only [object, deref, List.getElem?_append]
    split_ifs with hlt
    · rfl
    · rw [List.getElem?_eq_none (not_lt.mp hlt)]
      cases r - s.heap.length <;> rfl
  · intro r
    have hempty : tally (holds · r) (List.replicate width none) = 0 := by
      simp [tally]
    simp only [bindings, tally_append_singleton, Option.elim_some, hempty, Nat.add_zero]

theorem construct_spec (h : s.Balanced fun _ => 0)
    (hlive : ∀ r ∈ rep, (s.deref r).isSome ∧ s.bindings r < 2 ^ 31 - 1) :
    ∃ next, ((s.refRep rep).map fun s => { s with roots := s.roots ++ [some rep] }) = some next ∧
      next.Balanced fun _ => 0 := by
  obtain ⟨counted, hcounted, hbalanced, -⟩ := refRep_spec h hlive
  refine ⟨_, Option.map_eq_some_iff.mpr ⟨counted, hcounted, rfl⟩, ?_⟩
  refine hbalanced.of_eq (fun _ => rfl) fun r => ?_
  simp only [bindings, tally_append_singleton, Option.elim_some]
  omega

theorem destroy_spec {var : ℕ} (h : s.Balanced extra) (hsome : (s.read (.root var)).isSome) :
    ∃ next, s.step (.destroy var) = some next ∧ next.Balanced extra := by
  obtain ⟨old, hread⟩ := Option.isSome_iff_exists.mp hsome
  obtain ⟨null, hnull, hbalanced, hread'⟩ := setNull_spec h hread trivial
  refine ⟨_, Option.map_eq_some_iff.mpr ⟨null, hnull, rfl⟩, ?_⟩
  refine hbalanced.of_eq (fun _ => rfl) fun r => ?_
  have hset := tally_set_add (fun root => root.elim 0 (holds · r)) (Option.join_eq_some_iff.mp hread') none
  simp only [Option.elim_some, Option.elim_none, holds_none] at hset
  simp only [bindings]
  omega

/-- A source that can be used names a live object, if it names one. -/
theorem value_of_usable {source : Source} (h : s.Balanced fun _ => 0) (husable : s.Usable source) :
    ∃ rep, s.value source = some rep ∧ ∀ r ∈ rep, (s.deref r).isSome := by
  cases source with
  | null => exact ⟨none, rfl, fun _ hr => by cases hr⟩
  | raw r =>
      refine ⟨some r, rfl, ?_⟩
      rintro _ ⟨⟩
      exact husable
  | ptr place =>
      obtain ⟨rep, hread⟩ := Option.isSome_iff_exists.mp husable
      refine ⟨rep, hread, ?_⟩
      rintro r ⟨⟩
      -- Setting the place to null takes one from the number of pointers to `r`.
      obtain ⟨next, -, hstored⟩ := store_spec hread none
      have hnumber := hstored.number r
      rw [holds_self, holds_none] at hnumber
      obtain ⟨inst, hderef⟩ := h.deref_of_pos (r := r) (by omega)
      exact Option.isSome_iff_exists.mpr ⟨inst, hderef⟩

theorem step_balanced (s : Memory) (op : Op) (h : s.Balanced fun _ => 0) (hvalid : s.Valid op)
    (hfew : s.Few op) : ∃ next ∈ s.step op, next.Balanced fun _ => 0 := by
  cases op with
  | create width => exact ⟨_, rfl, create_balanced h width⟩
  | construct source =>
      obtain ⟨rep, hvalue, hlive⟩ := value_of_usable h hvalid
      rw [step, hvalue, Option.bind_some]
      apply construct_spec h
      rintro r ⟨⟩
      rw [Few, hvalue] at hfew
      exact ⟨hlive r rfl, hfew⟩
  | assign place source =>
      obtain ⟨rep, hvalue, hlive⟩ := value_of_usable h hvalid.2
      rw [step, hvalue, Option.bind_some]
      apply bind_spec h hvalid.1
      rintro r ⟨⟩
      rw [Few, hvalue] at hfew
      exact ⟨hlive r rfl, hfew⟩
  | setNull place =>
      obtain ⟨old, hread⟩ := Option.isSome_iff_exists.mp hvalid.1
      obtain ⟨next, hnext, hbalanced, -⟩ := setNull_spec h hread (kept_of_assignable _ hvalid)
      exact ⟨next, hnext, hbalanced⟩
  | swap first second => exact swap_spec h hvalid.1 hvalid.2
  | destroy var => exact destroy_spec h hvalid

/-- **Reference counts are exact**, and nothing is called on a deleted object, as long as no object gets
`2 ^ 31` pointers. -/
theorem refs_counted {ops : List Op} (hvalid : Machine.AllSteps step Valid start ops)
    (hfew : Machine.AllSteps step Few start ops) : Machine.Safe step Counted start ops := by
  have hstart : start.Balanced fun _ => 0 := fun _ => ⟨Nat.two_pow_pos 31, rfl⟩
  exact Machine.safe_of_allSteps (fun s => s.Balanced fun _ => 0) (fun _ h => h.counted) step_balanced ops
    start hstart hvalid hfew

/-- Two pointers to a list of two objects. One goes to the second object, and when the other one follows
the first object is deleted with its member. -/
theorem refs_counted_walk :
    let ops := [.create 1, .create 1, .construct (.raw 0), .assign (.member 0 0) (.raw 1),
      .construct (.ptr (.root 0)), .assign (.root 1) (.ptr (.member 0 0)),
      .assign (.root 0) (.ptr (.member 0 0)), .swap (.root 0) (.root 1), .destroy 1]
    Machine.Safe step Counted start ops ∧
      Machine.run step start ops =
        some { heap := [none, some ⟨⟨1, true⟩, [none]⟩], roots := [some (some 1), none] } := by
  intro ops
  exact ⟨refs_counted (by decide +kernel) (by decide +kernel), by decide +kernel⟩

/-! ### Too many pointers -/

/-- One object and `number` roots bound to it. -/
def piled (number : ℕ) : Memory where
  heap := [some ⟨⟨toInt32 number, decide (0 < number)⟩, []⟩]
  roots := List.replicate number (some (some 0))

theorem step_piled (number : ℕ) :
    (piled number).step (.construct (.raw 0)) = some (piled (number + 1)) := by
  have hcount := toInt32_succ number
  simp [step, value, refRep, ref, deref, put, piled, Object.inc, hcount, List.replicate_succ']

theorem run_piled (number more : ℕ) :
    let ops := List.replicate more (.construct (.raw 0))
    Machine.AllSteps step Valid (piled number) ops ∧
      Machine.run step (piled number) ops = some (piled (number + more)) := by
  induction more generalizing number with
  | zero => exact ⟨trivial, rfl⟩
  | succ more ih =>
      obtain ⟨hvalid, hrun⟩ := ih (number + 1)
      rw [Nat.add_right_comm] at hrun
      refine ⟨⟨rfl, ?_⟩, ?_⟩
      · rw [step_piled]
        rintro _ ⟨⟩
        exact hvalid
      · rw [List.replicate_succ, Machine.run_cons, step_piled, Option.bind_some]
        exact hrun

/-- The object is deleted, and all roots but the first one are still bound to it. -/
def orphaned (number : ℕ) : Memory where
  heap := [none]
  roots := none :: List.replicate number (some (some 0))

theorem destroy_piled {number : ℕ} (hcount : toInt32 (toInt32 ((number : Int) + 1) - 1) ≤ 0) :
    (piled (number + 1)).step (.destroy 0) = some (orphaned number) := by
  simp [step, setNull, read, store, unref, unrefWithin, live, tally, deref, put, piled, orphaned,
    Object.dec, hcount, List.replicate_succ]

theorem destroy_orphaned {number : ℕ} (hpos : 0 < number) :
    (orphaned number).Valid (.destroy 1) ∧ (orphaned number).step (.destroy 1) = none := by
  obtain ⟨number, rfl⟩ := Nat.exists_eq_add_of_lt hpos
  simp [Valid, step, setNull, read, store, unref, unrefWithin, deref, orphaned, List.replicate_succ]

/-- The `2 ^ 31 + 1`-st pointer makes the count `1 - 2 ^ 31`. When one of them is destroyed the object is
deleted, and destroying the next one calls `unref` on it. -/
theorem refs_not_counted :
    let ops := .create 0 ::
      (List.replicate (2 ^ 31 + 1) (.construct (.raw 0)) ++ [.destroy 0, .destroy 1])
    Machine.AllSteps step Valid start ops ∧ Machine.run step start ops = none := by
  intro ops
  have hcreate : start.step (.create 0) = some (piled 0) := rfl
  obtain ⟨hvalid, hrun⟩ := run_piled 0 (2 ^ 31 + 1)
  rw [Nat.zero_add] at hrun
  have hcount : toInt32 (toInt32 (((2 ^ 31 : ℕ) : Int) + 1) - 1) ≤ 0 := by decide
  have hfirst := destroy_piled hcount
  obtain ⟨hvalid', hsecond⟩ := destroy_orphaned (Nat.two_pow_pos 31)
  have hall : Machine.AllSteps step Valid (piled 0)
      (List.replicate (2 ^ 31 + 1) (.construct (.raw 0)) ++ [.destroy 0, .destroy 1]) := by
    refine Machine.allSteps_append.mpr ⟨hvalid, ?_⟩
    rw [hrun]
    rintro _ ⟨⟩
    refine ⟨rfl, ?_⟩
    rw [hfirst]
    rintro _ ⟨⟩
    refine ⟨hvalid', ?_⟩
    rw [hsecond]
    rintro _ ⟨⟩
  constructor
  · refine ⟨trivial, ?_⟩
    rw [hcreate]
    rintro _ ⟨⟩
    exact hall
  · rw [Machine.run_cons, hcreate, Option.bind_some, Machine.run_append, hrun, Option.bind_some,
      Machine.run_cons, hfirst, Option.bind_some, Machine.run_cons, hsecond, Option.bind_none]

end Memory

end EasyLib.Common.RefPtr
