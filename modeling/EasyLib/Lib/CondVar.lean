import EasyLib.Lib.Counting

/-!
# Condition variables

What is done under the mutex is one step, so that a thread is outside the mutex, waiting in the
condition variable, or woken and about to lock the mutex again and to check its condition. A signal
wakes one of the waiting threads, which one is up to the scheduler, and a thread may also wake by
itself.

The threads wait for items, and no wake-up is lost when the items are `Covered` while a thread waits:
for each of them there is a woken thread, or one that still owes a signal.
-/

namespace EasyLib.CondVar

open Counting

inductive Place (Outside : Type*) where
  | outside (activity : Outside)
  | waiting
  | woken
  deriving DecidableEq, Repr

variable {Thread Outside : Type*}

def Place.isWaiting : Place Outside → Bool
  | .waiting => true
  | _ => false

variable [DecidableEq Thread]

def wake (place : Thread → Place Outside) (thread : Thread) : Option (Thread → Place Outside) :=
  if (place thread).isWaiting then some (Function.update place thread .woken) else none

/-- Wakes the waiting thread that the scheduler has chosen, and nobody only when no thread waits. -/
def signal [Fintype Thread] (place : Thread → Place Outside) :
    Option Thread → Option (Thread → Place Outside)
  | some thread => wake place thread
  | none => if ∀ thread, !(place thread).isWaiting then some place else none

theorem wake_of_not_waiting {place place' : Thread → Place Outside} {thread other : Thread}
    (hnot : (place other).isWaiting = false) (hwake : wake place thread = some place') :
    place' other = place other := by
  obtain ⟨hwaiting, hnext⟩ := Option.ite_none_right_eq_some.mp hwake
  rw [← Option.some.inj hnext]
  apply Function.update_of_ne
  rintro rfl
  rw [hnot] at hwaiting
  cases hwaiting

theorem signal_of_not_waiting [Fintype Thread] {place place' : Thread → Place Outside}
    {chosen : Option Thread} {other : Thread} (hnot : (place other).isWaiting = false)
    (hsignal : signal place chosen = some place') : place' other = place other := by
  cases chosen with
  | some thread => exact wake_of_not_waiting hnot hsignal
  | none =>
      obtain ⟨-, hnext⟩ := Option.ite_none_right_eq_some.mp hsignal
      rw [← Option.some.inj hnext]

/-- The items a thread stands for. `credit` says how many signals it owes outside. -/
def weight (credit : Outside → ℕ) : Place Outside → ℕ
  | .outside activity => credit activity
  | .waiting => 0
  | .woken => 1

theorem weight_of_isWaiting {credit : Outside → ℕ} {position : Place Outside} (h : position.isWaiting) :
    weight credit position = 0 := by
  cases position with
  | outside activity => cases h
  | waiting => rfl
  | woken => cases h

theorem weight_le_one {credit : Outside → ℕ} (hcredit : ∀ activity, credit activity ≤ 1)
    (position : Place Outside) : weight credit position ≤ 1 := by
  cases position with
  | outside activity => exact hcredit activity
  | waiting => exact Nat.zero_le 1
  | woken => exact le_rfl

theorem woken_or_credit_of_weight_pos {credit : Outside → ℕ} {position : Place Outside}
    (hpos : 0 < weight credit position) :
    position = .woken ∨ ∃ activity, position = .outside activity ∧ 0 < credit activity := by
  cases position with
  | outside activity => exact .inr ⟨activity, rfl, hpos⟩
  | waiting => cases hpos
  | woken => exact .inl rfl

section Covered

variable [Fintype Thread] {credit : Outside → ℕ} {items items' : ℕ}
  {place place' : Thread → Place Outside} {thread : Thread} {next : Place Outside}

def Covered (credit : Outside → ℕ) (items : ℕ) (place : Thread → Place Outside) : Prop :=
  (∃ thread, (place thread).isWaiting) → items ≤ total (weight credit) place

omit [DecidableEq Thread] in
theorem covered_zero : Covered credit 0 place := fun _ => Nat.zero_le _

/-- **The step rule.** A thread that does not go to wait may take as many items away as it stops
standing for, and bring as many as it begins to stand for. -/
theorem covered_update (h : Covered credit items place) (hnext : next.isWaiting = false)
    (hle : items' + weight credit (place thread) ≤ items + weight credit next) :
    Covered credit items' (Function.update place thread next) := by
  rintro ⟨other, hother⟩
  have hne : other ≠ thread := by
    rintro rfl
    rw [Function.update_self, hnext] at hother
    cases hother
  rw [Function.update_of_ne hne] at hother
  have hitems := h ⟨other, hother⟩
  have htotal := total_update_add (weight credit) place thread next
  omega

theorem covered_wake (h : Covered credit items place) (hwake : wake place thread = some place') :
    Covered credit (items + 1) place' := by
  obtain ⟨hwaiting, hnext⟩ := Option.ite_none_right_eq_some.mp hwake
  rw [← Option.some.inj hnext]
  apply covered_update h rfl
  rw [weight_of_isWaiting hwaiting]
  exact le_rfl

/-- A thread that wakes by itself takes nothing away. -/
theorem Covered.wake (h : Covered credit items place) (hwake : wake place thread = some place') :
    Covered credit items place' := fun hwaiting =>
  (Nat.le_succ items).trans (covered_wake h hwake hwaiting)

/-- A signal covers one item more. -/
theorem covered_signal {chosen : Option Thread} (h : Covered credit items place)
    (hsignal : signal place chosen = some place') : Covered credit (items + 1) place' := by
  cases chosen with
  | some thread => exact covered_wake h hsignal
  | none =>
      obtain ⟨hnone, hnext⟩ := Option.ite_none_right_eq_some.mp hsignal
      rw [← Option.some.inj hnext]
      rintro ⟨thread, hthread⟩
      have hnot := hnone thread
      rw [hthread] at hnot
      cases hnot

omit [DecidableEq Thread] in
/-- **No lost wake-up.** -/
theorem Covered.exists_pos (h : Covered credit items place) (hitems : 0 < items)
    (hwaiting : (place thread).isWaiting) : ∃ other, 0 < weight credit (place other) := by
  by_contra hnone
  have hzero : total (weight credit) place = 0 :=
    total_eq_zero fun other => Nat.eq_zero_of_not_pos fun hpos => hnone ⟨other, hpos⟩
  have hle := h ⟨thread, hwaiting⟩
  omega

end Covered

end EasyLib.CondVar
