import EasyLib.Http.HttpService
import EasyLib.Lib.Batches

/-!
# Every reply is sent once and in order

The list, the replies that `SendPendingReply` has taken from it and those that were sent are a queue
emptied in batches. That a reply in the list is not forgotten is an invariant of its own: a byte that
gets lost because the pipe is full leaves a full pipe behind, and the byte that `CallBack` has read
stands for the list until the swap.
-/

namespace EasyLib.Http.HttpService

open Common

variable {Caller : Type*} {s next : HttpService Caller}

/-- What the event loop can do next. -/
inductive Advance (s : HttpService Caller) : HttpService Caller → Prop where
  | fire (hcallBack : s.callBack = .waiting) (hunread : 0 < s.unread) :
      Advance s { s with callBack := .reading }
  | again (hcallBack : s.callBack = .reading) : Advance s { s with callBack := .waiting }
  | read (hcallBack : s.callBack = .reading) (hunread : 0 < s.unread) :
      Advance s { s with unread := s.unread - 1, callBack := .handling }
  | swap (hcallBack : s.callBack = .handling) :
      Advance s { s with pendingReplyList := [], callBack := .sending s.pendingReplyList }
  | send (reply : PendingReply) (replies : List PendingReply)
      (hcallBack : s.callBack = .sending (reply :: replies)) :
      Advance s { s with sent := s.sent ++ [reply], callBack := .sending replies }
  | handled (hcallBack : s.callBack = .sending []) : Advance s { s with callBack := .reading }

theorem advance_of_eq_some {interrupted : Bool} (hadvance : s.advance interrupted = some next) :
    Advance s next := by
  unfold advance at hadvance
  cases hcallBack : s.callBack with
  | waiting =>
      rw [hcallBack] at hadvance
      obtain ⟨hunread, hnext⟩ := Option.ite_none_right_eq_some.mp hadvance
      rw [← Option.some.inj hnext]
      exact .fire hcallBack hunread
  | reading =>
      rw [hcallBack] at hadvance
      dsimp only at hadvance
      split_ifs at hadvance with hagain
      · rw [← Option.some.inj hadvance]
        exact .again hcallBack
      · rw [← Option.some.inj hadvance]
        exact .read hcallBack (Nat.pos_of_ne_zero fun hzero => hagain (.inl hzero))
  | handling =>
      rw [hcallBack] at hadvance
      rw [← Option.some.inj hadvance]
      exact .swap hcallBack
  | sending replies =>
      rw [hcallBack] at hadvance
      cases replies with
      | nil =>
          rw [← Option.some.inj hadvance]
          exact .handled hcallBack
      | cons reply replies =>
          rw [← Option.some.inj hadvance]
          exact .send reply replies hcallBack

theorem taken_of_waiting (h : s.callBack = .waiting) : s.taken = [] := by
  rw [taken, h]

theorem taken_of_reading (h : s.callBack = .reading) : s.taken = [] := by
  rw [taken, h]

theorem taken_of_handling (h : s.callBack = .handling) : s.taken = [] := by
  rw [taken, h]

theorem taken_of_sending {replies : List PendingReply} (h : s.callBack = .sending replies) :
    s.taken = replies := by
  rw [taken, h]

/-! ### The invariant -/

structure Inv (s : HttpService Caller) : Prop where
  capacity : 0 < s.capacity
  inStep : Batches.InStep (s.sent.map PendingReply.ordinal) (s.taken.map PendingReply.ordinal)
    (s.pendingReplyList.map PendingReply.ordinal) s.queued
  covered : s.Covered

theorem inv_new {capacity : ℕ} (hcapacity : 0 < capacity) : Inv (new capacity : HttpService Caller) :=
  ⟨hcapacity, Batches.inStep_new, fun hne => absurd rfl hne⟩

theorem unread_notify_pos (hcapacity : 0 < s.capacity) : 0 < s.notify.unread := by
  simp only [notify]
  split_ifs <;> omega

/-- Only the byte that was read for the list needs `handling`. -/
theorem covered_of_ne_handling (h : s.Covered) (hcallBack : s.callBack ≠ .handling) (callBack : CallBack) :
    Covered { s with callBack } :=
  fun hne => (h hne).imp_right fun h => .inl (h.resolve_right hcallBack)

theorem advance_inv (h : Inv s) (hadvance : Advance s next) : Inv next := by
  obtain ⟨hcapacity, hinStep, hcovered⟩ := h
  cases hadvance with
  | fire hcallBack _ =>
      rw [taken_of_waiting hcallBack] at hinStep
      exact ⟨hcapacity, hinStep, covered_of_ne_handling hcovered (by simp [hcallBack]) _⟩
  | again hcallBack =>
      rw [taken_of_reading hcallBack] at hinStep
      exact ⟨hcapacity, hinStep, covered_of_ne_handling hcovered (by simp [hcallBack]) _⟩
  | read hcallBack _ =>
      rw [taken_of_reading hcallBack] at hinStep
      exact ⟨hcapacity, hinStep, fun _ => .inr (.inr rfl)⟩
  | swap hcallBack =>
      rw [taken_of_handling hcallBack] at hinStep
      have hswapped := hinStep.swap (.inr rfl)
      rw [List.map_nil, List.append_nil] at hswapped
      exact ⟨hcapacity, hswapped, fun hne => absurd rfl hne⟩
  | send reply replies hcallBack =>
      rw [taken_of_sending hcallBack] at hinStep
      refine ⟨hcapacity, ?_, covered_of_ne_handling hcovered (by simp [hcallBack]) _⟩
      rw [List.map_append]
      exact hinStep.start
  | handled hcallBack =>
      rw [taken_of_sending hcallBack] at hinStep
      exact ⟨hcapacity, hinStep, covered_of_ne_handling hcovered (by simp [hcallBack]) _⟩

variable [DecidableEq Caller]

theorem step_inv {label : Label Caller} (h : Inv s) (hstep : s.step label = some next) : Inv next := by
  cases label with
  | sendReply caller req buffer =>
      obtain ⟨-, hnext⟩ := Option.ite_none_left_eq_some.mp hstep
      rw [← Option.some.inj hnext]
      refine ⟨h.capacity, ?_, fun _ => .inr (.inl ⟨caller, Function.update_self ..⟩)⟩
      simp only [pushBack, List.map_append]
      exact h.inStep.push
  | notify caller =>
      obtain ⟨-, hnext⟩ := Option.ite_none_right_eq_some.mp hstep
      rw [← Option.some.inj hnext]
      exact ⟨h.capacity, h.inStep, fun _ => .inl (unread_notify_pos h.capacity)⟩
  | advance interrupted => exact advance_inv h (advance_of_eq_some hstep)

theorem run_inv {capacity : ℕ} {labels : List (Label Caller)} (hcapacity : 0 < capacity)
    (hrun : Machine.run step (new capacity) labels = some s) : Inv s :=
  Machine.run_invariant_of_forall (fun _ _ _ h hstep => step_inv h hstep) (inv_new hcapacity) hrun

/-- For any callers and any interleaving, the replies that have been sent are the first ones that were
queued, each once and in order, and the pipe, a caller or `CallBack` stands for those in the list. -/
theorem replies_in_order_and_covered (capacity : ℕ) (hcapacity : 0 < capacity)
    (labels : List (Label Caller)) (s : HttpService Caller)
    (hrun : Machine.run step (new capacity) labels = some s) : s.InOrder ∧ s.Covered := by
  have h := run_inv hcapacity hrun
  exact ⟨h.inStep.started_prefix, h.covered⟩

def twoCallers : List (Label ℕ) :=
  [.sendReply 0 7 [], .sendReply 1 8 [], .notify 0, .notify 1, .advance false, .advance false,
    .advance false, .sendReply 0 9 [], .advance false, .advance false]

/-- The second byte is lost, and the third reply comes after the swap. -/
theorem replies_in_order_and_covered_two :
    ∃ s, Machine.run step (new 1) twoCallers = some s ∧
      s.sent.map PendingReply.req = [7, 8] ∧ s.pendingReplyList = [⟨2, 9, []⟩] ∧ s.unread = 0 ∧
      s.InOrder ∧ s.Covered :=
  ⟨_, rfl, rfl, rfl, rfl, replies_in_order_and_covered 1 (by decide) twoCallers _ rfl⟩

end EasyLib.Http.HttpService
