import EasyLib.Lib.Batches
import EasyLib.Reactors.Actor

/-!
# Handing functors to a loop thread

A producer pushes before it notifies, and the loop thread reads the eventfd before it takes the queue.
So a functor that misses one batch is followed by a notification that starts the next iteration, and
what is left between the two is on the producer's side. `pending_` is cleared only after the batch has
been run; that is late, but by then nothing in the queue depends on it.
-/

namespace EasyLib.Reactors

open Batches

namespace Actor

variable {Functor : Type*}

def waiting (actor : Actor Functor) : List Functor := actor.unstarted ++ actor.queue

/-- A step of the loop calls the functor that has waited longest, or none. -/
theorem advance_waiting (actor : Actor Functor) :
    actor.advance.2.toList ++ actor.advance.1.waiting = actor.waiting := by
  obtain ⟨queue, pending, phase⟩ := actor
  cases phase with
  | poll => rfl
  | handling => cases pending <;> rfl
  | swapping => exact List.append_nil queue
  | running functors => cases functors <;> rfl

/-- `pending_` is cleared only where it no longer counts. -/
theorem advance_stillToRun {actor : Actor Functor} (hpending : actor.pending)
    (hstill : actor.StillToRun) (hqueue : actor.advance.1.queue ≠ []) :
    actor.advance.1.pending ∧ actor.advance.1.StillToRun := by
  obtain ⟨queue, pending, phase⟩ := actor
  cases phase with
  | poll => exact ⟨hpending, trivial⟩
  | handling =>
      obtain rfl : pending = true := hpending
      exact ⟨rfl, trivial⟩
  | swapping => exact absurd rfl hqueue
  | running functors => exact hstill.elim

theorem queue_ne_nil_of_advance {actor : Actor Functor} (hqueue : actor.advance.1.queue ≠ []) :
    actor.queue ≠ [] := by
  obtain ⟨queue, pending, phase⟩ := actor
  cases phase with
  | poll => exact hqueue
  | handling => exact hqueue
  | swapping => exact absurd rfl hqueue
  | running functors => cases functors <;> exact hqueue

end Actor

theorem EventLoopThread.notified_notifyEvent_pos {Functor : Type*}
    (thread : EventLoopThread Functor) : 0 < thread.notifyEvent.notified := by
  unfold notifyEvent eventfdMax
  dsimp only
  split_ifs <;> omega

namespace Handoff

variable {Producer : Type*} {s next : Handoff Producer}

def Woken (s : Handoff Producer) : Prop :=
  0 < s.thread.notified ∨ (s.thread.actor.pending ∧ s.thread.actor.StillToRun) ∨
    ∃ producer, s.notifying producer

structure Inv (s : Handoff Producer) : Prop where
  order : InStep s.started s.thread.actor.unstarted s.thread.actor.queue s.pushed
  woken : s.thread.actor.queue ≠ [] → s.Woken

theorem new_inv (pending : Bool) : Inv (new pending : Handoff Producer) :=
  ⟨inStep_new, fun hne => absurd rfl hne⟩

theorem advance_inStep {actor : Actor ℕ} {started : List ℕ} {pushed : ℕ}
    (h : InStep started actor.unstarted actor.queue pushed) :
    InStep (started ++ actor.advance.2.toList) actor.advance.1.unstarted actor.advance.1.queue
      pushed := by
  unfold InStep at *
  calc
    started ++ actor.advance.2.toList ++ actor.advance.1.unstarted ++ actor.advance.1.queue =
        started ++ (actor.advance.2.toList ++ actor.advance.1.waiting) := by
      simp only [Actor.waiting, List.append_assoc]
    _ = started ++ (actor.unstarted ++ actor.queue) := by
      rw [Actor.advance_waiting, Actor.waiting]
    _ = List.range pushed := by
      rw [← List.append_assoc, h]

variable [DecidableEq Producer]

theorem step_inv {label : Label Producer} (h : Inv s) (hstep : s.step label = some next) :
    Inv next := by
  cases label with
  | queueInActor producer =>
      obtain ⟨-, hnext⟩ := Option.ite_none_left_eq_some.mp hstep
      rw [← Option.some.inj hnext]
      exact ⟨h.order.push, fun _ => Or.inr (Or.inr ⟨producer, Function.update_self ..⟩)⟩
  | notifyEvent producer =>
      obtain ⟨-, hnext⟩ := Option.ite_none_right_eq_some.mp hstep
      rw [← Option.some.inj hnext]
      exact ⟨h.order, fun _ => Or.inl s.thread.notified_notifyEvent_pos⟩
  | readNotifyEvents =>
      obtain ⟨hphase, hnext⟩ := Option.ite_none_right_eq_some.mp hstep
      rw [← Option.some.inj hnext]
      unfold EventLoopThread.readNotifyEvents
      split_ifs with hzero
      · exact h
      · have hstill : s.thread.actor.StillToRun := by
          rw [Actor.StillToRun, hphase]
          trivial
        exact ⟨h.order, fun _ => Or.inr (Or.inl ⟨rfl, hstill⟩)⟩
  | advance =>
      rw [← Option.some.inj hstep]
      refine ⟨advance_inStep h.order, fun hqueue => ?_⟩
      rcases h.woken (Actor.queue_ne_nil_of_advance hqueue) with hnotified | ⟨hpending, hstill⟩ | hproducer
      · exact Or.inl hnotified
      · exact Or.inr (Or.inl (Actor.advance_stillToRun hpending hstill hqueue))
      · exact Or.inr (Or.inr hproducer)

end Handoff

end EasyLib.Reactors
