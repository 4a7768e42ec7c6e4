import EasyLib.Lib.Progress
import EasyLib.Proof.Handoff

/-!
# Every functor gets its turn

What the hand-off keeps is enough for the loop thread to come through by itself. It finishes its iteration,
and if functors are in the queue then, the eventfd can be read or will be after the `NotifyEvent` of the
producer that still owes it. That read sets `pending_`, and the iteration that does it takes the whole queue.
-/

namespace EasyLib.Reactors

open Machine

namespace Actor

variable {Functor : Type*} {actor : Actor Functor}

/-- The steps that an iteration has left at most. -/
def left (actor : Actor Functor) : ℕ :=
  match actor.phase with
  | .poll => 0
  | .handling => actor.queue.length + 3
  | .swapping => actor.queue.length + 2
  | .running functors => functors.length + 1

end Actor

namespace Handoff

variable {Producer : Type*} {s : Handoff Producer} {pushed : ℕ}

/-- The loop thread and the producers that owe a `NotifyEvent` go on, and nothing is pushed. -/
def NoPush (_ : Handoff Producer) : Label Producer → Prop
  | .queueInActor _ => False
  | .notifyEvent _ | .readNotifyEvents | .advance => True

/-- A state behind the pushes that are to be served. -/
structure Serving (pushed : ℕ) (s : Handoff Producer) : Prop where
  inv : Inv s
  pushed : s.pushed = pushed

def advanced (s : Handoff Producer) : Handoff Producer :=
  { s with
    thread := { s.thread with actor := s.thread.actor.advance.1 }
    started := s.started ++ s.thread.actor.advance.2.toList }

variable [DecidableEq Producer]

theorem step_serving {next : Handoff Producer} {label : Label Producer} (h : Serving pushed s)
    (hlabel : s.NoPush label) (hstep : s.step label = some next) : Serving pushed next := by
  refine ⟨step_inv h.inv hstep, ?_⟩
  cases label with
  | queueInActor producer => exact hlabel.elim
  | notifyEvent producer =>
      obtain ⟨-, hnext⟩ := Option.ite_none_right_eq_some.mp hstep
      rw [← Option.some.inj hnext]
      exact h.pushed
  | readNotifyEvents =>
      obtain ⟨-, hnext⟩ := Option.ite_none_right_eq_some.mp hstep
      rw [← Option.some.inj hnext]
      exact h.pushed
  | advance =>
      rw [← Option.some.inj hstep]
      exact h.pushed

theorem Serving.head {next : Handoff Producer} {label : Label Producer} {post : Handoff Producer → Prop}
    (h : Serving pushed s) (hlabel : s.NoPush label) (hstep : s.step label = some next)
    (hrest : Serving pushed next → Leads step NoPush post next) : Leads step NoPush post s :=
  .head hlabel hstep (hrest (step_serving h hlabel hstep))

end Handoff

end EasyLib.Reactors
