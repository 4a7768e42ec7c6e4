import EasyLib.Lib.Run
import Mathlib.Data.Nat.Notation
import Mathlib.Logic.Function.Basic
import Mathlib.Tactic.Common

/-!
# The loop of an actor and the thread that owns it

`Reactors/net/actor.cc` and `Reactors/net/eventloopthread.cc`. Other threads share with an actor its
queue of functors, under a lock, and the eventfd of the thread that runs it; `pending_` is used by that
thread only. So the steps of the loop thread are one access to the queue or to the eventfd each, and
what it does to `pending_` goes with the access next to it.

An iteration of `Actor::Loop` polls, handles the events of the active channels, and runs the queued
functors if `pending_` is set. The functors are a parameter: what a call of one does is up to the
program that queues them. `notified` is the counter of the eventfd.

In the hand-off the functors are the numbers of their pushes, `started` lists those that were called, and
`notifying` marks the producers between their `QueueInActor` and their `NotifyEvent`.
-/

namespace EasyLib.Reactors

inductive Phase (Functor : Type*) where
  | poll
  | handling
  | swapping
  | running (functors : List Functor)
  deriving DecidableEq, Repr

structure Actor (Functor : Type*) where
  queue : List Functor
  pending : Bool
  phase : Phase Functor

namespace Actor

variable {Functor : Type*}

def new (pending : Bool) : Actor Functor where
  queue := []
  pending := pending
  phase := .poll

def queueInActor (actor : Actor Functor) (functor : Functor) : Actor Functor :=
  { actor with queue := actor.queue ++ [functor] }

def setPending (actor : Actor Functor) : Actor Functor := { actor with pending := true }

/-- The next step of `Loop`, and the functor that it calls. The handling of the active channels takes
as long as the environment likes and is left by this step. -/
def advance (actor : Actor Functor) : Actor Functor × Option Functor :=
  match actor.phase with
  | .poll => ({ actor with phase := .handling }, none)
  | .handling => ({ actor with phase := if actor.pending then .swapping else .poll }, none)
  | .swapping => ({ actor with queue := [], phase := .running actor.queue }, none)
  | .running (functor :: functors) => ({ actor with phase := .running functors }, some functor)
  | .running [] => ({ actor with pending := false, phase := .poll }, none)

def unstarted (actor : Actor Functor) : List Functor :=
  match actor.phase with
  | .running functors => functors
  | _ => []

def StillToRun (actor : Actor Functor) : Prop :=
  match actor.phase with
  | .running _ => False
  | _ => True

end Actor

structure EventLoopThread (Functor : Type*) where
  actor : Actor Functor
  notified : ℕ

namespace EventLoopThread

variable {Functor : Type*}

def eventfdMax : ℕ := 0xfffffffffffffffe

def new (pending : Bool) : EventLoopThread Functor where
  actor := .new pending
  notified := 0

/-- A write that would take the counter past its maximum fails and leaves it there. -/
def notifyEvent (thread : EventLoopThread Functor) : EventLoopThread Functor :=
  { thread with
    notified := if thread.notified < eventfdMax then thread.notified + 1 else thread.notified }

def readNotifyEvents (thread : EventLoopThread Functor) : EventLoopThread Functor :=
  if thread.notified = 0 then thread
  else { thread with notified := 0, actor := thread.actor.setPending }

end EventLoopThread

/-! ### Producers -/

structure Handoff (Producer : Type*) where
  thread : EventLoopThread ℕ
  notifying : Producer → Bool
  pushed : ℕ
  started : List ℕ

namespace Handoff

variable {Producer : Type*}

def new (pending : Bool) : Handoff Producer where
  thread := .new pending
  notifying := fun _ => false
  pushed := 0
  started := []

inductive Label (Producer : Type*) where
  | queueInActor (producer : Producer)
  | notifyEvent (producer : Producer)
  | readNotifyEvents
  | advance
  deriving DecidableEq, Repr

variable [DecidableEq Producer]

def step (s : Handoff Producer) : Label Producer → Option (Handoff Producer)
  | .queueInActor producer =>
      if s.notifying producer then none
      else some { s with
        thread := { s.thread with actor := s.thread.actor.queueInActor s.pushed }
        notifying := Function.update s.notifying producer true
        pushed := s.pushed + 1 }
  | .notifyEvent producer =>
      if s.notifying producer then
        some { s with
          thread := s.thread.notifyEvent
          notifying := Function.update s.notifying producer false }
      else none
  | .readNotifyEvents =>
      if s.thread.actor.phase = .handling then
        some { s with thread := s.thread.readNotifyEvents }
      else none
  | .advance =>
      some { s with
        thread := { s.thread with actor := s.thread.actor.advance.1 }
        started := s.started ++ s.thread.actor.advance.2.toList }

end Handoff

end EasyLib.Reactors
