import EasyLib.Lib.Run
import Mathlib.Data.Fintype.Basic
import Mathlib.Logic.Function.Basic

/-!
# The event loop and its functors

`thread/EventLoop.cpp`, from the moment `Run()` has set `tid_`. Any number of threads queue functors,
and the loop thread runs them from `PipeProcess`, which libevent calls while a byte is unread in the
pipe. Each access to the queue under the mutex is one step, and so are a write to the pipe and a read
from it.

The loop thread has a call stack, because functors and other callbacks of the loop are user code that
may call the loop again: what such code does next is chosen by the label of the step, and every other
frame on top of the stack has one next step.

`unread` counts the bytes in the pipe, `notifying` marks the threads between their push and their
`Notify`, and `started` lists the functors in the order of their starts, each by the number of its push.
-/

namespace EasyLib.Thread

/-- `Stop()` on another thread queues `StopInLoop`; anything else that is queued is user code. -/
inductive Kind where
  | user
  | stop
  deriving DecidableEq, Repr

structure Functor where
  ordinal : ℕ
  kind : Kind
  deriving DecidableEq, Repr

inductive Frame where
  | user
  -- `QueueInLoop` on the loop thread, between `push_back` and the test for `Notify`
  | queueInLoop
  -- `PipeProcess` before and after its call of `DoPendingFunctors`
  | pipeRead
  | pipeRegister
  -- `DoPendingFunctors` before the swap, and with the functors it has still to run
  | swapping
  | running (functors : List Functor)
  -- `StopInLoop` before and after its call of `DoPendingFunctors`
  | stopLoop
  | stopTest
  deriving DecidableEq, Repr

def Functor.frame (functor : Functor) : Frame :=
  match functor.kind with
  | .user => .user
  | .stop => .stopLoop

def Frame.unstarted : Frame → List ℕ
  | .running functors => functors.map Functor.ordinal
  | _ => []

inductive Dispatch where
  | running
  | exiting
  | exited
  deriving DecidableEq, Repr

structure EventLoop (Caller : Type*) where
  functorsQueue : List Functor
  callingPendingFunctors : Bool
  unread : ℕ
  dispatch : Dispatch
  notifying : Caller → Bool
  stack : List Frame
  pushed : ℕ
  started : List ℕ

namespace EventLoop

variable {Caller : Type*}

def new : EventLoop Caller where
  functorsQueue := []
  callingPendingFunctors := false
  unread := 0
  dispatch := .running
  notifying := fun _ => false
  stack := []
  pushed := 0
  started := []

def pushBack (loop : EventLoop Caller) (kind : Kind) : EventLoop Caller :=
  { loop with
    functorsQueue := loop.functorsQueue ++ [⟨loop.pushed, kind⟩]
    pushed := loop.pushed + 1 }

def advance (loop : EventLoop Caller) : Option (EventLoop Caller) :=
  match loop.stack with
  | [] | .user :: _ => none
  | .queueInLoop :: rest =>
      some { loop with
        unread := if loop.callingPendingFunctors then loop.unread + 1 else loop.unread
        stack := rest }
  | .pipeRead :: rest =>
      some { loop with callingPendingFunctors := true, stack := .swapping :: .pipeRegister :: rest }
  | .pipeRegister :: rest => some { loop with stack := rest }
  | .swapping :: rest =>
      some { loop with functorsQueue := [], stack := .running loop.functorsQueue :: rest }
  | .running (functor :: functors) :: rest =>
      some { loop with
        started := loop.started ++ [functor.ordinal]
        stack := functor.frame :: .running functors :: rest }
  | .running [] :: rest => some { loop with callingPendingFunctors := false, stack := rest }
  | .stopLoop :: rest =>
      some { loop with callingPendingFunctors := true, stack := .swapping :: .stopTest :: rest }
  | .stopTest :: rest =>
      if loop.functorsQueue = [] then some { loop with dispatch := .exiting, stack := rest }
      else some { loop with stack := .stopLoop :: rest }

def fromUser (loop next : EventLoop Caller) : Option (EventLoop Caller) :=
  if loop.stack.head? = some .user then some next else none

inductive Label (Caller : Type*) where
  -- another thread: `QueueInLoop`, `RunInLoop` or `Stop()`, up to the push and then `Notify`
  | queueInLoop (caller : Caller) (kind : Kind)
  | notify (caller : Caller)
  -- libevent calls `PipeProcess`, which reads a byte, or another callback of the loop
  | pipeProcess
  | callback
  -- user code on the loop thread: `QueueInLoop`, `RunInLoop`, `Stop()`, and its return
  | queueHere
  | runHere
  | stopHere
  | returnHere
  | advance
  | exit
  deriving DecidableEq, Repr

variable [DecidableEq Caller]

def step (loop : EventLoop Caller) : Label Caller → Option (EventLoop Caller)
  | .queueInLoop caller kind =>
      if loop.notifying caller then none
      else some { loop.pushBack kind with notifying := Function.update loop.notifying caller true }
  | .notify caller =>
      if loop.notifying caller then
        some { loop with
          unread := loop.unread + 1
          notifying := Function.update loop.notifying caller false }
      else none
  | .pipeProcess =>
      if loop.stack = [] ∧ loop.dispatch ≠ .exited ∧ 0 < loop.unread then
        some { loop with unread := loop.unread - 1, stack := [.pipeRead] }
      else none
  | .callback =>
      if loop.stack = [] ∧ loop.dispatch ≠ .exited then some { loop with stack := [.user] } else none
  | .queueHere => loop.fromUser { loop.pushBack .user with stack := .queueInLoop :: loop.stack }
  | .runHere => loop.fromUser { loop with stack := .user :: loop.stack }
  | .stopHere => loop.fromUser { loop with stack := .stopLoop :: loop.stack }
  | .returnHere => loop.fromUser { loop with stack := loop.stack.tail }
  | .advance => loop.advance
  | .exit =>
      if loop.stack = [] ∧ loop.dispatch = .exiting then some { loop with dispatch := .exited } else none

/-! ### What is asked of the queue -/

def attends (callingPendingFunctors : Bool) : List Frame → Bool
  | .queueInLoop :: _ => callingPendingFunctors
  | .pipeRead :: _ | .swapping :: _ | .stopLoop :: _ => true
  | _ => false

/-- A byte is unread, or some thread is between its push and its `Notify`, or the loop thread is about
to call `Notify` or to run `DoPendingFunctors`. -/
def Woken (loop : EventLoop Caller) : Prop :=
  0 < loop.unread ∨ (∃ caller, loop.notifying caller) ∨
    attends loop.callingPendingFunctors loop.stack

def Noticed (loop : EventLoop Caller) : Prop := loop.functorsQueue = [] ∨ loop.Woken

/-- User code on the loop thread calls `QueueInLoop` only from a pending functor, or while something
else will wake the loop up. -/
def Announced (loop : EventLoop Caller) : Label Caller → Prop
  | .queueHere => loop.callingPendingFunctors ∨ loop.Woken
  | _ => True

/-- The functors that were pushed start in the order of their pushes, each at most once. -/
def InOrder (loop : EventLoop Caller) : Prop := loop.started.Pairwise (· < ·)

def unstarted (stack : List Frame) : List ℕ := stack.flatMap Frame.unstarted

def unstartedAround : List Frame → List ℕ
  | .swapping :: rest => unstarted rest
  | _ => []

/-- No batch is taken from the queue while an enclosing call of `DoPendingFunctors` still has functors
to start. -/
def Sequential (loop : EventLoop Caller) : Label Caller → Prop
  | .advance => loop.functorsQueue = [] ∨ unstartedAround loop.stack = []
  | _ => True

instance [Fintype Caller] (loop : EventLoop Caller) : Decidable loop.Woken :=
  inferInstanceAs (Decidable (0 < loop.unread ∨ (∃ caller, loop.notifying caller) ∨
    attends loop.callingPendingFunctors loop.stack))

instance [Fintype Caller] (loop : EventLoop Caller) : Decidable loop.Noticed :=
  inferInstanceAs (Decidable (loop.functorsQueue = [] ∨ loop.Woken))

instance [Fintype Caller] (loop : EventLoop Caller) : DecidablePred loop.Announced
  | .queueHere => inferInstanceAs (Decidable (loop.callingPendingFunctors ∨ loop.Woken))
  | .queueInLoop _ _ | .notify _ | .pipeProcess | .callback | .runHere | .stopHere | .returnHere
  | .advance | .exit => isTrue trivial

instance (loop : EventLoop Caller) : Decidable loop.InOrder :=
  inferInstanceAs (Decidable (loop.started.Pairwise (· < ·)))

instance (loop : EventLoop Caller) : DecidablePred loop.Sequential
  | .advance =>
      inferInstanceAs (Decidable (loop.functorsQueue = [] ∨ unstartedAround loop.stack = []))
  | .queueInLoop _ _ | .notify _ | .pipeProcess | .callback | .queueHere | .runHere | .stopHere
  | .returnHere | .exit => isTrue trivial

end EventLoop

end EasyLib.Thread
