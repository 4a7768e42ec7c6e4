import EasyLib.Thread.Thread

/-!
# Starting an event loop thread

`EventLoopThread::Start` of `thread/EventLoopThread.cpp`, on the thread object it has just made. The caller
takes the steps of `Thread::start()` and those behind it, and the new thread those of `doWork()`. A round
of the loop that polls is one step.

`reached` says that the new thread has set `S_RUNNING`.
-/

namespace EasyLib.Thread

/-- Where the caller is: in front of `thread_ptr_->start()`, in it, behind it with its result, in the loop
that polls, or back from `Start`. -/
inductive StartPlace where
  | entering
  | starting
  | started (rc : Bool)
  | polling
  | returned (value : Bool)
  deriving DecidableEq, Repr

structure Starting where
  thread : Thread
  wait : Bool
  place : StartPlace
  reached : Bool
  deriving DecidableEq, Repr

namespace Starting

def new (wait : Bool) : Starting where
  thread := Thread.new
  wait := wait
  place := .entering
  reached := false

/-- The next access of `Thread::start()`. It returns behind the assignment that stores the handle or resets
the state, or at once where the state is not `S_NULL`. -/
def proceed (s : Starting) : Option Starting :=
  match s.thread.control with
  | .idle => some { s with place := .started false }
  | .storing _ => s.thread.proceed.map fun thread => { s with thread, place := .started true }
  | .resetState => s.thread.proceed.map fun thread => { s with thread, place := .started false }
  | _ => s.thread.proceed.map fun thread => { s with thread }

def caller (s : Starting) : Option Starting :=
  match s.place with
  | .entering => some { s with thread := s.thread.start, place := .starting }
  | .starting => s.proceed
  | .started rc =>
      if rc = true ∨ s.wait = false then some { s with place := .returned true }
      else some { s with place := .polling }
  | .polling => if s.thread.nState = .running then some { s with place := .returned true } else some s
  | .returned _ => none

inductive Label where
  | caller
  | createFails
  | worker (i : ℕ)
  deriving DecidableEq, Repr

def step (s : Starting) : Label → Option Starting
  | .caller => s.caller
  | .createFails => (s.thread.step .createFails).map fun thread => { s with thread }
  | .worker i =>
      (s.thread.step (.worker i)).map fun thread =>
        { s with thread, reached := s.reached || decide (thread.nState = .running) }

/-- The caller gets back from `Start` by itself. -/
def Returns (s : Starting) : Prop :=
  ∃ steps last value, Machine.run step s (List.replicate steps .caller) = some last ∧
    last.place = .returned value

/-- `Start` returns once the thread it has created, if any, has reached `S_RUNNING`, returns true only
with a thread created, and if it is to wait only with the thread at `S_RUNNING`. -/
structure Truthful (s : Starting) : Prop where
  returns : (s.thread.workers ≠ [] → s.reached = true) → s.Returns
  created : s.place = .returned true → s.thread.workers ≠ []
  running : s.place = .returned true → s.wait = true → s.reached = true

/-- `pthread_create` does not fail, and a caller that is to wait finds the thread at `S_RUNNING` when it
gets back from `Thread::start()`. -/
def Sound (s : Starting) : Label → Prop
  | .caller => s.place = .started true → s.wait = true → s.reached = true
  | .createFails => False
  | .worker _ => True

end Starting

end EasyLib.Thread
