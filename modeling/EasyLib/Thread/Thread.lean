import EasyLib.Lib.Run
import Mathlib.Data.List.Basic

/-!
# A thread that is started, stopped and joined

`thread/Thread.cpp`. One thread controls the object with `start()`, `stop()` and `join()`, and every
thread that `pthread_create` has made runs `doWork()`. Each access to `m_nState` or `m_hThread` is one
step. A call begins with its first access, and `proceed` makes the next one. `pthread_create` has two
steps, since the new thread may run before its handle is stored.

`stopRequested` says that `stop()` has written `S_STOPPING` and that `start()` has not been called
since. `returns` lists what `join` has returned and where the workers stood when it did.
-/

set_option linter.dupNamespace false

namespace EasyLib.Thread

inductive ThreadState where
  | null
  | starting
  | running
  | stopping
  deriving DecidableEq, Repr

/-- What a worker does next in `doWork()`: it tests `m_nState`, sets it to `S_RUNNING`, returns from
`run()`, sets `m_nState` to `S_NULL`, sets `m_hThread` to 0, or nothing. A worker that has not found
`S_STARTING` goes on as one that has returned from `run()`. -/
inductive Worker where
  | created
  | entering
  | running
  | leaving
  | clearing
  | finished
  deriving DecidableEq, Repr

/-- `run()` lies behind the worker, or the worker does not call it. -/
def Worker.left : Worker → Bool
  | .created | .entering | .running => false
  | .leaving | .clearing | .finished => true

/-- The worker has set `m_nState` to `S_NULL`. -/
def Worker.past : Worker → Bool
  | .created | .entering | .running | .leaving => false
  | .clearing | .finished => true

/-- What the controlling thread does next. -/
inductive Control where
  | idle
  -- `start()`: the two assignments, `pthread_create`, and the assignment behind a failed one
  | setStarting
  | clearHandle
  | creating
  | storing (worker : ℕ)
  | resetState
  -- `stop()`: the assignment, with the time that is left when `join` has called it
  | setStopping (msWait : Option ℕ)
  -- `join()`: the test in `stop()`, the test of the loop, the test behind it and the assertion
  | joinStop (msWait : ℕ)
  | joinLoop (msWait : ℕ)
  | joinLast
  | joinAssert
  | aborted
  deriving DecidableEq, Repr

def Control.setsStopping : Control → Bool
  | .setStopping _ => true
  | .idle | .setStarting | .clearHandle | .creating | .storing _ | .resetState | .joinStop _
  | .joinLoop _ | .joinLast | .joinAssert | .aborted => false

/-- In `start()`, before there is a worker. -/
def Control.starts : Control → Bool
  | .setStarting | .clearHandle | .creating | .resetState => true
  | .idle | .storing _ | .setStopping _ | .joinStop _ | .joinLoop _ | .joinLast | .joinAssert
  | .aborted => false

/-- Nothing is known about the workers. -/
def Control.plain : Control → Bool
  | .idle | .setStopping _ | .joinStop _ | .joinLoop _ | .joinLast => true
  | .setStarting | .clearHandle | .creating | .storing _ | .resetState | .joinAssert
  | .aborted => false

structure Thread where
  nState : ThreadState
  hThread : Option ℕ
  control : Control
  workers : List Worker
  stopRequested : Bool
  returns : List (Bool × List Worker)
  deriving DecidableEq, Repr

namespace Thread

def new : Thread where
  nState := .null
  hThread := none
  control := .idle
  workers := []
  stopRequested := false
  returns := []

def start (s : Thread) : Thread :=
  { s with
    control := if s.nState = .null then .setStarting else .idle
    stopRequested := false }

/-- The test in `stop()`. What follows the call is in `control` when it makes no assignment. -/
def stop (s : Thread) (msWait : Option ℕ) (control : Control) : Thread :=
  { s with control := if s.nState ≠ .null then .setStopping msWait else control }

def returnFromJoin (s : Thread) (value : Bool) : Thread :=
  { s with control := .idle, returns := s.returns ++ [(value, s.workers)] }

def join (s : Thread) (msWait : ℕ) : Thread :=
  if s.hThread = none then s.returnFromJoin true else { s with control := .joinStop msWait }

def msSpan : ℕ := 5

def proceed (s : Thread) : Option Thread :=
  match s.control with
  | .idle | .aborted => none
  | .setStarting => some { s with nState := .starting, control := .clearHandle }
  | .clearHandle => some { s with hThread := none, control := .creating }
  | .creating =>
      some { s with workers := s.workers ++ [.created], control := .storing s.workers.length }
  | .storing worker => some { s with hThread := some worker, control := .idle }
  | .resetState => some { s with nState := .null, control := .idle }
  | .setStopping msWait =>
      some { s with
        nState := .stopping
        stopRequested := true
        control := msWait.elim .idle .joinLoop }
  | .joinStop msWait => some (s.stop (some msWait) (.joinLoop msWait))
  | .joinLoop msWait =>
      if s.nState ≠ .null ∧ msSpan ≤ msWait then
        some { s with control := .joinLoop (msWait - msSpan) }
      else some { s with control := .joinLast }
  | .joinLast =>
      if s.nState = .null then some { s with control := .joinAssert }
      else some (s.returnFromJoin true)
  | .joinAssert =>
      if s.hThread = none then some (s.returnFromJoin true) else some { s with control := .aborted }

def moveTo (s : Thread) (i : ℕ) (worker : Worker) : Thread :=
  { s with workers := s.workers.set i worker }

def doWork (s : Thread) (i : ℕ) : Option Thread :=
  match s.workers[i]? with
  | some .created => some (s.moveTo i (if s.nState ≠ .starting then .leaving else .entering))
  | some .entering => some { s.moveTo i .running with nState := .running }
  | some .running => some (s.moveTo i .leaving)
  | some .leaving => some { s.moveTo i .clearing with nState := .null }
  | some .clearing => some { s.moveTo i .finished with hThread := none }
  | some .finished | none => none

inductive Label where
  | start
  | stop
  | join (msWait : ℕ)
  | proceed
  | createFails
  | worker (i : ℕ)
  deriving DecidableEq, Repr

def step (s : Thread) : Label → Option Thread
  | .start => if s.control = .idle then some s.start else none
  | .stop => if s.control = .idle then some (s.stop none .idle) else none
  | .join msWait => if s.control = .idle then some (s.join msWait) else none
  | .proceed => s.proceed
  | .createFails => if s.control = .creating then some { s with control := .resetState } else none
  | .worker i => s.doWork i

/-- While a stop is requested the thread does not run. -/
def Heeded (s : Thread) : Prop := s.stopRequested = true → s.nState ≠ .running

/-- `stop()` does not set `S_STOPPING` between a worker's test of `m_nState` and its assignment. -/
def Timely (s : Thread) : Label → Prop
  | .proceed => s.control.setsStopping = true → .entering ∉ s.workers
  | .start | .stop | .join _ | .createFails | .worker _ => True

/-- The assertion of `join` has not failed, and `join` has not returned true before the workers had
left `run()`. -/
def Joined (s : Thread) : Prop :=
  s.control ≠ .aborted ∧
    ∀ entry ∈ s.returns, entry.1 = true → ∀ worker ∈ entry.2, worker.left = true

/-- The controlling thread proceeds outside the windows of `doWork()`: `pthread_create` stores the
handle before the worker clears it, the wait of `join` does not run out before the workers have left
`run()`, and its assertion is not evaluated between `m_nState = S_NULL` and `m_hThread = 0`. -/
def Clear (nState : ThreadState) (workers : List Worker) : Control → Prop
  | .storing worker => workers[worker]? ≠ some .finished
  | .joinLast => nState ≠ .null → ∀ worker ∈ workers, worker.left = true
  | .joinAssert => .clearing ∉ workers
  | .idle | .setStarting | .clearHandle | .creating | .resetState | .setStopping _ | .joinStop _
  | .joinLoop _ | .aborted => True

/-- Nor does it start a new worker between these two assignments of an old one. -/
def Orderly (s : Thread) : Label → Prop
  | .start => s.nState = .null → .clearing ∉ s.workers
  | .proceed => Clear s.nState s.workers s.control
  | .stop | .join _ | .createFails | .worker _ => True

instance : DecidablePred Heeded := fun s =>
  inferInstanceAs (Decidable (s.stopRequested = true → s.nState ≠ .running))

instance : DecidablePred Joined := fun _ => inferInstanceAs (Decidable (_ ∧ _))

instance (s : Thread) : ∀ label, Decidable (Timely s label)
  | .proceed => inferInstanceAs (Decidable (s.control.setsStopping = true → .entering ∉ s.workers))
  | .start | .stop | .join _ | .createFails | .worker _ => isTrue trivial

instance (nState : ThreadState) (workers : List Worker) :
    ∀ control, Decidable (Clear nState workers control)
  | .storing worker => inferInstanceAs (Decidable (workers[worker]? ≠ some .finished))
  | .joinLast =>
      inferInstanceAs (Decidable (nState ≠ .null → ∀ worker ∈ workers, worker.left = true))
  | .joinAssert => inferInstanceAs (Decidable (.clearing ∉ workers))
  | .idle | .setStarting | .clearHandle | .creating | .resetState | .setStopping _ | .joinStop _
  | .joinLoop _ | .aborted => isTrue trivial

instance (s : Thread) : ∀ label, Decidable (Orderly s label)
  | .start => inferInstanceAs (Decidable (s.nState = .null → .clearing ∉ s.workers))
  | .proceed => inferInstanceAs (Decidable (Clear s.nState s.workers s.control))
  | .stop | .join _ | .createFails | .worker _ => isTrue trivial

end Thread

end EasyLib.Thread
