import EasyLib.Lib.Progress
import Mathlib.Logic.Function.Basic
import Mathlib.Order.Basic

/-!
# Starting the loop threads

The loop of `TcpServer::Start` in `Reactors/net/tcpserver.cc` that calls `Run` for one `EventLoopThread`
after the other, with `Run`, `ThreadLoopFunc` and `IsInLoop` of `Reactors/net/eventloopthread.cc`, and
`Thread::start` of `Reactors/base/Thread.cc`, whose new thread stores its id in `tid_` before it calls
`ThreadLoopFunc`. What is done under the mutex is one step. A thread that `pthread_create` cannot make ends
the program, so that there is no such step.

`state_` is not initialised, and `tid_` is zero at first. A thread is named by the index of its loop, the
master by `none`; `tids` are the ids that the kernel has for them.
-/

namespace EasyLib.Reactors

/-- How far a loop thread has come: it has stored its id, has left the section under the mutex, and has
entered the loop of its actor. -/
inductive LoopPlace where
  | absent
  | created
  | named
  | announced
  | looping
  deriving DecidableEq, Repr

structure StartingLoop where
  place : LoopPlace
  tid : ℕ
  state : BitVec 8
  deriving DecidableEq, Repr

/-- Where the master is: in front of `thread_->start()` of the thread with this index, about to lock the
mutex behind it or at the end of a wait, or in the wait. -/
inductive MasterPlace where
  | starting (index : ℕ)
  | locking (index : ℕ)
  | waiting (index : ℕ)
  deriving DecidableEq, Repr

def MasterPlace.index : MasterPlace → ℕ
  | .starting index | .locking index | .waiting index => index

structure Startup where
  threadNum : ℕ
  tids : Option ℕ → ℕ
  loops : ℕ → StartingLoop
  master : MasterPlace

namespace Startup

/-- `STARTED`. -/
def started : BitVec 8 := 1

def new (threadNum : ℕ) (tids : Option ℕ → ℕ) (states : ℕ → BitVec 8) : Startup where
  threadNum := threadNum
  tids := tids
  loops := fun index => { place := .absent, tid := 0, state := states index }
  master := .starting 0

def setLoop (s : Startup) (index : ℕ) (loop : StartingLoop) : Startup :=
  { s with loops := Function.update s.loops index loop }

/-- `IsInLoop` of the loop with this index, called by a thread. -/
def isInLoop (s : Startup) (index : ℕ) (caller : Option ℕ) : Bool := (s.loops index).tid = s.tids caller

/-- The section of `Run` under the mutex, up to the wait or to the return. -/
def lock (s : Startup) (index : ℕ) : Startup :=
  { s with
    master := if (s.loops index).state ≠ started then .waiting index else .starting (index + 1) }

/-- The section of `ThreadLoopFunc` under the mutex. The signal reaches the master if it waits here. -/
def announce (s : Startup) (index : ℕ) : Startup :=
  { s.setLoop index { s.loops index with place := .announced, state := started } with
    master := if s.master = .waiting index then .locking index else s.master }

inductive Label where
  | start
  | lock
  | wakeUp
  | loop (index : ℕ)
  deriving DecidableEq, Repr

def step (s : Startup) : Label → Option Startup
  | .start =>
      match s.master with
      | .starting index =>
          if index < s.threadNum then
            some { s.setLoop index { s.loops index with place := .created } with master := .locking index }
          else none
      | _ => none
  | .lock =>
      match s.master with
      | .locking index => some (s.lock index)
      | _ => none
  | .wakeUp =>
      match s.master with
      | .waiting index => some { s with master := .locking index }
      | _ => none
  | .loop index =>
      match (s.loops index).place with
      | .created =>
          some (s.setLoop index { s.loops index with place := .named, tid := s.tids (some index) })
      | .named => some (s.announce index)
      | .announced => some (s.setLoop index { s.loops index with place := .looping })
      | .absent | .looping => none

/-! ### What is asked of the start -/

/-- The thread runs code of this library, and may call `IsInLoop`. -/
def Runs (s : Startup) : Option ℕ → Prop
  | none => True
  | some index => index < s.threadNum ∧ (s.loops index).place ∈ [.announced, .looping]

/-- `IsInLoop` answers right whenever it is asked. The threads are started in turn, and where `state_` did
not happen to be `STARTED`, `Run` has returned only behind the announcement of its thread. -/
structure Orderly (states : ℕ → BitVec 8) (s : Startup) : Prop where
  answers : ∀ index < s.threadNum, ∀ caller, s.Runs caller →
    (s.isInLoop index caller ↔ caller = some index)
  inTurn : ∀ index, (s.loops index).place ≠ .absent → index ≤ s.master.index
  returned : ∀ index < s.master.index, (s.loops index).place ≠ .absent
  announced : ∀ index < s.master.index, states index ≠ started →
    (s.loops index).place ∈ [.announced, .looping]

/-- Nobody wakes up without a signal. -/
def Own (_ : Startup) (label : Label) : Prop := label ≠ .wakeUp

end Startup

end EasyLib.Reactors
