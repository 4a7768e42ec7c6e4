import EasyLib.Lib.MachineInt
import EasyLib.Lib.Run
import Mathlib.Logic.Function.Basic

/-!
# The spin lock

`common/lock.h`. Any number of threads share the three counters of one `SpinLock`. A place names what
a thread does next: each `InterlockedInc32` or `InterlockedDec32` is one step, and so is each of the
three reads of `needWait()`, in the order in which the condition evaluates them. The counters `enter`,
`wait` and `locked` are `m_nNumEnterThread`, `m_nNumWaitThread` and `m_bLocked`.
-/

namespace EasyLib.Common.SpinLock

open MachineInt

def nNumSpin : Nat := 2000

inductive Loop where
  | outer
  | inner (i : Nat)
  deriving DecidableEq, Repr

inductive Place where
  | idle
  -- `lock()`
  | lockEnter
  | lockFast
  | lockWait
  | readLocked (loop : Loop)
  | readWait (loop : Loop)
  | readEnter (loop : Loop) (wait : Int)
  | lockUnwait
  | lockTake
  | lockBack
  -- `tryLock()`
  | tryTake
  | tryEnter
  | tryLeave
  | tryBack
  -- between a successful `lock()` or `tryLock()` and the first step of `unlock()`
  | holding
  | unlockRelease
  deriving DecidableEq, Repr

/-- What `lock()` does with the value of `needWait()`. The inner loop gives up after `nNumSpin`
rounds and sleeps, and it hands back to the outer loop also when the wait is over. -/
def afterNeedWait : Loop → Bool → Place
  | .outer, false => .lockUnwait
  | .outer, true => .readLocked (.inner 0)
  | .inner _, false => .readLocked .outer
  | .inner i, true => if i + 1 < nNumSpin then .readLocked (.inner (i + 1)) else .readLocked .outer

structure State (Thread : Type*) where
  enter : Int
  wait : Int
  locked : Int
  place : Thread → Place

def init (Thread : Type*) : State Thread where
  enter := 0
  wait := 0
  locked := 0
  place := fun _ => .idle

def inc (counter : Int) : Int := toInt32 (counter + 1)

def dec (counter : Int) : Int := toInt32 (counter - 1)

inductive Label (Thread : Type*) where
  | lock (thread : Thread)
  | tryLock (thread : Thread)
  | advance (thread : Thread)
  deriving DecidableEq, Repr

variable {Thread : Type*} [DecidableEq Thread]

def State.goto (s : State Thread) (thread : Thread) (place : Place) : State Thread :=
  { s with place := Function.update s.place thread place }

def advance (s : State Thread) (thread : Thread) : Option (State Thread) :=
  match s.place thread with
  | .idle => none
  | .lockEnter =>
      some ({ s with enter := inc s.enter }.goto thread
        (if inc s.enter > 1 then .lockWait else .lockFast))
  | .lockFast => some ({ s with locked := inc s.locked }.goto thread .holding)
  | .lockWait => some ({ s with wait := inc s.wait }.goto thread (.readLocked .outer))
  | .readLocked loop =>
      some (s.goto thread (if s.locked ≠ 0 then afterNeedWait loop true else .readWait loop))
  | .readWait loop => some (s.goto thread (.readEnter loop s.wait))
  | .readEnter loop wait => some (s.goto thread (afterNeedWait loop (wait ≠ s.enter)))
  | .lockUnwait => some ({ s with wait := dec s.wait }.goto thread .lockTake)
  | .lockTake =>
      some ({ s with locked := inc s.locked }.goto thread
        (if inc s.locked > 1 then .lockBack else .holding))
  | .lockBack => some ({ s with locked := dec s.locked }.goto thread .lockWait)
  | .tryTake =>
      some ({ s with locked := inc s.locked }.goto thread
        (if inc s.locked > 1 then .tryBack else .tryEnter))
  | .tryEnter =>
      some ({ s with enter := inc s.enter }.goto thread
        (if inc s.enter > 1 then .tryLeave else .holding))
  | .tryLeave => some ({ s with enter := dec s.enter }.goto thread .tryBack)
  | .tryBack => some ({ s with locked := dec s.locked }.goto thread .idle)
  | .holding => some ({ s with enter := dec s.enter }.goto thread .unlockRelease)
  | .unlockRelease => some ({ s with locked := dec s.locked }.goto thread .idle)

def step (s : State Thread) : Label Thread → Option (State Thread)
  | .lock thread => if s.place thread = .idle then some (s.goto thread .lockEnter) else none
  | .tryLock thread => if s.place thread = .idle then some (s.goto thread .tryTake) else none
  | .advance thread => advance s thread

end EasyLib.Common.SpinLock
