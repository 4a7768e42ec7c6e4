import EasyLib.Lib.MachineInt
import EasyLib.Lib.OrdMap
import EasyLib.Lib.Run
import Mathlib.Logic.Function.Basic

/-!
# The timer queue

`Reactors/net/timer.h` and `Reactors/net/timer.cc`. One timerfd serves all timers of a loop: it is a
one-shot that is set by `ResetTimerfd` only and is spent by the read that finds it expired. A
`Timestamp` is its number of microseconds since the epoch.

The clock is a sequence of readings, and the state counts the readings taken. What a callback does is
the environment's choice: `HandleRead` is given, for each timer, the calls the callback of that timer
makes on the queue; `started` lists the timers whose callbacks were called. The objects that `new Timer`
makes are named by the id their constructor draws, and using one that has been deleted has no result.
-/

namespace EasyLib.Reactors

open MachineInt

structure Timer where
  repeats : Bool
  interval : Int
  ts : Int
  id : ℕ
  deriving DecidableEq, Repr

namespace Timer

def new (id : ℕ) (ts interval : Int) : Timer where
  repeats := interval > 0
  interval := interval
  ts := ts
  id := id

def restart (timer : Timer) (now : Int) : Timer :=
  { timer with ts := now + toInt32 (toInt32 (timer.interval * 1000) * 1000) }

end Timer

structure Timespec where
  tvSec : ℕ
  tvNsec : ℕ
  deriving DecidableEq, Repr

structure TimerQueue where
  timers : ℕ → Option Timer
  timerId : ℕ
  queue : OrdMap Int (List ℕ)
  idtotimers : ℕ → Option ℕ
  timerfd : Option Int
  started : List ℕ
  readings : ℕ

namespace TimerQueue

def new : TimerQueue where
  timers := fun _ => none
  timerId := 0
  queue := OrdMap.empty
  idtotimers := fun _ => none
  timerfd := none
  started := []
  readings := 0

def getIntervalFromNow (ts now : Int) : Timespec :=
  let intervalMseconds := toUInt64 (ts - now)
  { tvSec := intervalMseconds / (1000 * 1000)
    tvNsec := intervalMseconds % (1000 * 1000) * 1000 }

/-- `timerfd_settime` for `value`. The `it_interval` that `ResetTimerfd` hands over with it is not
initialised; it is taken to be zero, so that the timerfd expires once. -/
def timerfdSettime (now : Int) (value : Timespec) : Option Int :=
  if value.tvSec = 0 ∧ value.tvNsec = 0 then none
  else some (now + (value.tvSec * (1000 * 1000) + value.tvNsec / 1000 : ℕ))

variable (clock : ℕ → Int)

def resetTimerfd (s : TimerQueue) (ts : Int) : TimerQueue :=
  { s with
    timerfd := timerfdSettime (clock s.readings) (getIntervalFromNow ts (clock s.readings))
    readings := s.readings + 1 }

def Earliest (s : TimerQueue) (ts : Int) : Prop := ∀ first ∈ s.queue.first, ts < first

instance (s : TimerQueue) (ts : Int) : Decidable (s.Earliest ts) :=
  inferInstanceAs (Decidable (∀ first ∈ s.queue.first, ts < first))

def insertNew (s : TimerQueue) (ts interval : Int) : TimerQueue :=
  { s with
    timerId := s.timerId + 1
    timers := Function.update s.timers (s.timerId + 1) (some (Timer.new (s.timerId + 1) ts interval))
    queue := s.queue.alter ts fun bucket => bucket.getD [] ++ [s.timerId + 1]
    idtotimers := Function.update s.idtotimers (s.timerId + 1) (some (s.timerId + 1)) }

def addTimer (s : TimerQueue) (ts interval : Int) : TimerQueue :=
  if s.Earliest ts then resetTimerfd clock (s.insertNew ts interval) ts
  else s.insertNew ts interval

def removeTimer (s : TimerQueue) (timerid : ℕ) : Option TimerQueue :=
  match s.idtotimers timerid with
  | none => some s
  | some timer =>
      (s.timers timer).map fun object =>
        { s with
          idtotimers := Function.update s.idtotimers timerid none
          queue := s.queue.alter object.ts fun bucket => (bucket.getD []).filter (· ≠ timer)
          timers := Function.update s.timers timer none }

inductive Command where
  | addTimer (ts interval : Int)
  | removeTimer (timerid : ℕ)
  deriving DecidableEq, Repr

def exec (s : TimerQueue) : Command → Option TimerQueue
  | .addTimer ts interval => some (s.addTimer clock ts interval)
  | .removeTimer timerid => s.removeTimer timerid

/-- The read of `timer_fd_`. It fails, and leaves the timer alone, when that has not expired. -/
def readTimerfd (s : TimerQueue) : TimerQueue :=
  { s with
    timerfd := s.timerfd.filter fun armed => clock s.readings < armed
    readings := s.readings + 1 }

def scan (s : TimerQueue) : List ℕ × TimerQueue :=
  ((s.queue.splitLe (clock s.readings)).1.flatMap Prod.snd,
    { s with
      queue := (s.queue.splitLe (clock s.readings)).2
      readings := s.readings + 1 })

def start (s : TimerQueue) (timer : Timer) : TimerQueue :=
  { s with
    idtotimers := Function.update s.idtotimers timer.id none
    started := s.started ++ [timer.id] }

def fire (callback : ℕ → List Command) (s : TimerQueue) (timer : ℕ) : Option TimerQueue :=
  (s.timers timer).bind fun object => Machine.run (exec clock) (s.start object) (callback timer)

/-- What `ResetTimers` passes to `ResetTimerfd`: the new expiration, or the first key of the queue
when that is earlier. -/
def expiredTs (s : TimerQueue) (ts : Int) : Int :=
  match s.queue.first with
  | none => ts
  | some first => if ts > first then first else ts

def reinsert (s : TimerQueue) (timer : ℕ) (object : Timer) : TimerQueue :=
  { s with
    timers := Function.update s.timers timer (some object)
    queue := s.queue.alter object.ts fun bucket => bucket.getD [] ++ [timer]
    idtotimers := Function.update s.idtotimers object.id (some timer)
    readings := s.readings + 1 }

def resetTimer (s : TimerQueue) (timer : ℕ) : Option TimerQueue :=
  (s.timers timer).map fun object =>
    if object.repeats then
      let restarted := object.restart (clock s.readings)
      resetTimerfd clock (s.reinsert timer restarted) (s.expiredTs restarted.ts)
    else
      { s with timers := Function.update s.timers timer none }

def resetTimers (s : TimerQueue) (timers : List ℕ) : Option TimerQueue :=
  Machine.run (resetTimer clock) s timers

def handleRead (callback : ℕ → List Command) (s : TimerQueue) : Option TimerQueue :=
  let scanned := scan clock (readTimerfd clock s)
  (Machine.run (fire clock callback) scanned.2 scanned.1).bind fun fired =>
    resetTimers clock fired scanned.1

inductive Call where
  | addTimer (ts interval : Int)
  | removeTimer (timerid : ℕ)
  | handleRead (callback : ℕ → List Command)

def step (s : TimerQueue) : Call → Option TimerQueue
  | .addTimer ts interval => some (s.addTimer clock ts interval)
  | .removeTimer timerid => s.removeTimer timerid
  | .handleRead callback => s.handleRead clock callback

/-! ### What is asked of the timerfd -/

/-- While a live timer is queued, `timer_fd_` is armed for a time no later than its expiration. -/
def Covered (s : TimerQueue) : Prop :=
  ∀ entry ∈ s.queue.entries, ∀ timer ∈ entry.2, ∀ object ∈ s.timers timer,
    ∃ armed ∈ s.timerfd, armed ≤ object.ts

instance (s : TimerQueue) : Decidable (Covered s) :=
  inferInstanceAs (Decidable (∀ entry ∈ s.queue.entries, ∀ timer ∈ entry.2, ∀ object ∈ s.timers timer,
    ∃ armed ∈ s.timerfd, armed ≤ object.ts))

/-- The clock has not reached the time that `ResetTimerfd` is asked for. -/
def InTime (now ts : Int) : Prop := now < ts ∧ ts - now < 2 ^ 64

instance (now ts : Int) : Decidable (InTime now ts) :=
  inferInstanceAs (Decidable (now < ts ∧ ts - now < 2 ^ 64))

/-- A new timer is covered: it arms the timerfd in time, or that is armed early enough already. The
second is not implied by the queue holding an earlier key, which may have an empty bucket. -/
def AddCovers (s : TimerQueue) (ts : Int) : Prop :=
  if s.Earliest ts then InTime (clock s.readings) ts else ∃ armed ∈ s.timerfd, armed ≤ ts

def CommandCovers (s : TimerQueue) : Command → Prop
  | .addTimer ts _ => AddCovers clock s ts
  | .removeTimer _ => True

def ResetInTime (s : TimerQueue) (timer : ℕ) : Prop :=
  ∀ object ∈ s.timers timer, object.repeats →
    InTime (clock (s.readings + 1)) (s.expiredTs (object.restart (clock s.readings)).ts)

def NotSpent (s : TimerQueue) : Prop :=
  (∀ armed ∈ s.timerfd, clock s.readings < armed) ∨
    ∀ entry ∈ s.queue.entries, clock (s.readings + 1) < entry.1 → entry.2 = []

/-- One of the expired timers repeats, so that `ResetTimers` sets the timerfd again. -/
def SomeRepeats (s : TimerQueue) (timers : List ℕ) : Prop :=
  ∃ timer ∈ timers, ∃ object ∈ s.timers timer, object.repeats

def Covers (s : TimerQueue) : Call → Prop
  | .addTimer ts _ => AddCovers clock s ts
  | .removeTimer _ => True
  | .handleRead callback =>
      let scanned := scan clock (readTimerfd clock s)
      (SomeRepeats s scanned.1 ∨ NotSpent clock s ∧
        Machine.AllSteps (fire clock callback) (fun fired timer => ∀ object ∈ fired.timers timer,
          Machine.AllSteps (exec clock) (CommandCovers clock) (fired.start object)
            (callback timer)) scanned.2 scanned.1) ∧
      ∀ fired ∈ Machine.run (fire clock callback) scanned.2 scanned.1,
        Machine.AllSteps (resetTimer clock) (ResetInTime clock) fired scanned.1

instance (s : TimerQueue) (ts : Int) : Decidable (AddCovers clock s ts) :=
  inferInstanceAs (Decidable (if s.Earliest ts then InTime (clock s.readings) ts
    else ∃ armed ∈ s.timerfd, armed ≤ ts))

instance (s : TimerQueue) : DecidablePred (CommandCovers clock s)
  | .addTimer ts _ => inferInstanceAs (Decidable (AddCovers clock s ts))
  | .removeTimer _ => inferInstanceAs (Decidable True)

instance (s : TimerQueue) (timer : ℕ) : Decidable (ResetInTime clock s timer) :=
  inferInstanceAs (Decidable (∀ object ∈ s.timers timer, object.repeats →
    InTime (clock (s.readings + 1)) (s.expiredTs (object.restart (clock s.readings)).ts)))

instance (s : TimerQueue) : Decidable (NotSpent clock s) :=
  inferInstanceAs (Decidable ((∀ armed ∈ s.timerfd, clock s.readings < armed) ∨
    ∀ entry ∈ s.queue.entries, clock (s.readings + 1) < entry.1 → entry.2 = []))

instance (s : TimerQueue) (timers : List ℕ) : Decidable (SomeRepeats s timers) :=
  inferInstanceAs (Decidable (∃ timer ∈ timers, ∃ object ∈ s.timers timer, object.repeats))

instance (s : TimerQueue) : DecidablePred (Covers clock s)
  | .addTimer ts _ => inferInstanceAs (Decidable (AddCovers clock s ts))
  | .removeTimer _ => inferInstanceAs (Decidable True)
  | .handleRead _ => instDecidableAnd

end TimerQueue

end EasyLib.Reactors
