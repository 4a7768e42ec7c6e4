import EasyLib.Reactors.TimerCancel

/-!
# When a timer expires

The calls of `Reactors/net/actor.cc` that schedule a timer. `RunEvery` and `RunAfter` take a number of
seconds, which they turn into microseconds in an `int`, as `Timer::Restart` does, and add to a reading of
the clock. `ResetTimerfd` turns the time until an expiration into the `it_value` of the timerfd.

The chronicle is the record of the expirations that each timer has had: the first when it is made, and
another one with every `Restart`.
-/

namespace EasyLib.Reactors

open MachineInt

namespace TimerQueue

/-- `delay * 1000 * 1000`. -/
def microseconds (delay : Int) : Int := toInt32 (toInt32 (delay * 1000) * 1000)

variable (clock : ℕ → Int)

def runAt (s : TimerQueue) (time : Int) : TimerQueue := s.addTimer clock time 0

def runEvery (s : TimerQueue) (delay : Int) : TimerQueue :=
  addTimer clock { s with readings := s.readings + 1 } (clock s.readings + microseconds delay) delay

def runAfter (s : TimerQueue) (interval : Int) : TimerQueue :=
  addTimer clock { s with readings := s.readings + 1 } (clock s.readings + microseconds interval) 0

/-- The timer that a call makes expires at `ts`. -/
def Makes (s next : TimerQueue) (ts : Int) : Prop :=
  ∃ timer ∈ next.timers (s.timerId + 1), timer.ts = ts

/-- A delay of `delay` seconds from `now` on is scheduled exactly, without an overflow on the way. -/
structure Exact (delay now : Int) : Prop where
  milliseconds : delay * 1000 < 2 ^ 31
  microseconds : delay * 1000 * 1000 < 2 ^ 31
  sum : now + delay * 1000 * 1000 < 2 ^ 63
  runAfter : ∀ (clock : ℕ → Int) (s : TimerQueue), clock s.readings = now →
    s.Makes (s.runAfter clock delay) (now + delay * 10 ^ 6)
  runEvery : ∀ (clock : ℕ → Int) (s : TimerQueue), clock s.readings = now →
    s.Makes (s.runEvery clock delay) (now + delay * 10 ^ 6)
  restart : ∀ timer : Timer, timer.interval = delay → (timer.restart now).ts = now + delay * 10 ^ 6

/-- `value` arms a timerfd for `ts`, or for a second from now at most if `ts` is not in the future. -/
structure Arms (ts now : Int) (value : Timespec) : Prop where
  tvSec : value.tvSec < 2 ^ 63
  tvNsec : value.tvNsec < 10 ^ 9
  notZero : ¬ (value.tvSec = 0 ∧ value.tvNsec = 0)
  future : now < ts → (value.tvSec : Int) * 10 ^ 9 + value.tvNsec = (ts - now) * 1000
  due : ts ≤ now → value.tvSec * 10 ^ 9 + value.tvNsec ≤ 10 ^ 9

end TimerQueue

open TimerQueue

abbrev Chronicle := Recorder (ℕ → List Int)

namespace Chronicle

def new : Chronicle := ⟨.new, fun _ => []⟩

abbrev expirations (s : Chronicle) : ℕ → List Int := s.record

def note (queue : TimerQueue) (action : Action) (next : TimerQueue) (expirations : ℕ → List Int) :
    ℕ → List Int :=
  match action with
  | .exec (.addTimer ts _) => Function.update expirations (queue.timerId + 1) [ts]
  | .reset timer =>
      Function.update expirations timer
        (expirations timer ++ (next.timers timer).toList.map Timer.ts)
  | .scan | .start _ | .exec (.removeTimer _) => expirations

variable (clock : ℕ → Int)

abbrev act : Chronicle → Action → Option Chronicle := Recorder.act note clock

abbrev step : Chronicle → Call → Option Chronicle := Recorder.step note clock

/-- The timers with this interval have had strictly increasing expirations. -/
def Rising (interval : Int) (s : Chronicle) : Prop :=
  ∀ timer, ∀ object ∈ s.queue.timers timer, object.interval = interval →
    (s.expirations timer).Pairwise (· < ·)

end Chronicle

end EasyLib.Reactors
