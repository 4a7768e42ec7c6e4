import EasyLib.Reactors.Timer

/-!
# What the timer queue is for

The timers that are waiting are one list in the order of their insertion, and this module says in its
terms what each call is to do. `AddTimer` puts a timer at the end, `RemoveTimer` takes one out. When
`HandleRead` finds the clock at `now` it calls back the timers that are due, by expiration and then by
insertion; the others stay where they are, the timers that the callbacks have added come behind them,
and behind those the ones that repeat, with a new expiration.

The two indexes of the queue represent the list when the bucket under each time lists the timers for
that time in order, and the ids in `idtotimers_` are those of the list.
-/

namespace EasyLib.Reactors.TimerQueue

def bucket (s : TimerQueue) (ts : Int) : List ℕ := (s.queue.find ts).getD []

structure Represents (s : TimerQueue) (waiting : List Timer) : Prop where
  buckets : ∀ ts, s.bucket ts = (waiting.filter (·.ts = ts)).map Timer.id
  index : ∀ id, s.idtotimers id = if id ∈ waiting.map Timer.id then some id else none
  objects : ∀ timer ∈ waiting, s.timers timer.id = some timer
  distinct : (waiting.map Timer.id).Nodup
  drawn : ∀ timer ∈ waiting, timer.id ≤ s.timerId

/-- `fired` are the timers that are due, in the order of their expirations and, among those with the
same one, in the order they had. -/
structure InOrder (due fired : List Timer) : Prop where
  sorted : fired.Pairwise (·.ts ≤ ·.ts)
  stable : ∀ ts, fired.filter (·.ts = ts) = due.filter (·.ts = ts)

def Command.request : Command → Option (Int × Int)
  | .addTimer ts interval => some (ts, interval)
  | .removeTimer _ => none

/-- The timers that `AddTimer` makes, with the ids they draw. -/
def newTimers (timerId : ℕ) : List (Int × Int) → List Timer
  | [] => []
  | (ts, interval) :: requests =>
      Timer.new (timerId + 1) ts interval :: newTimers (timerId + 1) requests

variable (clock : ℕ → Int)

/-- The reading that `Restart` takes comes after those up to `first`. -/
def Restarted (first last : ℕ) (old new : Timer) : Prop :=
  ∃ reading, first < reading ∧ reading < last ∧
    new = { old with ts := clock reading + old.interval * 1000000 }

def FiresDue (s : TimerQueue) (waiting : List Timer) (callback : ℕ → List Command) (next : TimerQueue)
    (waiting' : List Timer) : Prop :=
  ∃ fired restarted,
    InOrder (waiting.filter (·.ts ≤ clock (s.readings + 1))) fired ∧
    next.started = s.started ++ fired.map Timer.id ∧
    List.Forall₂ (Restarted clock (s.readings + 1) next.readings) (fired.filter (·.repeats)) restarted ∧
    waiting' = waiting.filter (clock (s.readings + 1) < ·.ts) ++
      newTimers s.timerId (fired.flatMap fun timer => (callback timer.id).filterMap Command.request) ++
      restarted

def Specified (s : TimerQueue) (waiting : List Timer) (call : Call) (next : TimerQueue)
    (waiting' : List Timer) : Prop :=
  match call with
  | .addTimer ts interval =>
      waiting' = waiting ++ newTimers s.timerId [(ts, interval)] ∧ next.started = s.started
  | .removeTimer timerid => waiting' = waiting.filter (·.id ≠ timerid) ∧ next.started = s.started
  | .handleRead callback => FiresDue clock s waiting callback next waiting'

/-- A call that a callback may make. -/
def Command.Plain : Command → Prop
  | .addTimer _ interval => interval < 2147
  | .removeTimer _ => False

/-- No callback removes a timer, and no interval overflows when it is turned into microseconds. -/
def Plain : Call → Prop
  | .addTimer _ interval => interval < 2147
  | .removeTimer _ => True
  | .handleRead callback => ∀ timer, ∀ command ∈ callback timer, command.Plain

end EasyLib.Reactors.TimerQueue
