import EasyLib.Reactors.Timer

/-!
# Cancelled timers

A call on the timer queue is a sequence of actions, each of which uses at most one `Timer`: `HandleRead`
takes the expired timers out of the queue, calls back one after the other, with whatever the callbacks do
to the queue, and hands each of them to `ResetTimers`. A recorder runs these actions and keeps a record of
them. In the ledger these are the ids for which `RemoveTimer` has returned. Cancelling is final when no
action uses a timer whose id is in the ledger; `start` is the action that calls a timer back.
-/

namespace EasyLib.Reactors

namespace TimerQueue

inductive Action where
  | scan
  | start (timer : ℕ)
  | exec (command : Command)
  | reset (timer : ℕ)
  deriving DecidableEq, Repr

def Drawn (s : TimerQueue) (timerid : ℕ) : Prop := 0 < timerid ∧ timerid ≤ s.timerId

instance (s : TimerQueue) (timerid : ℕ) : Decidable (s.Drawn timerid) :=
  inferInstanceAs (Decidable (_ ∧ _))

/-- The object that an action uses. -/
def used (s : TimerQueue) : Action → Option ℕ
  | .scan => none
  | .start timer => some timer
  | .exec (.addTimer _ _) => some (s.timerId + 1)
  | .exec (.removeTimer timerid) => s.idtotimers timerid
  | .reset timer => some timer

/-- The timer that an action cancels. An id that no timer has drawn yet is not cancelled. -/
def cancels (s : TimerQueue) : Action → List ℕ
  | .exec (.removeTimer timerid) => if s.Drawn timerid then [timerid] else []
  | .scan | .start _ | .exec (.addTimer _ _) | .reset _ => []

variable (clock : ℕ → Int)

def act (s : TimerQueue) : Action → Option TimerQueue
  | .scan => some (scan clock (readTimerfd clock s)).2
  | .start timer => (s.timers timer).map s.start
  | .exec command => exec clock s command
  | .reset timer => resetTimer clock s timer

def expired (s : TimerQueue) : List ℕ := (scan clock (readTimerfd clock s)).1

def callbacks (callback : ℕ → List Command) (timers : List ℕ) : List Action :=
  timers.flatMap fun timer => .start timer :: (callback timer).map .exec

def actions (s : TimerQueue) : Call → List Action
  | .addTimer ts interval => [.exec (.addTimer ts interval)]
  | .removeTimer timerid => [.exec (.removeTimer timerid)]
  | .handleRead callback =>
      .scan :: (callbacks callback (s.expired clock) ++ (s.expired clock).map .reset)

/-- No callback of a timer that has expired removes one that has expired with it, or itself. -/
def Apart (s : TimerQueue) : Call → Prop
  | .addTimer _ _ | .removeTimer _ => True
  | .handleRead callback =>
      ∀ timer ∈ s.expired clock, ∀ other ∈ s.expired clock, .removeTimer other ∉ callback timer

end TimerQueue

open TimerQueue

/-- A timer queue with a record of the actions on it. -/
structure Recorder (Record : Type) where
  queue : TimerQueue
  record : Record

namespace Recorder

variable {Record : Type} (note : TimerQueue → Action → TimerQueue → Record → Record) (clock : ℕ → Int)

/-- `note` enters an action, with the queues before and after it. -/
def act (s : Recorder Record) (action : Action) : Option (Recorder Record) :=
  (s.queue.act clock action).map fun queue => ⟨queue, note s.queue action queue s.record⟩

def step (s : Recorder Record) (call : Call) : Option (Recorder Record) :=
  Machine.run (act note clock) s (s.queue.actions clock call)

end Recorder

abbrev Ledger := Recorder (List ℕ)

namespace Ledger

def new : Ledger := ⟨.new, []⟩

abbrev cancelled (s : Ledger) : List ℕ := s.record

def note (queue : TimerQueue) (action : Action) (_ : TimerQueue) (cancelled : List ℕ) : List ℕ :=
  cancelled ++ queue.cancels action

def Spares (s : Ledger) (action : Action) : Prop :=
  ∀ timer ∈ s.queue.used action, timer ∉ s.cancelled

instance (s : Ledger) (action : Action) : Decidable (s.Spares action) :=
  inferInstanceAs (Decidable (∀ timer ∈ s.queue.used action, timer ∉ s.cancelled))

variable (clock : ℕ → Int)

abbrev act : Ledger → Action → Option Ledger := Recorder.act note clock

abbrev step : Ledger → Call → Option Ledger := Recorder.step note clock

/-- No action of the call uses a timer that has been cancelled before it. -/
def Final (s : Ledger) (call : Call) : Prop :=
  Machine.AllSteps (act clock) Spares s (s.queue.actions clock call)

instance (s : Ledger) (call : Call) : Decidable (Final clock s call) :=
  inferInstanceAs (Decidable (Machine.AllSteps _ _ _ _))

end Ledger

end EasyLib.Reactors
