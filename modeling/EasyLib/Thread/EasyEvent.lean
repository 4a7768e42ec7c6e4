import EasyLib.Lib.Run
import Mathlib.Data.List.Basic

/-!
# Descriptor and timer events

`easyevent.cpp`, of which `frame/` and `thread/` have a copy each. Both wrap a libevent event that
fires once. The events that libevent knows are part of the state, numbered in the order in which they
were created; an event that fires is not registered any more when its callback is called. The results
of `event_add` and `event_del` are inputs of the calls, and an event whose `event_del` fails stays
registered.

A callback calls the user's handler last, so what the handler does to its own event is a further call.
-/

namespace EasyLib.Thread

/-! ### `FdEvent` -/

inductive Copy where
  | frame
  | thread
  deriving DecidableEq, Repr

/-- The bits `kReadable` and `kWritable` of an `int`. -/
structure Flags where
  readable : Bool
  writable : Bool
  deriving DecidableEq, Repr

/-- The bits `EV_TIMEOUT`, `EV_READ` and `EV_WRITE` of a `short`. -/
structure What where
  timeout : Bool
  read : Bool
  write : Bool
  deriving DecidableEq, Repr

def What.flags (what : What) : Flags := ⟨what.read, what.write⟩

/-- What an event that waits for `registered` without a timeout can fire with. -/
def What.Among (what registered : What) : Prop :=
  what.timeout = false ∧ (what.read = true ∨ what.write = true) ∧
    (what.read = true → registered.read = true) ∧ (what.write = true → registered.write = true)

instance (what registered : What) : Decidable (what.Among registered) :=
  inferInstanceAs (Decidable (_ ∧ _ ∧ _ ∧ _))

inductive TimeFlag where
  | noTime
  | timeDiff
  | timeStamp
  deriving DecidableEq, Repr

/-- An event that is registered with libevent. `handler` is the one of the `AsyncWait` that has
registered it. -/
structure Event (Handler : Type*) where
  number : ℕ
  fd : Int
  what : What
  handler : Handler
  deriving DecidableEq, Repr

structure FdEvent (Handler : Type*) where
  ev : Option ℕ
  handler : Option Handler
  flags : Flags
  active : Bool
  timeFlag : TimeFlag
  created : ℕ
  registered : List (Event Handler)
  invoked : List (Handler × Flags)
  deriving DecidableEq, Repr

namespace FdEvent

variable {Handler : Type*}

def new : FdEvent Handler where
  ev := none
  handler := none
  flags := ⟨false, false⟩
  active := false
  timeFlag := .noTime
  created := 0
  registered := []
  invoked := []

/-- `deleted` says that `event_del` returns 0. -/
def cancel (s : FdEvent Handler) (deleted : Bool) : FdEvent Handler :=
  if s.active then
    match s.ev with
    | some number =>
        if deleted then
          { s with
            active := false
            ev := none
            handler := none
            timeFlag := .noTime
            registered := s.registered.filter (·.number ≠ number) }
        else { s with active := false }
    | none => { s with active := false, handler := none, timeFlag := .noTime }
  else s

/-- `event_new`. -/
def eventNew (s : FdEvent Handler) : FdEvent Handler :=
  { s with ev := some s.created, created := s.created + 1 }

/-- The event that `event_add` registers behind `eventNew`. -/
def nextEvent (s : FdEvent Handler) (fd : Int) (events : Flags) (handler : Handler) : Event Handler where
  number := s.created
  fd := fd
  what := ⟨false, events.readable, events.writable⟩
  handler := handler

/-- `Start`, with `handler` for the one that `AsyncWait` has set. `added` says that `event_add`
returns 0. The copies differ in what follows `event_add`: in `frame/` the disabled section takes the
assignment to `active_` with it. -/
def start (copy : Copy) (s : FdEvent Handler) (fd : Int) (events : Flags) (handler : Handler)
    (added deleted : Bool) : FdEvent Handler :=
  if events.readable = false ∧ events.writable = false then s
  else
    let s := s.cancel deleted
    if 0 ≤ fd then
      let registered := s.registered ++ [s.nextEvent fd events handler]
      match copy with
      | .frame =>
          if s.timeFlag = .noTime then
            if added then { s.eventNew with registered } else s.eventNew
          else s.eventNew
      | .thread =>
          if s.timeFlag = .noTime then
            if added then { s.eventNew with registered, active := true } else s.eventNew
          else { s.eventNew with active := true }
    else s

def asyncWait (copy : Copy) (s : FdEvent Handler) (fd : Int) (events : Flags) (handler : Handler)
    (added deleted : Bool) : FdEvent Handler :=
  let s := if s.active then s.cancel deleted else s
  start copy { s with timeFlag := .noTime, handler := some handler } fd events handler added deleted

/-- The part of `Notify` that calls the handler. A `handler_` that is empty throws, and the exception
is caught. -/
def callHandler (s : FdEvent Handler) : FdEvent Handler :=
  if s.active then { s with invoked := s.invoked ++ (s.handler.map (·, s.flags)).toList } else s

def notify (s : FdEvent Handler) (what : What) : FdEvent Handler :=
  if what.read then callHandler { s with flags := { s.flags with readable := true } }
  else if what.write then callHandler { s with flags := { s.flags with writable := true } }
  else if what.timeout then callHandler s
  else s

/-- The registered event with this number, if it can fire with `what`. -/
def firing (s : FdEvent Handler) (number : ℕ) (what : What) : Option (Event Handler) :=
  s.registered.find? fun event => event.number = number ∧ what.Among event.what

inductive Label (Handler : Type*) where
  | asyncWait (fd : Int) (events : Flags) (handler : Handler) (added deleted : Bool)
  | cancel (deleted : Bool)
  | fire (number : ℕ) (what : What)
  deriving DecidableEq, Repr

/-- `event_del` succeeds where the call makes it. -/
def Label.deleted : Label Handler → Bool
  | .asyncWait _ _ _ _ deleted | .cancel deleted => deleted
  | .fire _ _ => true

def apply (copy : Copy) (s : FdEvent Handler) : Label Handler → FdEvent Handler
  | .asyncWait fd events handler added deleted => s.asyncWait copy fd events handler added deleted
  | .cancel deleted => s.cancel deleted
  | .fire number what =>
      if (s.firing number what).isSome then
        notify { s with registered := s.registered.filter (·.number ≠ number) } what
      else s

/-- The two copies side by side. -/
structure Copies (Handler : Type*) where
  frame : FdEvent Handler
  thread : FdEvent Handler
  deriving DecidableEq, Repr

namespace Copies

def new : Copies Handler := ⟨FdEvent.new, FdEvent.new⟩

def step (s : Copies Handler) (label : Label Handler) : Option (Copies Handler) :=
  some ⟨s.frame.apply .frame label, s.thread.apply .thread label⟩

def Agree (s : Copies Handler) : Prop :=
  s.frame.invoked = s.thread.invoked ∧ s.frame.registered = s.thread.registered

/-- The `thread/` copy is not active, or the step finds no event to fire or cannot delete the one that
is registered. -/
def Untold (s : Copies Handler) (label : Label Handler) : Prop :=
  s.thread.active = false ∨
    match label with
    | .asyncWait _ _ _ _ deleted | .cancel deleted => deleted = false
    | .fire number what => s.thread.firing number what = none

end Copies

/-- An event with the reports that are due. -/
structure Reporting (Handler : Type*) where
  event : FdEvent Handler
  due : List (Handler × Flags)
  deriving DecidableEq, Repr

namespace Reporting

def new : Reporting Handler := ⟨FdEvent.new, []⟩

/-- A firing is due to be reported to the handler of the event, with what it has fired with. -/
def step (s : Reporting Handler) (label : Label Handler) : Option (Reporting Handler) :=
  some {
    event := s.event.apply .thread label
    due :=
      match label with
      | .fire number what =>
          s.due ++ ((s.event.firing number what).map fun event => (event.handler, what.flags)).toList
      | .asyncWait _ _ _ _ _ | .cancel _ => s.due }

def Exact (s : Reporting Handler) : Prop := s.event.invoked = s.due

/-- What `flags_` must be for a firing to be reported as it is. -/
def Ready (flags : Flags) (what : What) : Prop :=
  if what.read then (flags.writable = true ↔ what.write = true) else flags.readable = false

/-- The event that fires is the one of the latest `AsyncWait`, and `flags_` is ready for it. -/
def Fresh (s : Reporting Handler) : Label Handler → Prop
  | .fire number what =>
      ∀ event ∈ s.event.firing number what,
        s.event.active = true ∧ s.event.handler = some event.handler ∧ Ready s.event.flags what
  | .asyncWait _ _ _ _ _ | .cancel _ => True

/-- The condition on `flags_` alone. -/
def Clean (s : Reporting Handler) : Label Handler → Prop
  | .fire number what => (s.event.firing number what).isSome → Ready s.event.flags what
  | .asyncWait _ _ _ _ _ | .cancel _ => True

end Reporting

end FdEvent

/-! ### `TimerEvent` -/

/-- `alive` are the libevent timers that have been created and not freed, and `pending` those that may
still fire. A handler is known by the number of the `AsyncWait` it came with, among the calls of
`AsyncWait` and `Cancel`, which `calls` counts. `started` lists the handlers that have been called,
each with the number of calls made before. -/
structure TimerEvent where
  handler : Option ℕ
  timerEv : Option ℕ
  active : Bool
  created : ℕ
  alive : List ℕ
  pending : List ℕ
  calls : ℕ
  started : List (ℕ × ℕ)
  deriving DecidableEq, Repr

namespace TimerEvent

def new : TimerEvent where
  handler := none
  timerEv := none
  active := false
  created := 0
  alive := []
  pending := []
  calls := 0
  started := []

/-- `evtimer_del` and `event_free`, neither of which may be given a freed event. -/
def delete (s : TimerEvent) (ev : ℕ) : Option TimerEvent :=
  if ev ∈ s.alive then
    some { s with timerEv := none, alive := s.alive.erase ev, pending := s.pending.erase ev }
  else none

/-- `if (timer_ev_ != NULL) { ... }`. -/
def deleteTimer (s : TimerEvent) : Option TimerEvent :=
  match s.timerEv with
  | some ev => s.delete ev
  | none => some s

def cancel (s : TimerEvent) : Option TimerEvent :=
  if s.active then
    (deleteTimer { s with active := false }).map fun s => { s with handler := none }
  else some s

def start (s : TimerEvent) : TimerEvent :=
  if s.active then s
  else
    { s with
      timerEv := some s.created
      created := s.created + 1
      alive := s.alive ++ [s.created]
      pending := s.pending ++ [s.created]
      active := true }

def asyncWait (s : TimerEvent) (handler : ℕ) : Option TimerEvent :=
  s.cancel.map fun s => start { s with handler := some handler }

/-- `OnTimer`, up to the call of the handler. -/
def onTimer (s : TimerEvent) : Option TimerEvent := do
  let s ← deleteTimer { s with active := false }
  let handler ← s.handler
  pure { s with started := s.started ++ [(handler, s.calls)] }

inductive Label where
  | asyncWait
  | cancel
  | fire (ev : ℕ)
  deriving DecidableEq, Repr

def step (s : TimerEvent) : Label → Option TimerEvent
  | .asyncWait => asyncWait { s with calls := s.calls + 1 } (s.calls + 1)
  | .cancel => cancel { s with calls := s.calls + 1 }
  | .fire ev => if ev ∈ s.pending then onTimer { s with pending := s.pending.erase ev } else none

/-- At most one timer is alive, the event is active exactly when it is pending, no handler is called
twice or behind a call that follows its `AsyncWait`, and no call uses a freed timer. -/
structure OneShot (s : TimerEvent) : Prop where
  alive : s.alive.length ≤ 1
  pending : s.pending ⊆ s.alive
  active : s.active = true ↔ s.pending ≠ []
  once : (s.started.map Prod.fst).Nodup
  notAfter : ∀ entry ∈ s.started, entry.1 = entry.2
  asyncWait : Machine.Enabled step s .asyncWait
  cancel : Machine.Enabled step s .cancel
  fire : ∀ ev ∈ s.pending, Machine.Enabled step s (.fire ev)

end TimerEvent

end EasyLib.Thread
