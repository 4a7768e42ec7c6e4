import EasyLib.Lib.Run
import Mathlib.Data.BitVec
import Mathlib.Logic.Function.Basic

/-!
# How timers draw their ids

The constructor of `Timer` in `Reactors/net/timer.h`, in any number of threads. It increments the shared
`timer_id_` and then reads it, each in one atomic step; the id is what it reads. `constructing` marks the
threads between the two. `increments` counts the increments, and `renewed` says that there has been one
since the latest `get()` of any thread.
-/

namespace EasyLib.Reactors

structure TimerIds (Thread : Type*) where
  timerId : BitVec 64
  constructing : Thread → Bool
  ids : List (BitVec 64)
  increments : ℕ
  renewed : Bool

namespace TimerIds

variable {Thread : Type*}

def new : TimerIds Thread where
  timerId := 0
  constructing := fun _ => false
  ids := []
  increments := 0
  renewed := false

inductive Label (Thread : Type*) where
  | increment (thread : Thread)
  | get (thread : Thread)
  deriving DecidableEq, Repr

variable [DecidableEq Thread]

def step (s : TimerIds Thread) : Label Thread → Option (TimerIds Thread)
  | .increment thread =>
      if s.constructing thread then none
      else
        some { s with
          timerId := s.timerId + 1
          constructing := Function.update s.constructing thread true
          increments := s.increments + 1
          renewed := true }
  | .get thread =>
      if s.constructing thread then
        some { s with
          constructing := Function.update s.constructing thread false
          ids := s.ids ++ [s.timerId]
          renewed := false }
      else none

def Unique (s : TimerIds Thread) : Prop := s.ids.Nodup

/-- Between the `get()` of one constructor and that of another there is an `increment()`. -/
def Renewed (s : TimerIds Thread) : Label Thread → Prop
  | .get thread => s.constructing thread = true → s.renewed = true
  | .increment _ => True

/-- The counter has not wrapped around. -/
def Few (s : TimerIds Thread) (_ : Label Thread) : Prop := s.increments < 2 ^ 64

end TimerIds

end EasyLib.Reactors
