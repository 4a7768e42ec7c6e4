import EasyLib.Lib.CondVar
import EasyLib.Lib.Run

/-!
# A pool of database connections

`common/MysqlPool.cpp`. Threads take connections out of a queue and give them back. `get` waits in a
condition variable while the queue is empty; `release` unlocks the mutex before it signals, so that it is
two steps. A connection is the number of the round of `init` that has made it. `held` lists what each
thread has got and not yet released.
-/

namespace EasyLib.Common

open CondVar

/-- What a thread does outside the mutex: it may be in `release`, between the unlock and the signal. -/
inductive Use where
  | away
  | signalling
  deriving DecidableEq, Repr

structure MysqlPool (Thread : Type*) where
  queue : List ℕ
  place : Thread → Place Use
  held : Thread → List ℕ

namespace MysqlPool

/-- The loop of `init`. `connects` says in which rounds `mysql_init` and `mysql_real_connect` succeed. -/
def initFrom (connects : ℕ → Bool) : ℕ → List ℕ → List ℕ × Bool
  | 0, queue => (queue, true)
  | rounds + 1, queue =>
      if connects queue.length then initFrom connects rounds (queue ++ [queue.length])
      else (queue, false)

/-- `init`, with the queue it leaves and the value it returns. The bound of its loop is an `int`. -/
def init (connects : ℕ → Bool) (capacity : BitVec 32) : List ℕ × Bool :=
  initFrom connects capacity.toInt.toNat []

variable {Thread : Type*}

def start (queue : List ℕ) : MysqlPool Thread where
  queue := queue
  place := fun _ => .outside .away
  held := fun _ => []

variable [DecidableEq Thread]

/-- The section of `get` under the mutex, from the lock or from the end of a wait on. -/
def get (s : MysqlPool Thread) (thread : Thread) : MysqlPool Thread :=
  match s.queue with
  | [] => { s with place := Function.update s.place thread .waiting }
  | mysql :: queue =>
      { queue
        place := Function.update s.place thread (.outside .away)
        held := Function.update s.held thread (s.held thread ++ [mysql]) }

/-- `release` up to its unlock. -/
def release (s : MysqlPool Thread) (thread : Thread) (mysql : ℕ) : MysqlPool Thread where
  queue := s.queue ++ [mysql]
  place := Function.update s.place thread (.outside .signalling)
  held := Function.update s.held thread ((s.held thread).erase mysql)

inductive Label (Thread : Type*) where
  | get (thread : Thread)
  | release (thread : Thread) (mysql : ℕ)
  | signal (thread : Thread) (chosen : Option Thread)
  | wakeUp (thread : Thread)
  deriving DecidableEq, Repr

def step [Fintype Thread] (s : MysqlPool Thread) : Label Thread → Option (MysqlPool Thread)
  | .get thread =>
      match s.place thread with
      | .outside .away | .woken => some (s.get thread)
      | _ => none
  | .release thread mysql =>
      if s.place thread = .outside .away ∧ mysql ∈ s.held thread then some (s.release thread mysql)
      else none
  | .signal thread chosen =>
      if s.place thread = .outside .signalling then
        (CondVar.signal s.place chosen).map fun place =>
          { s with place := Function.update place thread (.outside .away) }
      else none
  | .wakeUp thread => (wake s.place thread).map fun place => { s with place }

/-- Each of the first `capacity` connections is in one place: once in the queue, or once with one of
the threads. -/
def Partitioned [Fintype Thread] (capacity : ℕ) (s : MysqlPool Thread) : Prop :=
  ∀ mysql, s.queue.count mysql + Counting.total (List.count mysql) s.held =
    if mysql < capacity then 1 else 0

/-- While the queue is not empty, a thread that waits is not the only one to look after it: another one
is woken, or has released a connection and is about to signal. -/
def Attended (s : MysqlPool Thread) : Prop :=
  s.queue ≠ [] → ∀ thread, (s.place thread).isWaiting →
    ∃ other, s.place other = .woken ∨ s.place other = .outside .signalling

end MysqlPool

end EasyLib.Common
