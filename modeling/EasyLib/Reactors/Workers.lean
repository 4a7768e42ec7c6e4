import EasyLib.Lib.CondVar
import EasyLib.Lib.Run

/-!
# Worker threads

`Reactors/net/workers.h`. The workers of a `WorkerManager` share its list of jobs, a mutex and a
condition variable. A worker locks the mutex at the top of its loop, waits while the list is empty and
takes the first job, which it runs outside the mutex. `QueueJob` signals under the mutex, so it is one
step of whoever calls it. `taken` and `queued` record the jobs in the order they were taken and queued.
-/

namespace EasyLib.Reactors

open CondVar

/-- What a worker does outside the mutex. -/
inductive Activity (Job : Type*) where
  | idle
  | running (job : Job)
  deriving DecidableEq, Repr

structure WorkerManager (Worker Job : Type*) where
  jobList : List Job
  place : Worker → Place (Activity Job)
  queued : List Job
  taken : List (Worker × Job)

namespace WorkerManager

variable {Worker Job : Type*}

def new : WorkerManager Worker Job where
  jobList := []
  place := fun _ => .outside .idle
  queued := []
  taken := []

variable [DecidableEq Worker]

/-- The section of `Work` under the mutex, from the lock or from the end of a `wait()` on: to the next
`wait()`, or to the unlock behind `pop_front`. -/
def work (s : WorkerManager Worker Job) (worker : Worker) : WorkerManager Worker Job :=
  match s.jobList with
  | [] => { s with place := Function.update s.place worker .waiting }
  | job :: jobList =>
      { s with
        jobList
        place := Function.update s.place worker (.outside (.running job))
        taken := s.taken ++ [(worker, job)] }

inductive Label (Worker Job : Type*) where
  | queueJob (job : Job) (chosen : Option Worker)
  | work (worker : Worker)
  | finish (worker : Worker)
  | wakeUp (worker : Worker)
  deriving DecidableEq, Repr

def Label.ofWorker : Label Worker Job → Bool
  | .work _ | .finish _ => true
  | .queueJob _ _ | .wakeUp _ => false

def step [Fintype Worker] (s : WorkerManager Worker Job) :
    Label Worker Job → Option (WorkerManager Worker Job)
  | .queueJob job chosen =>
      (signal s.place chosen).map fun place =>
        { s with jobList := s.jobList ++ [job], place, queued := s.queued ++ [job] }
  | .work worker =>
      match s.place worker with
      | .outside .idle | .woken => some (s.work worker)
      | _ => none
  | .finish worker =>
      match s.place worker with
      | .outside (.running _) =>
          some { s with place := Function.update s.place worker (.outside .idle) }
      | _ => none
  | .wakeUp worker => (wake s.place worker).map fun place => { s with place }

/-- While there are jobs, a worker that waits is not the only one to look after them. -/
def Attended (s : WorkerManager Worker Job) : Prop :=
  s.jobList ≠ [] → ∀ worker, (s.place worker).isWaiting → ∃ other, s.place other = .woken

end WorkerManager

/-! ### `StartWork` -/

/-- A `Worker` as `StartWork` makes it, and the number of times `Start()` was called on it. -/
structure StartedWorker where
  workerId : BitVec 8
  starts : ℕ
  deriving DecidableEq, Repr

def StartedWorker.start (worker : StartedWorker) : StartedWorker :=
  { worker with starts := worker.starts + 1 }

/-- The loop of `StartWork` between two iterations. The counter is a `uint8_t`. -/
structure StartWork where
  i : BitVec 8
  workers : List StartedWorker
  deriving DecidableEq, Repr

namespace StartWork

def new : StartWork where
  i := 0
  workers := []

/-- `i < worker_num_`, with the counter converted to the type of the bound. -/
def Continues (workerNum : BitVec 32) (s : StartWork) : Prop := s.i.setWidth 32 < workerNum

instance (workerNum : BitVec 32) (s : StartWork) : Decidable (s.Continues workerNum) :=
  inferInstanceAs (Decidable (_ < _))

/-- An iteration, which there is none of where the loop has ended. An index outside of the vector would
have no result either. -/
def step (workerNum : BitVec 32) (s : StartWork) (_ : Unit) : Option StartWork :=
  let workers := s.workers ++ [⟨s.i, 0⟩]
  if s.Continues workerNum ∧ s.i.toNat < workers.length then
    some { i := s.i + 1, workers := workers.modify s.i.toNat StartedWorker.start }
  else
    none

end StartWork

end EasyLib.Reactors
