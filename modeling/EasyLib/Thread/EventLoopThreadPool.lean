import EasyLib.Lib.MachineInt
import EasyLib.Lib.Run

/-!
# A pool of event loop threads

`thread/EventLoopThreadPool.cpp`. The calls `Stop`, `IsRunning` and `IsStopped` index `threads_` up to
`threads_num_`; an index outside of it makes the call fail here. What an `EventLoopThread` answers is
chosen by the label of the call. `startReturned` is what the latest call has returned if it was `Start`.
-/

namespace EasyLib.Thread

/-- How `EventLoopThread::Start` ends: it returns true with the thread started, it returns true without
it, or it returns false. -/
inductive StartOutcome where
  | started
  | unstarted
  | failed
  deriving DecidableEq, Repr

/-- `EventLoopThread::Start`, given what `Thread::start()` returns. When that fails, the caller that
asked to wait loops until the thread runs. -/
def EventLoopThread.start (rc waitUntilThreadStarted : Bool) : Option StartOutcome :=
  if rc then some .started else if waitUntilThreadStarted then none else some .unstarted

structure EventLoopThread where
  started : Bool
  deriving DecidableEq, Repr

structure EventLoopThreadPool where
  started : Bool
  threadsNum : ℕ
  next : Int
  threads : List EventLoopThread
  startReturned : Option Bool
  deriving DecidableEq, Repr

namespace EventLoopThreadPool

def new : EventLoopThreadPool where
  started := false
  threadsNum := 0
  next := 0
  threads := []
  startReturned := none

def setThreadNum (s : EventLoopThreadPool) (threadNum : ℕ) : EventLoopThreadPool :=
  { s with threadsNum := threadNum }

/-- The loop of `Start` for `count` more threads, from index `i` on. -/
def startThreads (outcome : ℕ → StartOutcome) (threads : List EventLoopThread) (i : ℕ) :
    ℕ → List EventLoopThread × Bool
  | 0 => (threads, true)
  | count + 1 =>
      match outcome i with
      | .started => startThreads outcome (threads ++ [⟨true⟩]) (i + 1) count
      | .unstarted => startThreads outcome (threads ++ [⟨false⟩]) (i + 1) count
      | .failed => (threads, false)

def start (s : EventLoopThreadPool) (outcome : ℕ → StartOutcome) : EventLoopThreadPool × Bool :=
  if s.started then (s, true)
  else
    let (threads, rc) := startThreads outcome s.threads 0 s.threadsNum
    ({ s with threads, started := rc }, rc)

/-- `for (i = 0; i < threads_num_; ++i) if (!threads_[i]->...) return false; return true;`, for `count`
more threads from index `i` on. -/
def allThreads (answer : ℕ → Bool) (threads : List EventLoopThread) (i : ℕ) : ℕ → Option Bool
  | 0 => some true
  | count + 1 =>
      if i < threads.length then
        if answer i then allThreads answer threads (i + 1) count else some false
      else none

def isRunning (s : EventLoopThreadPool) (running : ℕ → Bool) : Option Bool :=
  allThreads running s.threads 0 s.threadsNum

def isStopped (s : EventLoopThreadPool) (stopped : ℕ → Bool) : Option Bool :=
  allThreads stopped s.threads 0 s.threadsNum

def stop (s : EventLoopThreadPool) (waitThreadExit : Bool) (stopped : ℕ → Bool) :
    Option EventLoopThreadPool := do
  let _ ← allThreads (fun _ => true) s.threads 0 s.threadsNum
  if waitThreadExit then
    -- one pass over the threads, which a thread that is not stopped yet cuts short
    let _ ← s.isStopped stopped
  pure { s with threads := [] }

/-- `InterlockedInc32(&next_)`, converted to `unsigned int`. -/
def interlockedInc32 (next : Int) : ℕ := (MachineInt.toInt32 (next + 1) % 2 ^ 32).toNat

/-- The thread whose loop is returned, if there is one, behind the increment of `next_`. -/
def getNextLoop (s : EventLoopThreadPool) : Option (EventLoopThreadPool × Option EventLoopThread) :=
  if s.threads = [] then some (s, none)
  else
    (s.threads[interlockedInc32 s.next % s.threads.length]?).map fun thread =>
      ({ s with next := MachineInt.toInt32 (s.next + 1) }, some thread)

/-- The place in `threads_` that `GetNextLoop` looks at. -/
def nextIndex (s : EventLoopThreadPool) : ℕ := interlockedInc32 s.next % s.threads.length

/-- The places that `count` consecutive calls of `GetNextLoop` look at, and the pool behind them. -/
def getNextLoops (s : EventLoopThreadPool) : ℕ → Option (EventLoopThreadPool × List ℕ)
  | 0 => some (s, [])
  | count + 1 =>
      s.getNextLoop.bind fun result =>
        (getNextLoops result.1 count).map fun later => (later.1, s.nextIndex :: later.2)

/-- The next calls, as many as there are threads, return different loops. -/
def FairWindow (s : EventLoopThreadPool) : Prop :=
  ∃ last indices, s.getNextLoops s.threads.length = some (last, indices) ∧ indices.Nodup

def getNextLoopWithHash (s : EventLoopThreadPool) (hash : ℕ) : Option (Option EventLoopThread) :=
  if s.threads = [] then some none else (s.threads[hash % s.threads.length]?).map some

inductive Call where
  | setThreadNum (threadNum : ℕ)
  | start (outcome : ℕ → StartOutcome)
  | stop (waitThreadExit : Bool) (stopped : ℕ → Bool)
  | getNextLoop
  | getNextLoopWithHash (hash : ℕ)
  | isRunning (running : ℕ → Bool)
  | isStopped (stopped : ℕ → Bool)

def returned (s : EventLoopThreadPool) (startReturned : Option Bool) : EventLoopThreadPool :=
  { s with startReturned }

def step (s : EventLoopThreadPool) : Call → Option EventLoopThreadPool
  | .setThreadNum threadNum => some ((s.setThreadNum threadNum).returned none)
  | .start outcome => some ((s.start outcome).1.returned (s.start outcome).2)
  | .stop waitThreadExit stopped => (s.stop waitThreadExit stopped).map (returned · none)
  | .getNextLoop => s.getNextLoop.map fun result => result.1.returned none
  | .getNextLoopWithHash hash => (s.getNextLoopWithHash hash).map fun _ => s.returned none
  | .isRunning running => (s.isRunning running).map fun _ => s.returned none
  | .isStopped stopped => (s.isStopped stopped).map fun _ => s.returned none

/-- The pool holds `threads_num_` threads, all started. -/
def Complete (s : EventLoopThreadPool) : Prop :=
  s.threads.length = s.threadsNum ∧ ∀ thread ∈ s.threads, thread.started = true

def Consistent (s : EventLoopThreadPool) : Prop := s.startReturned = some true → s.Complete

/-- The loop over `threads_[i]` ends inside of `threads_`. -/
def Within (s : EventLoopThreadPool) (answer : ℕ → Bool) : Prop :=
  s.threadsNum ≤ s.threads.length ∨ ∃ i < s.threads.length, answer i = false

/-- A `Start` that returns true finds the pool complete, or finds it empty and starts all threads; the
loops of the other calls end inside of `threads_`. -/
def Matched (s : EventLoopThreadPool) : Call → Prop
  | .start outcome =>
      if s.started then s.Complete
      else (∃ i < s.threadsNum, outcome i = .failed) ∨
        s.threads = [] ∧ ∀ i < s.threadsNum, outcome i = .started
  | .stop _ _ => s.threadsNum ≤ s.threads.length
  | .isRunning answer | .isStopped answer => s.Within answer
  | .setThreadNum _ | .getNextLoop | .getNextLoopWithHash _ => True

instance : DecidablePred Complete := fun _ => inferInstanceAs (Decidable (_ ∧ _))

instance (s : EventLoopThreadPool) (answer : ℕ → Bool) : Decidable (s.Within answer) :=
  inferInstanceAs (Decidable (_ ∨ _))

instance (s : EventLoopThreadPool) : DecidablePred s.Matched
  | .start outcome =>
      inferInstanceAs (Decidable (if s.started then s.Complete
        else (∃ i < s.threadsNum, outcome i = .failed) ∨
          s.threads = [] ∧ ∀ i < s.threadsNum, outcome i = .started))
  | .stop _ _ => inferInstanceAs (Decidable (s.threadsNum ≤ s.threads.length))
  | .isRunning answer | .isStopped answer => inferInstanceAs (Decidable (s.Within answer))
  | .setThreadNum _ | .getNextLoop | .getNextLoopWithHash _ => isTrue trivial

end EventLoopThreadPool

end EasyLib.Thread
