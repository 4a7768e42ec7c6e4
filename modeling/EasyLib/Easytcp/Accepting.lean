import EasyLib.Lib.Run
import Mathlib.Data.Nat.Notation

/-!
# Accepting connections

`easytcp/threadpool.cpp`, `Threadpool::CreateThreads` and the loop of `Threadpool::Start`. Each thread has
a pipe, and the loop writes every connection it accepts to the pipe of the thread at `next_`. What
`accept(2)` returns is written also where it is -1.
-/

namespace EasyLib.Easytcp

/-- What setting up the pipe of one thread comes to. -/
inductive PipeResult where
  | pipeFailed
  | getFlagsFailed
  | setFlagsFailed
  | made (readfd writefd : Int)
  deriving DecidableEq, Repr

/-- `given` are the descriptors written to the pipe. -/
structure ThreadInfo where
  writefd : Int
  given : List Int
  deriving DecidableEq, Repr

/-- The connections among them. -/
def ThreadInfo.connections (info : ThreadInfo) : ℕ := (info.given.filter (· ≠ -1)).length

def PipeResult.threadInfo : PipeResult → Option ThreadInfo
  | .pipeFailed | .getFlagsFailed | .setFlagsFailed => none
  | .made _ writefd => some ⟨writefd, []⟩

/-- `CreateThreads`, with one result for each of the threads still to be created: `threads_` as it is
left, unless it returns false. -/
def createThreads (threads : List ThreadInfo) : List PipeResult → Option (List ThreadInfo)
  | [] => some threads
  | result :: results =>
      result.threadInfo.bind fun info => createThreads (threads ++ [info]) results

structure Threadpool where
  threadNum : BitVec 16
  next : BitVec 16
  threads : List ThreadInfo
  deriving DecidableEq, Repr

namespace Threadpool

/-- The constructor and `CreateThreads`. -/
def new (threadNum : BitVec 16) (threads : List ThreadInfo) : Threadpool where
  threadNum := threadNum
  next := 0
  threads := threads

/-- One round of the loop, with what `accept(2)` returned. `threads_[next_]` has no value outside of the
vector. -/
def accept (s : Threadpool) (newFd : Int) : Option Threadpool :=
  s.threads[s.next.toNat]?.map fun selectedThread =>
    { s with
      threads := s.threads.set s.next.toNat
        { selectedThread with given := selectedThread.given ++ [newFd] }
      next := if s.next = s.threadNum then 0 else s.next + 1 }

/-- No thread has been given two connections more than another. -/
def Fair (s : Threadpool) : Prop :=
  ∀ info ∈ s.threads, ∀ other ∈ s.threads, info.connections ≤ other.connections + 1

instance (s : Threadpool) : Decidable s.Fair :=
  inferInstanceAs (Decidable (∀ info ∈ s.threads, ∀ other ∈ s.threads,
    info.connections ≤ other.connections + 1))

end Threadpool

end EasyLib.Easytcp
