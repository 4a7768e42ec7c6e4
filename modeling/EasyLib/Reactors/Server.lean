import EasyLib.Reactors.IoLoop
import EasyLib.Reactors.TcpServer

/-!
# The whole server

`Reactors/net/tcpserver.cc` with its loop threads as they run. The master is that of `TcpServer`: it takes
the loop threads in turn, keeps each new connection in `conns_` and queues its `ConnectionEstablished`. From
then on the connection belongs to its loop, whose steps are those of `IoLoop`. When `HandleClose` calls the
closed callback, `RemoveTcpConnection` queues `RemoveTcpConnectionInLoop` on the actor of the master.

A connection is named by its thread and its number there; the descriptor that `accept4` returns for it is
the one that the poller of the thread lists for this number.
-/

namespace EasyLib.Reactors

def IoConnection.closings (c : IoConnection) : ℕ := c.calls.count (.callback .closed)

structure Server extends Master (ℕ × ℕ) where
  loops : ℕ → IoLoop

namespace Server

/-- The loop threads are running, and the master enters its loop. -/
def new (threadNum : ℕ) (loops : ℕ → IoLoop) : Server where
  toMaster := .new threadNum
  loops := loops

def setLoop (s : Server) (thread : ℕ) (loop : IoLoop) : Server :=
  { s with loops := Function.update s.loops thread loop }

/-- The descriptor of the next connection of a loop. -/
def nextFd (loop : IoLoop) : ℤ := loop.poller.fd loop.nextNumber

/-- No loop thread has the descriptor for its eventfd or its timerfd. -/
def Unused (s : Server) (fd : ℤ) : Prop :=
  ∀ thread < s.threadNum, ∀ id < 2, (s.loops thread).poller.fd id ≠ fd

instance (s : Server) : DecidablePred s.Unused :=
  fun _ => inferInstanceAs (Decidable (∀ thread < s.threadNum, ∀ id < 2, _))

/-- `NewConnectionEstablished`, up to `NotifyEvent` on the loop thread selected. -/
def newConnectionEstablished (s : Server) (events : BitVec 32) : Server :=
  let selected := s.loops s.nextId
  { s.setLoop s.nextId (selected.newConnection events) with
    toMaster := s.toMaster.newConnectionEstablished (nextFd selected) (s.nextId, selected.nextNumber) }

def masterAdvance (s : Server) : Server :=
  let called := match s.master.advance.2 with
    | none => s.toMaster
    | some (thread, number) =>
        s.toMaster.removeTcpConnectionInLoop ((s.loops thread).connections number).conn.fd
  { s with toMaster := { called with master := s.master.advance.1 } }

/-- The connections whose closed callback was called between two states of their loop. -/
def closed (loop next : IoLoop) : List ℕ :=
  (List.range loop.accepted).flatMap fun index =>
    List.replicate ((next.connections (index + 2)).closings - (loop.connections (index + 2)).closings)
      (index + 2)

inductive Label where
  -- the master: `HandleReadEvent` with a new connection, `NotifyEvent` for it, and its loop
  | accept (events : BitVec 32)
  | notifyEvent
  | masterAdvance
  -- a loop thread, or another thread that uses one of its connections
  | loop (thread : ℕ) (label : IoLoop.Label)

/-- The steps of a loop other than a new connection, which is a step of the master. -/
def Local : IoLoop.Label → Prop
  | .accept _ => False
  | .queueInLoop _ _ | .notifyEvent | .poll _ _ | .handleEvent _ _ | .advance | .callInLoop _ _
  | .retrieve _ _ => True

instance : DecidablePred Local
  | .accept _ => isFalse id
  | .queueInLoop _ _ | .notifyEvent | .poll _ _ | .handleEvent _ _ | .advance | .callInLoop _ _
  | .retrieve _ _ => isTrue trivial

def step (s : Server) : Label → Option Server
  | .accept events =>
      if s.MayAccept (nextFd (s.loops s.nextId)) ∧ s.Unused (nextFd (s.loops s.nextId)) then
        some (s.newConnectionEstablished events)
      else none
  | .notifyEvent =>
      s.notifying.bind fun thread =>
        ((s.loops thread).step .notifyEvent).map fun loop =>
          { s.setLoop thread loop with notifying := none }
  | .masterAdvance => if s.notifying = none then some s.masterAdvance else none
  | .loop thread label =>
      if thread < s.threadNum ∧ Local label then
        ((s.loops thread).step label).map fun loop =>
          { s.setLoop thread loop with
            toMaster := (closed (s.loops thread) loop).foldl
              (fun m number => m.removeTcpConnection (thread, number)) s.toMaster }
      else none

/-! ### What is asked of the server -/

/-- Each loop thread does what it would do alone, and none has two connections more than another. No two
connections have one descriptor. Every connection is in `conns_`, and what waits for the master is one
removal for each that was closed. -/
structure Serving (loops : ℕ → IoLoop) (s : Server) : Prop where
  alone : ∀ thread < s.threadNum,
    ∃ labels, Machine.run IoLoop.step (loops thread) labels = some (s.loops thread)
  balanced : ∀ thread < s.threadNum, ∀ other < s.threadNum,
    (s.loops thread).accepted ≤ (s.loops other).accepted + 1
  apart : ∀ thread < s.threadNum, ∀ number, (s.loops thread).Accepted number →
    ∀ other < s.threadNum, ∀ number', (s.loops other).Accepted number' →
      ((s.loops thread).connections number).conn.fd = ((s.loops other).connections number').conn.fd →
        thread = other ∧ number = number'
  kept : ∀ thread < s.threadNum, ∀ number, (s.loops thread).Accepted number →
    s.conns ((s.loops thread).connections number).conn.fd = some (thread, number)
  removals : ∀ thread < s.threadNum, ∀ number, (s.loops thread).Accepted number →
    s.master.queue.count (thread, number) =
      if .callback .closed ∈ ((s.loops thread).connections number).calls then 1 else 0

end Server

end EasyLib.Reactors
