import EasyLib.Reactors.Actor
import EasyLib.Reactors.Connection

/-!
# The server and its loops

`Reactors/net/tcpserver.cc`. The master actor accepts connections and keeps them in `conns_`; the
events of a connection are handled on the loop thread it was given to. The two sides meet in their
queues: the master queues `ConnectionEstablished` on the loop thread of a new connection, and
`HandleClose` on the loop thread queues `RemoveTcpConnectionInLoop` on the master.

The side of the master is given for any names of the connections. Here they are numbered in the order in
which they are accepted. Of the events of a connection only the one that closes it is a step here: the
others change neither `conns_` nor a queue of functors of the server. `closeCb` counts the calls of
`options_.close_cb_` for a connection; `closedIn` is the iteration of the master, counted from one, during
which its `HandleClose` ran; and `iterations` counts those the master has completed.
-/

namespace EasyLib.Reactors

/-! ### The master -/

/-- `notifying` is the loop thread whose `NotifyEvent` is still to be called for a new connection. -/
structure Master (Name : Type*) where
  master : Actor Name
  threadNum : ℕ
  nextId : ℕ
  conns : ℤ → Option Name
  notifying : Option ℕ

namespace Master

variable {Name : Type*}

/-- The `pending_` of the master, which is not initialised, is taken to be false. -/
def new (threadNum : ℕ) : Master Name where
  master := .new false
  threadNum := threadNum
  nextId := 0
  conns := fun _ => none
  notifying := none

/-- A descriptor that a connection keeps open is not returned by `accept4`. -/
def MayAccept (m : Master Name) (fd : ℤ) : Prop :=
  m.master.phase = .handling ∧ m.notifying = none ∧ m.nextId < m.threadNum ∧ m.conns fd = none

instance [DecidableEq Name] (m : Master Name) : DecidablePred m.MayAccept :=
  fun _ => inferInstanceAs (Decidable (_ ∧ _ ∧ _ ∧ _))

/-- `NewConnectionEstablished`, up to the queue of the loop thread selected. -/
def newConnectionEstablished (m : Master Name) (fd : ℤ) (name : Name) : Master Name :=
  { m with
    nextId := if m.nextId = m.threadNum - 1 then 0 else m.nextId + 1
    conns := Function.update m.conns fd (some name)
    notifying := some m.nextId }

def removeTcpConnection (m : Master Name) (name : Name) : Master Name :=
  { m with master := m.master.queueInActor name }

/-- `RemoveTcpConnectionInLoop`, up to the callback. -/
def removeTcpConnectionInLoop (m : Master Name) (fd : ℤ) : Master Name :=
  { m with conns := Function.update m.conns fd none }

end Master

/-! ### The server -/

structure Connection where
  conn : TcpConnection
  thread : ℕ
  closeCb : ℕ
  closedIn : Option ℕ

structure TcpServer extends Master ℕ where
  threads : ℕ → EventLoopThread ℕ
  connections : ℕ → Option Connection
  accepted : ℕ
  iterations : ℕ

namespace TcpServer

def new (threadNum : ℕ) (pending : ℕ → Bool) : TcpServer where
  toMaster := .new threadNum
  threads := fun thread => .new (pending thread)
  connections := fun _ => none
  accepted := 0
  iterations := 0

def setThread (s : TcpServer) (thread : ℕ) (value : EventLoopThread ℕ) : TcpServer :=
  { s with threads := Function.update s.threads thread value }

def setConnection (s : TcpServer) (number : ℕ) (value : Connection) : TcpServer :=
  { s with connections := Function.update s.connections number (some value) }

/-- `NewConnectionEstablished`, up to `NotifyEvent` on the loop thread selected. -/
def newConnectionEstablished (s : TcpServer) (fd : Int) (events : BitVec 32) : TcpServer :=
  let selected := s.threads s.nextId
  { s with
    toMaster := s.toMaster.newConnectionEstablished fd s.accepted
    connections := Function.update s.connections s.accepted (some
      { conn := TcpConnection.new fd events, thread := s.nextId, closeCb := 0, closedIn := none })
    accepted := s.accepted + 1
    threads := Function.update s.threads s.nextId
      { selected with actor := selected.actor.queueInActor s.accepted } }

def removeTcpConnectionInLoop (s : TcpServer) (number : ℕ) : TcpServer :=
  match s.connections number with
  | none => s
  | some c =>
      { s.setConnection number { c with closeCb := c.closeCb + 1 } with
        toMaster := s.toMaster.removeTcpConnectionInLoop c.conn.fd }

def connectionEstablished (s : TcpServer) (number : ℕ) : TcpServer :=
  match s.connections number with
  | none => s
  | some c => s.setConnection number { c with conn := c.conn.connectionEstablished }

def handleClose (s : TcpServer) (number : ℕ) (c : Connection) : TcpServer :=
  { s.setConnection number { c with
      conn := c.conn.handleClose
      closeCb := c.closeCb + 1
      closedIn := some (s.iterations + 1) } with
    toMaster := s.toMaster.removeTcpConnection number }

def masterAdvance (s : TcpServer) : TcpServer :=
  let called := match s.master.advance.2 with
    | none => s
    | some number => s.removeTcpConnectionInLoop number
  { called with
    master := s.master.advance.1
    iterations := if s.master.advance.1.phase = .poll then s.iterations + 1 else s.iterations }

def threadAdvance (s : TcpServer) (thread : ℕ) : TcpServer :=
  let called := match (s.threads thread).actor.advance.2 with
    | none => s
    | some number => s.connectionEstablished number
  called.setThread thread { s.threads thread with actor := (s.threads thread).actor.advance.1 }

inductive Label where
  -- the master: `HandleReadEvent` with a new connection, `NotifyEvent` for it, and its loop
  | accept (fd : Int) (events : BitVec 32)
  | notifyEvent
  | masterAdvance
  -- a loop thread: `ReadNotifyEvents`, its loop, and `HandleClose` for one of its connections
  | readNotifyEvents (thread : ℕ)
  | threadAdvance (thread : ℕ)
  | handleClose (number : ℕ)
  -- another thread: `NotifyEvent` behind a functor that it has queued for one of the connections
  | notifyThread (thread : ℕ)
  deriving DecidableEq, Repr

/-- The poller reports a connection to its loop thread while the channel is registered for reading. -/
def MayClose (s : TcpServer) (c : Connection) : Prop :=
  c.conn.state = .established ∧ c.conn.channel.isReading ∧
    (s.threads c.thread).actor.phase = .handling

instance (s : TcpServer) (c : Connection) : Decidable (s.MayClose c) :=
  inferInstanceAs (Decidable (_ ∧ _ ∧ _))

def step (s : TcpServer) : Label → Option TcpServer
  | .accept fd events =>
      if s.MayAccept fd then some (s.newConnectionEstablished fd events) else none
  | .notifyEvent =>
      s.notifying.map fun thread =>
        { s.setThread thread (s.threads thread).notifyEvent with notifying := none }
  | .masterAdvance => if s.notifying = none then some s.masterAdvance else none
  | .readNotifyEvents thread =>
      if (s.threads thread).actor.phase = .handling then
        some (s.setThread thread (s.threads thread).readNotifyEvents)
      else none
  | .threadAdvance thread => some (s.threadAdvance thread)
  | .handleClose number =>
      (s.connections number).bind fun c => if s.MayClose c then some (s.handleClose number c) else none
  | .notifyThread thread => some (s.setThread thread (s.threads thread).notifyEvent)

/-! ### What is asked of the server -/

/-- A connection whose `HandleClose` ran in an earlier iteration of the master than the last one it
has completed is out of `conns_`, and `options_.close_cb_` was called once for it. -/
def Released (s : TcpServer) : Prop :=
  ∀ number < s.accepted, ∀ c ∈ s.connections number, ∀ closedIn ∈ c.closedIn,
    closedIn < s.iterations → s.conns c.conn.fd ≠ some number ∧ c.closeCb = 1

/-- The master does not complete an iteration that it began after a connection was closed. -/
def Unfollowed (s : TcpServer) : Label → Prop
  | .masterAdvance => s.master.advance.1.phase = .poll →
      ∀ number < s.accepted, ∀ c ∈ s.connections number, ∀ closedIn ∈ c.closedIn,
        s.iterations < closedIn
  | _ => True

instance (s : TcpServer) : Decidable s.Released :=
  inferInstanceAs (Decidable (∀ number < s.accepted, ∀ c ∈ s.connections number,
    ∀ closedIn ∈ c.closedIn, closedIn < s.iterations →
      s.conns c.conn.fd ≠ some number ∧ c.closeCb = 1))

instance (s : TcpServer) : DecidablePred s.Unfollowed
  | .masterAdvance => inferInstanceAs (Decidable (s.master.advance.1.phase = .poll →
      ∀ number < s.accepted, ∀ c ∈ s.connections number, ∀ closedIn ∈ c.closedIn,
        s.iterations < closedIn))
  | .accept _ _ | .notifyEvent | .readNotifyEvents _ | .threadAdvance _ | .handleClose _
  | .notifyThread _ => isTrue trivial

end TcpServer

end EasyLib.Reactors
