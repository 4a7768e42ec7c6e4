import EasyLib.Reactors.Actor
import EasyLib.Reactors.Connection
import EasyLib.Reactors.Dispatch

/-!
# A loop thread with its connections

`Actor::Loop` with what it leads to: it polls, calls `HandleEvent` of the active channels, and runs the
functors that were queued if `pending_` is set. A channel belongs to the eventfd of the thread, to the
timerfd of its `TimerQueue` or to a connection, whose handlers read and write its socket and call the
callbacks of the user.

Channel 0 is that of the eventfd, channel 1 that of the timerfd, and channel `number` that of the
connection with this number; the connections of a thread are numbered from 2 in the order in which the
master has given them to it. The steps of other threads are those of `NewConnectionEstablished` and of
`Send` and `Shutdown`, which queue a functor, and `NotifyEvent`. What a callback does, that of a timer too,
is a step of its own: `SendInLoop` and `ShutdownInLoop` called in the loop, and `Retrieve` on the buffer
that it is given. The result of the `write(2)` in a queued `SendInLoop`, and the bytes that it finds, are
part of the functor.
-/

namespace EasyLib.Reactors

open MachineInt

inductive UserCall where
  | callback (callback : Callback)
  | message
  deriving DecidableEq, Repr

/-- A connection with its receiving side. `calls` lists the callbacks of the user in the order in which
they were called, `reads` what the calls of `readv` have delivered that did not fail, and `consumed` what
the user has retrieved. -/
structure IoConnection where
  conn : TcpConnection
  recvBuffer : Buffer
  calls : List UserCall
  reads : List (List Byte)
  consumed : List Byte
  deriving DecidableEq, Repr

inductive Request where
  | sendInLoop (data : List Byte) (result : WriteResult)
  | shutdownInLoop
  deriving DecidableEq, Repr

namespace IoConnection

def new (fd : ℤ) (events : BitVec 32) : IoConnection where
  conn := .new fd events
  recvBuffer := { buffer := List.replicate Buffer.kInitialSize 0, readIndex := 0, writeIndex := 0 }
  calls := []
  reads := []
  consumed := []

/-- The callbacks that a function has called are those that it has added to `callbacks`. -/
def set (c : IoConnection) (conn : TcpConnection) : IoConnection :=
  { c with
    conn
    calls := c.calls ++ (conn.callbacks.drop c.conn.callbacks.length).map .callback }

def delivered : Buffer.ReadvResult → List (List Byte)
  | .error _ => []
  | .bytes data => [data]

/-- `HandleRead`. The `size_t` that `ReadFromSocket` returns is stored in an `int`. -/
def handleRead (c : IoConnection) (result : Buffer.ReadvResult) : Option IoConnection :=
  (c.recvBuffer.readFromSocket result).map fun (recvBuffer, n) =>
    let c := { c with recvBuffer, reads := c.reads ++ delivered result }
    let cnt := toInt32 n
    if 0 < cnt then { c with calls := c.calls ++ [.message] }
    else if cnt = 0 then c.set c.conn.handleClose
    else c

/-- The handler that a callback of the channel is bound to. `HandleError` is empty. -/
def handle (read : Buffer.ReadvResult) (write : WriteResult) (c : IoConnection) :
    Channel.Callback → Option IoConnection
  | .close => some (c.set c.conn.handleClose)
  | .error => some c
  | .read => c.handleRead read
  | .write => (c.conn.handleWrite write).map c.set

def request (c : IoConnection) : Request → Option IoConnection
  | .sendInLoop data result => (c.conn.sendInLoop data result).map c.set
  | .shutdownInLoop => some (c.set c.conn.shutdownInLoop)

def retrieve (c : IoConnection) (len : ℕ) : IoConnection :=
  { c with
    recvBuffer := c.recvBuffer.retrieve len
    consumed := c.consumed ++ c.recvBuffer.readable.take len }

/-- What `readv` can return: no more than it is given room for, and no more than `ssize_t` allows one
call, which is below the maximum of `int`. -/
def Readable (c : IoConnection) : Buffer.ReadvResult → Prop
  | .error _ => True
  | .bytes data => data.length ≤ c.recvBuffer.iovecLength ∧ data.length < 2 ^ 31

instance (c : IoConnection) : DecidablePred c.Readable
  | .error _ => inferInstanceAs (Decidable True)
  | .bytes _ => inferInstanceAs (Decidable (_ ∧ _))

/-- The length of a `Send` is a `uint32_t`, and `Shutdown` looks at the state before it queues. -/
def MayRequest (c : IoConnection) : Request → Prop
  | .sendInLoop data _ => data.length < 2 ^ 32
  | .shutdownInLoop => c.conn.state = .established

instance (c : IoConnection) : DecidablePred c.MayRequest
  | .sendInLoop _ _ => inferInstanceAs (Decidable (_ < _))
  | .shutdownInLoop => inferInstanceAs (Decidable (_ = _))

end IoConnection

inductive LoopFunctor where
  | connectionEstablished (number : ℕ)
  | request (number : ℕ) (request : Request)
  deriving DecidableEq, Repr

/-- `active` holds the channels of `active_channels_` that are not handled yet. -/
structure IoLoop where
  thread : EventLoopThread LoopFunctor
  poller : SelectPoller
  active : List (ℕ × BitVec 32)
  tied : ℕ → Bool
  connections : ℕ → IoConnection
  accepted : ℕ

namespace IoLoop

/-- The constructor of `TimerQueue` has registered the channel of the timerfd and `EventLoopThread::Run`
that of the eventfd, and the loop begins. Of the channels, `events_` and `tied_` are not initialised. -/
def start (fd : ℕ → ℤ) (events : ℕ → BitVec 32) (tied : ℕ → Bool) (pending : Bool) : Option IoLoop :=
  -- the kernel gives one descriptor to one of them only
  if fd 0 ≠ fd 1 then
    ((SelectPoller.new fd).updateChannel 1 (Channel.mk (events 1)).enableReading).bind fun poller =>
    (poller.updateChannel 0 (Channel.mk (events 0)).enableReading).map fun poller =>
      { thread := .new pending
        poller
        active := []
        tied
        connections := fun _ => .new (-1) 0
        accepted := 0 }
  else none

/-- The number of the next connection. -/
def nextNumber (s : IoLoop) : ℕ := s.accepted + 2

def Accepted (s : IoLoop) (number : ℕ) : Prop := 2 ≤ number ∧ number < s.nextNumber

instance (s : IoLoop) : DecidablePred s.Accepted := fun _ => inferInstanceAs (Decidable (_ ∧ _))

def queueInActor (s : IoLoop) (functor : LoopFunctor) : IoLoop :=
  { s with thread := { s.thread with actor := s.thread.actor.queueInActor functor } }

/-- What `NewConnectionEstablished` does to the loop thread that it has selected, up to `NotifyEvent`. -/
def newConnection (s : IoLoop) (events : BitVec 32) : IoLoop :=
  queueInActor
    { s with
      connections := Function.update s.connections s.nextNumber
        (.new (s.poller.fd s.nextNumber) events)
      accepted := s.accepted + 1 }
    (.connectionEstablished s.nextNumber)

/-- A channel calls `Update` where its events change. It also does so where they are set to what they
are, and this leaves the poller as it is. -/
def store (s : IoLoop) (number : ℕ) (c : IoConnection) : Option IoLoop :=
  if c.conn.channel = (s.connections number).conn.channel then
    some { s with connections := Function.update s.connections number c }
  else
    (s.poller.updateChannel number c.conn.channel).map fun poller =>
      { s with poller, connections := Function.update s.connections number c }

def connectionEstablished (s : IoLoop) (number : ℕ) : Option IoLoop :=
  let c := s.connections number
  let c := c.set c.conn.connectionEstablished
  (s.poller.updateChannel number c.conn.channel).map fun poller =>
    { s with poller, connections := Function.update s.connections number c }

def call (s : IoLoop) : LoopFunctor → Option IoLoop
  | .connectionEstablished number => s.connectionEstablished number
  | .request number request => ((s.connections number).request request).bind (s.store number)

/-- `HandleEvent` of an active channel. Those of the eventfd and of the timerfd have a callback for reading
only, and `TimerQueue::HandleRead` itself uses no connection. -/
def handleEvent (s : IoLoop) (id : ℕ) (revents : BitVec 32) (read : Buffer.ReadvResult)
    (write : WriteResult) : Option IoLoop :=
  let callbacks := Channel.handleEvent (s.tied id) revents
  if id = 0 then
    some (if .read ∈ callbacks then { s with thread := s.thread.readNotifyEvents } else s)
  else if id = 1 then some s
  else
    (callbacks.foldlM (IoConnection.handle read write) (s.connections id)).bind (s.store id)

inductive Label where
  -- the master and other threads
  | accept (events : BitVec 32)
  | queueInLoop (number : ℕ) (request : Request)
  | notifyEvent
  -- the loop
  | poll (readable writable : FdSet)
  | handleEvent (read : Buffer.ReadvResult) (write : WriteResult)
  | advance
  -- the callbacks
  | callInLoop (number : ℕ) (request : Request)
  | retrieve (number : ℕ) (len : ℕ)

def step (s : IoLoop) : Label → Option IoLoop
  | .accept events =>
      -- the master keeps every connection, so `accept4` returns a descriptor that none has had
      if ∀ id < s.nextNumber, s.poller.fd id ≠ s.poller.fd s.nextNumber then
        some (s.newConnection events)
      else none
  | .queueInLoop number request =>
      if s.Accepted number ∧ (s.connections number).MayRequest request then
        some (s.queueInActor (.request number request))
      else none
  | .notifyEvent => some { s with thread := s.thread.notifyEvent }
  | .poll readable writable =>
      if s.thread.actor.phase = .poll then
        (s.poller.poll readable writable).map fun active =>
          { s with active, thread := { s.thread with actor := s.thread.actor.advance.1 } }
      else none
  | .handleEvent read write =>
      match s.active with
      | [] => none
      | (id, revents) :: active =>
          if (s.connections id).Readable read then
            handleEvent { s with active } id revents read write
          else none
  | .advance =>
      if s.thread.actor.phase ≠ .poll ∧ s.active = [] then
        let next := { s with thread := { s.thread with actor := s.thread.actor.advance.1 } }
        match s.thread.actor.advance.2 with
        | none => some next
        | some functor => next.call functor
      else none
  | .callInLoop number request =>
      if s.Accepted number ∧ (s.connections number).MayRequest request then
        s.call (.request number request)
      else none
  | .retrieve number len =>
      if s.Accepted number then
        some { s with
          connections := Function.update s.connections number ((s.connections number).retrieve len) }
      else none

/-! ### What is asked of the loop -/

/-- No callback comes before the one that says that the connection is established, and none behind the
two that say that it is closed; between them there are only messages and completed writes. -/
def Orderly (calls : List UserCall) : Prop :=
  calls = [] ∨ ∃ body, (∀ call ∈ body, call = .message ∨ call = .callback .writeComplete) ∧
    (calls = .callback .established :: body ∨
      calls = .callback .established :: body ++ [.callback .disconnected, .callback .closed])

/-- What was read is in the order in which it was read with the user or in the buffer, each piece was
announced by one message, and the connection was closed by the read that found the end of the stream,
which is the last one. -/
structure Received (c : IoConnection) : Prop where
  stream : c.reads.flatten = c.consumed ++ c.recvBuffer.readable
  messages : c.calls.count .message = (c.reads.filter (· ≠ [])).length
  closed : .callback .closed ∈ c.calls ↔ [] ∈ c.reads
  last : [] ∉ c.reads.dropLast

def Open (s : IoLoop) (number : ℕ) : Prop :=
  s.Accepted number ∧ (s.connections number).conn.state = .established

instance (s : IoLoop) : DecidablePred s.Open := fun _ => inferInstanceAs (Decidable (_ ∧ _))

/-- `select` looks at the eventfd, the timerfd and the descriptors of the connections that are open, and for
writing at those connections of them that have something buffered. -/
structure Watching (s : IoLoop) : Prop where
  reads : ∃ set, s.poller.watched s.poller.readfds = some set ∧ ∀ fd, set fd = true ↔
    fd = s.poller.fd 0 ∨ fd = s.poller.fd 1 ∨
      ∃ number, s.Open number ∧ (s.connections number).conn.fd = fd
  writes : ∃ set, s.poller.watched s.poller.writefds = some set ∧ ∀ fd, set fd = true ↔
    ∃ number, s.Open number ∧ (s.connections number).conn.fd = fd ∧
      0 < (s.connections number).conn.sendBuffer.readableBytes

/-- The `events_` of a new channel, which are not initialised, happen not to ask for writing. -/
def Clean (_ : IoLoop) : Label → Prop
  | .accept events => events &&& kWriteEvent = 0
  | _ => True

instance (s : IoLoop) : DecidablePred s.Clean
  | .accept _ => inferInstanceAs (Decidable (_ = _))
  | .queueInLoop _ _ | .notifyEvent | .poll _ _ | .handleEvent _ _ | .advance | .callInLoop _ _
  | .retrieve _ _ => isTrue trivial

end IoLoop

end EasyLib.Reactors
