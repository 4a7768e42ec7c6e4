import EasyLib.Reactors.Buffer
import EasyLib.Reactors.Channel

/-!
# A TCP connection

`Reactors/net/connection.cc`. The socket is the part of the environment that `write(2)` talks to: it
keeps the bytes the kernel has accepted. What `write(2)` returns is an argument of the functions that
call it. User callbacks are recorded in the order they run; nothing but callbacks follows them in their
functions, so what a callback does to the connection is a further call.
-/

namespace EasyLib.Reactors

open MachineInt

inductive ConnectionState where
  | closed
  | connecting
  | established
  | closing
  deriving DecidableEq, Repr

inductive Callback where
  | established
  | writeComplete
  | disconnected
  | closed
  deriving DecidableEq, Repr

inductive Errno where
  | ewouldblock
  | epipe
  | econnreset
  | other (errno : Nat)
  deriving DecidableEq, Repr

inductive WriteResult where
  | accepted (count : Nat)
  | failed (errno : Errno)
  deriving DecidableEq, Repr

structure TcpConnection where
  fd : Int
  channel : Channel
  sendBuffer : Buffer
  state : ConnectionState
  writeable : Bool
  readable : Bool
  callbacks : List Callback
  kernel : List Byte
  deriving DecidableEq, Repr

namespace TcpConnection

def new (fd : Int) (events : BitVec 32) : TcpConnection where
  fd := fd
  channel := { events }
  sendBuffer := { buffer := List.replicate Buffer.kInitialSize 0, readIndex := 0, writeIndex := 0 }
  state := .closed
  writeable := false
  readable := false
  callbacks := []
  kernel := []

def connectionEstablished (c : TcpConnection) : TcpConnection :=
  { c with
    callbacks := c.callbacks ++ [.established]
    channel := c.channel.enableReading
    state := .established
    readable := true
    writeable := true }

/-- `write(fd_, data, data.length)`, with its result as both callers store it: in an `int`. -/
def write (c : TcpConnection) (data : List Byte) : WriteResult → TcpConnection × Int
  | .accepted count => ({ c with kernel := c.kernel ++ data.take count }, toInt32 count)
  | .failed _ => (c, -1)

def sendInLoop (c : TcpConnection) (data : List Byte) (result : WriteResult) :
    Option TcpConnection :=
  if c.state ≠ .established then
    some c
  else if c.sendBuffer.readableBytes > 0 then
    (c.sendBuffer.append data).map fun sendBuffer => { c with sendBuffer }
  else
    let (c, writeCnt) := c.write data result
    if 0 ≤ writeCnt then
      if writeCnt.toNat < data.length then
        (c.sendBuffer.append (data.drop writeCnt.toNat)).map fun sendBuffer =>
          { c with sendBuffer, channel := c.channel.enableWriting }
      else
        some { c with callbacks := c.callbacks ++ [.writeComplete] }
    else
      some c

def handleWrite (c : TcpConnection) (result : WriteResult) : Option TcpConnection :=
  if !c.writeable then
    some c
  else
    c.sendBuffer.begin.bind fun _ =>
      let (c, cnt) := c.write c.sendBuffer.readable result
      if 0 ≤ cnt then
        let sendBuffer := c.sendBuffer.retrieve cnt.toNat
        if sendBuffer.readableBytes = 0 then
          some { c with
            sendBuffer
            channel := c.channel.disableWriting
            callbacks := c.callbacks ++ [.writeComplete] }
        else
          some { c with sendBuffer }
      else
        some c

def handleClose (c : TcpConnection) : TcpConnection :=
  { c with
    state := .closed
    channel := c.channel.disableAll
    callbacks := c.callbacks ++ [.disconnected, .closed] }

/-! ### The outgoing stream -/

inductive Call where
  | sendInLoop (data : List Byte) (result : WriteResult)
  | handleWrite (result : WriteResult)
  deriving DecidableEq, Repr

structure Stream where
  conn : TcpConnection
  sent : List Byte
  deriving DecidableEq, Repr

namespace Stream

def start (fd : Int) (events : BitVec 32) : Stream where
  conn := (TcpConnection.new fd events).connectionEstablished
  sent := []

def step (s : Stream) : Call → Option Stream
  | .sendInLoop data result =>
      (s.conn.sendInLoop data result).map fun conn => { conn, sent := s.sent ++ data }
  | .handleWrite result => (s.conn.handleWrite result).map fun conn => { s with conn }

def Intact (s : Stream) : Prop := s.conn.kernel ++ s.conn.sendBuffer.readable = s.sent

instance (s : Stream) : Decidable s.Intact := inferInstanceAs (Decidable (_ = _))

def Allowed (len : Nat) : WriteResult → Prop
  | .accepted count => count ≤ len
  | .failed errno => errno = .ewouldblock

instance (len : Nat) : ∀ result, Decidable (Allowed len result)
  | .accepted count => inferInstanceAs (Decidable (count ≤ len))
  | .failed errno => inferInstanceAs (Decidable (errno = .ewouldblock))

/-- The length of a `SendInLoop` is a `uint32_t`, and `write(2)` keeps to its contract. -/
def Admissible (s : Stream) : Call → Prop
  | .sendInLoop data result => data.length < 2 ^ 32 ∧ Allowed data.length result
  | .handleWrite result => Allowed s.conn.sendBuffer.readable.length result

instance (s : Stream) : ∀ call, Decidable (s.Admissible call)
  | .sendInLoop data result =>
      inferInstanceAs (Decidable (data.length < 2 ^ 32 ∧ Allowed data.length result))
  | .handleWrite result =>
      inferInstanceAs (Decidable (Allowed s.conn.sendBuffer.readable.length result))

/-- The calls that neither lose nor repeat a byte. With nothing buffered, `SendInLoop` must not be
refused by `write(2)`; whatever is buffered must fit; and what `write(2)` returns must fit in an
`int`, unless it is all that a `SendInLoop` has asked for. -/
def Lossless (s : Stream) : Call → Prop
  | .sendInLoop data (.accepted count) =>
      if s.conn.sendBuffer.readableBytes > 0 then s.conn.sendBuffer.Fits data.length
      else if count < 2 ^ 31 then s.conn.sendBuffer.Fits (data.length - count)
      else count = data.length
  | .sendInLoop data (.failed _) =>
      if s.conn.sendBuffer.readableBytes > 0 then s.conn.sendBuffer.Fits data.length
      else data = []
  | .handleWrite (.accepted count) => count < 2 ^ 31
  | .handleWrite (.failed _) => True

instance (s : Stream) : ∀ call, Decidable (s.Lossless call)
  | .sendInLoop data (.accepted count) =>
      inferInstanceAs (Decidable (if s.conn.sendBuffer.readableBytes > 0 then _
        else if count < 2 ^ 31 then _ else count = data.length))
  | .sendInLoop data (.failed _) =>
      inferInstanceAs (Decidable (if s.conn.sendBuffer.readableBytes > 0 then _ else data = []))
  | .handleWrite (.accepted count) => inferInstanceAs (Decidable (count < 2 ^ 31))
  | .handleWrite (.failed _) => inferInstanceAs (Decidable True)

end Stream

/-! ### Callbacks that send

A `Send` is a call of `SendInLoop`, whose length is a `uint32_t`, with what its `write(2)` returns and with
the calls that the write-complete callback makes if it is called, before the first one returns. -/

inductive Send where
  | mk (data : { data : List Byte // data.length < 2 ^ 32 }) (result : WriteResult) (nested : List Send)

mutual

def send (c : TcpConnection) : Send → Option TcpConnection
  | .mk data result nested =>
      (c.sendInLoop data.1 result).bind fun next =>
        if next.callbacks = c.callbacks then some next else sendAll next nested

def sendAll (c : TcpConnection) : List Send → Option TcpConnection
  | [] => some c
  | first :: rest => (send c first).bind fun next => sendAll next rest

end

inductive Event where
  | connectionEstablished
  | sendInLoop (call : Send)
  | handleWrite (result : WriteResult) (nested : List Send)

/-- `HandleWrite` is called only while the channel is writing. -/
def handle (c : TcpConnection) : Event → Option TcpConnection
  | .connectionEstablished => some c.connectionEstablished
  | .sendInLoop call => c.send call
  | .handleWrite result nested =>
      if c.channel.isWriting then
        (c.handleWrite result).bind fun next =>
          if next.callbacks = c.callbacks then some next else next.sendAll nested
      else none

/-! ### Shutting down -/

def shutdownInLoop (c : TcpConnection) : TcpConnection :=
  if c.writeable then { c with writeable := false } else c

/-- The calls to the kernel. A `shutdown(2)` is recorded with what is buffered at that moment, what the
kernel has accepted and what has been sent. -/
inductive Syscall where
  | write
  | shutdown (buffered kernel sent : List Byte)
  deriving DecidableEq, Repr

def Syscall.isShutdown : Syscall → Bool
  | .write => false
  | .shutdown _ _ _ => true

/-- `queued` counts the calls of `ShutdownInLoop` that `Shutdown` has handed to the loop. -/
structure Closing where
  stream : Stream
  queued : Nat
  log : List Syscall
  deriving DecidableEq, Repr

namespace Closing

def start (fd : Int) (events : BitVec 32) : Closing where
  stream := .start fd events
  queued := 0
  log := []

inductive Label where
  | send (data : List Byte) (result : WriteResult)
  | handleWrite (result : WriteResult)
  | shutdown
  | shutdownInLoop
  deriving DecidableEq, Repr

/-- `SendInLoop` writes when nothing is buffered, `HandleWrite` while the connection is writeable. -/
def writes (c : TcpConnection) : Call → Bool
  | .sendInLoop _ _ => c.state = .established ∧ c.sendBuffer.readableBytes = 0
  | .handleWrite _ => c.writeable

def call (s : Closing) (call : Call) : Option Closing :=
  (s.stream.step call).map fun stream =>
    { s with stream, log := if writes s.stream.conn call then s.log ++ [.write] else s.log }

def shutdownCall (s : Closing) : Syscall :=
  .shutdown s.stream.conn.sendBuffer.readable s.stream.conn.kernel s.stream.sent

def step (s : Closing) : Label → Option Closing
  | .send data result => s.call (.sendInLoop data result)
  | .handleWrite result => s.call (.handleWrite result)
  | .shutdown =>
      some (if s.stream.conn.state = .established then { s with queued := s.queued + 1 } else s)
  | .shutdownInLoop =>
      if 0 < s.queued then
        some
          { stream := { s.stream with conn := s.stream.conn.shutdownInLoop }
            queued := s.queued - 1
            log := if s.stream.conn.writeable then s.log ++ [s.shutdownCall] else s.log }
      else none

/-- The call returns, its length is a `uint32_t`, and `write(2)` accepts some of what it is given. -/
def Admissible (s : Closing) (label : Label) : Prop :=
  Machine.Enabled step s label ∧
    match label with
    | .send data (.accepted count) => data.length < 2 ^ 32 ∧ count ≤ data.length
    | .handleWrite (.accepted count) => count ≤ s.stream.conn.sendBuffer.readable.length
    | .send _ (.failed _) | .handleWrite (.failed _) => False
    | .shutdown | .shutdownInLoop => True

instance (s : Closing) : ∀ label, Decidable (s.Admissible label)
  | .send data (.accepted count) =>
      inferInstanceAs (Decidable (_ ∧ data.length < 2 ^ 32 ∧ count ≤ data.length))
  | .handleWrite (.accepted count) =>
      inferInstanceAs (Decidable (_ ∧ count ≤ s.stream.conn.sendBuffer.readable.length))
  | .send _ (.failed _) | .handleWrite (.failed _) => inferInstanceAs (Decidable (_ ∧ False))
  | .shutdown | .shutdownInLoop => inferInstanceAs (Decidable (_ ∧ True))

/-- Every `shutdown(2)` has found the buffer empty, and no `write(2)` comes behind one. -/
def Graceful (s : Closing) : Prop :=
  (∀ buffered kernel sent, .shutdown buffered kernel sent ∈ s.log → buffered = []) ∧
    s.log.Pairwise fun earlier later => earlier.isShutdown → later ≠ .write

/-- Every `shutdown(2)` comes when the kernel has accepted all that was sent. -/
def Delivered (s : Closing) : Prop :=
  ∀ buffered kernel sent, .shutdown buffered kernel sent ∈ s.log → kernel = sent

/-- `ShutdownInLoop` runs only when nothing is buffered, and nothing is sent after it. -/
def Timely (s : Closing) : Label → Prop
  | .send _ _ => s.stream.conn.writeable = true
  | .shutdownInLoop =>
      s.stream.conn.writeable = true → s.stream.conn.sendBuffer.readableBytes = 0
  | .handleWrite _ | .shutdown => True

instance (s : Closing) : ∀ label, Decidable (s.Timely label)
  | .send _ _ => inferInstanceAs (Decidable (_ = _))
  | .shutdownInLoop => inferInstanceAs (Decidable (_ → _))
  | .handleWrite _ | .shutdown => inferInstanceAs (Decidable True)

/-- What `write(2)` returns is in the range of `int`. -/
def InRange (_ : Closing) : Label → Prop
  | .send _ (.accepted count) | .handleWrite (.accepted count) => count < 2 ^ 31
  | _ => True

instance (s : Closing) : ∀ label, Decidable (s.InRange label)
  | .send _ (.accepted count) | .handleWrite (.accepted count) =>
      inferInstanceAs (Decidable (count < 2 ^ 31))
  | .send _ (.failed _) | .handleWrite (.failed _) | .shutdown | .shutdownInLoop =>
      inferInstanceAs (Decidable True)

end Closing

end TcpConnection

end EasyLib.Reactors
