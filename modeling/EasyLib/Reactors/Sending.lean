import EasyLib.Lib.Run
import EasyLib.Reactors.Connection

/-!
# Sending from another thread

`TcpConnection::Send` of `Reactors/net/connection.cc`, called on a thread that is not the one of the loop.
`boost::bind` keeps the pointer and the length, and `QueueInLoop` puts the call behind those that wait. The
loop reads the bytes when it gets to the call, one after the other: those that `write(2)` takes, and
those that `append` copies. Meanwhile any thread may store to the memory.

The loop goes on to other things only between two calls. What a callback sends is then one of these.

`content` is what the bytes were when `Send` was called. `handed` lists what the kernel and the send buffer
were due and what they got.
-/

namespace EasyLib.Reactors

open MachineInt

abbrev Memory := ℕ → Byte

def Memory.read (memory : Memory) (data len : ℕ) : List Byte :=
  (List.range len).map fun i => memory (data + i)

/-- A call of `SendInLoop` that waits for the loop. -/
structure QueuedSend where
  data : ℕ
  len : BitVec 32
  content : List Byte

inductive CopyTarget where
  | kernel
  | sendBuffer (enableWriting : Bool)
  deriving DecidableEq, Repr

/-- What the loop does: nothing, or copying `count` bytes from `offset` on. -/
inductive SendingLoop where
  | idle
  | copying (call : QueuedSend) (target : CopyTarget) (offset count : ℕ) (copied : List Byte)

namespace SendingLoop

def calls : SendingLoop → List QueuedSend
  | .idle => []
  | .copying call _ _ _ _ => [call]

def due : SendingLoop → List Byte
  | .idle => []
  | .copying call _ offset count _ => (call.content.drop offset).take count

def copied : SendingLoop → List Byte
  | .idle => []
  | .copying _ _ _ _ copied => copied

end SendingLoop

structure Sending where
  conn : TcpConnection
  memory : Memory
  queue : List QueuedSend
  loop : SendingLoop
  handed : List (List Byte × List Byte)

namespace Sending

def start (conn : TcpConnection) (memory : Memory) : Sending where
  conn := conn
  memory := memory
  queue := []
  loop := .idle
  handed := []

def send (s : Sending) (data : ℕ) (len : BitVec 32) : Sending :=
  { s with queue := s.queue ++ [⟨data, len, s.memory.read data len.toNat⟩] }

def store (s : Sending) (address : ℕ) (byte : Byte) : Sending :=
  { s with memory := Function.update s.memory address byte }

/-- `SendInLoop` up to the first byte it reads. `write(2)` accepts no more than it is given. -/
def sendInLoop (s : Sending) (call : QueuedSend) (result : WriteResult) : Option Sending :=
  if s.conn.state ≠ .established then some s
  else if s.conn.sendBuffer.readableBytes > 0 then
    some { s with loop := .copying call (.sendBuffer false) 0 call.len.toNat [] }
  else
    match result with
    | .accepted count =>
        if count ≤ call.len.toNat then some { s with loop := .copying call .kernel 0 count [] } else none
    | .failed _ => some s

def copy (s : Sending) : Option Sending :=
  match s.loop with
  | .idle => none
  | .copying call target offset count copied =>
      if copied.length < count then
        let byte := s.memory (call.data + (offset + copied.length))
        some { s with loop := .copying call target offset count (copied ++ [byte]) }
      else none

/-- Behind the bytes that `write(2)` has accepted: the rest is appended, or the callback is called. -/
def written (s : Sending) (call : QueuedSend) (writeCnt : Int) : Sending :=
  if 0 ≤ writeCnt then
    if writeCnt.toNat < call.len.toNat then
      { s with
        loop := .copying call (.sendBuffer true) writeCnt.toNat (call.len.toNat - writeCnt.toNat) [] }
    else
      { s with conn := { s.conn with callbacks := s.conn.callbacks ++ [.writeComplete] }, loop := .idle }
  else { s with loop := .idle }

/-- `SendInLoop` behind the last byte of a copy. -/
def finish (s : Sending) : Option Sending :=
  match s.loop with
  | .idle => none
  | .copying call target _ count copied =>
      if copied.length = count then
        let s := { s with handed := s.handed ++ [(s.loop.due, copied)] }
        match target with
        | .kernel =>
            let conn := { s.conn with kernel := s.conn.kernel ++ copied }
            some (written { s with conn } call (toInt32 count))
        | .sendBuffer enableWriting =>
            (s.conn.sendBuffer.append copied).map fun sendBuffer =>
              let channel := if enableWriting then s.conn.channel.enableWriting else s.conn.channel
              { s with conn := { s.conn with sendBuffer, channel }, loop := .idle }
      else none

inductive Label where
  | send (data : ℕ) (len : BitVec 32)
  | store (address : ℕ) (byte : Byte)
  | run (result : WriteResult)
  | copy
  | finish
  -- the loop at other things, with a `Send` on its own thread among them
  | sendInLoop (data : List Byte) (result : WriteResult)
  | handleWrite (result : WriteResult)
  | handleClose
  | connectionEstablished
  | shutdownInLoop
  deriving DecidableEq, Repr

/-- A step of the loop between two calls. -/
def between (s : Sending) (conn : Option TcpConnection) : Option Sending :=
  match s.loop with
  | .idle => conn.map fun conn => { s with conn }
  | .copying _ _ _ _ _ => none

def step (s : Sending) : Label → Option Sending
  | .send data len => some (s.send data len)
  | .store address byte => some (s.store address byte)
  | .run result =>
      match s.loop, s.queue with
      | .idle, call :: queue => sendInLoop { s with queue } call result
      | _, _ => none
  | .copy => s.copy
  | .finish => s.finish
  | .sendInLoop data result => s.between (s.conn.sendInLoop data result)
  | .handleWrite result => s.between (s.conn.handleWrite result)
  | .handleClose => s.between (some s.conn.handleClose)
  | .connectionEstablished => s.between (some s.conn.connectionEstablished)
  | .shutdownInLoop => s.between (some s.conn.shutdownInLoop)

/-- The kernel and the send buffer get the bytes as they were when `Send` was called. -/
structure Faithful (s : Sending) : Prop where
  handed : ∀ entry ∈ s.handed, entry.2 = entry.1
  copied : s.loop.copied <+: s.loop.due

/-- The calls of `Send` whose bytes have not all been read. -/
def pending (s : Sending) : List QueuedSend := s.loop.calls ++ s.queue

/-- Nothing is stored to the bytes of a `Send` before the loop is through with it. -/
def Untouched (s : Sending) : Label → Prop
  | .store address _ =>
      ∀ call ∈ s.pending, address < call.data ∨ call.data + call.len.toNat ≤ address
  | .send _ _ | .run _ | .copy | .finish | .sendInLoop _ _ | .handleWrite _ | .handleClose
  | .connectionEstablished | .shutdownInLoop => True

instance (s : Sending) : ∀ label, Decidable (s.Untouched label)
  | .store address _ =>
      inferInstanceAs (Decidable (∀ call ∈ s.pending,
        address < call.data ∨ call.data + call.len.toNat ≤ address))
  | .send _ _ | .run _ | .copy | .finish | .sendInLoop _ _ | .handleWrite _ | .handleClose
  | .connectionEstablished | .shutdownInLoop => isTrue trivial

end Sending

end EasyLib.Reactors
