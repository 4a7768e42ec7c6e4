import EasyLib.Lib.MachineInt
import EasyLib.Lib.Run

/-!
# The write side of a client

`easytcp/threadpool.h` and `easytcp/threadpool.cpp`. `Send` and the events of a client run on the thread
of the client, one after the other, so the only thing left open inside `OnWrite` is what each
`send(2)` returns: an `OnWrite` is a sequence of steps, one for each `send(2)`. The write event is not
persistent: libevent takes it out of its base when it fires.

`pending` says that `pEvWrite` is in the base, `misused` that `event_set` was called on it there, and
`writing` that `OnWrite` is running; `kernel` are the bytes `send(2)` has taken, `sent` those of the calls
of `Send` that returned 0.
-/

namespace EasyLib.Easytcp

open MachineInt

def maxRecvLen : ℕ := 1500

/-- `buf_` is kept up to `len_`, which is the length of the list. -/
structure BufDesc where
  buf : List UInt8
  length_le : buf.length ≤ maxRecvLen
  pos : ℕ

namespace BufDesc

def new (data : List UInt8) : BufDesc :=
  if h : data.length ≤ maxRecvLen then ⟨data, h, 0⟩ else ⟨[], Nat.zero_le _, 0⟩

def len (desc : BufDesc) : ℕ := desc.buf.length

def remainder (desc : BufDesc) : List UInt8 := desc.buf.drop desc.pos

end BufDesc

def readEventOn : BitVec 8 := 1

def writeEventOn : BitVec 8 := 2

structure Client where
  sendBufList : List BufDesc
  eventFlag : BitVec 8
  pending : Bool
  misused : Bool
  writing : Bool
  kernel : List UInt8
  sent : List UInt8

inductive SendResult where
  | accepted (count : ℕ)
  | overrun (taken : List UInt8)
  | again
  | error
  deriving DecidableEq, Repr

namespace Client

def new : Client where
  sendBufList := []
  eventFlag := readEventOn
  pending := false
  misused := false
  writing := false
  kernel := []
  sent := []

def setWriteEvent (client : Client) : Client :=
  { client with
    misused := client.misused || client.pending
    pending := true
    eventFlag := client.eventFlag ||| writeEventOn }

def send (client : Client) (data : List UInt8) : Int × Client :=
  if data = [] then (-1, client)
  else (0, { client with sendBufList := client.sendBufList ++ [BufDesc.new data] }.setWriteEvent)

def onWrite (client : Client) : Client :=
  { client with
    pending := false
    eventFlag := client.eventFlag &&& ~~~writeEventOn
    writing := true }

def advancePos (desc : BufDesc) (count : ℕ) : BufDesc :=
  { desc with pos := toUInt16 (desc.pos + (count + desc.pos : ℕ)) }

/-- One round of the loop of `OnWrite`. The request is for `len_ - pos_` bytes from the start of `buf_`.
When that is negative it is huge as a `size_t`, and the kernel takes whatever lies there. -/
def onSend (client : Client) : SendResult → Option Client
  | .accepted count =>
      match client.sendBufList with
      | [] => none
      | desc :: rest =>
          if desc.pos + count < desc.len then
            some { client with
              kernel := client.kernel ++ desc.buf.take count
              sendBufList := advancePos desc count :: rest }.setWriteEvent
          else if desc.pos + count = desc.len then
            some { client with kernel := client.kernel ++ desc.buf.take count, sendBufList := rest }
          else none
  | .overrun taken =>
      match client.sendBufList with
      | [] => none
      | desc :: rest =>
          if desc.len < desc.pos ∧ taken.length < 2 ^ 31 then
            some { client with
              kernel := client.kernel ++ taken
              sendBufList := advancePos desc taken.length :: rest }.setWriteEvent
          else none
  | .again =>
      if client.sendBufList = [] then none else some { client.setWriteEvent with writing := false }
  | .error => if client.sendBufList = [] then none else some { client with writing := false }

inductive Label where
  | send (data : List UInt8)
  | onWrite
  | onSend (result : SendResult)
  | finish
  deriving DecidableEq, Repr

def step (client : Client) : Label → Option Client
  | .send data =>
      if client.writing then none
      else some { (client.send data).2 with
        sent := if (client.send data).1 = 0 then client.sent ++ data else client.sent }
  | .onWrite => if client.pending ∧ ¬ client.writing then some client.onWrite else none
  | .onSend result => if client.writing then client.onSend result else none
  | .finish =>
      if client.writing ∧ client.sendBufList = [] then some { client with writing := false } else none

/-! ### What is asked of the write side -/

def Intact (client : Client) : Prop :=
  client.kernel ++ client.sendBufList.flatMap BufDesc.remainder = client.sent

/-- What is sent fits in a buffer, and a `send(2)` that takes bytes of a buffer partly sent before
takes all that are left and finds the same bytes at its start. -/
def Faithful (client : Client) : Label → Prop
  | .send data => data.length ≤ maxRecvLen
  | .onSend (.accepted count) => ∀ desc ∈ client.sendBufList.head?,
      desc.pos = 0 ∨ desc.pos + count = desc.len ∧ desc.buf.take count = desc.remainder
  | _ => True

/-- `event_set` was never called on a pending event; and between calls the event is pending if there is
something to send, and the flag says whether it is. -/
def Disciplined (client : Client) : Prop :=
  client.misused = false ∧
    (client.writing = false →
      (client.sendBufList ≠ [] → client.pending) ∧
        (client.eventFlag &&& writeEventOn ≠ 0 ↔ client.pending))

/-- Nothing asks for the write event while `WRITE_EVENT_ON` is set: neither a `Send` nor, in one
`OnWrite`, a second `send(2)` that takes fewer bytes than requested or none. -/
def Calm (client : Client) : Label → Prop
  | .send data => data = [] ∨ client.eventFlag &&& writeEventOn = 0
  | .onSend (.accepted count) => ∀ desc ∈ client.sendBufList.head?,
      desc.pos + count = desc.len ∨ client.eventFlag &&& writeEventOn = 0
  | .onSend (.overrun _) | .onSend .again => client.eventFlag &&& writeEventOn = 0
  | _ => True

def Admissible (client : Client) (label : Label) : Prop :=
  (client.step label).isSome ∧ label ≠ .onSend .error

instance (client : Client) : Decidable client.Intact :=
  inferInstanceAs (Decidable (client.kernel ++ client.sendBufList.flatMap BufDesc.remainder = client.sent))

instance (client : Client) : DecidablePred client.Faithful
  | .send data => inferInstanceAs (Decidable (data.length ≤ maxRecvLen))
  | .onSend (.accepted count) => inferInstanceAs (Decidable (∀ desc ∈ client.sendBufList.head?,
      desc.pos = 0 ∨ desc.pos + count = desc.len ∧ desc.buf.take count = desc.remainder))
  | .onWrite | .onSend (.overrun _) | .onSend .again | .onSend .error | .finish => isTrue trivial

instance (client : Client) : Decidable client.Disciplined :=
  inferInstanceAs (Decidable (client.misused = false ∧ (client.writing = false →
    (client.sendBufList ≠ [] → client.pending) ∧
      (client.eventFlag &&& writeEventOn ≠ 0 ↔ client.pending))))

instance (client : Client) : DecidablePred client.Calm
  | .send data => inferInstanceAs (Decidable (data = [] ∨ client.eventFlag &&& writeEventOn = 0))
  | .onSend (.accepted count) => inferInstanceAs (Decidable (∀ desc ∈ client.sendBufList.head?,
      desc.pos + count = desc.len ∨ client.eventFlag &&& writeEventOn = 0))
  | .onSend (.overrun _) | .onSend .again =>
      inferInstanceAs (Decidable (client.eventFlag &&& writeEventOn = 0))
  | .onWrite | .onSend .error | .finish => isTrue trivial

instance (client : Client) (label : Label) : Decidable (client.Admissible label) :=
  inferInstanceAs (Decidable ((client.step label).isSome ∧ label ≠ .onSend .error))

end Client

end EasyLib.Easytcp
