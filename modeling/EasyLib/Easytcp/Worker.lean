import EasyLib.Easytcp.Threadpool
import EasyLib.Lib.Records

/-!
# A worker thread and its clients

`easytcp/threadpool.cpp`, the class `Thread`. The master writes a `ConnInfo` to the pipe of the thread
for each call of `accept(2)`, whatever it has returned. `OnAccept` reads the records, and makes a `Client`
for each whose descriptor can be made non-blocking. All events are in one base, that of the pipe and
those of the clients, and libevent calls one callback after the other: `OnAccept` while the pipe is not
empty, and `OnRead` and `OnWrite` of an event that is in the base. User code runs inside `OnRead`.
`delete client` takes the events out of the base that its `EventFlag` says are there.

A run ends where a client is used that was freed, and where `event_set` is called on an event in the
base: by a `Send` of the user while the write event waits, or by `OnWrite` itself, which sets the event
for each `send(2)` that falls short and goes on.

`clients` lists all that were made, also those that were freed; `given` are the records that were written
and `taken` those that were read, with what the calls of `fcntl(2)` said; `torn` counts the reads that were
cut short, and `closed` lists the descriptors that were closed.
-/

namespace EasyLib.Easytcp

/-- The address is not looked at. -/
structure ConnInfo where
  fd : BitVec 32
  addr : { bytes : List UInt8 // bytes.length = 16 }
  deriving DecidableEq, Repr

namespace ConnInfo

def fdBytes (fd : BitVec 32) : List UInt8 :=
  [⟨fd.extractLsb' 0 8⟩, ⟨fd.extractLsb' 8 8⟩, ⟨fd.extractLsb' 16 8⟩, ⟨fd.extractLsb' 24 8⟩]

def fdOfBytes : List UInt8 → BitVec 32
  | [b0, b1, b2, b3] => b3.toBitVec ++ b2.toBitVec ++ b1.toBitVec ++ b0.toBitVec
  | _ => 0

def bytes (info : ConnInfo) : List UInt8 := fdBytes info.fd ++ info.addr.1

def size : ℕ := 20

/-- What is in the buffer of `OnAccept` behind a read of the right length. -/
def ofBytes (buf : List UInt8) : Option ConnInfo :=
  if h : buf.length = size then
    some ⟨fdOfBytes (buf.take 4), buf.drop 4, by rw [List.length_drop, h, size]⟩
  else none

theorem fdOfBytes_fdBytes (fd : BitVec 32) : fdOfBytes (fdBytes fd) = fd := by
  have hhigh : fd.extractLsb' 24 8 ++ fd.extractLsb' 16 8 = fd.extractLsb' 16 16 :=
    BitVec.extractLsb'_append_extractLsb'_eq_extractLsb' rfl
  have hmiddle : fd.extractLsb' 16 16 ++ fd.extractLsb' 8 8 = fd.extractLsb' 8 24 :=
    BitVec.extractLsb'_append_extractLsb'_eq_extractLsb' rfl
  have hlow : fd.extractLsb' 8 24 ++ fd.extractLsb' 0 8 = fd.extractLsb' 0 32 :=
    BitVec.extractLsb'_append_extractLsb'_eq_extractLsb' rfl
  rw [fdBytes, fdOfBytes, hhigh, hmiddle, hlow]
  exact BitVec.extractLsb'_eq_self

theorem length_bytes (info : ConnInfo) : info.bytes.length = size := by
  rw [bytes, List.length_append, info.addr.2]
  rfl

theorem ofBytes_bytes (info : ConnInfo) : ofBytes info.bytes = some info := by
  have hfd : info.bytes.take 4 = fdBytes info.fd := List.take_left' rfl
  have haddr : info.bytes.drop 4 = info.addr.1 := List.drop_left' rfl
  rw [ofBytes, dif_pos info.length_bytes]
  simp only [hfd, haddr, fdOfBytes_fdBytes]

/-- The records in the pipe. -/
def records : Records ConnInfo UInt8 where
  width := size
  encode := bytes
  decode := ofBytes
  length_encode := length_bytes
  decode_encode := ofBytes_bytes

end ConnInfo

/-- A client of the thread: `reading` says that `pEvRead` is in the base, as `client.pending` does of
`pEvWrite`. -/
structure Served where
  fd : BitVec 32
  client : Client
  reading : Bool
  freed : Bool

namespace Served

/-- The end of `ProcessNewConnect`. -/
def new (fd : BitVec 32) : Served where
  fd := fd
  client := .new
  reading := true
  freed := false

/-- The destructor of `Client`. -/
def delete (c : Served) : Served :=
  { c with
    reading := if c.client.eventFlag &&& readEventOn ≠ 0 then false else c.reading
    client := { c.client with
      pending := if c.client.eventFlag &&& writeEventOn ≠ 0 then false else c.client.pending }
    freed := true }

def liveFd (c : Served) : Option (BitVec 32) := if c.freed then none else some c.fd

end Served

/-- What the thread is in the middle of. -/
inductive Activity where
  | idle
  | accepting
  | working
  | writing (id : ℕ)
  deriving DecidableEq, Repr

structure Thread where
  pipe : List UInt8
  activity : Activity
  clients : List Served
  given : List ConnInfo
  taken : List (ConnInfo × Bool)
  torn : ℕ
  closed : List (BitVec 32)

namespace Thread

def new : Thread where
  pipe := []
  activity := .idle
  clients := []
  given := []
  taken := []
  torn := 0
  closed := []

/-- The records that are not read yet. -/
def waiting (s : Thread) : List ConnInfo := s.given.drop s.taken.length

def refusedFd (entry : ConnInfo × Bool) : Option (BitVec 32) :=
  if entry.2 then none else some entry.1.fd

/-- The descriptors the thread knows of that are open: those of its clients, those that could not be made
non-blocking, which are left as they are, and those in the pipe. -/
def openFds (s : Thread) : List (BitVec 32) :=
  s.clients.filterMap Served.liveFd ++ s.taken.filterMap refusedFd ++ s.waiting.map ConnInfo.fd

/-- `ProcessNewConnect`, with whether both calls of `fcntl(2)` succeed. -/
def processNewConnect (s : Thread) (info : ConnInfo) (nonBlocking : Bool) : Thread :=
  { s with
    clients := if nonBlocking then s.clients ++ [.new info.fd] else s.clients
    taken := s.taken ++ [(info, nonBlocking)] }

/-- One round of the loop of `OnAccept`. -/
def acceptRound (s : Thread) (nonBlocking : Bool) : Thread :=
  let buf := s.pipe.take ConnInfo.size
  let rest := { s with pipe := s.pipe.drop ConnInfo.size }
  if buf = [] then { s with activity := .idle }
  else
    match ConnInfo.ofBytes buf with
    | none => { rest with torn := rest.torn + 1 }
    | some info => rest.processNewConnect info nonBlocking

/-- `OnRead`, with what `recv(2)` has returned. -/
def onRead (s : Thread) (id : ℕ) (c : Served) (len : ℤ) : Thread :=
  if len ≤ 0 then { s with clients := s.clients.set id c.delete, closed := s.closed ++ [c.fd] }
  else { s with activity := .working }

/-- A function of a client that does not set an event that is in the base. -/
def onClient (s : Thread) (id : ℕ) (c : Served) (label : Client.Label) : Option (Thread × Client) :=
  (c.client.step label).bind fun client =>
    if client.misused then none
    else some ({ s with clients := s.clients.set id { c with client } }, client)

inductive Label where
  -- the master
  | write (info : ConnInfo)
  -- `OnAccept`, each round of its loop, and `OnRead`
  | onAccept
  | acceptRound (nonBlocking : Bool)
  | onRead (id : ℕ) (len : ℤ)
  -- user code inside `OnRead`: `Send`, and its return
  | send (id : ℕ) (data : List UInt8)
  | userReturn
  -- `OnWrite`, each round of its loop, and the end of the loop
  | onWrite (id : ℕ)
  | onSend (id : ℕ) (result : SendResult)
  | finish (id : ℕ)
  deriving DecidableEq, Repr

def step (s : Thread) : Label → Option Thread
  | .write info =>
      -- `accept(2)` returns -1 or a descriptor that is not open
      if info.fd = -1 ∨ info.fd ∉ s.openFds then
        some { s with pipe := s.pipe ++ info.bytes, given := s.given ++ [info] }
      else none
  | .onAccept =>
      if s.activity = .idle ∧ s.pipe ≠ [] then some { s with activity := .accepting } else none
  | .acceptRound nonBlocking =>
      -- `fcntl(2)` fails for -1
      if s.activity = .accepting ∧
          (nonBlocking → ∀ info ∈ ConnInfo.ofBytes (s.pipe.take ConnInfo.size), info.fd ≠ -1) then
        some (s.acceptRound nonBlocking)
      else none
  | .onRead id len =>
      s.clients[id]?.bind fun c =>
        if s.activity = .idle ∧ c.reading then some (s.onRead id c len) else none
  | .send id data =>
      s.clients[id]?.bind fun c =>
        if s.activity = .working ∧ ¬ c.freed then (s.onClient id c (.send data)).map Prod.fst else none
  | .userReturn => if s.activity = .working then some { s with activity := .idle } else none
  | .onWrite id =>
      s.clients[id]?.bind fun c =>
        if s.activity = .idle then
          (s.onClient id c .onWrite).map fun (next, _) => { next with activity := .writing id }
        else none
  | .onSend id result =>
      s.clients[id]?.bind fun c =>
        if s.activity = .writing id then
          (s.onClient id c (.onSend result)).map fun (next, client) =>
            { next with activity := if client.writing then .writing id else .idle }
        else none
  | .finish id =>
      s.clients[id]?.bind fun c =>
        if s.activity = .writing id then
          (s.onClient id c .finish).map fun (next, _) => { next with activity := .idle }
        else none

/-! ### What is asked of the thread -/

open scoped List

/-- Every event in the base but that of the pipe belongs to a client that exists, and a client that exists
can be read from. The records come out of the pipe whole and in order, each makes one client or none, no
two clients that exist have one descriptor, and a descriptor is closed once for each client that was
freed. -/
structure Serving (s : Thread) : Prop where
  owned : ∀ c ∈ s.clients, c.reading ∨ c.client.pending → c.freed = false
  readable : ∀ c ∈ s.clients, c.freed = false → c.reading
  records : s.given = s.taken.map Prod.fst ++ s.waiting ∧ s.pipe = ConnInfo.records.stream s.waiting
  whole : s.torn = 0
  made : s.clients.map Served.fd = (s.taken.filter Prod.snd).map fun entry => entry.1.fd
  apart : (s.clients.filterMap Served.liveFd).Nodup
  closed : s.closed ~ (s.clients.filter Served.freed).map Served.fd

end Thread

end EasyLib.Easytcp
