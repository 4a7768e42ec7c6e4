import EasyLib.Reactors.SelectPoller

/-!
# From ready descriptors to callbacks

`SelectPoller::FillActiveChannels` with the `revents_` of all channels, and `Channel::HandleEvent`,
which runs the callbacks that `revents_` asks for. `set_revents` replaces `revents_`, and a channel whose
descriptor is in neither set keeps what it had. `tied_` is not initialised and `tie_` is never set, so
that a channel which happens to be tied handles nothing.
-/

namespace EasyLib.Reactors

/-! ### `Channel::HandleEvent` -/

namespace Channel

inductive Callback where
  | close
  | error
  | read
  | write
  deriving DecidableEq, Repr

def pollIn : BitVec 32 := 0x1

def pollPri : BitVec 32 := 0x2

def pollOut : BitVec 32 := 0x4

def pollErr : BitVec 32 := 0x8

def pollHup : BitVec 32 := 0x10

def pollNval : BitVec 32 := 0x20

def pollRdHup : BitVec 32 := 0x2000

/-- The callbacks that are run, in their order. -/
def handleEventWithGuard (revents : BitVec 32) : List Callback :=
  (if revents &&& pollHup ≠ 0 ∧ revents &&& pollIn = 0 then [.close] else []) ++
  (if revents &&& (pollErr ||| pollNval) ≠ 0 then [.error] else []) ++
  (if revents &&& (pollIn ||| pollPri ||| pollRdHup) ≠ 0 then [.read] else []) ++
  (if revents &&& pollOut ≠ 0 then [.write] else [])

def handleEvent (tied : Bool) (revents : BitVec 32) : List Callback :=
  if tied then [] else handleEventWithGuard revents

end Channel

/-! ### `FillActiveChannels` -/

namespace SelectPoller

structure Ready where
  activeChannels : List ℕ
  revents : ℕ → BitVec 32

def setRevents (s : Ready) (id : ℕ) (events : BitVec 32) : Ready :=
  { s with revents := Function.update s.revents id events }

/-- One round of the loop. -/
def fillChannel (s : Ready) (id : ℕ) (read write : Bool) : Ready :=
  let flag := (if read then kReadEvent else 0) ||| (if write then kWriteEvent else 0)
  let s := if read then setRevents s id kReadEvent else s
  let s := if write then setRevents s id kWriteEvent else s
  if flag ≠ 0 then { s with activeChannels := s.activeChannels ++ [id] } else s

def fillRevents (p : SelectPoller) (readset writeset : FdSet) : List ℤ → Ready → Option Ready
  | [], s => some s
  | fd :: fds, s =>
      (p.channels fd).bind fun channel =>
      (readset.test fd).bind fun read =>
      (writeset.test fd).bind fun write =>
        p.fillRevents readset writeset fds (fillChannel s channel read write)

/-- The registered channels have descriptors of their own, which fit. -/
structure Listed (p : SelectPoller) : Prop where
  nodup : p.fds.Nodup
  fits : ∀ fd ∈ p.fds, FdSet.Fits fd
  keys : ∀ fd ∈ p.fds, (p.channels fd).isSome
  owner : ∀ fd id, p.channels fd = some id → p.fd id = fd

/-- `revents_` of a channel says in which sets its descriptor is, and `HandleEvent` runs the callbacks
for them. -/
structure Told (read write tied : Bool) (revents : BitVec 32) : Prop where
  readBit : revents &&& kReadEvent = kReadEvent ↔ read = true
  writeBit : revents &&& kWriteEvent = kWriteEvent ↔ write = true
  runsRead : read = true → .read ∈ Channel.handleEvent tied revents
  runsWrite : write = true → .write ∈ Channel.handleEvent tied revents

/-- The descriptor is not in both sets; the channel is not tied if it is in one, and has no events left
over if it is in none. -/
structure Alone (read write tied : Bool) (revents : BitVec 32) : Prop where
  notBoth : ¬ (read = true ∧ write = true)
  untied : read = true ∨ write = true → tied = false
  noneLeft : read = false ∧ write = false →
    revents &&& kReadEvent ≠ kReadEvent ∧ revents &&& kWriteEvent ≠ kWriteEvent

end SelectPoller

end EasyLib.Reactors
