import EasyLib.Lib.Run
import EasyLib.Reactors.Channel
import Mathlib.Data.List.Basic
import Mathlib.Logic.Function.Basic

/-!
# The poller over `select`

`Reactors/net/pollers/selectpoller.cc`. Channels are objects with a number of their own, so that two of
them may have the same descriptor. What the poller reads of one is its descriptor, its interest in
events, and the `index_` that it keeps there itself; a channel is made with `index_` at `-1`, and its
interest changes with a call of `UpdateChannel` only.

A macro of `fd_set` on a descriptor that does not fit has no result. Neither has `channels_[fd]` in
`FillActiveChannels` when there is no such key, since the channel would be a null pointer. The call
that was last made for each channel is kept in `last`.
-/

namespace EasyLib.Reactors

abbrev FdSet := ℤ → Bool

namespace FdSet

def size : ℤ := 1024

def Fits (fd : ℤ) : Prop := 0 ≤ fd ∧ fd < size

instance : DecidablePred Fits := fun fd => inferInstanceAs (Decidable (0 ≤ fd ∧ fd < size))

def zero : FdSet := fun _ => false

/-- `FD_SET` and `FD_CLR`. -/
def write (set : FdSet) (fd : ℤ) (value : Bool) : Option FdSet :=
  if Fits fd then some (Function.update set fd value) else none

/-- `FD_ISSET`. -/
def test (set : FdSet) (fd : ℤ) : Option Bool := if Fits fd then some (set fd) else none

end FdSet

inductive LastCall where
  | update
  | remove
  deriving DecidableEq, Repr

structure SelectPoller where
  readfds : FdSet
  writefds : FdSet
  fds : List ℤ
  maxFd : ℤ
  channels : ℤ → Option ℕ
  fd : ℕ → ℤ
  index : ℕ → ℤ
  objects : ℕ → Channel
  last : ℕ → Option LastCall

namespace SelectPoller

def new (fd : ℕ → ℤ) : SelectPoller where
  readfds := .zero
  writefds := .zero
  fds := []
  maxFd := 3
  channels := fun _ => none
  fd := fd
  index := fun _ => -1
  objects := fun _ => { events := 0 }
  last := fun _ => none

/-- The assignment to `channels_[fd]`, with the interest that the channel has at this call. -/
def assign (p : SelectPoller) (id : ℕ) (channel : Channel) : SelectPoller :=
  { p with
    channels := Function.update p.channels (p.fd id) (some id)
    objects := Function.update p.objects id channel
    last := Function.update p.last id (some .update) }

def add (p : SelectPoller) (id : ℕ) (channel : Channel) : Option SelectPoller :=
  (if channel.isReading then p.readfds.write (p.fd id) true else some p.readfds).bind fun readfds =>
  (if channel.isWriting then p.writefds.write (p.fd id) true else some p.writefds).map fun writefds =>
    { p.assign id channel with
      readfds
      writefds
      index := Function.update p.index id 1
      maxFd := if p.maxFd < p.fd id then p.fd id else p.maxFd
      fds := p.fds ++ [p.fd id] }

def modify (p : SelectPoller) (id : ℕ) (channel : Channel) : Option SelectPoller :=
  (p.readfds.write (p.fd id) channel.isReading).bind fun readfds =>
  (p.writefds.write (p.fd id) channel.isWriting).map fun writefds =>
    { p.assign id channel with readfds, writefds }

def updateChannel (p : SelectPoller) (id : ℕ) (channel : Channel) : Option SelectPoller :=
  if p.index id < 0 then p.add id channel else p.modify id channel

def removeChannel (p : SelectPoller) (id : ℕ) : Option SelectPoller :=
  (p.readfds.write (p.fd id) false).bind fun readfds =>
  (p.writefds.write (p.fd id) false).map fun writefds =>
    { p with
      channels := Function.update p.channels (p.fd id) none
      fds := p.fds.filter (· ≠ p.fd id)
      readfds
      writefds
      last := Function.update p.last id (some .remove) }

/-- The loop of `Poll` that fills `read_set` or `write_set`. -/
def fill (bits : FdSet) : List ℤ → FdSet → Option FdSet
  | [], set => some set
  | fd :: fds, set =>
      (bits.test fd).bind fun isset =>
        if isset then (set.write fd true).bind (fill bits fds) else fill bits fds set

/-- The descriptors that `select` looks at in one of the sets. -/
def watched (p : SelectPoller) (bits : FdSet) : Option FdSet :=
  (fill bits p.fds .zero).map fun set fd => set fd && fd ≤ p.maxFd

/-- The active channels with the `revents_` that they are left with: the second `set_revents` overwrites
the first. -/
def fillActiveChannels (p : SelectPoller) (readset writeset : FdSet) :
    List ℤ → Option (List (ℕ × BitVec 32))
  | [] => some []
  | fd :: fds =>
      (p.channels fd).bind fun channel =>
      (readset.test fd).bind fun read =>
      (writeset.test fd).bind fun write =>
      (p.fillActiveChannels readset writeset fds).map fun active =>
        if write then (channel, kWriteEvent) :: active
        else if read then (channel, kReadEvent) :: active
        else active

/-- `Poll`, with the descriptors that are readable and writable when `select` returns. -/
def poll (p : SelectPoller) (readable writable : FdSet) : Option (List (ℕ × BitVec 32)) :=
  (p.watched p.readfds).bind fun readset =>
  (p.watched p.writefds).bind fun writeset =>
    p.fillActiveChannels (fun fd => readset fd && readable fd) (fun fd => writeset fd && writable fd)
      p.fds

inductive Label where
  | updateChannel (id : ℕ) (channel : Channel)
  | removeChannel (id : ℕ)
  deriving DecidableEq, Repr

def step (p : SelectPoller) : Label → Option SelectPoller
  | .updateChannel id channel => p.updateChannel id channel
  | .removeChannel id => p.removeChannel id

/-! ### What is asked of the bookkeeping -/

def Interested (p : SelectPoller) (wants : Channel → Bool) (fd : ℤ) : Prop :=
  ∃ id, p.channels fd = some id ∧ wants (p.objects id) = true

/-- What the last call for a channel has asked for. The bits of a channel that was removed may be those of
another one by now. -/
def Current (p : SelectPoller) (id : ℕ) : Prop :=
  match p.last id with
  | none => True
  | some .update =>
      p.channels (p.fd id) = some id ∧ p.readfds (p.fd id) = (p.objects id).isReading ∧
        p.writefds (p.fd id) = (p.objects id).isWriting
  | some .remove =>
      p.channels (p.fd id) = none → p.readfds (p.fd id) = false ∧ p.writefds (p.fd id) = false

structure Bookkept (p : SelectPoller) : Prop where
  nodup : p.fds.Nodup
  keys : ∀ fd, fd ∈ p.fds ↔ (p.channels fd).isSome
  current : ∀ id, p.Current id
  maxFd : ∀ fd ∈ p.fds, fd ≤ p.maxFd
  watchesReads : ∃ set, p.watched p.readfds = some set ∧
    ∀ fd, set fd = true ↔ p.Interested Channel.isReading fd
  watchesWrites : ∃ set, p.watched p.writefds = some set ∧
    ∀ fd, set fd = true ↔ p.Interested Channel.isWriting fd
  reportsOnce : ∀ readable writable, ∃ active, p.poll readable writable = some active ∧
    (active.map Prod.fst).Nodup

/-- The descriptor fits. A channel with `index_` at `-1` finds its descriptor free, any other one that is
updated finds itself there, and one that is removed finds no other one. -/
def Matched (p : SelectPoller) : Label → Prop
  | .updateChannel id _ =>
      FdSet.Fits (p.fd id) ∧ (p.index id < 0 → p.fd id ∉ p.fds) ∧
        (¬ p.index id < 0 → p.channels (p.fd id) = some id)
  | .removeChannel id => FdSet.Fits (p.fd id) ∧ ∀ other ∈ p.channels (p.fd id), other = id

instance (p : SelectPoller) : DecidablePred p.Matched
  | .updateChannel _ _ => inferInstanceAs (Decidable (_ ∧ (_ → _) ∧ (_ → _)))
  | .removeChannel _ => inferInstanceAs (Decidable (_ ∧ _))

end SelectPoller

end EasyLib.Reactors
