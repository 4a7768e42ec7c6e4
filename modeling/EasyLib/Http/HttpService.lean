import EasyLib.Common.Strops
import EasyLib.Lib.Run
import Mathlib.Logic.Function.Basic

/-!
# Replies from other threads

`http/HttpService.cpp` and `http/Condition.cpp`, between `Listen` and `Stop`. `SendReply` may be called
on any thread: it puts a reply in a list and writes a byte to a pipe. The event loop calls
`Condition::CallBack` while a byte is unread, and that one reads a byte at a time and calls
`SendPendingReply` for each. Every access to the list under its mutex is one step, and so are a read
from the pipe, a write to it and a call of `evhttp_send_reply`.

The pipe has room for `capacity` bytes and does not block. `notifying` marks the callers between their
push and their `Notify`, and a reply carries the number of its push.
-/

namespace EasyLib.Http

open Common

structure PendingReply where
  ordinal : ℕ
  req : ℕ
  buffer : Str
  deriving DecidableEq, Repr

/-- Where the event loop is: waiting for the pipe, before a `read`, behind one that got a byte, or in
`SendPendingReply` with the replies it has still to send. -/
inductive CallBack where
  | waiting
  | reading
  | handling
  | sending (replies : List PendingReply)
  deriving DecidableEq, Repr

structure HttpService (Caller : Type*) where
  pendingReplyList : List PendingReply
  capacity : ℕ
  unread : ℕ
  callBack : CallBack
  notifying : Caller → Bool
  queued : ℕ
  sent : List PendingReply

namespace HttpService

variable {Caller : Type*}

def new (capacity : ℕ) : HttpService Caller where
  pendingReplyList := []
  capacity := capacity
  unread := 0
  callBack := .waiting
  notifying := fun _ => false
  queued := 0
  sent := []

def taken (s : HttpService Caller) : List PendingReply :=
  match s.callBack with
  | .sending replies => replies
  | _ => []

/-- `SendReply` up to its `push_back`. -/
def pushBack (s : HttpService Caller) (req : ℕ) (buffer : Str) : HttpService Caller :=
  { s with
    pendingReplyList := s.pendingReplyList ++ [⟨s.queued, req, buffer⟩]
    queued := s.queued + 1 }

/-- `Condition::Notify`. A write to a full pipe fails, and nobody looks. -/
def notify (s : HttpService Caller) : HttpService Caller :=
  { s with unread := if s.unread < s.capacity then s.unread + 1 else s.unread }

/-- The next step of the event loop. A `read` may be interrupted. -/
def advance (s : HttpService Caller) (interrupted : Bool) : Option (HttpService Caller) :=
  match s.callBack with
  | .waiting => if 0 < s.unread then some { s with callBack := .reading } else none
  | .reading =>
      if s.unread = 0 ∨ interrupted then some { s with callBack := .waiting }
      else some { s with unread := s.unread - 1, callBack := .handling }
  | .handling => some { s with pendingReplyList := [], callBack := .sending s.pendingReplyList }
  | .sending (reply :: replies) =>
      some { s with sent := s.sent ++ [reply], callBack := .sending replies }
  | .sending [] => some { s with callBack := .reading }

inductive Label (Caller : Type*) where
  | sendReply (caller : Caller) (req : ℕ) (buffer : Str)
  | notify (caller : Caller)
  | advance (interrupted : Bool)
  deriving DecidableEq, Repr

variable [DecidableEq Caller]

def step (s : HttpService Caller) : Label Caller → Option (HttpService Caller)
  | .sendReply caller req buffer =>
      if s.notifying caller then none
      else some { s.pushBack req buffer with notifying := Function.update s.notifying caller true }
  | .notify caller =>
      if s.notifying caller then
        some { s.notify with notifying := Function.update s.notifying caller false }
      else none
  | .advance interrupted => s.advance interrupted

/-! ### What is asked of the pipeline -/

/-- The replies that were sent are the first ones that were queued, in that order. -/
def InOrder (s : HttpService Caller) : Prop :=
  s.sent.map PendingReply.ordinal <+: List.range s.queued

/-- While a reply is in the list somebody is going to look at the list. -/
def Covered (s : HttpService Caller) : Prop :=
  s.pendingReplyList ≠ [] →
    0 < s.unread ∨ (∃ caller, s.notifying caller = true) ∨ s.callBack = .handling

end HttpService

end EasyLib.Http
