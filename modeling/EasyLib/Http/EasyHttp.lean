import EasyLib.Http.HttpService

/-!
# The HTTP server and its shutdown

`http/EasyHttp.cpp` over `http/HttpService.cpp`, from `Start` on. The thread of the master loop accepts
requests, runs `SendPendingReply` and, in the end, `StopInLoop`. The threads of the pool run
`RunProcessor` for the requests that were dispatched to them, each in the order of its queue, and every
processor calls its response callback once. Which thread `GetNextLoop` picks is up to the label.

Requests are numbered as they come. A request is touched by `evhttp_send_reply`, and by a `SendReply`
that has output headers to add. `late` collects those touched after `evhttp_free`, and `answered` the
requests that had been answered when it was called.

`pending_reply_list_.clear()` is not under the mutex of the list; it is taken for one step here.
-/

namespace EasyLib.Http

open Common

inductive Phase where
  | idle
  -- in the processor, up to its call of the response callback
  | processing (req : ℕ)
  -- in `SendReply`, behind the output headers
  | replying (req : ℕ) (buffer : Str)
  deriving DecidableEq, Repr

def Phase.requests : Phase → List ℕ
  | .idle => []
  | .processing req => [req]
  | .replying req _ => [req]

structure Worker where
  phase : Phase
  functors : List ℕ
  deriving DecidableEq, Repr

/-- The requests whose reply is not in the list yet. -/
def Worker.requests (worker : Worker) : List ℕ := worker.phase.requests ++ worker.functors

/-- How far `StopInLoop` has come. -/
inductive Stage where
  | running
  | freed
  | cleared
  | stopped
  deriving DecidableEq, Repr

/-- The callers of `SendReply` are the threads of the pool and, with `none`, that of the master loop. -/
structure HttpServer where
  service : HttpService (Option ℕ)
  workers : List Worker
  urlProcessors : List Str
  requests : ℕ
  dispatched : List ℕ
  stage : Stage
  answered : List ℕ
  late : List ℕ

namespace HttpServer

def new (capacity threadNum : ℕ) (urlProcessors : List Str) : HttpServer where
  service := .new capacity
  workers := List.replicate threadNum { phase := .idle, functors := [] }
  urlProcessors := urlProcessors
  requests := 0
  dispatched := []
  stage := .running
  answered := []
  late := []

def unfinished (s : HttpServer) : List ℕ := s.workers.flatMap Worker.requests

/-- The master loop is between two callbacks. -/
def MasterWaits (s : HttpServer) : Prop :=
  s.service.callBack = .waiting ∧ s.service.notifying none = false

instance (s : HttpServer) : Decidable s.MasterWaits := inferInstanceAs (Decidable (_ ∧ _))

def invalidUrl : Str := ['i', 'n', 'v', 'a', 'l', 'i', 'd', ' ', 'u', 'r', 'l']

def setWorker (s : HttpServer) (index : ℕ) (worker : Worker) : HttpServer :=
  { s with workers := s.workers.set index worker }

def touch (s : HttpServer) (requests : List ℕ) : HttpServer :=
  { s with late := if s.stage = .running then s.late else s.late ++ requests }

/-- `RunInLoop` of the worker's loop, called from the master loop. -/
def dispatch (s : HttpServer) (index : ℕ) (worker : Worker) : HttpServer :=
  { s.setWorker index { worker with functors := worker.functors ++ [s.requests] } with
    requests := s.requests + 1
    dispatched := s.dispatched ++ [s.requests] }

/-- `DispatchRequests` for a request that has just come. A reply from here has no output headers. -/
def dispatchRequests (s : HttpServer) (index : ℕ) (url : Str) : Option HttpServer :=
  if url ∈ s.urlProcessors then (s.workers[index]?).map (s.dispatch index)
  else (s.service.step (.sendReply none s.requests invalidUrl)).map fun service =>
    { s with service, requests := s.requests + 1 }

/-- The next thing that a thread of the pool does with the request it is at. -/
def process (s : HttpServer) (index : ℕ) (headers : Bool) (response : Str) (worker : Worker) :
    Option HttpServer :=
  match worker.phase, worker.functors with
  | .idle, [] => none
  | .idle, req :: functors =>
      if s.service.notifying (some index) then none
      else some (s.setWorker index { phase := .processing req, functors })
  | .processing req, functors =>
      some ((s.setWorker index { phase := .replying req response, functors }).touch
        (if headers then [req] else []))
  | .replying req buffer, functors =>
      (s.service.step (.sendReply (some index) req buffer)).map fun service =>
        { s.setWorker index { phase := .idle, functors } with service }

/-- The next step of the master loop in `SendPendingReply` and around it. -/
def advance (s : HttpServer) (interrupted : Bool) : Option HttpServer :=
  (s.service.advance interrupted).map fun service =>
    { s.touch ((s.service.taken.take 1).map PendingReply.req) with service }

/-- `Stop(true)` of the pool has returned: the loops have run all their functors. -/
def Joined (s : HttpServer) : Prop :=
  s.unfinished = [] ∧ ∀ index < s.workers.length, s.service.notifying (some index) = false

instance (s : HttpServer) : Decidable s.Joined := inferInstanceAs (Decidable (_ ∧ _))

inductive Label where
  | request (index : ℕ) (url : Str)
  | process (index : ℕ) (headers : Bool) (response : Str)
  | notify (caller : Option ℕ)
  | advance (interrupted : Bool)
  -- `StopInLoop`: `evhttp_free`, the rest of `HttpService::Stop`, the end of it
  | free
  | clear
  | stop
  deriving DecidableEq, Repr

def step (s : HttpServer) : Label → Option HttpServer
  | .request index url =>
      if s.stage = .running ∧ s.MasterWaits then s.dispatchRequests index url else none
  | .process index headers response => (s.workers[index]?).bind (s.process index headers response)
  | .notify caller => (s.service.step (.notify caller)).map fun service => { s with service }
  | .advance interrupted =>
      if (s.stage = .running ∨ s.stage = .stopped) ∧ s.service.notifying none = false then
        s.advance interrupted
      else none
  | .free =>
      if s.stage = .running ∧ s.MasterWaits then
        some { s with stage := .freed, answered := s.service.sent.map PendingReply.req }
      else none
  | .clear =>
      if s.stage = .freed then
        some { s with stage := .cleared, service := { s.service with pendingReplyList := [] } }
      else none
  | .stop => if s.stage = .cleared ∧ s.Joined then some { s with stage := .stopped } else none

/-! ### What is asked of the shutdown -/

/-- Every request that was dispatched had been answered when `evhttp_free` was called, and none was
touched afterwards. -/
def Orderly (s : HttpServer) : Prop :=
  s.stage ≠ .running → (∀ req ∈ s.dispatched, req ∈ s.answered) ∧ s.late = []

instance (s : HttpServer) : Decidable s.Orderly := inferInstanceAs (Decidable (_ → _))

/-- When `StopInLoop` begins, no `RunProcessor` is queued or has its reply still to put in the list, and
the list has none of their replies. -/
def Drained (s : HttpServer) : Label → Prop
  | .free =>
      s.unfinished = [] ∧ ∀ reply ∈ s.service.pendingReplyList, reply.req ∉ s.dispatched
  | _ => True

instance (s : HttpServer) : DecidablePred s.Drained
  | .free => inferInstanceAs (Decidable (_ ∧ _))
  | .request _ _ | .process _ _ _ | .notify _ | .advance _ | .clear | .stop =>
      inferInstanceAs (Decidable True)

end HttpServer

end EasyLib.Http
