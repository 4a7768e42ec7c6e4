import Mathlib.Data.List.Nodup
import Mathlib.Data.List.Perm.Basic
import EasyLib.Http.EasyHttp
import EasyLib.Proof.Replies

/-!
# What the shutdown of the server leaves behind

While the server runs, every request is in one place: it is with a worker, its reply is in the list or
in the hands of `SendPendingReply`, or the reply was sent (`Open`). So `evhttp_free` finds all the
requests answered that were dispatched exactly when nothing is left with the workers and the list has
no reply of theirs. What holds from then on is `Closed`.
-/

namespace EasyLib.Http

open Common
open scoped List

namespace HttpService

variable {Caller : Type*} {s next : HttpService Caller}

def replies (s : HttpService Caller) : List PendingReply := s.sent ++ s.taken ++ s.pendingReplyList

theorem replies_advance (h : Advance s next) : next.replies = s.replies := by
  cases h with
  | fire hcallBack _ => simp [replies, taken, hcallBack]
  | again hcallBack => simp [replies, taken, hcallBack]
  | read hcallBack _ => simp [replies, taken, hcallBack]
  | swap hcallBack => simp [replies, taken, hcallBack]
  | send reply rest hcallBack => simp [replies, taken, hcallBack]
  | handled hcallBack => simp [replies, taken, hcallBack]

variable [DecidableEq Caller] {caller : Caller} {req : ℕ} {buffer : Str}

theorem replies_sendReply (h : s.step (.sendReply caller req buffer) = some next) :
    next.replies = s.replies ++ [⟨s.queued, req, buffer⟩] := by
  obtain ⟨-, hnext⟩ := Option.ite_none_left_eq_some.mp h
  rw [← Option.some.inj hnext]
  exact (List.append_assoc ..).symm

theorem notify_eq (h : s.step (.notify caller) = some next) :
    next = { s.notify with notifying := Function.update s.notifying caller false } := by
  obtain ⟨-, hnext⟩ := Option.ite_none_right_eq_some.mp h
  exact (Option.some.inj hnext).symm

end HttpService

namespace HttpServer

variable {s next : HttpServer} {index : ℕ} {worker other : Worker} {label : Label}

/-! ### One worker of many -/

theorem unfinished_setWorker (hworker : s.workers[index]? = some worker) (other : Worker) :
    (s.setWorker index other).unfinished ++ worker.requests ~ s.unfinished ++ other.requests := by
  obtain ⟨hlt, hget⟩ := List.getElem?_eq_some_iff.mp hworker
  have hold : s.unfinished ~ worker.requests ++ (s.workers.eraseIdx index).flatMap Worker.requests := by
    have hperm := (List.getElem_cons_eraseIdx_perm hlt).symm.flatMap_right Worker.requests
    rwa [hget, List.flatMap_cons] at hperm
  have hnew : (s.setWorker index other).unfinished ~
      other.requests ++ (s.workers.eraseIdx index).flatMap Worker.requests :=
    (List.set_perm_cons_eraseIdx hlt other).flatMap_right Worker.requests
  rw [List.perm_iff_count] at hold hnew ⊢
  intro req
  have hold' := hold req
  have hnew' := hnew req
  simp only [List.count_append] at hold' hnew' ⊢
  omega

theorem unfinished_grow {more : List ℕ} (hworker : s.workers[index]? = some worker)
    (hmore : other.requests = worker.requests ++ more) :
    (s.setWorker index other).unfinished ~ s.unfinished ++ more := by
  apply (List.perm_append_right_iff worker.requests).mp
  calc (s.setWorker index other).unfinished ++ worker.requests
    _ ~ s.unfinished ++ other.requests := unfinished_setWorker hworker other
    _ ~ s.unfinished ++ (more ++ worker.requests) := by
      rw [hmore]
      exact List.perm_append_comm.append_left _
    _ = s.unfinished ++ more ++ worker.requests := (List.append_assoc ..).symm

theorem unfinished_same (hworker : s.workers[index]? = some worker)
    (hsame : other.requests = worker.requests) :
    (s.setWorker index other).unfinished ~ s.unfinished := by
  have hperm := unfinished_setWorker hworker other
  rw [hsame] at hperm
  exact (List.perm_append_right_iff worker.requests).mp hperm

theorem unfinished_shrink {done : List ℕ} (hworker : s.workers[index]? = some worker)
    (hdone : worker.requests = done ++ other.requests) :
    s.unfinished ~ done ++ (s.setWorker index other).unfinished := by
  apply (List.perm_append_right_iff other.requests).mp
  calc s.unfinished ++ other.requests
    _ ~ (s.setWorker index other).unfinished ++ worker.requests :=
      (unfinished_setWorker hworker other).symm
    _ = (s.setWorker index other).unfinished ++ done ++ other.requests := by
      rw [hdone, List.append_assoc]
    _ ~ done ++ (s.setWorker index other).unfinished ++ other.requests :=
      List.perm_append_comm.append_right _

/-! ### While the server runs -/

structure Open (s : HttpServer) : Prop where
  running : s.stage = .running
  places : s.service.replies.map PendingReply.req ++ s.unfinished ~ List.range s.requests
  dispatched : ∀ req ∈ s.dispatched, req < s.requests
  unfinished : ∀ req ∈ s.unfinished, req ∈ s.dispatched
  late : s.late = []

theorem open_new (capacity threadNum : ℕ) (urlProcessors : List Str) :
    Open (new capacity threadNum urlProcessors) := by
  have hunfinished : (new capacity threadNum urlProcessors).unfinished = [] := by
    simp [unfinished, new, Worker.requests, Phase.requests]
  refine ⟨rfl, ?_, ?_, ?_, rfl⟩
  · rw [hunfinished]
    exact .nil
  · simp [new]
  · simp [hunfinished]

/-- The requests that are with the workers stay the same. -/
theorem Open.of_perm (h : Open s) (hstage : next.stage = s.stage)
    (hreplies : next.service.replies = s.service.replies) (hunfinished : next.unfinished ~ s.unfinished)
    (hrequests : next.requests = s.requests) (hdispatched : next.dispatched = s.dispatched)
    (hlate : next.late = s.late) : Open next := by
  refine ⟨hstage.trans h.running, ?_, ?_, ?_, hlate.trans h.late⟩
  · rw [hreplies, hrequests]
    exact (hunfinished.append_left _).trans h.places
  · rw [hdispatched, hrequests]
    exact h.dispatched
  · intro req hreq
    rw [hdispatched]
    exact h.unfinished req (hunfinished.mem_iff.mp hreq)

/-- The next request has the next number. -/
theorem Open.places_succ (h : Open s) :
    s.service.replies.map PendingReply.req ++ (s.unfinished ++ [s.requests]) ~
      List.range (s.requests + 1) := by
  rw [← List.append_assoc, List.range_succ]
  exact h.places.append_right _

theorem dispatch_open (h : Open s) (hworker : s.workers[index]? = some worker) :
    Open (s.dispatch index worker) := by
  have hunfinished : (s.dispatch index worker).unfinished ~ s.unfinished ++ [s.requests] :=
    unfinished_grow hworker (List.append_assoc ..).symm
  refine ⟨h.running, ?_, ?_, ?_, h.late⟩
  · exact (hunfinished.append_left _).trans h.places_succ
  · intro req hreq
    obtain hreq | hreq := List.mem_append.mp hreq
    · exact Nat.lt_succ_of_lt (h.dispatched req hreq)
    · rw [List.mem_singleton.mp hreq]
      exact Nat.lt_succ_self _
  · intro req hreq
    obtain hreq | hreq := List.mem_append.mp (hunfinished.mem_iff.mp hreq)
    · exact List.mem_append_left _ (h.unfinished req hreq)
    · exact List.mem_append_right _ hreq

theorem dispatchRequests_open {url : Str} (h : Open s)
    (hdispatch : s.dispatchRequests index url = some next) : Open next := by
  unfold dispatchRequests at hdispatch
  split_ifs at hdispatch with hurl
  · obtain ⟨worker, hworker, rfl⟩ := Option.map_eq_some_iff.mp hdispatch
    exact dispatch_open h hworker
  · obtain ⟨service, hservice, rfl⟩ := Option.map_eq_some_iff.mp hdispatch
    refine ⟨h.running, ?_, fun req hreq => Nat.lt_succ_of_lt (h.dispatched req hreq), h.unfinished,
      h.late⟩
    rw [HttpService.replies_sendReply hservice, List.map_append, List.append_assoc]
    exact (List.perm_append_comm.append_left _).trans h.places_succ

theorem process_open {headers : Bool} {response : Str} (h : Open s)
    (hworker : s.workers[index]? = some worker)
    (hprocess : s.process index headers response worker = some next) : Open next := by
  obtain ⟨phase, functors⟩ := worker
  cases phase with
  | idle =>
      cases functors with
      | nil => cases hprocess
      | cons req functors =>
          obtain ⟨-, hnext⟩ := Option.ite_none_left_eq_some.mp hprocess
          rw [← Option.some.inj hnext]
          exact h.of_perm rfl rfl (unfinished_same hworker rfl) rfl rfl rfl
  | processing req =>
      rw [← Option.some.inj hprocess]
      exact h.of_perm rfl rfl (unfinished_same hworker rfl) rfl rfl (if_pos h.running)
  | replying req buffer =>
      obtain ⟨service, hservice, rfl⟩ := Option.map_eq_some_iff.mp hprocess
      have hunfinished : s.unfinished ~ [req] ++ (s.setWorker index ⟨.idle, functors⟩).unfinished :=
        unfinished_shrink hworker rfl
      refine ⟨h.running, ?_, h.dispatched, fun other hother => ?_, h.late⟩
      · rw [HttpService.replies_sendReply hservice, List.map_append, List.append_assoc]
        exact (hunfinished.symm.append_left _).trans h.places
      · exact h.unfinished other (hunfinished.mem_iff.mpr (List.mem_append_right _ hother))

theorem advance_open {interrupted : Bool} (h : Open s)
    (hadvance : s.advance interrupted = some next) : Open next := by
  obtain ⟨service, hservice, rfl⟩ := Option.map_eq_some_iff.mp hadvance
  have hreplies := HttpService.replies_advance (HttpService.advance_of_eq_some hservice)
  exact h.of_perm rfl hreplies .rfl rfl rfl (if_pos h.running)

/-! ### From `evhttp_free` on -/

structure Closed (s : HttpServer) : Prop where
  stopping : s.stage ≠ .running
  answered : ∀ req ∈ s.dispatched, req ∈ s.answered
  late : s.late = []
  unfinished : s.unfinished = []
  taken : s.service.taken = []
  list : s.stage = .freed ∨ s.service.pendingReplyList = []

/-- The requests that were dispatched are either answered or still somewhere on the way. -/
theorem free_closed (h : Open s) (hwaits : s.MasterWaits) (hdrained : s.Drained .free) :
    Closed { s with stage := .freed, answered := s.service.sent.map PendingReply.req } := by
  obtain ⟨hunfinished, hlist⟩ := hdrained
  have htaken := HttpService.taken_of_waiting hwaits.1
  refine ⟨by simp, fun req hreq => ?_, h.late, hunfinished, htaken, .inl rfl⟩
  have hmem : req ∈ s.service.replies.map PendingReply.req ++ s.unfinished :=
    h.places.mem_iff.mpr (List.mem_range.mpr (h.dispatched req hreq))
  rw [hunfinished, List.append_nil, HttpService.replies, htaken, List.append_nil, List.map_append,
    List.mem_append] at hmem
  refine hmem.resolve_right fun hpending => ?_
  obtain ⟨reply, hreply, rfl⟩ := List.mem_map.mp hpending
  exact hlist reply hreply hreq

theorem free_not_orderly (h : Open s) (hdrained : ¬ s.Drained .free) :
    ¬ Orderly { s with stage := .freed, answered := s.service.sent.map PendingReply.req } := by
  intro horderly
  obtain ⟨hanswered, -⟩ := horderly (by simp)
  have hnodup := h.places.nodup_iff.mpr (List.nodup_range)
  rw [HttpService.replies, List.map_append, List.map_append] at hnodup
  apply hdrained
  refine ⟨List.eq_nil_iff_forall_not_mem.mpr fun req hreq => ?_, fun reply hreply hreq => ?_⟩
  · have hsent := hanswered req (h.unfinished req hreq)
    exact hnodup.disjoint (List.mem_append_left _ (List.mem_append_left _ hsent)) hreq
  · have hsent := hanswered reply.req hreq
    exact hnodup.of_append_left.disjoint (List.mem_append_left _ hsent) (List.mem_map_of_mem hreply)

theorem process_closed (h : Closed s) (hworker : s.workers[index]? = some worker) (headers : Bool)
    (response : Str) : s.process index headers response worker = none := by
  have hrequests : worker.requests = [] :=
    List.flatMap_eq_nil_iff.mp h.unfinished worker (List.mem_of_getElem? hworker)
  obtain ⟨hphase, hfunctors⟩ := List.append_eq_nil_iff.mp hrequests
  obtain ⟨phase, functors⟩ := worker
  cases phase with
  | idle =>
      cases functors with
      | nil => rfl
      | cons req functors => cases hfunctors
  | processing req => cases hphase
  | replying req buffer => cases hphase

theorem advance_closed {interrupted : Bool} (h : Closed s) (hstopped : s.stage = .stopped)
    (hadvance : s.advance interrupted = some next) : Closed next := by
  obtain ⟨service, hservice, rfl⟩ := Option.map_eq_some_iff.mp hadvance
  have hempty : s.service.pendingReplyList = [] :=
    h.list.resolve_left fun hfreed => by cases hstopped.symm.trans hfreed
  have hlate : (s.touch ((s.service.taken.take 1).map PendingReply.req)).late = [] := by
    simp [touch, h.taken, h.late]
  have htaken := h.taken
  cases HttpService.advance_of_eq_some hservice with
  | fire _ _ => exact ⟨h.stopping, h.answered, hlate, h.unfinished, rfl, .inr hempty⟩
  | again _ => exact ⟨h.stopping, h.answered, hlate, h.unfinished, rfl, .inr hempty⟩
  | read _ _ => exact ⟨h.stopping, h.answered, hlate, h.unfinished, rfl, .inr hempty⟩
  | swap _ => exact ⟨h.stopping, h.answered, hlate, h.unfinished, hempty, .inr rfl⟩
  | send reply replies hcallBack =>
      rw [HttpService.taken_of_sending hcallBack] at htaken
      cases htaken
  | handled _ => exact ⟨h.stopping, h.answered, hlate, h.unfinished, rfl, .inr hempty⟩

/-! ### Runs -/

/-- `Open` until `evhttp_free`, and `Closed` from then on. -/
def Inv (s : HttpServer) : Prop := Open s ∨ Closed s

theorem Inv.orderly (h : Inv s) : s.Orderly := by
  intro hstage
  obtain hopen | hclosed := h
  · exact absurd hopen.running hstage
  · exact ⟨hclosed.answered, hclosed.late⟩

theorem Inv.open_of_running (h : Inv s) (hrunning : s.stage = .running) : Open s :=
  h.resolve_right fun hclosed => hclosed.stopping hrunning

theorem Inv.closed_of_ne (h : Inv s) (hstage : s.stage ≠ .running) : Closed s :=
  h.resolve_left fun hopen => hstage hopen.running

theorem step_inv (h : Inv s) (hdrained : s.Drained label) (hstep : s.step label = some next) :
    Inv next := by
  cases label with
  | request index url =>
      obtain ⟨⟨hrunning, -⟩, hdispatch⟩ := Option.ite_none_right_eq_some.mp hstep
      exact .inl (dispatchRequests_open (h.open_of_running hrunning) hdispatch)
  | process index headers response =>
      obtain ⟨worker, hworker, hprocess⟩ := Option.bind_eq_some_iff.mp hstep
      obtain hopen | hclosed := h
      · exact .inl (process_open hopen hworker hprocess)
      · rw [process_closed hclosed hworker] at hprocess
        cases hprocess
  | notify caller =>
      obtain ⟨service, hservice, rfl⟩ := Option.map_eq_some_iff.mp hstep
      rw [HttpService.notify_eq hservice]
      exact h.imp (fun hopen => { hopen with }) (fun hclosed => { hclosed with })
  | advance interrupted =>
      obtain ⟨⟨hrunning | hstopped, -⟩, hadvance⟩ := Option.ite_none_right_eq_some.mp hstep
      · exact .inl (advance_open (h.open_of_running hrunning) hadvance)
      · exact .inr (advance_closed (h.closed_of_ne (by simp [hstopped])) hstopped hadvance)
  | free =>
      obtain ⟨⟨hrunning, hwaits⟩, hnext⟩ := Option.ite_none_right_eq_some.mp hstep
      rw [← Option.some.inj hnext]
      exact .inr (free_closed (h.open_of_running hrunning) hwaits hdrained)
  | clear =>
      obtain ⟨hfreed, hnext⟩ := Option.ite_none_right_eq_some.mp hstep
      rw [← Option.some.inj hnext]
      have hclosed := h.closed_of_ne (by simp [hfreed])
      exact .inr { hclosed with stopping := by simp, list := .inr rfl }
  | stop =>
      obtain ⟨⟨hcleared, -⟩, hnext⟩ := Option.ite_none_right_eq_some.mp hstep
      rw [← Option.some.inj hnext]
      have hclosed := h.closed_of_ne (by simp [hcleared])
      have hempty := hclosed.list.resolve_left fun hfreed => by cases hcleared.symm.trans hfreed
      exact .inr { hclosed with stopping := by simp, list := .inr hempty }

theorem step_not_orderly (h : Inv s) (hdrained : ¬ s.Drained label)
    (hstep : s.step label = some next) : ¬ next.Orderly := by
  cases label with
  | free =>
      obtain ⟨⟨hrunning, -⟩, hnext⟩ := Option.ite_none_right_eq_some.mp hstep
      rw [← Option.some.inj hnext]
      exact free_not_orderly (h.open_of_running hrunning) hdrained
  | _ => exact absurd trivial hdrained

/-- In every run all the requests that were dispatched are answered before `evhttp_free` and none is
touched after it if and only if nothing is left with the workers, and no reply of theirs in the list,
when `StopInLoop` begins. -/
theorem shutdown_orderly_iff (capacity threadNum : ℕ) (urlProcessors : List Str) (labels : List Label)
    (henabled : Machine.AllSteps step (Machine.Enabled step) (new capacity threadNum urlProcessors)
      labels) :
    Machine.Safe step Orderly (new capacity threadNum urlProcessors) labels ↔
      Machine.AllSteps step Drained (new capacity threadNum urlProcessors) labels := by
  apply Machine.safe_iff_allSteps_of_enabled Inv (fun _ h => h.orderly) (fun _ _ h => h) _ _ labels _
    (.inl (open_new capacity threadNum urlProcessors)) henabled
  · intro s label next h _ hdrained hstep
    exact step_inv h hdrained hstep
  · intro s label next h hdrained hstep
    exact step_not_orderly h hdrained hstep

def answeredFirst : List Label :=
  [.request 0 ['/'], .process 0 false [], .process 0 false [], .process 0 false [], .notify (some 0),
    .advance false, .advance false, .advance false, .advance false, .advance false, .advance false,
    .free, .clear, .stop]

theorem shutdown_orderly_one : Machine.Safe step Orderly (new 1 1 [['/']]) answeredFirst :=
  (shutdown_orderly_iff 1 1 [['/']] answeredFirst (by decide +kernel)).mpr (by decide +kernel)

/-- The worker is in its processor when `StopInLoop` begins: it adds its headers to a request that is
gone, and the master loop sends the reply to it before it ends. -/
theorem shutdown_not_orderly :
    ∃ s, Machine.run step (new 1 1 [['/']])
        [.request 0 ['/'], .process 0 false [], .free, .clear, .process 0 true [], .process 0 false [],
          .notify (some 0), .stop, .advance false, .advance false, .advance false, .advance false] =
          some s ∧
      s.dispatched = [0] ∧ s.answered = [] ∧ s.late = [0, 0] ∧ ¬ s.Orderly :=
  ⟨_, rfl, rfl, rfl, rfl, by decide +kernel⟩

end HttpServer

end EasyLib.Http
