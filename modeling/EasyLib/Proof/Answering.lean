import EasyLib.Lib.Progress
import EasyLib.Proof.Shutdown

/-!
# Every request gets its answer

While the server runs, a request is in one place, so that it is not answered twice. That it is answered at
all is shown in three steps: the callers of `SendReply` finish their `Notify`, the master loop empties the
pipe and the list, and then some thread of the pool has nothing to wait for and takes its request a step
further. No new request is needed for this, and none of the steps takes a request back.
-/

namespace EasyLib.Http

open Common
open scoped List

namespace HttpServer

variable {s next : HttpServer} {index : ℕ} {worker other : Worker} {label : Label}

structure Running (s : HttpServer) : Prop where
  places : Open s
  service : s.service.Inv
  callers : ∀ index, s.service.notifying (some index) = true → index < s.workers.length

theorem running_new {capacity : ℕ} (hcapacity : 0 < capacity) (threadNum : ℕ)
    (urlProcessors : List Str) : Running (new capacity threadNum urlProcessors) where
  places := open_new capacity threadNum urlProcessors
  service := HttpService.inv_new hcapacity
  callers := fun _ hnotifying => by cases hnotifying

theorem length_setWorker (s : HttpServer) (index : ℕ) (worker : Worker) :
    (s.setWorker index worker).workers.length = s.workers.length := List.length_set

theorem notifying_sendReply {service : HttpService (Option ℕ)} {caller : Option ℕ} {req : ℕ}
    {buffer : Str} (hservice : s.service.step (.sendReply caller req buffer) = some service) :
    service.notifying = Function.update s.service.notifying caller true := by
  obtain ⟨-, hnext⟩ := Option.ite_none_left_eq_some.mp hservice
  rw [← Option.some.inj hnext]

theorem process_running {headers : Bool} {response : Str} (h : Running s)
    (hworker : s.workers[index]? = some worker)
    (hprocess : s.process index headers response worker = some next) : Running next := by
  have hopen := process_open h.places hworker hprocess
  obtain ⟨phase, functors⟩ := worker
  cases phase with
  | idle =>
      cases functors with
      | nil => cases hprocess
      | cons req functors =>
          obtain ⟨-, hnext⟩ := Option.ite_none_left_eq_some.mp hprocess
          obtain rfl := Option.some.inj hnext
          exact ⟨hopen, h.service, fun index' h' => length_setWorker s .. ▸ h.callers index' h'⟩
  | processing req =>
      obtain rfl := Option.some.inj hprocess
      exact ⟨hopen, h.service, fun index' h' => length_setWorker s .. ▸ h.callers index' h'⟩
  | replying req buffer =>
      obtain ⟨service, hservice, rfl⟩ := Option.map_eq_some_iff.mp hprocess
      refine ⟨hopen, HttpService.step_inv h.service hservice, fun index' h' => ?_⟩
      have hlength := length_setWorker s index ⟨.idle, functors⟩
      obtain ⟨hlt, -⟩ := List.getElem?_eq_some_iff.mp hworker
      rw [notifying_sendReply hservice] at h'
      by_cases heq : index' = index
      · exact hlength ▸ heq ▸ hlt
      · rw [Function.update_of_ne (by simpa using heq)] at h'
        exact hlength ▸ h.callers index' h'

theorem dispatchRequests_running {url : Str} (h : Running s)
    (hdispatch : s.dispatchRequests index url = some next) : Running next := by
  have hopen := dispatchRequests_open h.places hdispatch
  unfold dispatchRequests at hdispatch
  split_ifs at hdispatch with hurl
  · obtain ⟨worker, hworker, rfl⟩ := Option.map_eq_some_iff.mp hdispatch
    exact ⟨hopen, h.service, fun index' h' => length_setWorker s .. ▸ h.callers index' h'⟩
  · obtain ⟨service, hservice, rfl⟩ := Option.map_eq_some_iff.mp hdispatch
    refine ⟨hopen, HttpService.step_inv h.service hservice, fun index' h' => h.callers index' ?_⟩
    rwa [notifying_sendReply hservice, Function.update_of_ne (by simp)] at h'

theorem notify_running {caller : Option ℕ} (h : Running s)
    (hstep : s.step (.notify caller) = some next) : Running next := by
  obtain ⟨service, hservice, rfl⟩ := Option.map_eq_some_iff.mp hstep
  have hinv := HttpService.step_inv h.service hservice
  rw [HttpService.notify_eq hservice] at hinv ⊢
  refine ⟨{ h.places with }, hinv, fun index' h' => h.callers index' ?_⟩
  dsimp only at h'
  by_cases heq : some index' = caller
  · rw [heq, Function.update_self] at h'
    cases h'
  · rwa [Function.update_of_ne heq] at h'

theorem notifying_advance {service : HttpService (Option ℕ)} {interrupted : Bool}
    (hservice : s.service.advance interrupted = some service) :
    service.notifying = s.service.notifying := by
  cases HttpService.advance_of_eq_some hservice <;> rfl

theorem advance_running {interrupted : Bool} (h : Running s)
    (hadvance : s.advance interrupted = some next) : Running next := by
  have hopen := advance_open h.places hadvance
  obtain ⟨service, hservice, rfl⟩ := Option.map_eq_some_iff.mp hadvance
  refine ⟨hopen, HttpService.advance_inv h.service (HttpService.advance_of_eq_some hservice), ?_⟩
  intro index' h'
  exact h.callers index' (notifying_advance hservice ▸ h')

/-- `StopInLoop` is never undone, so that what holds until it begins holds while the server runs. -/
def UntilStop (s : HttpServer) : Prop := s.stage = .running → Running s

theorem step_untilStop (h : UntilStop s) (hstep : s.step label = some next) : UntilStop next := by
  intro hrunning
  cases label with
  | request index url =>
      obtain ⟨⟨hrunning, -⟩, hdispatch⟩ := Option.ite_none_right_eq_some.mp hstep
      exact dispatchRequests_running (h hrunning) hdispatch
  | process index headers response =>
      obtain ⟨worker, hworker, hprocess⟩ := Option.bind_eq_some_iff.mp hstep
      have hstage : next.stage = s.stage := by
        obtain ⟨phase, functors⟩ := worker
        cases phase with
        | idle =>
            cases functors with
            | nil => cases hprocess
            | cons req functors =>
                obtain ⟨-, hnext⟩ := Option.ite_none_left_eq_some.mp hprocess
                rw [← Option.some.inj hnext]
                rfl
        | processing req =>
            rw [← Option.some.inj hprocess]
            rfl
        | replying req buffer =>
            obtain ⟨service, -, rfl⟩ := Option.map_eq_some_iff.mp hprocess
            rfl
      exact process_running (h (hstage.symm.trans hrunning)) hworker hprocess
  | notify caller =>
      have hstage : next.stage = s.stage := by
        obtain ⟨service, -, rfl⟩ := Option.map_eq_some_iff.mp hstep
        rfl
      exact notify_running (h (hstage.symm.trans hrunning)) hstep
  | advance interrupted =>
      obtain ⟨-, hadvance⟩ := Option.ite_none_right_eq_some.mp hstep
      have hstage : next.stage = s.stage := by
        obtain ⟨service, -, rfl⟩ := Option.map_eq_some_iff.mp hadvance
        rfl
      exact advance_running (h (hstage.symm.trans hrunning)) hadvance
  | free =>
      obtain ⟨-, hnext⟩ := Option.ite_none_right_eq_some.mp hstep
      rw [← Option.some.inj hnext] at hrunning
      cases hrunning
  | clear =>
      obtain ⟨-, hnext⟩ := Option.ite_none_right_eq_some.mp hstep
      rw [← Option.some.inj hnext] at hrunning
      cases hrunning
  | stop =>
      obtain ⟨-, hnext⟩ := Option.ite_none_right_eq_some.mp hstep
      rw [← Option.some.inj hnext] at hrunning
      cases hrunning

/-! ### What the threads can do by themselves -/

/-- The steps of the threads of the pool and of the master loop that finish what they have begun. -/
def Own (_ : HttpServer) : Label → Prop
  | .process _ _ _ | .notify _ | .advance false => True
  | .request _ _ | .advance true | .free | .clear | .stop => False

/-- Nobody is in `SendReply` or in `CallBack`, and the pipe is empty. -/
structure Quiet (s : HttpServer) : Prop where
  callers : ∀ caller, s.service.notifying caller = false
  callBack : s.service.callBack = .waiting
  unread : s.service.unread = 0

/-- The requests are with the workers as they were. -/
structure Beside (s next : HttpServer) : Prop where
  running : Running next
  workers : next.workers = s.workers
  requests : next.requests = s.requests

theorem Beside.trans {last : HttpServer} (h : Beside s next) (hlast : Beside next last) :
    Beside s last :=
  ⟨hlast.running, hlast.workers.trans h.workers, hlast.requests.trans h.requests⟩

/-- The callers in a list finish their `Notify` one after the other. -/
theorem leads_notified (callers : List (Option ℕ)) (h : Running s) :
    Machine.Leads step Own (fun last => Beside s last ∧
      ∀ caller ∈ callers, last.service.notifying caller = false) s := by
  induction callers with
  | nil => exact .refl ⟨⟨h, rfl, rfl⟩, by simp⟩
  | cons caller callers ih =>
      refine ih.trans ?_
      rintro middle ⟨hbeside, hcallers⟩
      cases hnotifying : middle.service.notifying caller with
      | false => exact .refl ⟨hbeside, List.forall_mem_cons.mpr ⟨hnotifying, hcallers⟩⟩
      | true =>
          have hstep : middle.step (.notify caller) = some { middle with
              service := { middle.service.notify with
                notifying := Function.update middle.service.notifying caller false } } := by
            simp [step, HttpService.step, hnotifying]
          have hown : Own middle (.notify caller) := trivial
          refine .head hown hstep (.refl ⟨hbeside.trans ?_, fun other hother => ?_⟩)
          · exact ⟨notify_running hbeside.running hstep, rfl, rfl⟩
          · dsimp only
            by_cases heq : other = caller
            · rw [heq, Function.update_self]
            · rw [Function.update_of_ne heq]
              exact hcallers other ((List.mem_cons.mp hother).resolve_left heq)

theorem leads_unnotifying (h : Running s) :
    Machine.Leads step Own (fun last => Beside s last ∧
      ∀ caller, last.service.notifying caller = false) s := by
  refine (leads_notified (none :: (List.range s.workers.length).map some) h).imp ?_
  rintro last ⟨hbeside, hcallers⟩
  refine ⟨hbeside, fun caller => ?_⟩
  cases caller with
  | none => exact hcallers none List.mem_cons_self
  | some index =>
      by_contra hnotifying
      have hlt := hbeside.running.callers index (Bool.eq_true_of_not_eq_false hnotifying)
      rw [hbeside.workers] at hlt
      refine hnotifying (hcallers (some index) (List.mem_cons_of_mem _ ?_))
      exact List.mem_map_of_mem (List.mem_range.mpr hlt)

/-- What the master loop has in front of it. A byte is worth the whole round that it causes. -/
def rounds (service : HttpService (Option ℕ)) : ℕ :=
  4 * service.unread + 2 * service.pendingReplyList.length +
    match service.callBack with
    | .waiting => 1
    | .reading => 2
    | .handling => 4
    | .sending replies => replies.length + 3

theorem advance_own {service : HttpService (Option ℕ)} (hrunning : s.stage = .running)
    (hnotifying : s.service.notifying none = false)
    (hservice : s.service.advance false = some service) :
    s.step (.advance false) =
      some { s.touch ((s.service.taken.take 1).map PendingReply.req) with service } := by
  rw [step, if_pos ⟨.inl hrunning, hnotifying⟩, advance, hservice]
  rfl

/-- Where the loop does not wait, one step brings it further. -/
theorem exists_advance_of_not_waiting {service : HttpService (Option ℕ)}
    (hcallBack : service.callBack ≠ .waiting) :
    ∃ after, service.advance false = some after ∧ rounds after < rounds service := by
  obtain ⟨list, capacity, unread, callBack, notifying, queued, sent⟩ := service
  cases callBack with
  | waiting => exact absurd rfl hcallBack
  | reading =>
      by_cases hunread : unread = 0
      · exact ⟨_, if_pos (.inl hunread), by simp [rounds]⟩
      · refine ⟨_, if_neg (by simpa using hunread), ?_⟩
        simp only [rounds]
        omega
  | handling =>
      refine ⟨_, rfl, ?_⟩
      simp only [rounds, List.length_nil]
      omega
  | sending replies =>
      cases replies with
      | nil => exact ⟨_, rfl, by simp [rounds]⟩
      | cons reply replies => exact ⟨_, rfl, by simp [rounds]⟩

theorem leads_advance {service : HttpService (Option ℕ)} {post : HttpServer → Prop}
    (h : Running s) (hcallers : ∀ caller, s.service.notifying caller = false)
    (hservice : s.service.advance false = some service)
    (hpost : ∀ next, Beside s next → next.service = service →
      (∀ caller, next.service.notifying caller = false) → Machine.Leads step Own post next) :
    Machine.Leads step Own post s := by
  have hstep := advance_own h.places.running (hcallers none) hservice
  have hown : Own s (.advance false) := trivial
  refine .head hown hstep (hpost _ ⟨?_, rfl, rfl⟩ rfl ?_)
  · obtain ⟨-, hadvance⟩ := Option.ite_none_right_eq_some.mp hstep
    exact advance_running h hadvance
  · intro caller
    exact (congrFun (notifying_advance hservice) caller).trans (hcallers caller)

theorem leads_quiet (h : Running s) :
    Machine.Leads step Own (fun last => Beside s last ∧ Quiet last) s := by
  refine (leads_unnotifying h).trans ?_
  rintro middle ⟨hbeside, hcallers⟩
  have hdrain : Machine.Leads step Own (fun last =>
      (Beside s last ∧ ∀ caller, last.service.notifying caller = false) ∧
        last.service.callBack = .waiting ∧ last.service.unread = 0) middle := by
    apply Machine.leads_of_measure _ (fun last => rounds last.service) _ ⟨hbeside, hcallers⟩
    rintro state ⟨hbeside, hcallers⟩ hnot
    by_cases hcallBack : state.service.callBack = .waiting
    · -- a byte is unread: the loop fires and reads it
      have hunread : 0 < state.service.unread := Nat.pos_of_ne_zero fun hzero => hnot ⟨hcallBack, hzero⟩
      have hfire : state.service.advance false = some { state.service with callBack := .reading } := by
        rw [HttpService.advance, hcallBack]
        exact if_pos hunread
      refine leads_advance hbeside.running hcallers hfire fun next hnext hservice hcallers' => ?_
      have hread : next.service.advance false =
          some { next.service with unread := next.service.unread - 1, callBack := .handling } := by
        rw [hservice, HttpService.advance]
        exact if_neg (by simp [Nat.ne_of_gt hunread])
      refine leads_advance hnext.running hcallers' hread fun last hlast hservice' hcallers'' => ?_
      refine .refl ⟨⟨hbeside.trans (hnext.trans hlast), hcallers''⟩, ?_⟩
      rw [hservice', hservice]
      simp only [rounds, hcallBack]
      omega
    · obtain ⟨after, hafter, hlt⟩ := exists_advance_of_not_waiting hcallBack
      refine leads_advance hbeside.running hcallers hafter fun next hnext hservice hcallers' => ?_
      exact .refl ⟨⟨hbeside.trans hnext, hcallers'⟩, hservice ▸ hlt⟩
  refine hdrain.imp ?_
  rintro last ⟨⟨hbeside, hcallers⟩, hwaiting, hunread⟩
  exact ⟨hbeside, hcallers, hwaiting, hunread⟩

/-! ### The threads of the pool -/

def Worker.rank (worker : Worker) : ℕ :=
  3 * worker.functors.length +
    match worker.phase with
    | .idle => 0
    | .processing _ => 2
    | .replying _ _ => 1

def work (s : HttpServer) : ℕ := (s.workers.map Worker.rank).sum

theorem work_setWorker_lt (hworker : s.workers[index]? = some worker)
    (hlt : Worker.rank other < Worker.rank worker) : (s.setWorker index other).work < s.work := by
  obtain ⟨hindex, hget⟩ := List.getElem?_eq_some_iff.mp hworker
  have hold : s.work = Worker.rank worker + ((s.workers.eraseIdx index).map Worker.rank).sum := by
    have hperm := ((List.getElem_cons_eraseIdx_perm hindex).symm.map Worker.rank).sum_nat
    rwa [hget, List.map_cons, List.sum_cons] at hperm
  have hnew : (s.setWorker index other).work =
      Worker.rank other + ((s.workers.eraseIdx index).map Worker.rank).sum := by
    have hperm := ((List.set_perm_cons_eraseIdx hindex other).map Worker.rank).sum_nat
    rwa [List.map_cons, List.sum_cons] at hperm
  omega

/-- With nobody to wait for, a thread that has a request takes it a step further. -/
theorem exists_process (hquiet : Quiet s) (hworker : s.workers[index]? = some worker)
    (hrequests : worker.requests ≠ []) :
    ∃ next, s.step (.process index false []) = some next ∧ next.requests = s.requests ∧
      next.work < s.work := by
  have hstep (next : HttpServer) (hprocess : s.process index false [] worker = some next) :
      s.step (.process index false []) = some next := by
    rw [step, hworker]
    exact hprocess
  obtain ⟨phase, functors⟩ := worker
  cases phase with
  | idle =>
      cases functors with
      | nil => exact absurd rfl hrequests
      | cons req functors =>
          have hnotifying := hquiet.callers (some index)
          refine ⟨_, hstep _ (if_neg (by simp [hnotifying])), rfl, work_setWorker_lt hworker ?_⟩
          simp only [Worker.rank, List.length_cons]
          omega
  | processing req =>
      have hlt : Worker.rank ⟨.replying req [], functors⟩ < Worker.rank ⟨.processing req, functors⟩ := by
        simp [Worker.rank]
      exact ⟨_, hstep _ rfl, rfl, work_setWorker_lt hworker hlt⟩
  | replying req buffer =>
      have hservice : s.service.step (.sendReply (some index) req buffer) =
          some { s.service.pushBack req buffer with
            notifying := Function.update s.service.notifying (some index) true } :=
        if_neg (by simp [hquiet.callers (some index)])
      have hlt : Worker.rank ⟨.idle, functors⟩ < Worker.rank ⟨.replying req buffer, functors⟩ := by
        simp [Worker.rank]
      exact ⟨_, hstep _ (congrArg (Option.map _) hservice), rfl, work_setWorker_lt hworker hlt⟩

/-- As long as something is with the workers, it can be brought further. -/
theorem leads_finished (h : Running s) :
    Machine.Leads step Own (fun last =>
      (Running last ∧ last.requests = s.requests) ∧ last.unfinished = []) s := by
  apply Machine.leads_of_measure _ work _ ⟨h, rfl⟩
  rintro state ⟨hrunning, hrequests⟩ hunfinished
  refine (leads_quiet hrunning).trans ?_
  rintro middle ⟨hbeside, hquiet⟩
  obtain ⟨worker, hmem, hworker⟩ : ∃ worker ∈ middle.workers, worker.requests ≠ [] := by
    by_contra hnone
    push Not at hnone
    exact hunfinished (List.flatMap_eq_nil_iff.mpr (hbeside.workers ▸ hnone))
  obtain ⟨index, hindex⟩ := List.getElem?_of_mem hmem
  obtain ⟨next, hstep, hsame, hlt⟩ := exists_process hquiet hindex hworker
  have hown : Own middle (.process index false []) := trivial
  refine .head hown hstep (.refl ⟨⟨?_, ?_⟩, ?_⟩)
  · obtain ⟨worker', hworker', hprocess⟩ := Option.bind_eq_some_iff.mp hstep
    exact process_running hbeside.running hworker' hprocess
  · rw [hsame, hbeside.requests, hrequests]
  · have hwork : middle.work = state.work := by rw [work, hbeside.workers, work]
    rwa [hwork] at hlt

/-- When all is quiet and nothing is with the workers, everything has been sent. -/
theorem Quiet.answered (hquiet : Quiet s) (h : Running s) (hunfinished : s.unfinished = []) :
    s.service.sent.map PendingReply.req ~ List.range s.requests := by
  have hlist : s.service.pendingReplyList = [] := by
    by_contra hne
    rcases h.service.covered hne with hunread | ⟨caller, hcaller⟩ | hhandling
    · exact absurd hquiet.unread (Nat.ne_of_gt hunread)
    · exact absurd (hquiet.callers caller) (by simp [hcaller])
    · exact absurd (hquiet.callBack.symm.trans hhandling) (by decide)
  have hplaces := h.places.places
  rwa [hunfinished, List.append_nil, HttpService.replies, HttpService.taken_of_waiting hquiet.callBack,
    hlist, List.append_nil, List.append_nil] at hplaces

/-- **No request is answered twice, and none is forgotten**: whatever has happened while the server runs,
its threads can answer all the requests that have come, each once, without any further request. That every
processor calls its response callback, and only once, is a part of the model. -/
theorem requests_answered {capacity threadNum : ℕ} {urlProcessors : List Str} {labels : List Label}
    (hcapacity : 0 < capacity)
    (hrun : Machine.run step (new capacity threadNum urlProcessors) labels = some s)
    (hstage : s.stage = .running) :
    (s.service.sent.map PendingReply.req).Nodup ∧
      Machine.Leads step Own (fun last => last.requests = s.requests ∧
        last.service.sent.map PendingReply.req ~ List.range s.requests) s := by
  have huntil : UntilStop s := Machine.run_invariant_of_forall (fun _ _ _ h => step_untilStop h)
    (fun _ => running_new hcapacity threadNum urlProcessors) hrun
  have h := huntil hstage
  constructor
  · have hnodup := h.places.places.nodup_iff.mpr List.nodup_range
    rw [HttpService.replies, List.append_assoc, List.map_append] at hnodup
    exact hnodup.of_append_left.of_append_left
  · refine (leads_finished h).trans ?_
    rintro middle ⟨⟨hrunning, hrequests⟩, hunfinished⟩
    refine (leads_quiet hrunning).imp ?_
    rintro last ⟨hbeside, hquiet⟩
    have hnone : last.unfinished = [] := by
      rw [HttpServer.unfinished, hbeside.workers]
      exact hunfinished
    have hanswered := hquiet.answered hbeside.running hnone
    rw [hbeside.requests, hrequests] at hanswered
    exact ⟨hbeside.requests.trans hrequests, hanswered⟩

/-- One request with the worker, and a reply in the list. -/
def twoRequests : List Label :=
  [.request 0 ['a'], .request 0 ['b'], .process 0 false [], .notify none]

theorem requests_answered_two :
    ∃ s, Machine.run step (new 1 1 [['a']]) twoRequests = some s ∧ s.requests = 2 ∧
      s.service.sent = [] ∧ Machine.Leads step Own (fun last => last.requests = s.requests ∧
        last.service.sent.map PendingReply.req ~ List.range s.requests) s := by
  have hreached : ∃ s, Machine.run step (new 1 1 [['a']]) twoRequests = some s ∧
      s.stage = .running ∧ s.requests = 2 ∧ s.service.sent = [] := ⟨_, rfl, rfl, rfl, rfl⟩
  obtain ⟨s, hrun, hstage, hrequests, hsent⟩ := hreached
  exact ⟨s, hrun, hrequests, hsent, (requests_answered Nat.one_pos hrun hstage).2⟩

end HttpServer

end EasyLib.Http
