import EasyLib.Proof.ThreadControl
import EasyLib.Thread.EventLoopThreadPool
import EasyLib.Thread.Starting

/-!
# What `EventLoopThread::Start` tells its caller

The result of `Thread::start()` is joined to the flag the wrong way round: a caller with a thread does not
wait for it, and a caller without one is told that there is one, or waits for it for ever. So the answer
is right exactly where nothing had to be waited for: the thread was created, and it runs already if that
matters.

The caller goes through stages, one after the other, and only `pthread_create` can take it to the stages
without a thread. The steps of the new thread change nothing about the stage.
-/

namespace EasyLib.Thread

/-- The stages of a call of `Start`. Those from `resetState` on are without a thread. -/
inductive StartStage where
  | entering
  | setStarting
  | clearHandle
  | creating
  | storing
  | started
  | returned
  | resetState
  | failed
  | polling
  | told
  deriving DecidableEq, Repr

namespace StartStage

def next (wait : Bool) : StartStage → Option StartStage
  | .entering => some .setStarting
  | .setStarting => some .clearHandle
  | .clearHandle => some .creating
  | .creating => some .storing
  | .storing => some .started
  | .started => some .returned
  | .resetState => some .failed
  | .failed => some (if wait then .polling else .told)
  | .polling => some .polling
  | .returned | .told => none

/-- `pthread_create` has not failed. -/
def intact : StartStage → Bool
  | .entering | .setStarting | .clearHandle | .creating | .storing | .started | .returned => true
  | .resetState | .failed | .polling | .told => false

end StartStage

namespace Starting

open Machine

variable {s next : Starting} {stage stage' : StartStage} {i : ℕ}

def At (s : Starting) : StartStage → Prop
  | .entering =>
      s.place = .entering ∧ s.thread.control = .idle ∧ s.thread.workers = [] ∧ s.thread.nState = .null
  | .setStarting => s.place = .starting ∧ s.thread.control = .setStarting ∧ s.thread.workers = []
  | .clearHandle => s.place = .starting ∧ s.thread.control = .clearHandle ∧ s.thread.workers = []
  | .creating => s.place = .starting ∧ s.thread.control = .creating ∧ s.thread.workers = []
  | .storing =>
      s.place = .starting ∧ (∃ worker, s.thread.control = .storing worker) ∧ s.thread.workers ≠ []
  | .started => s.place = .started true ∧ s.thread.control = .idle ∧ s.thread.workers ≠ []
  | .returned => s.place = .returned true ∧ s.thread.control = .idle ∧ s.thread.workers ≠ []
  | .resetState => s.place = .starting ∧ s.thread.control = .resetState ∧ s.thread.workers = []
  | .failed =>
      s.place = .started false ∧ s.thread.control = .idle ∧ s.thread.workers = [] ∧
        s.thread.nState = .null
  | .polling =>
      s.place = .polling ∧ s.thread.control = .idle ∧ s.thread.workers = [] ∧ s.thread.nState = .null ∧
        s.wait = true
  | .told =>
      s.place = .returned true ∧ s.thread.control = .idle ∧ s.thread.workers = [] ∧ s.wait = false

theorem new_at (wait : Bool) : (new wait).At .entering := ⟨rfl, rfl, rfl, rfl⟩

/-! ### The steps -/

/-- What the caller does at a stage of `Thread::start()`. -/
theorem proceed_at (h : s.At stage) (hplace : s.place = .starting)
    (hnext : stage.next s.wait = some stage') :
    ∃ next, s.proceed = some next ∧ next.At stage' ∧ next.wait = s.wait ∧ next.reached = s.reached := by
  cases stage with
  | setStarting =>
      cases hnext
      obtain ⟨-, hcontrol, hnone⟩ := h
      have hproceed : s.proceed = some { s with
          thread := { s.thread with nState := .starting, control := .clearHandle } } := by
        simp [proceed, hcontrol, Thread.proceed]
      exact ⟨_, hproceed, ⟨hplace, rfl, hnone⟩, rfl, rfl⟩
  | clearHandle =>
      cases hnext
      obtain ⟨-, hcontrol, hnone⟩ := h
      have hproceed : s.proceed = some { s with
          thread := { s.thread with hThread := none, control := .creating } } := by
        simp [proceed, hcontrol, Thread.proceed]
      exact ⟨_, hproceed, ⟨hplace, rfl, hnone⟩, rfl, rfl⟩
  | creating =>
      cases hnext
      obtain ⟨-, hcontrol, hnone⟩ := h
      have hproceed : s.proceed = some { s with
          thread := { s.thread with
            workers := s.thread.workers ++ [.created]
            control := .storing s.thread.workers.length } } := by
        simp [proceed, hcontrol, Thread.proceed]
      exact ⟨_, hproceed, ⟨hplace, ⟨_, rfl⟩, by simp⟩, rfl, rfl⟩
  | storing =>
      cases hnext
      obtain ⟨-, ⟨worker, hcontrol⟩, hsome⟩ := h
      have hproceed : s.proceed = some { s with
          thread := { s.thread with hThread := some worker, control := .idle }
          place := .started true } := by
        simp [proceed, hcontrol, Thread.proceed]
      exact ⟨_, hproceed, ⟨rfl, rfl, hsome⟩, rfl, rfl⟩
  | resetState =>
      cases hnext
      obtain ⟨-, hcontrol, hnone⟩ := h
      have hproceed : s.proceed = some { s with
          thread := { s.thread with nState := .null, control := .idle }
          place := .started false } := by
        simp [proceed, hcontrol, Thread.proceed]
      exact ⟨_, hproceed, ⟨rfl, rfl, hnone, rfl⟩, rfl, rfl⟩
  | entering | started | returned | failed | polling | told =>
      exact absurd (h.1.symm.trans hplace) (by simp)

/-- What the caller does at a stage. -/
theorem caller_at (h : s.At stage) (hnext : stage.next s.wait = some stage') :
    ∃ next, s.caller = some next ∧ next.At stage' ∧ next.wait = s.wait ∧ next.reached = s.reached := by
  cases stage with
  | setStarting | clearHandle | creating | storing | resetState =>
      rw [caller, h.1]
      exact proceed_at h h.1 hnext
  | entering =>
      cases hnext
      obtain ⟨hplace, hcontrol, hnone, hstate⟩ := h
      refine ⟨{ s with thread := s.thread.start, place := .starting }, by rw [caller, hplace], ?_, rfl, rfl⟩
      exact ⟨rfl, if_pos hstate, hnone⟩
  | started =>
      cases hnext
      obtain ⟨hplace, hcontrol, hsome⟩ := h
      refine ⟨{ s with place := .returned true }, ?_, ⟨rfl, hcontrol, hsome⟩, rfl, rfl⟩
      simp only [caller, hplace, true_or, if_true]
  | failed =>
      obtain ⟨hplace, hcontrol, hnone, hstate⟩ := h
      cases hwait : s.wait with
      | true =>
          rw [hwait] at hnext
          cases hnext
          refine ⟨{ s with place := .polling }, ?_, ⟨rfl, hcontrol, hnone, hstate, hwait⟩, hwait, rfl⟩
          simp [caller, hplace, hwait]
      | false =>
          rw [hwait] at hnext
          cases hnext
          refine ⟨{ s with place := .returned true }, ?_, ⟨rfl, hcontrol, hnone, hwait⟩, hwait, rfl⟩
          simp [caller, hplace, hwait]
  | polling =>
      cases hnext
      refine ⟨s, ?_, h, rfl, rfl⟩
      obtain ⟨hplace, hcontrol, hnone, hstate, hwait⟩ := h
      simp [caller, hplace, hstate]
  | returned | told => cases hnext

theorem caller_at_none (h : s.At stage) (hnext : stage.next s.wait = none) : s.caller = none := by
  cases stage with
  | returned => simp [caller, h.1]
  | told => simp [caller, h.1]
  | _ => simp [StartStage.next] at hnext

/-- Every step of the caller takes it to the next stage. -/
theorem caller_cases (h : s.At stage) (hstep : s.caller = some next) :
    ∃ stage', stage.next s.wait = some stage' ∧ next.At stage' ∧ next.wait = s.wait ∧
      next.reached = s.reached := by
  cases hnext : stage.next s.wait with
  | none =>
      rw [caller_at_none h hnext] at hstep
      cases hstep
  | some stage' =>
      obtain ⟨next', hcaller, hat, hwait, hreached⟩ := caller_at h hnext
      obtain rfl : next' = next := Option.some.inj (hcaller.symm.trans hstep)
      exact ⟨stage', rfl, hat, hwait, hreached⟩

theorem stage_of_creating (h : s.At stage) (hcontrol : s.thread.control = .creating) :
    stage = .creating := by
  cases stage with
  | creating => rfl
  | storing =>
      obtain ⟨-, ⟨worker, hstoring⟩, -⟩ := h
      rw [hstoring] at hcontrol
      cases hcontrol
  | _ => exact absurd (h.2.1.symm.trans hcontrol) (by simp)

theorem stage_of_returned (h : s.At stage) (hplace : s.place = .returned true)
    (hintact : stage.intact = true) : stage = .returned := by
  cases stage with
  | returned => rfl
  | told => cases hintact
  | _ => exact absurd (h.1.symm.trans hplace) (by simp)

theorem stage_of_started (h : s.At stage) (hplace : s.place = .started true) : stage = .started := by
  cases stage with
  | started => rfl
  | _ => exact absurd (h.1.symm.trans hplace) (by simp)

theorem next_intact {wait : Bool} (h : stage.intact = true) (hnext : stage.next wait = some stage') :
    stage'.intact = true := by
  cases stage <;> cases hnext <;> first | rfl | cases h

theorem stage_of_next_returned {wait : Bool} (hnext : stage.next wait = some .returned) :
    stage = .started := by
  cases stage with
  | started => rfl
  | failed => cases wait <;> cases hnext
  | _ => cases hnext

theorem createFails_at (h : s.At stage) (hstep : s.step .createFails = some next) :
    next.At .resetState ∧ next.wait = s.wait := by
  simp only [step, Thread.step] at hstep
  split at hstep
  · rename_i hcontrol
    obtain rfl := Option.some.inj hstep
    obtain rfl := stage_of_creating h hcontrol
    exact ⟨⟨h.1, rfl, h.2.2⟩, rfl⟩
  · cases hstep

theorem doWork_frame {thread next : Thread} (hstep : thread.doWork i = some next) :
    next.control = thread.control ∧ thread.workers ≠ [] ∧ next.workers ≠ [] := by
  have hne : thread.workers ≠ [] := by
    intro hnil
    simp [Thread.doWork, hnil] at hstep
  have hframe : next.control = thread.control ∧ next.workers.length = thread.workers.length := by
    obtain ⟨-, -, rfl⟩ | ⟨-, -, rfl⟩ | ⟨-, rfl⟩ | ⟨-, rfl⟩ | ⟨-, rfl⟩ | ⟨-, rfl⟩ :=
      Thread.doWork_cases hstep <;> simp [Thread.moveTo]
  refine ⟨hframe.1, hne, ?_⟩
  rw [← List.length_pos_iff, hframe.2]
  exact List.length_pos_iff.mpr hne

/-- A step of the new thread leaves the caller where it is. -/
theorem worker_at (h : s.At stage) (hstep : s.step (.worker i) = some next) :
    next.At stage ∧ next.wait = s.wait ∧ (s.reached = true → next.reached = true) := by
  obtain ⟨thread, hthread, rfl⟩ := Option.map_eq_some_iff.mp hstep
  obtain ⟨hcontrol, hbefore, hafter⟩ := doWork_frame hthread
  refine ⟨?_, rfl, fun hreached => by simp [hreached]⟩
  cases stage with
  | storing =>
      obtain ⟨hplace, ⟨worker, hstoring⟩, -⟩ := h
      exact ⟨hplace, ⟨worker, hcontrol.trans hstoring⟩, hafter⟩
  | started | returned => exact ⟨h.1, hcontrol.trans h.2.1, hafter⟩
  | setStarting | clearHandle | creating | resetState => exact absurd h.2.2 hbefore
  | entering | failed | polling | told => exact absurd h.2.2.1 hbefore

/-! ### Getting back -/

theorem Returns.of_caller (hstep : s.caller = some next) (h : next.Returns) : s.Returns := by
  obtain ⟨steps, last, value, hrun, hplace⟩ := h
  refine ⟨steps + 1, last, value, ?_, hplace⟩
  rw [List.replicate_succ, run_cons, step, hstep, Option.bind_some, hrun]

theorem returns_of_next (hat : s.At stage) (h : ∀ next : Starting, next.At stage' → next.Returns)
    (hnext : stage.next s.wait = some stage') : s.Returns := by
  obtain ⟨next, hcaller, hat', -, -⟩ := caller_at hat hnext
  exact Returns.of_caller hcaller (h next hat')

/-- From a stage with `pthread_create` still to succeed, or behind it, the caller gets back. -/
theorem returns_of_intact (hintact : stage.intact = true) : ∀ s : Starting, s.At stage → s.Returns := by
  have hreturned (s : Starting) (h : s.At .returned) : s.Returns := ⟨0, s, true, rfl, h.1⟩
  have hstarted (s : Starting) (h : s.At .started) : s.Returns := returns_of_next h hreturned rfl
  have hstoring (s : Starting) (h : s.At .storing) : s.Returns := returns_of_next h hstarted rfl
  have hcreating (s : Starting) (h : s.At .creating) : s.Returns := returns_of_next h hstoring rfl
  have hclear (s : Starting) (h : s.At .clearHandle) : s.Returns := returns_of_next h hcreating rfl
  have hset (s : Starting) (h : s.At .setStarting) : s.Returns := returns_of_next h hclear rfl
  have hentering (s : Starting) (h : s.At .entering) : s.Returns := returns_of_next h hset rfl
  cases stage with
  | entering => exact hentering
  | setStarting => exact hset
  | clearHandle => exact hclear
  | creating => exact hcreating
  | storing => exact hstoring
  | started => exact hstarted
  | returned => exact hreturned
  | resetState | failed | polling | told => cases hintact

theorem run_polling (h : s.At .polling) (steps : ℕ) :
    run step s (List.replicate steps .caller) = some s := by
  obtain ⟨hplace, hcontrol, hnone, hstate, hwait⟩ := h
  have hcaller : s.caller = some s := by simp [caller, hplace, hstate]
  induction steps with
  | zero => rfl
  | succ steps ih => rw [List.replicate_succ, run_cons, step, hcaller, Option.bind_some, ih]

theorem not_returns_polling (h : s.At .polling) : ¬ s.Returns := by
  rintro ⟨steps, last, value, hrun, hplace⟩
  rw [run_polling h] at hrun
  obtain rfl := Option.some.inj hrun
  rw [h.1] at hplace
  cases hplace

/-! ### The answers -/

/-- A run without a failure, and without a caller that should have waited. -/
def Kept (s : Starting) : Prop :=
  ∃ stage : StartStage, s.At stage ∧ stage.intact = true ∧
    (stage = .returned → s.wait = true → s.reached = true)

theorem Kept.truthful (h : s.Kept) : s.Truthful := by
  obtain ⟨stage, hat, hintact, hreached⟩ := h
  refine ⟨fun _ => returns_of_intact hintact s hat, fun hplace => ?_, fun hplace hwait => ?_⟩
  · obtain rfl := stage_of_returned hat hplace hintact
    exact hat.2.2
  · obtain rfl := stage_of_returned hat hplace hintact
    exact hreached rfl hwait

theorem new_kept (wait : Bool) : (new wait).Kept :=
  ⟨.entering, new_at wait, rfl, fun hstage => by cases hstage⟩

theorem step_kept (label : Label) (h : s.Kept) (hok : s.Sound label)
    (hstep : s.step label = some next) : next.Kept := by
  obtain ⟨stage, hat, hintact, hreached⟩ := h
  cases label with
  | caller =>
      obtain ⟨stage', hnext, hat', hwait, hsame⟩ := caller_cases hat hstep
      refine ⟨stage', hat', next_intact hintact hnext, ?_⟩
      rintro rfl
      obtain rfl := stage_of_next_returned hnext
      rw [hwait, hsame]
      exact hok hat.1
  | createFails => exact hok.elim
  | worker i =>
      obtain ⟨hat', hwait, hkept⟩ := worker_at hat hstep
      refine ⟨stage, hat', hintact, fun hstage hwait' => hkept (hreached hstage ?_)⟩
      rw [← hwait, hwait']

/-- A run of any kind. -/
def Located (s : Starting) : Prop := ∃ stage, s.At stage

theorem step_located (s : Starting) (label : Label) (next : Starting) (h : s.Located)
    (hstep : s.step label = some next) : next.Located := by
  obtain ⟨stage, hat⟩ := h
  cases label with
  | caller =>
      obtain ⟨stage', -, hat', -, -⟩ := caller_cases hat hstep
      exact ⟨stage', hat'⟩
  | createFails => exact ⟨_, (createFails_at hat hstep).1⟩
  | worker i => exact ⟨_, (worker_at hat hstep).1⟩

theorem run_located {wait : Bool} {labels : List Label} (hrun : run step (new wait) labels = some s) :
    s.Located :=
  run_invariant_of_forall step_located ⟨_, new_at wait⟩ hrun

/-- Once `pthread_create` has failed, the caller is on its way to a wrong answer or to none. -/
theorem untruthful_of_resetState (h : s.At .resetState) :
    ∃ last, run step s [.caller, .caller] = some last ∧ ¬ last.Truthful := by
  obtain ⟨failed, hfailed, hat, hwait, -⟩ := caller_at h rfl
  obtain ⟨last, hlast, hat', -, -⟩ := caller_at hat rfl
  refine ⟨last, ?_, fun htruthful => ?_⟩
  · rw [run_cons, step, hfailed, Option.bind_some, run_cons, step, hlast, Option.bind_some, run_nil]
  · split at hat'
    · exact not_returns_polling hat' (htruthful.returns fun hsome => absurd hat'.2.2.1 hsome)
    · exact htruthful.created hat'.1 hat'.2.2.1

theorem untruthful_of_not_sound (h : s.Located) {label : Label} (hstep : s.step label = some next)
    (hnot : ¬ s.Sound label) : ∃ more last, run step next more = some last ∧ ¬ last.Truthful := by
  obtain ⟨stage, hat⟩ := h
  cases label with
  | caller =>
      simp only [Sound, not_forall] at hnot
      obtain ⟨hplace, hwait, hreached⟩ := hnot
      obtain rfl := stage_of_started hat hplace
      obtain ⟨stage', hnext, hat', hwait', hsame⟩ := caller_cases hat hstep
      obtain rfl := Option.some.inj hnext
      refine ⟨[], next, rfl, fun htruthful => hreached ?_⟩
      rw [← hsame]
      exact htruthful.running hat'.1 (hwait'.trans hwait)
  | createFails =>
      obtain ⟨last, hrun, huntruthful⟩ := untruthful_of_resetState (createFails_at hat hstep).1
      exact ⟨_, last, hrun, huntruthful⟩
  | worker i => exact absurd trivial hnot

/-- What the pool is told: the outcome of `EventLoopThread.start`, given whether there is a thread. -/
theorem start_outcome {wait : Bool} {labels : List Label} (hrun : run step (new wait) labels = some s) :
    (s.place = .returned true →
      EventLoopThread.start (decide (s.thread.workers ≠ [])) s.wait =
        some (if s.thread.workers = [] then .unstarted else .started)) ∧
    (s.place = .polling → EventLoopThread.start false s.wait = none) := by
  obtain ⟨stage, hat⟩ := run_located hrun
  refine ⟨fun hplace => ?_, fun hplace => ?_⟩
  · cases stage with
    | returned => simp [EventLoopThread.start, hat.2.2]
    | told => simp [EventLoopThread.start, hat.2.2.1, hat.2.2.2]
    | _ => exact absurd (hat.1.symm.trans hplace) (by simp)
  · cases stage with
    | polling => simp [EventLoopThread.start, hat.2.2.2.2]
    | _ => exact absurd (hat.1.symm.trans hplace) (by simp)

/-- `Start` is truthful in every run where no thread fails to be created and no caller should have waited,
and any step that breaks this rule can be followed to an answer that is wrong or does not come. -/
theorem start_truthful (wait : Bool) (labels : List Label) :
    (AllSteps step Sound (new wait) labels → Throughout step Truthful (new wait) labels) ∧
    ∀ s label next, run step (new wait) labels = some s → s.step label = some next →
      ¬ s.Sound label → ∃ more last, run step next more = some last ∧ ¬ last.Truthful := by
  constructor
  · exact throughout_of_allSteps Kept (fun s => Kept.truthful)
      (fun s label next hkept hok hstep => step_kept label hkept hok hstep) labels (new wait)
      (new_kept wait)
  · intro s label next hrun hstep hnot
    exact untruthful_of_not_sound (run_located hrun) hstep hnot

/-- `pthread_create` fails in front of the last two steps. -/
def failing : List Label := [.caller, .caller, .caller, .createFails, .caller, .caller]

/-- Without a thread the caller is told that there is one, or polls for ever; with a thread it gets back
before the thread has taken a step. -/
theorem start_untruthful :
    (∃ s, run step (new false) failing = some s ∧ s.place = .returned true ∧ s.thread.workers = []) ∧
    (∃ s, run step (new true) failing = some s ∧ ¬ s.Returns) ∧
    (∃ s, run step (new true) (List.replicate 6 .caller) = some s ∧ s.place = .returned true ∧
      s.thread.workers = [.created] ∧ s.reached = false) :=
  ⟨⟨_, rfl, rfl, rfl⟩, ⟨_, rfl, not_returns_polling ⟨rfl, rfl, rfl, rfl, rfl⟩⟩, ⟨_, rfl, rfl, rfl, rfl⟩⟩

end Starting

end EasyLib.Thread
