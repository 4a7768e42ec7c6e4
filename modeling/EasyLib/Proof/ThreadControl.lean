import EasyLib.Thread.Thread

/-!
# Stopping and joining a thread

A stop request is lost when `stop()` sets `S_STOPPING` after the worker has seen `S_STARTING`: the
worker then sets `S_RUNNING` over it. Nothing else makes the thread run while a stop is requested.

`join` relies on two variables that `doWork()` clears one after the other. As long as a new worker is
only started when the old ones have cleared both, at most one worker has not finished, and the handle
is the one of that worker or 0.
-/

set_option linter.dupNamespace false

namespace EasyLib.Thread.Thread

open Machine

variable {s next : Thread} {i j : ℕ} {worker : Worker}

theorem doWork_cases (hstep : s.doWork i = some next) :
    (s.workers[i]? = some .created ∧ s.nState ≠ .starting ∧ next = s.moveTo i .leaving) ∨
    (s.workers[i]? = some .created ∧ s.nState = .starting ∧ next = s.moveTo i .entering) ∨
    (s.workers[i]? = some .entering ∧ next = { s.moveTo i .running with nState := .running }) ∨
    (s.workers[i]? = some .running ∧ next = s.moveTo i .leaving) ∨
    (s.workers[i]? = some .leaving ∧ next = { s.moveTo i .clearing with nState := .null }) ∨
    (s.workers[i]? = some .clearing ∧ next = { s.moveTo i .finished with hThread := none }) := by
  simp only [doWork] at hstep
  split at hstep
  · rename_i hworker
    by_cases hstarting : s.nState = .starting
    · simp only [hstarting, ne_eq, not_true_eq_false, if_false, Option.some.injEq] at hstep
      exact .inr (.inl ⟨hworker, hstarting, hstep.symm⟩)
    · simp only [ne_eq, hstarting, not_false_eq_true, if_true, Option.some.injEq] at hstep
      exact .inl ⟨hworker, hstarting, hstep.symm⟩
  · rename_i hworker
    exact .inr (.inr (.inl ⟨hworker, (Option.some.inj hstep).symm⟩))
  · rename_i hworker
    exact .inr (.inr (.inr (.inl ⟨hworker, (Option.some.inj hstep).symm⟩)))
  · rename_i hworker
    exact .inr (.inr (.inr (.inr (.inl ⟨hworker, (Option.some.inj hstep).symm⟩))))
  · rename_i hworker
    exact .inr (.inr (.inr (.inr (.inr ⟨hworker, (Option.some.inj hstep).symm⟩))))
  · cases hstep
  · cases hstep

/-! ### Requests to stop -/

structure Requested (s : Thread) : Prop where
  state : s.stopRequested = true → s.nState ≠ .starting ∧ s.nState ≠ .running
  workers : s.stopRequested = true → .entering ∉ s.workers
  setStarting : s.control = .setStarting → s.stopRequested = false

theorem new_requested : Requested new where
  state := by decide
  workers := by decide
  setStarting := by decide

theorem not_mem_set {workers : List Worker} {place : Worker} (h : place ∉ workers)
    (hne : place ≠ worker) : place ∉ workers.set i worker := by
  intro hmem
  obtain hold | heq := List.mem_or_eq_of_mem_set hmem
  · exact h hold
  · exact hne heq

theorem doWork_requested (h : s.Requested) (hstep : s.doWork i = some next) : next.Requested := by
  obtain ⟨-, -, rfl⟩ | ⟨-, hstarting, rfl⟩ | ⟨hworker, rfl⟩ | ⟨-, rfl⟩ | ⟨-, rfl⟩ | ⟨-, rfl⟩ :=
    doWork_cases hstep
  · exact ⟨h.state, fun hstop => not_mem_set (h.workers hstop) (by decide), h.setStarting⟩
  · exact ⟨h.state, fun hstop => absurd hstarting (h.state hstop).1, h.setStarting⟩
  · have hstop : s.stopRequested ≠ true := fun hstop =>
      h.workers hstop (List.mem_of_getElem? hworker)
    exact ⟨fun h => absurd h hstop, fun h => absurd h hstop, h.setStarting⟩
  · exact ⟨h.state, fun hstop => not_mem_set (h.workers hstop) (by decide), h.setStarting⟩
  · exact ⟨fun _ => ⟨by simp, by simp⟩,
      fun hstop => not_mem_set (h.workers hstop) (by decide), h.setStarting⟩
  · exact ⟨h.state, fun hstop => not_mem_set (h.workers hstop) (by decide), h.setStarting⟩

/-- A step of the controlling thread that leaves the request, the state and the workers alone. -/
theorem Requested.of_control (h : s.Requested) {control : Control} {hThread : Option ℕ}
    {returns : List (Bool × List Worker)} (hcontrol : control ≠ .setStarting) :
    Requested { s with control, hThread, returns } :=
  ⟨h.state, h.workers, fun heq => absurd heq hcontrol⟩

theorem stop_requested (h : s.Requested) {msWait : Option ℕ} {control : Control}
    (hcontrol : control ≠ .setStarting) : (s.stop msWait control).Requested := by
  refine h.of_control ?_
  split
  · exact Control.noConfusion
  · exact hcontrol

theorem proceed_requested (h : s.Requested) (hok : s.Timely .proceed)
    (hstep : s.proceed = some next) : next.Requested := by
  simp only [proceed] at hstep
  split at hstep
  case h_1 | h_2 => cases hstep
  case h_3 hcontrol =>
    rw [← Option.some.inj hstep]
    have hstop := h.setStarting hcontrol
    exact ⟨fun h => absurd (hstop.symm.trans h) Bool.false_ne_true,
      fun h => absurd (hstop.symm.trans h) Bool.false_ne_true, Control.noConfusion⟩
  case h_4 | h_6 =>
    rw [← Option.some.inj hstep]
    exact h.of_control Control.noConfusion
  case h_5 =>
    rw [← Option.some.inj hstep]
    refine ⟨h.state, fun hstop => ?_, Control.noConfusion⟩
    simpa using h.workers hstop
  case h_7 =>
    rw [← Option.some.inj hstep]
    exact ⟨fun _ => ⟨by simp, by simp⟩, h.workers, Control.noConfusion⟩
  case h_8 msWait hcontrol =>
    rw [← Option.some.inj hstep]
    refine ⟨fun _ => ⟨by simp, by simp⟩, fun _ => ?_, fun heq => ?_⟩
    · exact hok (by rw [hcontrol]; rfl)
    · cases msWait <;> cases heq
  case h_9 =>
    rw [← Option.some.inj hstep]
    exact stop_requested h Control.noConfusion
  case h_10 | h_11 | h_12 =>
    split at hstep <;> rw [← Option.some.inj hstep] <;> exact h.of_control Control.noConfusion

theorem step_requested (h : s.Requested) (label : Label) (hok : s.Timely label)
    (hstep : s.step label = some next) : next.Requested := by
  cases label with
  | start =>
      obtain ⟨-, hnext⟩ := Option.ite_none_right_eq_some.mp hstep
      rw [← Option.some.inj hnext]
      exact ⟨fun h => absurd h Bool.false_ne_true, fun h => absurd h Bool.false_ne_true, fun _ => rfl⟩
  | stop =>
      obtain ⟨-, hnext⟩ := Option.ite_none_right_eq_some.mp hstep
      rw [← Option.some.inj hnext]
      exact stop_requested h Control.noConfusion
  | join msWait =>
      obtain ⟨-, hnext⟩ := Option.ite_none_right_eq_some.mp hstep
      rw [← Option.some.inj hnext, join]
      split <;> exact h.of_control Control.noConfusion
  | proceed => exact proceed_requested h hok hstep
  | createFails =>
      obtain ⟨-, hnext⟩ := Option.ite_none_right_eq_some.mp hstep
      rw [← Option.some.inj hnext]
      exact h.of_control Control.noConfusion
  | worker i => exact doWork_requested h hstep

/-- A stop is heeded in every run where `stop()` keeps out of the window of `doWork()`, and wherever it
does not, the worker's next step loses the stop. -/
theorem stop_request_kept (labels : List Label) :
    (AllSteps step Timely new labels → Throughout step Heeded new labels) ∧
      ∀ s i, run step new labels = some s → s.control.setsStopping = true →
        s.workers[i]? = some .entering →
        ∃ last, run step new (labels ++ [.proceed, .worker i]) = some last ∧ ¬ last.Heeded := by
  constructor
  · intro hall
    exact throughout_of_allSteps Requested (fun s h hstop => (h.state hstop).2)
      (fun s label next h hok hstep => step_requested h label hok hstep) labels new new_requested hall
  · intro s i hrun hcontrol hworker
    obtain ⟨msWait, hmsWait⟩ : ∃ msWait, s.control = .setStopping msWait := by
      cases hplace : s.control <;> rw [hplace] at hcontrol <;> first | exact ⟨_, rfl⟩ | cases hcontrol
    let stopped : Thread :=
      { s with nState := .stopping, stopRequested := true, control := msWait.elim .idle .joinLoop }
    let last : Thread := { stopped.moveTo i .running with nState := .running }
    have hstop : step s .proceed = some stopped := by simp only [step, proceed, hmsWait, stopped]
    have hlast : step stopped (.worker i) = some last := by
      simp only [step, doWork, stopped, hworker, last]
    refine ⟨last, ?_, fun hheeded => hheeded rfl rfl⟩
    simp only [run_append, hrun, run_cons, hstop, hlast, run_nil, Option.bind_some]

theorem stop_request_kept_of_running :
    let labels : List Label := [.start, .proceed, .proceed, .proceed, .proceed, .worker 0, .worker 0,
      .stop, .proceed, .worker 0]
    (∃ last, run step new labels = some last ∧ last.stopRequested = true ∧ last.nState = .stopping) ∧
      AllSteps step Timely new labels ∧ Throughout step Heeded new labels := by
  intro labels
  have hok : AllSteps step Timely new labels := by decide
  exact ⟨⟨_, rfl, rfl, rfl⟩, hok, (stop_request_kept labels).1 hok⟩

theorem stop_request_lost :
    ∃ last, run step new [.start, .proceed, .proceed, .proceed, .proceed, .worker 0, .stop, .proceed,
      .worker 0] = some last ∧ last.stopRequested = true ∧ last.nState = .running :=
  ⟨_, rfl, rfl, rfl⟩

/-! ### The windows of `doWork()` -/

/-- Where a worker stands. Those that are still to be created count as finished. -/
def place (s : Thread) (i : ℕ) : Worker := s.workers.getD i .finished

theorem place_of_getElem? (h : s.workers[i]? = some worker) : s.place i = worker := by
  rw [place, List.getD_eq_getElem?_getD, h, Option.getD_some]

theorem place_moveTo (h : s.place i ≠ .finished) (worker : Worker) (j : ℕ) :
    (s.moveTo i worker).place j = if i = j then worker else s.place j := by
  have hlt : i < s.workers.length := by
    by_contra hge
    rw [place, List.getD_eq_getElem?_getD, List.getElem?_eq_none (Nat.not_lt.mp hge)] at h
    exact h rfl
  simp only [place, moveTo, List.getD_eq_getElem?_getD, List.getElem?_set, hlt, if_true]
  split <;> rfl

theorem place_of_mem (h : worker ∈ s.workers) : ∃ i, s.place i = worker := by
  obtain ⟨i, hi⟩ := List.mem_iff_getElem?.mp h
  exact ⟨i, place_of_getElem? hi⟩

theorem not_place (h : worker ∉ s.workers) (hworker : worker ≠ .finished) (i : ℕ) :
    s.place i ≠ worker := by
  rintro rfl
  rw [place, List.getD_eq_getElem?_getD] at h hworker
  cases hget : s.workers[i]? with
  | none => rw [hget] at hworker; exact hworker rfl
  | some worker => rw [hget] at h; exact h (List.mem_of_getElem? hget)

theorem place_append (s : Thread) (control : Control) (j : ℕ) :
    place { s with workers := s.workers ++ [worker], control } j =
      if s.workers.length = j then worker else s.place j := by
  simp only [place, List.getD_eq_getElem?_getD]
  obtain hlt | heq | hgt := Nat.lt_trichotomy j s.workers.length
  · rw [List.getElem?_append_left hlt, if_neg (Nat.ne_of_gt hlt)]
  · rw [if_pos heq.symm, heq, List.getElem?_concat_length, Option.getD_some]
  · rw [if_neg (Nat.ne_of_lt hgt), List.getElem?_eq_none (by simp; omega),
      List.getElem?_eq_none (Nat.le_of_lt hgt)]

structure Inv (s : Thread) : Prop where
  single : ∀ i j, i ≠ j → s.place i ≠ .finished → s.place j = .finished
  starts : s.control.starts = true → ∀ i, s.place i = .finished
  starting : s.control.starts = true → s.control ≠ .setStarting → s.nState ≠ .null
  storing : ∀ i, s.control = .storing i → i < s.workers.length
  null : s.nState = .null → ∀ i, (s.place i).past = true
  handle : ∀ i, s.hThread = some i → s.place i ≠ .finished
  held : ∀ i, (s.place i).past = false → s.hThread = none → ∃ worker, s.control = .storing worker
  last : s.control = .joinAssert → ∀ i, (s.place i).past = true
  joined : s.Joined

theorem new_inv : Inv new where
  single := fun _ _ _ _ => rfl
  starts := fun _ _ => rfl
  starting := by decide
  storing := fun _ h => Control.noConfusion h
  null := fun _ _ => rfl
  handle := fun i h => by cases h
  held := fun _ h => Bool.noConfusion h
  last := fun _ _ => rfl
  joined := ⟨by decide, by decide⟩

theorem past_ne_finished (h : worker.past = false) : worker ≠ .finished := by
  rintro rfl
  cases h

theorem left_of_past (h : worker.past = true) : worker.left = true := by
  cases worker <;> first | rfl | cases h

/-- All workers have finished and there is no handle. -/
theorem inv_of_finished (hfinished : ∀ i, s.place i = .finished) (hhandle : s.hThread = none)
    (hstarting : s.control.starts = true → s.control ≠ .setStarting → s.nState ≠ .null)
    (hstoring : ∀ i, s.control = .storing i → i < s.workers.length) (hjoined : s.Joined) : s.Inv where
  single := fun _ j _ _ => hfinished j
  starts := fun _ => hfinished
  starting := hstarting
  storing := hstoring
  null := fun _ i => congrArg Worker.past (hfinished i)
  handle := fun i hi => by rw [hhandle] at hi; cases hi
  held := fun i hi => absurd (hfinished i) (past_ne_finished hi)
  last := fun _ i => congrArg Worker.past (hfinished i)
  joined := hjoined

theorem Inv.hThread_of_finished (h : s.Inv) (hfinished : ∀ i, s.place i = .finished) :
    s.hThread = none := by
  cases hhandle : s.hThread with
  | none => rfl
  | some i => exact absurd (hfinished i) (h.handle i hhandle)

/-! #### The worker -/

theorem single_of_place {place : ℕ → Worker} (hplace : ∀ j, place j = if i = j then worker else .finished)
    (j k : ℕ) (hne : j ≠ k) (hj : place j ≠ .finished) : place k = .finished := by
  rw [hplace, ite_ne_right_iff] at hj
  rw [hplace, if_neg (hj.1 ▸ hne)]

/-- What is known while worker `i` has not finished. -/
theorem Inv.not_starts (h : s.Inv) (hi : s.place i ≠ .finished) : s.control.starts ≠ true :=
  fun hstarts => hi (h.starts hstarts i)

theorem Inv.handle_eq (h : s.Inv) (hi : s.place i ≠ .finished) (hj : s.hThread = some j) :
    i = j := by
  by_contra hne
  exact h.handle j hj (h.single i j hne hi)

theorem Inv.place_moveTo (h : s.Inv) (hi : s.place i ≠ .finished) (worker : Worker) (j : ℕ) :
    (s.moveTo i worker).place j = if i = j then worker else .finished := by
  rw [Thread.place_moveTo hi]
  split
  · rfl
  · rename_i hne
    exact h.single i j hne hi

theorem Inv.storing_moveTo (h : s.Inv) (worker : Worker) (hj : s.control = .storing j) :
    j < (s.moveTo i worker).workers.length := by
  rw [moveTo, List.length_set]
  exact h.storing j hj

/-- A worker that goes on without setting `S_NULL`. -/
theorem Inv.moveTo (h : s.Inv) (hi : (s.place i).past = false) (hworker : worker.past = false)
    {nState : ThreadState} (hstate : nState ≠ .null) :
    Inv { s.moveTo i worker with nState } := by
  have hfinished := past_ne_finished hi
  have hplace := h.place_moveTo hfinished worker
  refine
    { single := single_of_place hplace
      starts := fun hstarts => absurd hstarts (h.not_starts hfinished)
      starting := fun hstarts => absurd hstarts (h.not_starts hfinished)
      storing := fun j => h.storing_moveTo worker
      null := fun hnull => absurd hnull hstate
      handle := fun j hj => ?_
      held := fun j _ => h.held i hi
      last := fun hlast => absurd (hi.symm.trans (h.last hlast i)) Bool.false_ne_true
      joined := h.joined }
  refine (hplace j).trans_ne ?_
  rw [if_pos (h.handle_eq hfinished hj)]
  exact past_ne_finished hworker

theorem doWork_leaving_inv (h : s.Inv) (hi : s.place i = .leaving) :
    Inv { s.moveTo i .clearing with nState := .null } := by
  have hfinished : s.place i ≠ .finished := by simp [hi]
  have hplace := h.place_moveTo hfinished .clearing
  have hpast : ∀ j, ((s.moveTo i .clearing).place j).past = true := by
    intro j
    rw [hplace]
    split <;> rfl
  refine
    { single := single_of_place hplace
      starts := fun hstarts => absurd hstarts (h.not_starts hfinished)
      starting := fun hstarts => absurd hstarts (h.not_starts hfinished)
      storing := fun j => h.storing_moveTo .clearing
      null := fun _ => hpast
      handle := fun j hj => ?_
      held := fun j hj => absurd (hj.symm.trans (hpast j)) Bool.false_ne_true
      last := fun _ => hpast
      joined := h.joined }
  refine (hplace j).trans_ne ?_
  rw [if_pos (h.handle_eq hfinished hj)]
  exact Worker.noConfusion

theorem doWork_clearing_inv (h : s.Inv) (hi : s.place i = .clearing) :
    Inv { s.moveTo i .finished with hThread := none } := by
  have hfinished : s.place i ≠ .finished := by simp [hi]
  refine inv_of_finished (fun j => ?_) rfl (fun hstarts => absurd hstarts (h.not_starts hfinished))
    (fun j => h.storing_moveTo .finished) h.joined
  exact (h.place_moveTo hfinished .finished j).trans (ite_self _)

/-- The state is not `S_NULL` while a worker has not set it so. -/
theorem Inv.nState_ne_null (h : s.Inv) (hi : (s.place i).past = false) : s.nState ≠ .null :=
  fun hnull => absurd (hi.symm.trans (h.null hnull i)) Bool.false_ne_true

/-- A worker that goes on without touching `m_nState`. -/
theorem Inv.moveOn (h : s.Inv) {place : Worker} (hi : s.place i = place) (hplace : place.past = false)
    (hworker : worker.past = false) : (s.moveTo i worker).Inv := by
  have hpast : (s.place i).past = false := by rw [hi, hplace]
  exact h.moveTo hpast hworker (h.nState_ne_null hpast)

theorem doWork_inv (h : s.Inv) (hstep : s.doWork i = some next) : next.Inv := by
  obtain ⟨hi, -, rfl⟩ | ⟨hi, -, rfl⟩ | ⟨hi, rfl⟩ | ⟨hi, rfl⟩ | ⟨hi, rfl⟩ | ⟨hi, rfl⟩ :=
    doWork_cases hstep <;> replace hi := place_of_getElem? hi
  · exact h.moveOn hi rfl rfl
  · exact h.moveOn hi rfl rfl
  · have hpast : (s.place i).past = false := by rw [hi]; rfl
    exact h.moveTo hpast rfl ThreadState.noConfusion
  · exact h.moveOn hi rfl rfl
  · exact doWork_leaving_inv h hi
  · exact doWork_clearing_inv h hi

/-! #### The controlling thread -/

/-- The controlling thread goes on to where nothing is asked of the workers. -/
theorem Inv.goOn (h : s.Inv) (hold : ∀ i, s.control ≠ .storing i) {control : Control}
    (hcontrol : control.plain = true) {nState : ThreadState}
    (hnull : nState = .null → s.nState = .null) {stopRequested : Bool}
    {returns : List (Bool × List Worker)}
    (hreturns : ∀ entry ∈ returns, entry.1 = true → ∀ worker ∈ entry.2, worker.left = true) :
    Inv { s with nState, control, stopRequested, returns } := by
  have hstarts : control.starts ≠ true := by cases control <;> simp_all [Control.plain, Control.starts]
  exact
    { single := h.single
      starts := fun hs => absurd hs hstarts
      starting := fun hs => absurd hs hstarts
      storing := fun i hi => by subst hi; cases hcontrol
      null := fun hn => h.null (hnull hn)
      handle := h.handle
      held := fun i hi hnone => by
        obtain ⟨worker, hworker⟩ := h.held i hi hnone
        exact absurd hworker (hold worker)
      last := fun hlast => by subst hlast; cases hcontrol
      joined := ⟨by rintro rfl; exact Bool.noConfusion hcontrol, hreturns⟩ }

/-- `join` returns when all workers have left `run()`. -/
theorem Inv.returnFromJoin (h : s.Inv) (hold : ∀ i, s.control ≠ .storing i) {value : Bool}
    (hleft : ∀ worker ∈ s.workers, worker.left = true) : (s.returnFromJoin value).Inv := by
  refine h.goOn hold rfl id fun entry hentry => ?_
  obtain hentry | hentry := List.mem_append.mp hentry
  · exact h.joined.2 entry hentry
  · rw [List.mem_singleton.mp hentry]
    exact fun _ => hleft

theorem left_of_forall_past (h : ∀ i, (s.place i).past = true) :
    ∀ worker ∈ s.workers, worker.left = true := by
  intro worker hworker
  obtain ⟨i, rfl⟩ := place_of_mem hworker
  exact left_of_past (h i)

theorem finished_of_past (h : ∀ i, (s.place i).past = true) (hclearing : .clearing ∉ s.workers)
    (i : ℕ) : s.place i = .finished := by
  have hne := not_place hclearing (by decide) i
  have hpast := h i
  revert hne hpast
  cases s.place i <;> simp [Worker.past]

/-- In `start()`, while there is no worker. -/
theorem Inv.inStart (h : s.Inv) (hfinished : ∀ i, s.place i = .finished) {control : Control}
    (hcontrol : control.starts = true ∨ control = .idle) {nState : ThreadState}
    (hstarting : control.starts = true → control ≠ .setStarting → nState ≠ .null)
    {hThread : Option ℕ} (hhandle : hThread = none) {stopRequested : Bool} :
    Inv { s with nState, hThread, control, stopRequested } := by
  refine inv_of_finished hfinished hhandle hstarting ?_ ⟨?_, h.joined.2⟩
  · rintro i rfl
    simp [Control.starts] at hcontrol
  · rintro rfl
    simp [Control.starts] at hcontrol

theorem creating_inv (h : s.Inv) (hcontrol : s.control = .creating) :
    Inv { s with workers := s.workers ++ [.created], control := .storing s.workers.length } := by
  have hstarts : s.control.starts = true := by rw [hcontrol]; rfl
  have hplace : ∀ j, place { s with
      workers := s.workers ++ [.created], control := .storing s.workers.length } j =
      if s.workers.length = j then .created else .finished := by
    intro j
    rw [place_append, h.starts hstarts j]
  refine
    { single := single_of_place hplace
      starts := fun hstarts => Bool.noConfusion hstarts
      starting := fun hstarts => Bool.noConfusion hstarts
      storing := fun i hi => ?_
      null := fun hnull => absurd hnull (h.starting hstarts (by rw [hcontrol]; exact Control.noConfusion))
      handle := fun i hi => absurd (h.starts hstarts i) (h.handle i hi)
      held := fun _ _ _ => ⟨_, rfl⟩
      last := fun hlast => Control.noConfusion hlast
      joined := ⟨Control.noConfusion, h.joined.2⟩ }
  obtain rfl := Control.storing.inj hi
  simp

theorem storing_inv (h : s.Inv) (hcontrol : s.control = .storing i)
    (hok : s.workers[i]? ≠ some .finished) :
    Inv { s with hThread := some i, control := .idle } := by
  refine
    { single := h.single
      starts := fun hstarts => Bool.noConfusion hstarts
      starting := fun hstarts => Bool.noConfusion hstarts
      storing := fun _ hi => Control.noConfusion hi
      null := h.null
      handle := fun j hj => ?_
      held := fun _ _ hnone => by cases hnone
      last := fun hlast => Control.noConfusion hlast
      joined := ⟨Control.noConfusion, h.joined.2⟩ }
  obtain rfl := Option.some.inj hj
  have hget := List.getElem?_eq_getElem (h.storing i hcontrol)
  intro hfinished
  rw [hget] at hok
  exact hok (congrArg some ((place_of_getElem? hget).symm.trans hfinished))

theorem joinLast_inv (h : s.Inv) (hnull : s.nState = .null) :
    Inv { s with control := .joinAssert } where
  single := h.single
  starts := fun hstarts => Bool.noConfusion hstarts
  starting := fun hstarts => Bool.noConfusion hstarts
  storing := fun _ hi => Control.noConfusion hi
  null := h.null
  handle := h.handle
  held := fun i hi => absurd (hi.symm.trans (h.null hnull i)) Bool.false_ne_true
  last := fun _ => h.null hnull
  joined := ⟨Control.noConfusion, h.joined.2⟩

/-- The assertion of `join` holds when it is evaluated outside the window. -/
theorem joinAssert_hThread (h : s.Inv) (hcontrol : s.control = .joinAssert)
    (hok : .clearing ∉ s.workers) : s.hThread = none :=
  h.hThread_of_finished (finished_of_past (h.last hcontrol) hok)

theorem proceed_inv (h : s.Inv) (hok : s.Orderly .proceed) (hstep : s.proceed = some next) :
    next.Inv := by
  cases hcontrol : s.control <;>
    simp only [proceed, hcontrol, Option.some.injEq, reduceCtorEq] at hstep <;>
    simp only [Orderly, Clear, hcontrol] at hok
  case setStarting =>
    have hfinished := h.starts (by rw [hcontrol]; rfl)
    exact hstep ▸ h.inStart hfinished (.inl rfl) (fun _ _ => ThreadState.noConfusion)
      (h.hThread_of_finished hfinished)
  case clearHandle =>
    have hstarts : s.control.starts = true := by rw [hcontrol]; rfl
    exact hstep ▸ h.inStart (h.starts hstarts) (.inl rfl)
      (fun _ _ => h.starting hstarts (by simp [hcontrol])) rfl
  case creating => exact hstep ▸ creating_inv h hcontrol
  case storing i => exact hstep ▸ storing_inv h hcontrol hok
  case resetState =>
    have hfinished := h.starts (by rw [hcontrol]; rfl)
    exact hstep ▸ h.inStart hfinished (.inr rfl) (fun hstarts => Bool.noConfusion hstarts)
      (h.hThread_of_finished hfinished)
  all_goals have hold : ∀ i, s.control ≠ .storing i := by simp [hcontrol]
  case setStopping msWait =>
    rw [← hstep]
    refine h.goOn hold ?_ (fun hnull => ThreadState.noConfusion hnull) h.joined.2
    cases msWait <;> rfl
  case joinStop msWait =>
    rw [← hstep, stop]
    refine h.goOn hold ?_ id h.joined.2
    split <;> rfl
  case joinLoop msWait =>
    split at hstep <;> rw [← Option.some.inj hstep] <;> exact h.goOn hold rfl id h.joined.2
  case joinLast =>
    split at hstep
    · rename_i hnull
      exact Option.some.inj hstep ▸ joinLast_inv h hnull
    · rename_i hnull
      exact Option.some.inj hstep ▸ h.returnFromJoin hold (hok hnull)
  case joinAssert =>
    rw [if_pos (joinAssert_hThread h hcontrol hok)] at hstep
    exact Option.some.inj hstep ▸ h.returnFromJoin hold (left_of_forall_past (h.last hcontrol))

theorem start_inv (h : s.Inv) (hcontrol : s.control = .idle)
    (hok : s.nState = .null → .clearing ∉ s.workers) : s.start.Inv := by
  rw [start]
  split
  · rename_i hnull
    have hfinished := finished_of_past (h.null hnull) (hok hnull)
    exact h.inStart hfinished (.inl rfl) (fun _ hne => absurd rfl hne)
      (h.hThread_of_finished hfinished)
  · exact h.goOn (by simp [hcontrol]) rfl id h.joined.2

/-- `join` finds no handle only when no worker can still be in `run()`. -/
theorem join_inv (h : s.Inv) (hcontrol : s.control = .idle) (msWait : ℕ) : (s.join msWait).Inv := by
  have hold : ∀ i, s.control ≠ .storing i := by simp [hcontrol]
  rw [join]
  split
  · rename_i hnone
    refine h.returnFromJoin hold (left_of_forall_past fun i => ?_)
    by_contra hpast
    obtain ⟨worker, hworker⟩ := h.held i (Bool.eq_false_iff.mpr hpast) hnone
    exact hold worker hworker
  · exact h.goOn hold rfl id h.joined.2

theorem step_inv (h : s.Inv) (label : Label) (hok : s.Orderly label)
    (hstep : s.step label = some next) : next.Inv := by
  cases label with
  | start =>
      obtain ⟨hcontrol, hnext⟩ := Option.ite_none_right_eq_some.mp hstep
      exact Option.some.inj hnext ▸ start_inv h hcontrol hok
  | stop =>
      obtain ⟨hcontrol, hnext⟩ := Option.ite_none_right_eq_some.mp hstep
      rw [← Option.some.inj hnext, stop]
      refine h.goOn (by simp [hcontrol]) ?_ id h.joined.2
      split <;> rfl
  | join msWait =>
      obtain ⟨hcontrol, hnext⟩ := Option.ite_none_right_eq_some.mp hstep
      exact Option.some.inj hnext ▸ join_inv h hcontrol msWait
  | proceed => exact proceed_inv h hok hstep
  | createFails =>
      obtain ⟨hcontrol, hnext⟩ := Option.ite_none_right_eq_some.mp hstep
      have hstarts : s.control.starts = true := by rw [hcontrol]; rfl
      have hfinished := h.starts hstarts
      exact Option.some.inj hnext ▸ h.inStart hfinished (.inl rfl)
        (fun _ _ => h.starting hstarts (by simp [hcontrol])) (h.hThread_of_finished hfinished)
  | worker i => exact doWork_inv h hstep

/-- In every run in which the controlling thread keeps out of the windows of `doWork()`, the assertion
of `join` holds and `join` returns true only when the workers have left `run()`. -/
theorem join_contract (labels : List Label) (hok : AllSteps step Orderly new labels) :
    Throughout step Joined new labels :=
  throughout_of_allSteps Inv (fun _ h => h.joined)
    (fun _ label _ h hok hstep => step_inv h label hok hstep) labels new new_inv hok

theorem join_contract_of_stopped_worker :
    let labels : List Label := [.start, .proceed, .proceed, .proceed, .proceed, .worker 0, .worker 0,
      .join 100, .proceed, .proceed, .proceed, .worker 0, .worker 0, .worker 0, .proceed, .proceed,
      .proceed]
    (∃ last, run step new labels = some last ∧ last.returns = [(true, [.finished])]) ∧
      AllSteps step Orderly new labels ∧ Throughout step Joined new labels := by
  intro labels
  have hok : AllSteps step Orderly new labels := by decide
  exact ⟨⟨_, rfl, rfl⟩, hok, join_contract labels hok⟩

/-- `join(0)` returns true while the worker runs, and a `join` that reads `S_NULL` before the worker
has cleared the handle fails its assertion. -/
theorem join_contract_broken :
    (∃ last, run step new [.start, .proceed, .proceed, .proceed, .proceed, .worker 0, .worker 0,
      .join 0, .proceed, .proceed, .proceed, .proceed] = some last ∧
        last.returns = [(true, [.running])]) ∧
    ∃ last, run step new [.start, .proceed, .proceed, .proceed, .proceed, .worker 0, .worker 0,
      .worker 0, .worker 0, .join 0, .proceed, .proceed, .proceed, .proceed] = some last ∧
        last.control = .aborted :=
  ⟨⟨_, rfl, rfl⟩, ⟨_, rfl, rfl⟩⟩

end EasyLib.Thread.Thread
