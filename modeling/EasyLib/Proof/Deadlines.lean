import EasyLib.Proof.Cancellation
import EasyLib.Proof.TimerCovered
import EasyLib.Proof.TimerFiring
import EasyLib.Reactors.Schedule

/-!
# Deadlines, as they are computed

`GetIntervalFromNow` turns the signed difference of two times into an unsigned number. A time that is
due becomes zero, which disarms the timerfd, or a number of about `2 ^ 64`.

A delay in seconds becomes microseconds in an `int`, which has room for 2147 seconds. Up to there a timer
that repeats is restarted at a time later than its expiration, since `HandleRead` has found the clock at
the expiration or behind it before.
-/

namespace EasyLib.Reactors

open MachineInt

/-! ### The time until an expiration -/

namespace TimerQueue

/-- The `it_value` for an unsigned number of microseconds. -/
theorem timespec_of_microseconds (value : ℕ) :
    (value / (1000 * 1000)) * 10 ^ 9 + value % (1000 * 1000) * 1000 = value * 1000 := by
  omega

theorem arms_timespec_iff {ts now : Int} {value : ℕ} (hvalue : value < 2 ^ 64) :
    Arms ts now ⟨value / (1000 * 1000), value % (1000 * 1000) * 1000⟩ ↔
      0 < value ∧ (now < ts → (value : Int) = ts - now) ∧ (ts ≤ now → value ≤ 10 ^ 6) := by
  have hspec := timespec_of_microseconds value
  constructor
  · rintro ⟨-, -, hzero, hfuture, hdue⟩
    dsimp only at hzero hfuture hdue
    refine ⟨by omega, fun hlt => ?_, fun hle => ?_⟩
    · have hfuture := hfuture hlt
      omega
    · have hdue := hdue hle
      omega
  · rintro ⟨hpos, hfuture, hdue⟩
    refine ⟨?_, ?_, ?_, fun hlt => ?_, fun hle => ?_⟩ <;> dsimp only
    · omega
    · omega
    · omega
    · have hfuture := hfuture hlt
      omega
    · have hdue := hdue hle
      omega

/-- `ResetTimerfd` arms the timer for a time in the future. A time that is due arms it only by a
wrap-around of the difference. -/
theorem interval_arms_iff (ts now : BitVec 64) :
    Arms ts.toInt now.toInt (getIntervalFromNow ts.toInt now.toInt) ↔
      now.toInt < ts.toInt ∨ 2 ^ 64 - 10 ^ 6 ≤ now.toInt - ts.toInt := by
  have hts := ts.toInt_lt
  have hts' := ts.le_toInt
  have hnow := now.toInt_lt
  have hnow' := now.le_toInt
  generalize ts.toInt = ts at *
  generalize now.toInt = now at *
  rw [getIntervalFromNow, arms_timespec_iff (toUInt64_lt _)]
  obtain hlt | hle := lt_or_ge now ts
  · -- The difference is positive and fits.
    have hvalue : (toUInt64 (ts - now) : Int) = ts - now := toUInt64_of_nonneg (by omega) (by omega)
    exact iff_of_true ⟨by omega, fun _ => hvalue, fun hle => absurd hlt (not_lt.mpr hle)⟩ (.inl hlt)
  · obtain heq | hgt := hle.eq_or_lt
    · have hvalue : (toUInt64 (ts - now) : Int) = ts - now := toUInt64_of_nonneg (by omega) (by omega)
      omega
    · -- The difference is negative and wraps around.
      have hvalue : (toUInt64 (ts - now) : Int) = ts - now + 2 ^ 64 :=
        toUInt64_of_neg (by omega) (by omega)
      omega

theorem interval_disarms_or_overshoots :
    getIntervalFromNow 5 5 = ⟨0, 0⟩ ∧ getIntervalFromNow 4 5 = ⟨18446744073709, 551615000⟩ := by
  decide

/-! ### Delays -/

theorem microseconds_eq {delay : Int} (hpos : 0 < delay) (hshort : delay ≤ 2147) :
    microseconds delay = delay * 10 ^ 6 := by
  have hmilli : toInt32 (delay * 1000) = delay * 1000 := toInt32_of_range (by omega) (by omega)
  have hmicro : toInt32 (delay * 1000 * 1000) = delay * 1000 * 1000 :=
    toInt32_of_range (by omega) (by omega)
  rw [microseconds, hmilli, hmicro]
  omega

theorem makes_addTimer (clock : ℕ → Int) (s : TimerQueue) (readings : ℕ) (ts interval : Int) :
    s.Makes (addTimer clock { s with readings } ts interval) ts := by
  refine ⟨Timer.new (s.timerId + 1) ts interval, ?_, rfl⟩
  rw [timers_addTimer]
  exact Function.update_self _ _ _

/-- `RunAfter` is `RunAt` for the time that it computes. -/
theorem runAfter_eq_runAt (clock : ℕ → Int) (s : TimerQueue) (interval : Int) :
    s.runAfter clock interval =
      runAt clock { s with readings := s.readings + 1 } (clock s.readings + microseconds interval) := rfl

theorem exact_of_short {delay now : Int} (hpos : 0 < delay) (hshort : delay ≤ 2147)
    (hnow : now < 2 ^ 62) : Exact delay now where
  milliseconds := by omega
  microseconds := by omega
  sum := by omega
  runAfter := fun clock s hclock => by
    rw [runAfter_eq_runAt, hclock, microseconds_eq hpos hshort]
    exact makes_addTimer clock s _ _ _
  runEvery := fun clock s hclock => by
    rw [runEvery, hclock, microseconds_eq hpos hshort]
    exact makes_addTimer clock s _ _ _
  restart := fun timer htimer => by
    subst htimer
    exact congrArg (now + ·) (microseconds_eq hpos hshort)

end TimerQueue

/-! ### Timers that repeat -/

namespace Chronicle

open TimerQueue

variable {clock : ℕ → Int} {s next : Chronicle} {timer : ℕ} {timers : List ℕ} {object : Timer}
  {objects : ℕ → Option Timer} {first : ℕ} {action : Action}

/-- What is known of the expirations that a timer has had. -/
structure Entry (object : Timer) (expirations : List Int) : Prop where
  made : object.repeats = decide (object.interval > 0)
  rising : object.interval ≤ 2147 → expirations.Pairwise (· < ·)
  bounded : object.interval ≤ 2147 → ∀ ts ∈ expirations, ts ≤ object.ts

def Recorded (s : Chronicle) : Prop :=
  ∀ timer, ∀ object ∈ s.queue.timers timer, Entry object (s.expirations timer)

theorem recorded_of_timers (h : s.Recorded)
    (htimers : ∀ timer, next.queue.timers timer = s.queue.timers timer ∨
      next.queue.timers timer = none) (hexpirations : next.expirations = s.expirations) :
    next.Recorded := by
  intro timer object hobject
  rw [hexpirations]
  obtain heq | hnone := htimers timer
  · exact h timer object (heq ▸ hobject)
  · rw [hnone] at hobject
    cases hobject

theorem recorded_addTimer {ts interval : Int} (h : s.Recorded)
    (hact : act clock s (.exec (.addTimer ts interval)) = some next) : next.Recorded := by
  obtain ⟨hqueue, hexpirations⟩ := Recorder.act_eq_some_iff.mp hact
  rw [← Option.some.inj hqueue] at hexpirations
  intro timer object hobject
  rw [expirations, hexpirations, note]
  rw [← Option.some.inj hqueue, timers_addTimer] at hobject
  by_cases htimer : timer = s.queue.timerId + 1
  · subst htimer
    rw [Function.update_self] at hobject ⊢
    obtain rfl := Option.some.inj hobject
    exact ⟨rfl, fun _ => List.pairwise_singleton _ _, fun _ ts hts => (List.mem_singleton.mp hts).le⟩
  · rw [Function.update_of_ne htimer] at hobject ⊢
    exact h timer object hobject

theorem timers_removeTimer {queue queue' : TimerQueue} {timerid : ℕ}
    (hstep : queue.removeTimer timerid = some queue') (timer : ℕ) :
    queue'.timers timer = queue.timers timer ∨ queue'.timers timer = none := by
  obtain rfl | ⟨removed, object, -, rfl⟩ := removeTimer_eq_some hstep
  · exact .inl rfl
  · by_cases htimer : timer = removed
    · exact .inr (htimer ▸ Function.update_self _ _ _)
    · exact .inl (Function.update_of_ne htimer _ _)

/-- The actions of the callbacks. -/
inductive InCallback : Action → Prop where
  | start (timer : ℕ) : InCallback (.start timer)
  | exec (command : Command) : InCallback (.exec command)

theorem recorded_inCallback (h : s.Recorded) (haction : InCallback action)
    (hact : act clock s action = some next) : next.Recorded := by
  cases haction with
  | start timer =>
      obtain ⟨hqueue, hexpirations⟩ := Recorder.act_eq_some_iff.mp hact
      obtain ⟨object, -, hstart⟩ := Option.map_eq_some_iff.mp hqueue
      exact recorded_of_timers h (fun timer => .inl (by rw [← hstart]; rfl)) hexpirations
  | exec command =>
      cases command with
      | addTimer ts interval => exact recorded_addTimer h hact
      | removeTimer timerid =>
          obtain ⟨hqueue, hexpirations⟩ := Recorder.act_eq_some_iff.mp hact
          exact recorded_of_timers h (timers_removeTimer hqueue) hexpirations

/-- `timers` have been taken out of the queue by a scan that found them due at reading `first`. -/
structure Out (objects : ℕ → Option Timer) (timers : List ℕ) (first : ℕ) (s : Chronicle) : Prop where
  detached : Detached objects timers s.queue
  recorded : s.Recorded
  later : first < s.queue.readings

theorem readings_inCallback (haction : InCallback action) (hact : act clock s action = some next) :
    s.queue.readings ≤ next.queue.readings := by
  obtain ⟨hqueue, -⟩ := Recorder.act_eq_some_iff.mp hact
  cases haction with
  | start timer =>
      obtain ⟨object, -, hstart⟩ := Option.map_eq_some_iff.mp hqueue
      rw [← hstart]
      exact Nat.le_refl _
  | exec command =>
      cases command with
      | addTimer ts interval =>
          rw [← Option.some.inj hqueue]
          exact readings_addTimer
      | removeTimer timerid =>
          obtain heq | ⟨removed, object, -, heq⟩ := removeTimer_eq_some hqueue <;> rw [heq]

theorem Out.inCallback (h : Out objects timers first s) (haction : InCallback action)
    (hact : act clock s action = some next) : Out objects timers first next := by
  refine ⟨?_, recorded_inCallback h.recorded haction hact,
    h.later.trans_le (readings_inCallback haction hact)⟩
  obtain ⟨hqueue, -⟩ := Recorder.act_eq_some_iff.mp hact
  cases haction with
  | start timer =>
      obtain ⟨object, -, hstart⟩ := Option.map_eq_some_iff.mp hqueue
      rw [← hstart]
      exact start_detached h.detached
  | exec command => exact exec_detached h.detached hqueue

/-- A timer that repeats is restarted behind its expiration. -/
theorem Entry.restart {expirations : List Int} (h : Entry object expirations)
    (hrepeats : object.repeats = true) {now : Int} (hnow : object.ts ≤ now) :
    Entry (object.restart now) (expirations ++ [(object.restart now).ts]) := by
  have hpos : object.interval > 0 := of_decide_eq_true (h.made.symm.trans hrepeats)
  have hlt : object.interval ≤ 2147 → object.ts < (object.restart now).ts := by
    intro hshort
    rw [restart_eq hpos hshort]
    dsimp only
    omega
  refine ⟨h.made, fun hshort => ?_, fun hshort ts hts => ?_⟩
  · rw [List.pairwise_append]
    refine ⟨h.rising hshort, List.pairwise_singleton _ _, fun ts hts other hother => ?_⟩
    rw [List.mem_singleton.mp hother]
    exact (h.bounded hshort ts hts).trans_lt (hlt hshort)
  · obtain hts | hts := List.mem_append.mp hts
    · exact (h.bounded hshort ts hts).trans (hlt hshort).le
    · exact (List.mem_singleton.mp hts).le

theorem recorded_update {queue : TimerQueue} {replaced : Option Timer}
    (h : s.Recorded) (htimers : queue.timers = Function.update s.queue.timers timer replaced)
    {expirations : List Int} (hreplaced : ∀ object ∈ replaced, Entry object expirations) :
    Recorded ⟨queue, Function.update s.expirations timer expirations⟩ := by
  intro other object hobject
  dsimp only [Chronicle.expirations] at hobject ⊢
  rw [htimers] at hobject
  by_cases hother : other = timer
  · subst hother
    rw [Function.update_self] at hobject ⊢
    exact hreplaced object hobject
  · rw [Function.update_of_ne hother] at hobject ⊢
    exact h other object hobject

/-- What `ResetTimers` does to one of the timers. -/
theorem resetTimer_cases {queue queue' : TimerQueue} (hstep : resetTimer clock queue timer = some queue') :
    ∃ object, queue.timers timer = some object ∧ queue.readings ≤ queue'.readings ∧
      queue'.timers = Function.update queue.timers timer
        (if object.repeats then some (object.restart (clock queue.readings)) else none) := by
  obtain ⟨object, hobject, hnext⟩ := Option.map_eq_some_iff.mp hstep
  refine ⟨object, hobject, ?_⟩
  rw [← hnext]
  split
  · refine ⟨?_, rfl⟩
    simp only [resetTimerfd, reinsert]
    omega
  · exact ⟨Nat.le_refl _, rfl⟩

theorem Out.reset (hclock : ∀ i j, i ≤ j → clock i ≤ clock j)
    (h : Out objects (timer :: timers) first s) (hnodup : timer ∉ timers)
    (hdue : ∀ object ∈ objects timer, object.ts ≤ clock first)
    (hact : act clock s (.reset timer) = some next) : Out objects timers first next := by
  obtain ⟨hqueue, hexpirations⟩ := Recorder.act_eq_some_iff.mp hact
  obtain ⟨object, hobject, hreadings, htimers⟩ := resetTimer_cases hqueue
  refine ⟨resetTimer_detached h.detached hnodup hqueue, ?_, h.later.trans_le hreadings⟩
  have hkept : objects timer = some object := by
    obtain hsame | hnone := h.detached.kept timer List.mem_cons_self
    · exact hsame.symm.trans hobject
    · cases hnone.symm.trans hobject
  have hnow : object.ts ≤ clock s.queue.readings :=
    calc object.ts ≤ clock first := hdue object hkept
      _ ≤ clock s.queue.readings := hclock first _ h.later.le
  obtain ⟨queue, expirations⟩ := next
  dsimp only at hexpirations htimers ⊢
  rw [hexpirations, note]
  refine recorded_update h.recorded htimers fun restarted hrestarted => ?_
  obtain ⟨hrepeats, hrestart⟩ := Option.ite_none_right_eq_some.mp hrestarted
  obtain rfl := Option.some.inj hrestart
  rw [htimers, Function.update_self, if_pos hrepeats, Option.toList_some, List.map_singleton]
  exact (h.recorded timer object hobject).restart hrepeats hnow

theorem Out.resets (hclock : ∀ i j, i ≤ j → clock i ≤ clock j) :
    ∀ (timers : List ℕ) (s last : Chronicle), timers.Nodup → Out objects timers first s →
      (∀ timer ∈ timers, ∀ object ∈ objects timer, object.ts ≤ clock first) →
      Machine.run (act clock) s (timers.map .reset) = some last → Out objects [] first last := by
  intro timers
  induction timers with
  | nil =>
      intro s last _ h _ hrun
      obtain rfl := Option.some.inj hrun
      exact h
  | cons timer timers ih =>
      intro s last hnodup h hdue hrun
      obtain ⟨hnotMem, hnodup⟩ := List.nodup_cons.mp hnodup
      obtain ⟨hduetimer, hdue⟩ := List.forall_mem_cons.mp hdue
      rw [List.map_cons, Machine.run_cons, Option.bind_eq_some_iff] at hrun
      obtain ⟨next, hnext, hrest⟩ := hrun
      exact ih next last hnodup (h.reset hclock hnotMem hduetimer hnext) hdue hrest

theorem inCallback_of_mem {callback : ℕ → List Command}
    (haction : action ∈ callbacks callback timers) : InCallback action := by
  obtain ⟨timer, -, hmem⟩ := List.mem_flatMap.mp haction
  obtain rfl | hmem := List.mem_cons.mp hmem
  · exact .start timer
  · obtain ⟨command, -, rfl⟩ := List.mem_map.mp hmem
    exact .exec command

theorem handleRead_recorded (hclock : ∀ i j, i ≤ j → clock i ≤ clock j) (hrep : Rep s.queue)
    (h : s.Recorded) {callback : ℕ → List Command}
    (hstep : step clock s (.handleRead callback) = some next) : Rep next.queue ∧ next.Recorded := by
  have hread : Rep (readTimerfd clock s.queue) := readTimerfd_rep hrep
  rw [step, Recorder.step, actions, Machine.run_cons, Option.bind_eq_some_iff] at hstep
  obtain ⟨scanned, hscanned, hrun⟩ := hstep
  rw [Machine.run_append, Option.bind_eq_some_iff] at hrun
  obtain ⟨fired, hfired, hresets⟩ := hrun
  have hout : Out s.queue.timers (s.queue.expired clock) (s.queue.readings + 1) scanned := by
    obtain ⟨hqueue, hexpirations⟩ := Recorder.act_eq_some_iff.mp hscanned
    obtain ⟨queue, expirations⟩ := scanned
    obtain rfl := Option.some.inj hqueue
    exact ⟨scan_detached hread, recorded_of_timers h (fun _ => .inl rfl) hexpirations, Nat.lt_succ_self _⟩
  have hcallbacks : Machine.AllSteps (act clock) (fun _ action => InCallback action) scanned
      (callbacks callback (s.queue.expired clock)) :=
    Machine.allSteps_of_forall_mem (fun _ => inCallback_of_mem) scanned
  have hfired := Machine.run_invariant _ (fun _ _ _ hout haction hact => hout.inCallback haction hact)
    _ _ _ hout hcallbacks hfired
  have hlast := Out.resets hclock _ _ _ (scan_nodup hread) hfired
    (fun timer htimer object hobject => scan_due hread htimer hobject) hresets
  exact ⟨hlast.detached.toRep, hlast.recorded⟩

theorem exec_recorded {command : Command} (hrep : Rep s.queue) (h : s.Recorded)
    (hrun : Machine.run (act clock) s [.exec command] = some next) :
    Rep next.queue ∧ next.Recorded := by
  rw [Machine.run_cons, Option.bind_eq_some_iff] at hrun
  obtain ⟨last, hact, hrest⟩ := hrun
  obtain rfl := Option.some.inj hrest
  exact ⟨(exec_detached hrep.detached_nil (Recorder.act_eq_some_iff.mp hact).1).toRep,
    recorded_inCallback h (.exec command) hact⟩

theorem step_recorded (hclock : ∀ i j, i ≤ j → clock i ≤ clock j) (call : Call)
    (h : Rep s.queue ∧ s.Recorded) (hstep : step clock s call = some next) :
    Rep next.queue ∧ next.Recorded := by
  obtain ⟨hrep, hrecorded⟩ := h
  cases call with
  | addTimer ts interval => exact exec_recorded hrep hrecorded hstep
  | removeTimer timerid => exact exec_recorded hrep hrecorded hstep
  | handleRead callback => exact handleRead_recorded hclock hrep hrecorded hstep

theorem rising_of_short {interval : Int} (hshort : interval ≤ 2147)
    (hclock : ∀ i j, i ≤ j → clock i ≤ clock j) (calls : List Call) :
    Machine.Throughout (step clock) (Rising interval) new calls := by
  refine Machine.throughout_of_forall (fun s => Rep s.queue ∧ s.Recorded) (fun s h => ?_)
    (fun _ call _ h hstep => step_recorded hclock call h hstep) calls ⟨new_rep, ?_⟩
  · intro timer object hobject hinterval
    exact (h.2 timer object hobject).rising (hinterval ▸ hshort)
  · intro timer object hobject
    cases hobject

/-- A delay is scheduled exactly by `RunAfter`, `RunEvery` and `Restart`, and timers that repeat with it
have strictly increasing expirations, if and only if it is of 2147 seconds at most. -/
theorem deadlines_exact_iff {delay now : Int} (hpos : 0 < delay) (hnow : now < 2 ^ 62) :
    (Exact delay now ∧ ∀ clock : ℕ → Int, (∀ i j, i ≤ j → clock i ≤ clock j) → ∀ calls,
      Machine.Throughout (step clock) (Rising delay) new calls) ↔ delay ≤ 2147 := by
  constructor
  · rintro ⟨hexact, -⟩
    have hlt := hexact.microseconds
    omega
  · intro hshort
    exact ⟨exact_of_short hpos hshort hnow, fun clock hclock => rising_of_short hshort hclock⟩

theorem deadlines_exact_minute :
    Exact 60 (10 ^ 15) ∧
      Machine.Throughout (step fun reading => reading) (Rising 60) new
        [.addTimer 1 60, .handleRead fun _ => [], .handleRead fun _ => []] := by
  obtain ⟨hexact, hrising⟩ :=
    (@deadlines_exact_iff 60 (10 ^ 15) (by decide) (by decide)).mpr (by decide)
  exact ⟨hexact, hrising (fun reading => reading) (fun i j hij => Int.ofNat_le.mpr hij) _⟩

/-- `RunAfter(2148)` at time 0 makes a timer that is due since more than half an hour. -/
theorem deadline_of_2148_seconds :
    (TimerQueue.new.runAfter (fun _ => 0) 2148).timers 1 =
      some { repeats := false, interval := 0, ts := -2146967296, id := 1 } := by
  decide

end Chronicle

end EasyLib.Reactors
