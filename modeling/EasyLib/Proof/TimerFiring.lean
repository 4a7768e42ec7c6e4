import EasyLib.Proof.TimerIndexes

/-!
# The timers fire when they are due

As long as no callback removes a timer, the callbacks of one `HandleRead` only put timers at the end of
the list of waiting ones, and `ResetTimers` puts the expired timers that repeat behind those. Between
calls nothing is out of the queue, and the indexes represent the list.
-/

namespace EasyLib.Reactors.TimerQueue

open MachineInt

variable {clock : ℕ → Int} {s next : TimerQueue} {waiting batch indexed : List Timer} {timer : Timer}

/-- `Restart` turns the interval into microseconds without an overflow. -/
def Short (timer : Timer) : Prop :=
  timer.repeats = decide (timer.interval > 0) ∧ timer.interval < 2147

theorem Tracks.represents (h : Tracks Short s waiting [] []) : Represents s waiting := by
  obtain ⟨hbuckets, hindex, hobjects, hdistinct, hdrawn, -, -⟩ := h
  simp only [List.append_nil] at hindex hobjects hdistinct hdrawn
  exact ⟨hbuckets, hindex, hobjects, hdistinct, hdrawn⟩

/-! ### The callbacks -/

theorem newTimers_append (timerId : ℕ) (requests more : List (Int × Int)) :
    newTimers timerId (requests ++ more) =
      newTimers timerId requests ++ newTimers (timerId + requests.length) more := by
  induction requests generalizing timerId with
  | nil => rfl
  | cons request requests ih =>
      rw [List.cons_append, newTimers, ih, newTimers, List.cons_append, List.length_cons,
        Nat.add_right_comm, Nat.add_assoc timerId]

/-- A callback that only adds timers. -/
theorem run_exec_tracks {commands : List Command} (hplain : ∀ command ∈ commands, command.Plain)
    (h : Tracks Short s waiting batch indexed) :
    ∃ next, Machine.run (exec clock) s commands = some next ∧
      Tracks Short next (waiting ++ newTimers s.timerId (commands.filterMap Command.request)) batch
        indexed ∧
      next.timerId = s.timerId + (commands.filterMap Command.request).length ∧
      next.started = s.started ∧ s.readings ≤ next.readings := by
  induction commands generalizing s waiting with
  | nil =>
      refine ⟨s, rfl, ?_, rfl, rfl, Nat.le_refl _⟩
      simpa [newTimers] using h
  | cons command commands ih =>
      obtain ⟨hcommand, hrest⟩ := List.forall_mem_cons.mp hplain
      cases command with
      | removeTimer timerid => exact hcommand.elim
      | addTimer ts interval =>
          have hadd := addTimer_tracks clock ts h ⟨rfl, hcommand⟩
          obtain ⟨next, hrun, htracks, htimerId, hstarted, hreadings⟩ := ih hrest hadd
          refine ⟨next, hrun, ?_, ?_, hstarted.trans started_addTimer,
            readings_addTimer.trans hreadings⟩
          · rw [timerId_addTimer, List.append_assoc] at htracks
            exact htracks
          · rw [htimerId, timerId_addTimer]
            simp only [List.filterMap_cons, Command.request, List.length_cons]
            omega

theorem fire_tracks (clock : ℕ → Int) {callback : ℕ → List Command}
    (hplain : ∀ command ∈ callback timer.id, command.Plain)
    (h : Tracks Short s waiting batch (timer :: indexed)) :
    ∃ next, fire clock callback s timer.id = some next ∧
      Tracks Short next
        (waiting ++ newTimers s.timerId ((callback timer.id).filterMap Command.request)) batch indexed ∧
      next.timerId = s.timerId + ((callback timer.id).filterMap Command.request).length ∧
      next.started = s.started ++ [timer.id] ∧ s.readings ≤ next.readings := by
  have hobject : s.timers timer.id = some timer :=
    h.objects timer (List.mem_append_right _ (h.sub.mem List.mem_cons_self))
  rw [fire, hobject, Option.bind_some]
  exact run_exec_tracks hplain (start_tracks h)

theorem run_fire_tracks (clock : ℕ → Int) {callback : ℕ → List Command}
    (hplain : ∀ timer, ∀ command ∈ callback timer, command.Plain)
    (h : Tracks Short s waiting batch indexed) :
    ∃ next, Machine.run (fire clock callback) s (indexed.map Timer.id) = some next ∧
      Tracks Short next (waiting ++ newTimers s.timerId
        (indexed.flatMap fun timer => (callback timer.id).filterMap Command.request)) batch [] ∧
      next.started = s.started ++ indexed.map Timer.id ∧ s.readings ≤ next.readings := by
  induction indexed generalizing s waiting with
  | nil =>
      refine ⟨s, rfl, ?_, ?_, Nat.le_refl _⟩
      · simpa [newTimers] using h
      · simp
  | cons timer indexed ih =>
      obtain ⟨fired, hfire, htracks, htimerId, hstarted, hreadings⟩ :=
        fire_tracks clock (hplain timer.id) h
      obtain ⟨next, hrun, htracks', hstarted', hreadings'⟩ := ih htracks
      refine ⟨next, ?_, ?_, ?_, hreadings.trans hreadings'⟩
      · rw [List.map_cons, Machine.run_cons, hfire, Option.bind_some, hrun]
      · -- The next callback draws its ids where this one has left off.
        rw [List.flatMap_cons, newTimers_append, ← List.append_assoc, ← htimerId]
        exact htracks'
      · rw [hstarted', hstarted, List.append_assoc, List.singleton_append, List.map_cons]

/-! ### Timers that repeat -/

theorem restart_eq (hpos : timer.interval > 0) (hshort : timer.interval ≤ 2147) (now : Int) :
    timer.restart now = { timer with ts := now + timer.interval * 1000000 } := by
  have hmilli : toInt32 (timer.interval * 1000) = timer.interval * 1000 :=
    toInt32_of_range (by omega) (by omega)
  have hmicro : toInt32 (timer.interval * 1000 * 1000) = timer.interval * 1000 * 1000 :=
    toInt32_of_range (by omega) (by omega)
  rw [Timer.restart, hmilli, hmicro, Int.mul_assoc]
  rfl

theorem resetTimers_tracks (clock : ℕ → Int) {first : ℕ} (h : Tracks Short s waiting batch [])
    (hfirst : first < s.readings) :
    ∃ next restarted, resetTimers clock s (batch.map Timer.id) = some next ∧
      Tracks Short next (waiting ++ restarted) [] [] ∧
      List.Forall₂ (Restarted clock first next.readings) (batch.filter (·.repeats)) restarted ∧
      next.started = s.started ∧ s.readings ≤ next.readings := by
  induction batch generalizing s waiting with
  | nil =>
      refine ⟨s, [], rfl, ?_, .nil, rfl, Nat.le_refl _⟩
      rw [List.append_nil]
      exact h
  | cons timer batch ih =>
      have htimer : timer ∈ waiting ++ timer :: batch := List.mem_append_right _ List.mem_cons_self
      obtain ⟨hmade, hshort⟩ := h.kept timer htimer
      rw [resetTimers, List.map_cons, Machine.run_cons]
      by_cases hrepeats : timer.repeats
      · obtain ⟨middle, hreset, hstarted, hreadings, -, htracks⟩ :=
          resetTimer_repeating clock h hrepeats (h.kept timer htimer)
        rw [hrepeats] at hmade
        rw [restart_eq (of_decide_eq_true hmade.symm) hshort.le] at htracks
        obtain ⟨next, restarted, hrun, htracks', hforall, hstarted', hreadings'⟩ :=
          ih htracks (hfirst.trans hreadings)
        rw [hreset, Option.bind_some, List.filter_cons_of_pos hrepeats]
        rw [List.append_assoc] at htracks'
        exact ⟨next, _, hrun, htracks',
          .cons ⟨s.readings, hfirst, hreadings.trans_le hreadings', rfl⟩ hforall,
          hstarted'.trans hstarted, hreadings.le.trans hreadings'⟩
      · obtain ⟨middle, hreset, hstarted, hreadings, -, htracks⟩ :=
          resetTimer_oneShot clock h hrepeats
        obtain ⟨next, restarted, hrun, htracks', hforall, hstarted', hreadings'⟩ :=
          ih htracks (hfirst.trans_le hreadings.ge)
        rw [hreset, Option.bind_some, List.filter_cons_of_neg hrepeats]
        exact ⟨next, restarted, hrun, htracks', hforall, hstarted'.trans hstarted,
          hreadings.ge.trans hreadings'⟩

/-! ### Whole calls -/

theorem handleRead_spec (clock : ℕ → Int) {callback : ℕ → List Command}
    (h : Tracks Short s waiting [] []) (hplain : Plain (.handleRead callback)) :
    ∃ next, s.handleRead clock callback = some next ∧
      ∃ waiting', FiresDue clock s waiting callback next waiting' ∧
        Tracks Short next waiting' [] [] := by
  have hread := readTimerfd_tracks clock h
  have hids := map_id_dueTimers clock hread
  obtain ⟨fired, hfire, hfired, hstarted, hreadings⟩ :=
    run_fire_tracks clock hplain (scan_tracks clock hread)
  have hfirst : s.readings + 1 < fired.readings := by
    simp only [scan, readTimerfd] at hreadings
    omega
  obtain ⟨next, restarted, hreset, htracks, hforall, hstarted', -⟩ :=
    resetTimers_tracks clock hfired hfirst
  refine ⟨next, ?_, _, ⟨dueTimers clock (readTimerfd clock s) waiting, restarted,
    dueTimers_inOrder clock hread, hstarted'.trans hstarted, hforall, rfl⟩, htracks⟩
  rw [hids] at hfire hreset
  simp only [handleRead]
  rw [hfire, Option.bind_some, hreset]

theorem step_spec (call : Call) (h : Tracks Short s waiting [] []) (hplain : Plain call) :
    ∃ next ∈ step clock s call, ∃ waiting', Specified clock s waiting call next waiting' ∧
      Tracks Short next waiting' [] [] := by
  cases call with
  | addTimer ts interval =>
      exact ⟨_, rfl, _, ⟨rfl, started_addTimer⟩, addTimer_tracks clock ts h ⟨rfl, hplain⟩⟩
  | removeTimer timerid =>
      obtain ⟨next, hstep, hstarted, -, htracks⟩ := removeTimer_spec h List.not_mem_nil
      exact ⟨next, hstep, _, ⟨rfl, hstarted⟩, htracks⟩
  | handleRead callback =>
      obtain ⟨next, hstep, waiting', hfires, htracks⟩ := handleRead_spec clock h hplain
      exact ⟨next, hstep, waiting', hfires, htracks⟩

/-- **The timers fire when they are due.** In every run the two indexes represent the timers that are
waiting, and each `HandleRead` calls back exactly those that are due, in order, and keeps the ones that
repeat. -/
theorem timers_fire_when_due (clock : ℕ → Int) (calls : List Call)
    (hplain : ∀ call ∈ calls, Plain call) :
    Machine.Simulates (step clock) Represents (Specified clock) new [] calls := by
  apply Machine.simulates_of_forall (fun s waiting => Tracks Short s waiting [] []) _ _ calls new []
    tracks_new hplain
  · exact fun _ _ h => h.represents
  · exact fun _ _ call h hplain => step_spec call h hplain

/-- Timer 1 repeats, timer 2 is removed, and the callback of timer 1 adds timer 3. -/
theorem timers_fire_when_due_one :
    let calls : List Call := [.addTimer 1 1, .addTimer 1 0, .removeTimer 2,
      .handleRead fun _ => [.addTimer 2 0]]
    (∀ call ∈ calls, Plain call) ∧
      Machine.Simulates (step fun reading => reading) Represents (Specified fun reading => reading) new
        [] calls := by
  have hplain : ∀ call ∈ ([.addTimer 1 1, .addTimer 1 0, .removeTimer 2,
      .handleRead fun _ => [.addTimer 2 0]] : List Call), Plain call := by
    simp [Plain, Command.Plain]
  exact ⟨hplain, timers_fire_when_due (fun reading => reading) _ hplain⟩

end EasyLib.Reactors.TimerQueue
