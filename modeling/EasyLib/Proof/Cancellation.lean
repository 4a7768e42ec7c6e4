import EasyLib.Proof.TimerIndexes
import EasyLib.Reactors.TimerCancel

/-!
# Cancelling a timer is final between batches only

A timer that is waiting is in both indexes, so `RemoveTimer` takes it out of both and nothing refers to
it any more. A timer that `HandleRead` has taken out of the queue is in the hands of `HandleRead`, which
calls it back and resets it whatever `RemoveTimer` does: the id may be gone from `idtotimers_`, and then
`RemoveTimer` does nothing, or the timer is deleted and used nonetheless. So cancelling is final exactly
when no callback removes a timer of its own batch.
-/

namespace EasyLib.Reactors

open TimerQueue

/-! ### The actions are the code -/

namespace TimerQueue

variable (clock : ℕ → Int)

theorem run_callbacks (callback : ℕ → List Command) (timers : List ℕ) (s : TimerQueue) :
    Machine.run (act clock) s (callbacks callback timers) =
      Machine.run (fire clock callback) s timers := by
  induction timers generalizing s with
  | nil => rfl
  | cons timer timers ih =>
      have hcommands : ∀ s, Machine.run (act clock) s ((callback timer).map .exec) =
          Machine.run (exec clock) s (callback timer) := fun s => Machine.run_map (act clock) .exec s _
      have hfire : Machine.run (act clock) s (.start timer :: (callback timer).map .exec) =
          fire clock callback s timer := by
        rw [Machine.run_cons, act, Option.bind_map, fire]
        congr 1
        funext object
        exact hcommands (s.start object)
      rw [callbacks, List.flatMap_cons, Machine.run_append, hfire, Machine.run_cons]
      congr 1
      funext next
      exact ih next

theorem run_actions (s : TimerQueue) (call : Call) :
    Machine.run (act clock) s (s.actions clock call) = step clock s call := by
  cases call with
  | addTimer ts interval => rfl
  | removeTimer timerid => exact Option.bind_fun_some _
  | handleRead callback =>
      rw [actions, Machine.run_cons, act, Option.bind_some, Machine.run_append, run_callbacks, step,
        handleRead]
      congr 1
      funext fired
      exact Machine.run_map (act clock) .reset fired _

end TimerQueue

namespace Recorder

variable {Record : Type} {note : TimerQueue → Action → TimerQueue → Record → Record} {clock : ℕ → Int}

theorem act_eq_some_iff {s next : Recorder Record} {action : Action} :
    act note clock s action = some next ↔ s.queue.act clock action = some next.queue ∧
      next.record = note s.queue action next.queue s.record := by
  rw [act, Option.map_eq_some_iff]
  constructor
  · rintro ⟨queue, hqueue, rfl⟩
    exact ⟨hqueue, rfl⟩
  · rintro ⟨hqueue, hrecord⟩
    exact ⟨next.queue, hqueue, by rw [← hrecord]⟩

theorem map_queue_act (s : Recorder Record) (action : Action) :
    (act note clock s action).map queue = s.queue.act clock action := by
  rw [act, Option.map_map]
  exact Option.map_id'

/-- What is recorded does not change what the queue does. -/
theorem map_queue_step (s : Recorder Record) (call : Call) :
    (step note clock s call).map queue = s.queue.step clock call := by
  rw [step, Machine.run_erase queue map_queue_act, run_actions]

end Recorder

namespace Ledger

variable {clock : ℕ → Int} {s next : Ledger} {waiting batch indexed : List Timer} {timer : Timer}
  {action : Action}

theorem act_of_queue {queue : TimerQueue} (hact : s.queue.act clock action = some queue) :
    act clock s action = some ⟨queue, s.cancelled ++ s.queue.cancels action⟩ :=
  Recorder.act_eq_some_iff.mpr ⟨hact, rfl⟩

/-! ### Batches that nobody cancels -/

/-- No timer that the queue or `HandleRead` still refers to is cancelled. -/
structure Keeps (s : Ledger) (waiting batch indexed : List Timer) : Prop where
  tracks : Tracks (fun timer => 0 < timer.id ∧ timer.id ∉ s.cancelled) s.queue waiting batch indexed
  past : ∀ timerid ∈ s.cancelled, timerid ≤ s.queue.timerId

theorem keeps_new : Keeps new [] [] [] := ⟨tracks_new, by simp [new, cancelled]⟩

theorem Keeps.spared (h : Keeps s waiting batch indexed) (htimer : timer ∈ waiting ++ batch) :
    timer.id ∉ s.cancelled := (h.tracks.kept timer htimer).2

theorem keeps_scan (clock : ℕ → Int) (h : Keeps s waiting [] []) :
    ∃ next ∈ act clock s .scan, ∃ waiting' batch, batch.map Timer.id = s.queue.expired clock ∧
      Keeps next waiting' batch batch := by
  have hread := readTimerfd_tracks clock h.tracks
  refine ⟨⟨(scan clock (readTimerfd clock s.queue)).2, s.cancelled⟩, ?_, _, _,
    map_id_dueTimers clock hread, scan_tracks clock hread, h.past⟩
  rw [Option.mem_def, act_of_queue rfl, cancels, List.append_nil]

theorem keeps_addTimer (h : Keeps s waiting batch indexed) (ts interval : Int) :
    Spares s (.exec (.addTimer ts interval)) ∧
      ∃ next ∈ act clock s (.exec (.addTimer ts interval)), ∃ waiting',
        Keeps next waiting' batch indexed := by
  have hfresh : s.queue.timerId + 1 ∉ s.cancelled := by
    intro hmem
    have hle := h.past _ hmem
    omega
  constructor
  · intro timer htimer
    obtain rfl := Option.some.inj htimer
    exact hfresh
  · refine ⟨⟨s.queue.addTimer clock ts interval, s.cancelled⟩, ?_, _,
      addTimer_tracks clock ts h.tracks ⟨Nat.succ_pos _, hfresh⟩, fun timerid hmem => ?_⟩
    · rw [Option.mem_def, act_of_queue rfl, cancels, List.append_nil]
    · rw [timerId_addTimer]
      exact Nat.le_succ_of_le (h.past timerid hmem)

theorem keeps_removeTimer {timerid : ℕ} (h : Keeps s waiting batch indexed)
    (hbatch : timerid ∉ batch.map Timer.id) :
    Spares s (.exec (.removeTimer timerid)) ∧
      ∃ next ∈ act clock s (.exec (.removeTimer timerid)), ∃ waiting',
        Keeps next waiting' batch indexed := by
  constructor
  · intro timer htimer
    simp only [used, h.tracks.index, Option.mem_def, Option.ite_none_right_eq_some,
      Option.some.injEq] at htimer
    obtain ⟨hmem, rfl⟩ := htimer
    obtain ⟨other, hother, rfl⟩ := List.mem_map.mp hmem
    exact h.spared ((h.tracks.sub.append_left waiting).mem hother)
  · obtain ⟨queue, hremove, -, htimerId, htracks⟩ := removeTimer_spec h.tracks hbatch
    refine ⟨_, act_of_queue hremove, _, { htracks with kept := fun other hother => ?_ }, ?_⟩
    · -- The one timer with this id is gone from the list, and it was not in the batch.
      obtain ⟨hpos, hspared⟩ := htracks.kept other hother
      have hne : other.id ≠ timerid := by
        obtain hwaiting | hout := List.mem_append.mp hother
        · exact of_decide_eq_true (List.mem_filter.mp hwaiting).2
        · intro hid
          exact hbatch (hid ▸ List.mem_map_of_mem hout)
      refine ⟨hpos, fun hmem => ?_⟩
      obtain hmem | hmem := List.mem_append.mp hmem
      · exact hspared hmem
      · rw [cancels, List.mem_ite_nil_right, List.mem_singleton] at hmem
        exact hne hmem.2
    · intro other hother
      rw [htimerId]
      obtain hmem | hmem := List.mem_append.mp hother
      · exact h.past other hmem
      · rw [cancels, List.mem_ite_nil_right, List.mem_singleton] at hmem
        obtain ⟨hdrawn, rfl⟩ := hmem
        exact hdrawn.2

theorem keeps_start (clock : ℕ → Int) (h : Keeps s waiting batch (timer :: indexed)) :
    Spares s (.start timer.id) ∧
      ∃ next ∈ act clock s (.start timer.id), Keeps next waiting batch indexed := by
  have htimer : timer ∈ waiting ++ batch :=
    List.mem_append_right _ (h.tracks.sub.mem List.mem_cons_self)
  constructor
  · intro timerid htimerid
    obtain rfl := Option.some.inj htimerid
    exact h.spared htimer
  · refine ⟨⟨s.queue.start timer, s.cancelled⟩, ?_, start_tracks h.tracks, h.past⟩
    have hstart : s.queue.act clock (.start timer.id) = some (s.queue.start timer) := by
      rw [TimerQueue.act, h.tracks.objects timer htimer, Option.map_some]
    rw [Option.mem_def, act_of_queue hstart, cancels, List.append_nil]

theorem keeps_reset (clock : ℕ → Int) (h : Keeps s waiting (timer :: batch) []) :
    Spares s (.reset timer.id) ∧
      ∃ next ∈ act clock s (.reset timer.id), ∃ waiting', Keeps next waiting' batch [] := by
  have htimer : timer ∈ waiting ++ timer :: batch := List.mem_append_right _ List.mem_cons_self
  have hreset : ∃ queue, resetTimer clock s.queue timer.id = some queue ∧
      queue.timerId = s.queue.timerId ∧
      ∃ waiting', Tracks (fun timer => 0 < timer.id ∧ timer.id ∉ s.cancelled) queue waiting' batch [] := by
    by_cases hrepeats : timer.repeats
    · obtain ⟨queue, hreset, -, -, htimerId, htracks⟩ :=
        resetTimer_repeating clock h.tracks hrepeats (h.tracks.kept timer htimer)
      exact ⟨queue, hreset, htimerId, _, htracks⟩
    · obtain ⟨queue, hreset, -, -, htimerId, htracks⟩ := resetTimer_oneShot clock h.tracks hrepeats
      exact ⟨queue, hreset, htimerId, _, htracks⟩
  obtain ⟨queue, hreset, htimerId, waiting', htracks⟩ := hreset
  constructor
  · intro timerid htimerid
    obtain rfl := Option.some.inj htimerid
    exact h.spared htimer
  · refine ⟨⟨queue, s.cancelled⟩, ?_, waiting', htracks, fun timerid hmem => ?_⟩
    · have hact : s.queue.act clock (.reset timer.id) = some queue := hreset
      rw [Option.mem_def, act_of_queue hact, cancels, List.append_nil]
    · rw [htimerId]
      exact h.past timerid hmem

/-- `commands` holds no `RemoveTimer` for a timer of the batch. -/
theorem keeps_commands (commands : List Command) (h : Keeps s waiting batch indexed)
    (hcommands : ∀ timerid ∈ batch.map Timer.id, .removeTimer timerid ∉ commands) :
    Machine.Completes (act clock) Spares (fun next => ∃ waiting', Keeps next waiting' batch indexed) s
      (commands.map .exec) := by
  apply Machine.completes_of_forall _ _ ⟨waiting, h⟩
  rintro s action haction ⟨waiting, h⟩
  obtain ⟨command, hcommand, rfl⟩ := List.mem_map.mp haction
  cases command with
  | addTimer ts interval => exact keeps_addTimer h ts interval
  | removeTimer timerid => exact keeps_removeTimer h fun hmem => hcommands timerid hmem hcommand

theorem keeps_callbacks {callback : ℕ → List Command}
    (hcallback : ∀ timer ∈ batch.map Timer.id, ∀ other ∈ batch.map Timer.id,
      .removeTimer other ∉ callback timer) (h : Keeps s waiting batch indexed) :
    Machine.Completes (act clock) Spares (fun next => ∃ waiting', Keeps next waiting' batch []) s
      (callbacks callback (indexed.map Timer.id)) := by
  induction indexed generalizing s waiting with
  | nil => exact ⟨waiting, h⟩
  | cons timer indexed ih =>
      have htimer : timer.id ∈ batch.map Timer.id :=
        List.mem_map_of_mem (h.tracks.sub.mem List.mem_cons_self)
      obtain ⟨hspares, next, hnext, hstarted⟩ := keeps_start clock h
      rw [callbacks, List.map_cons, List.flatMap_cons]
      refine Machine.Completes.append ⟨hspares, next, hnext, keeps_commands _ hstarted ?_⟩ ?_
      · exact hcallback timer.id htimer
      · rintro last ⟨waiting', hlast⟩
        exact ih hlast

theorem keeps_resets (h : Keeps s waiting batch []) :
    Machine.Completes (act clock) Spares (fun next => ∃ waiting', Keeps next waiting' [] []) s
      ((batch.map Timer.id).map .reset) := by
  induction batch generalizing s waiting with
  | nil => exact ⟨waiting, h⟩
  | cons timer batch ih =>
      obtain ⟨hspares, next, hnext, waiting', hnext'⟩ := keeps_reset clock h
      exact ⟨hspares, next, hnext, ih hnext'⟩

theorem completes_of_apart {call : Call} (h : Keeps s waiting [] [])
    (hapart : s.queue.Apart clock call) :
    Machine.Completes (act clock) Spares (fun next => ∃ waiting', Keeps next waiting' [] []) s
      (s.queue.actions clock call) := by
  cases call with
  | addTimer ts interval =>
      exact keeps_commands [.addTimer ts interval] h fun timerid hmem => nomatch hmem
  | removeTimer timerid =>
      exact keeps_commands [.removeTimer timerid] h fun timerid hmem => nomatch hmem
  | handleRead callback =>
      obtain ⟨next, hnext, waiting', batch, hexpired, hscanned⟩ := keeps_scan clock h
      rw [actions]
      refine ⟨(fun timer htimer => nomatch htimer), next, hnext, ?_⟩
      rw [← hexpired]
      refine (keeps_callbacks ?_ hscanned).append ?_
      · rw [hexpired]
        exact hapart
      · rintro fired ⟨waiting', hfired⟩
        exact keeps_resets hfired

/-! ### Batches of which a timer is cancelled -/

/-- Every timer that `HandleRead` holds, or that an id leads to, has its object unless it has been
cancelled. This outlasts a callback that removes a timer of the batch. -/
structure Held (s : Ledger) (timers : List ℕ) : Prop where
  alive : ∀ timer ∈ timers, timer ∉ s.cancelled → (s.queue.timers timer).isSome
  drawn : ∀ timer ∈ timers, s.queue.Drawn timer
  index : ∀ timerid, ∀ timer ∈ s.queue.idtotimers timerid, timer = timerid ∧ s.queue.Drawn timerid ∧
    (timerid ∉ s.cancelled → (s.queue.timers timerid).isSome)

theorem Keeps.held (h : Keeps s waiting batch indexed) : Held s (batch.map Timer.id) := by
  have hobject : ∀ timer ∈ waiting ++ batch, (s.queue.timers timer.id).isSome := by
    intro timer htimer
    rw [h.tracks.objects timer htimer]
    rfl
  have hdrawn : ∀ timer ∈ waiting ++ batch, s.queue.Drawn timer.id := by
    intro timer htimer
    exact ⟨(h.tracks.kept timer htimer).1, h.tracks.drawn timer htimer⟩
  constructor
  · intro timerid hmem _
    obtain ⟨timer, htimer, rfl⟩ := List.mem_map.mp hmem
    exact hobject timer (List.mem_append_right _ htimer)
  · intro timerid hmem
    obtain ⟨timer, htimer, rfl⟩ := List.mem_map.mp hmem
    exact hdrawn timer (List.mem_append_right _ htimer)
  · intro timerid timer htimer
    rw [h.tracks.index, Option.mem_def, Option.ite_none_right_eq_some, Option.some.injEq] at htimer
    obtain ⟨hmem, rfl⟩ := htimer
    obtain ⟨other, hother, rfl⟩ := List.mem_map.mp hmem
    have hother := (h.tracks.sub.append_left waiting).mem hother
    exact ⟨rfl, hdrawn other hother, fun _ => hobject other hother⟩

/-- The actions of the callbacks of `timers`. -/
def Called (timers : List ℕ) : Action → Prop
  | .start timer => timer ∈ timers
  | .exec _ => True
  | .scan | .reset _ => False

theorem mem_cancelled_act {timerid : ℕ} (hact : act clock s action = some next) :
    timerid ∈ next.cancelled ↔ timerid ∈ s.cancelled ∨ timerid ∈ s.queue.cancels action := by
  rw [cancelled, (Recorder.act_eq_some_iff.mp hact).2]
  exact List.mem_append

theorem held_addTimer {timers : List ℕ} (h : Held s timers) (ts interval : Int) :
    Held ⟨s.queue.addTimer clock ts interval, s.cancelled⟩ timers := by
  have hdrawn : ∀ {timerid}, s.queue.Drawn timerid →
      (s.queue.addTimer clock ts interval).Drawn timerid := by
    rintro timerid ⟨hpos, hle⟩
    exact ⟨hpos, timerId_addTimer ▸ Nat.le_succ_of_le hle⟩
  have hobject : ∀ {timer}, (s.queue.timers timer).isSome →
      ((s.queue.addTimer clock ts interval).timers timer).isSome := by
    intro timer halive
    rw [timers_addTimer, Function.update_apply]
    split_ifs
    · rfl
    · exact halive
  refine ⟨fun timer htimer hspared => hobject (h.alive timer htimer hspared),
    fun timer htimer => hdrawn (h.drawn timer htimer), fun timerid timer htimer => ?_⟩
  rw [idtotimers_addTimer, Function.update_apply] at htimer
  split_ifs at htimer with hid
  · obtain rfl := Option.some.inj htimer
    refine ⟨hid.symm, ?_, fun _ => ?_⟩
    · rw [hid]
      exact ⟨Nat.succ_pos _, timerId_addTimer.ge⟩
    · rw [timers_addTimer, hid, Function.update_self]
      rfl
  · obtain ⟨heq, hdrawn', halive⟩ := h.index timerid timer htimer
    exact ⟨heq, hdrawn hdrawn', fun hspared => hobject (halive hspared)⟩

theorem held_removeTimer {timers : List ℕ} {timerid : ℕ} (h : Held s timers)
    (hspares : Spares s (.exec (.removeTimer timerid))) :
    ∃ next ∈ act clock s (.exec (.removeTimer timerid)), Held next timers := by
  have hbefore : ∀ {timer}, timer ∉ s.cancelled ++ s.queue.cancels (.exec (.removeTimer timerid)) →
      timer ∉ s.cancelled := fun hspared hmem => hspared (List.mem_append_left _ hmem)
  cases hid : s.queue.idtotimers timerid with
  | none =>
      -- `RemoveTimer` finds nothing, and the timer counts as cancelled all the same.
      have hremove : s.queue.removeTimer timerid = some s.queue := by rw [removeTimer, hid]
      refine ⟨_, act_of_queue hremove, ?_, h.drawn, fun other timer htimer => ?_⟩
      · exact fun timer htimer hspared => h.alive timer htimer (hbefore hspared)
      · obtain ⟨heq, hdrawn, halive⟩ := h.index other timer htimer
        exact ⟨heq, hdrawn, fun hspared => halive (hbefore hspared)⟩
  | some timer =>
      obtain ⟨rfl, hdrawn, halive⟩ := h.index timerid timer hid
      obtain ⟨object, hobject⟩ := Option.isSome_iff_exists.mp (halive (hspares timer hid))
      obtain ⟨queue, hremove, htimerId, htimers, hindex⟩ := removeTimer_frame hid hobject
      have hother : ∀ {other}, other ∉ s.cancelled ++ s.queue.cancels (.exec (.removeTimer timer)) →
          (s.queue.timers other).isSome → (queue.timers other).isSome := by
        intro other hspared halive
        have hne : other ≠ timer := by
          rintro rfl
          rw [cancels, if_pos hdrawn] at hspared
          exact hspared (List.mem_append_right _ (List.mem_singleton_self _))
        rw [htimers, Function.update_of_ne hne]
        exact halive
      refine ⟨_, act_of_queue hremove, ?_, ?_, fun other found hfound => ?_⟩
      · exact fun other hmem hspared => hother hspared (h.alive other hmem (hbefore hspared))
      · simp only [Drawn, htimerId]
        exact h.drawn
      · simp only [hindex, Function.update_apply] at hfound
        split_ifs at hfound
        · cases hfound
        · obtain ⟨heq, hdrawn', halive'⟩ := h.index other found hfound
          simp only [Drawn, htimerId]
          exact ⟨heq, hdrawn', fun hspared => hother hspared (halive' (hbefore hspared))⟩

theorem held_start {timers : List ℕ} {timer : ℕ} (h : Held s timers) (htimer : timer ∈ timers)
    (hspares : Spares s (.start timer)) : ∃ next ∈ act clock s (.start timer), Held next timers := by
  obtain ⟨object, hobject⟩ := Option.isSome_iff_exists.mp (h.alive timer htimer (hspares timer rfl))
  have hstart : s.queue.act clock (.start timer) = some (s.queue.start object) := by
    rw [TimerQueue.act, hobject, Option.map_some]
  refine ⟨_, act_of_queue hstart, ?_⟩
  rw [cancels, List.append_nil]
  refine ⟨h.alive, h.drawn, fun other found hfound => ?_⟩
  simp only [start, Function.update_apply] at hfound
  split_ifs at hfound
  · cases hfound
  · exact h.index other found hfound

theorem held_called {timers : List ℕ} (h : Held s timers) (hcalled : Called timers action)
    (hspares : Spares s action) : ∃ next ∈ act clock s action, Held next timers := by
  cases action with
  | scan => exact hcalled.elim
  | start timer => exact held_start h hcalled hspares
  | exec command =>
      cases command with
      | addTimer ts interval =>
          refine ⟨_, act_of_queue rfl, ?_⟩
          rw [cancels, List.append_nil]
          exact held_addTimer h ts interval
      | removeTimer timerid => exact held_removeTimer h hspares
  | reset timer => exact hcalled.elim

/-- After the callbacks the timers that they have removed are cancelled, and the batch is held. -/
theorem cancelled_of_called {timers : List ℕ} {actions : List Action} (h : Held s timers)
    (hcalled : ∀ action ∈ actions, Called timers action)
    (hall : Machine.AllSteps (act clock) Spares s actions) :
    ∃ last ∈ Machine.run (act clock) s actions, Held last timers ∧
      ∀ timer ∈ timers, timer ∈ s.cancelled ∨ .exec (.removeTimer timer) ∈ actions →
        timer ∈ last.cancelled := by
  induction actions generalizing s with
  | nil =>
      refine ⟨s, rfl, h, fun timer _ hcancelled => ?_⟩
      exact hcancelled.resolve_right List.not_mem_nil
  | cons action actions ih =>
      obtain ⟨hhead, htail⟩ := List.forall_mem_cons.mp hcalled
      obtain ⟨next, hnext, hheld⟩ := held_called h hhead hall.1
      obtain ⟨last, hlast, hheld', hcancelled⟩ := ih hheld htail (hall.2 next hnext)
      refine ⟨last, Option.mem_bind_iff.mpr ⟨next, hnext, hlast⟩, hheld', fun timer htimer hor => ?_⟩
      apply hcancelled timer htimer
      rw [mem_cancelled_act hnext]
      obtain hbefore | hmem := hor
      · exact .inl (.inl hbefore)
      · obtain rfl | hmem := List.mem_cons.mp hmem
        · refine .inl (.inr ?_)
          rw [cancels, if_pos (h.drawn timer htimer)]
          exact List.mem_singleton_self timer
        · exact .inr hmem

/-- `ResetTimers` uses every timer of the batch. -/
theorem spared_of_resets {timers : List ℕ} (hnodup : timers.Nodup)
    (halive : ∀ timer ∈ timers, timer ∉ s.cancelled → (s.queue.timers timer).isSome)
    (hall : Machine.AllSteps (act clock) Spares s (timers.map .reset)) :
    ∀ timer ∈ timers, timer ∉ s.cancelled := by
  induction timers generalizing s with
  | nil => exact fun timer htimer => nomatch htimer
  | cons timer timers ih =>
      obtain ⟨hspares, hrest⟩ := hall
      have hspared : timer ∉ s.cancelled := hspares timer rfl
      obtain ⟨htimer, hnodup⟩ := List.nodup_cons.mp hnodup
      obtain ⟨object, hobject⟩ :=
        Option.isSome_iff_exists.mp (halive timer List.mem_cons_self hspared)
      obtain ⟨queue, hreset, hothers⟩ := resetTimer_frame clock hobject
      have hact : s.queue.act clock (.reset timer) = some queue := hreset
      have hnext := hrest _ (act_of_queue hact)
      rw [cancels, List.append_nil] at hnext
      have halive' : ∀ other ∈ timers, other ∉ s.cancelled → (queue.timers other).isSome := by
        intro other hother hmem
        rw [hothers other fun heq => htimer (heq ▸ hother)]
        exact halive other (List.mem_cons_of_mem _ hother) hmem
      exact List.forall_mem_cons.mpr ⟨hspared, ih (s := ⟨queue, s.cancelled⟩) hnodup halive' hnext⟩

theorem called_callbacks (callback : ℕ → List Command) (timers : List ℕ) :
    ∀ action ∈ callbacks callback timers, Called timers action := by
  intro action haction
  obtain ⟨timer, htimer, haction⟩ := List.mem_flatMap.mp haction
  obtain rfl | haction := List.mem_cons.mp haction
  · exact htimer
  · obtain ⟨command, -, rfl⟩ := List.mem_map.mp haction
    trivial

theorem apart_of_final {call : Call} (h : Keeps s waiting [] []) (hfinal : Final clock s call) :
    s.queue.Apart clock call := by
  cases call with
  | addTimer ts interval => trivial
  | removeTimer timerid => trivial
  | handleRead callback =>
      obtain ⟨next, hnext, waiting', batch, hexpired, hscanned⟩ := keeps_scan clock h
      have hnodup := hscanned.tracks.distinct
      rw [List.map_append, hexpired] at hnodup
      have hheld := hscanned.held
      rw [hexpired] at hheld
      obtain ⟨hcallbacks, hresets⟩ := Machine.allSteps_append.mp (hfinal.2 next hnext)
      obtain ⟨fired, hfired, hheld', hcancelled⟩ :=
        cancelled_of_called hheld (called_callbacks callback _) hcallbacks
      have hspared := spared_of_resets hnodup.of_append_right hheld'.alive (hresets fired hfired)
      -- `ResetTimers` is about to use the whole batch, so nothing in it is cancelled by now.
      intro timer htimer other hother hremove
      apply hspared other hother
      apply hcancelled other hother
      exact .inr (List.mem_flatMap.mpr ⟨timer, htimer,
        List.mem_cons_of_mem _ (List.mem_map_of_mem hremove)⟩)

/-! ### Whole runs -/

/-- **When cancelling is final.** In exactly the runs in which no callback removes a timer of its own
batch, a timer is neither called back nor used otherwise once `RemoveTimer` has returned for it. -/
theorem cancelling_final_iff (clock : ℕ → Int) (calls : List Call) :
    Machine.AllSteps (step clock) (Final clock) new calls ↔
      Machine.AllSteps (TimerQueue.step clock) (Apart clock) TimerQueue.new calls := by
  refine Iff.trans ?_ (Machine.allSteps_erase Recorder.queue (@Recorder.map_queue_step _ note clock) new)
  apply Machine.allSteps_congr (fun s => ∃ waiting, Keeps s waiting [] []) _ _ ⟨[], keeps_new⟩
  · rintro s call ⟨waiting, h⟩
    exact ⟨apart_of_final h, fun hapart => (completes_of_apart h hapart).allSteps⟩
  · rintro s call next ⟨waiting, h⟩ hapart hnext
    obtain ⟨last, hlast, hkeeps⟩ := (completes_of_apart h hapart).run
    obtain rfl : last = next := Option.mem_unique hlast hnext
    exact hkeeps

/-- A timer that repeats and removes itself in its callback is called back again; and a timer that the
callback before it removes is used after it has been deleted. -/
theorem cancelling_not_final :
    let clock : ℕ → Int := fun reading => reading * 1000000
    let remove (timer : ℕ) : Call := .handleRead fun _ => [.removeTimer timer]
    (¬ Machine.AllSteps (step clock) (Final clock) new [.addTimer 1 1, remove 1, remove 1] ∧
      (Machine.run (TimerQueue.step clock) TimerQueue.new [.addTimer 1 1, remove 1, remove 1]).map
        TimerQueue.started = some [1, 1]) ∧
    ¬ Machine.AllSteps (step clock) (Final clock) new [.addTimer 1 0, .addTimer 1 0, remove 2] ∧
      Machine.run (TimerQueue.step clock) TimerQueue.new [.addTimer 1 0, .addTimer 1 0, remove 2] =
        none := by
  refine ⟨⟨?_, ?_⟩, ?_, ?_⟩
  · decide +kernel
  · rfl
  · decide +kernel
  · rfl

end Ledger

end EasyLib.Reactors
