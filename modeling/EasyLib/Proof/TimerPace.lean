import EasyLib.Proof.TimerFiring

/-!
# How often a timer fires

`Restart` takes the time of day again when the callbacks are done, so that the next expiration of a timer
that repeats is at least an interval behind the scan that has found it due. However late the loop comes to
call `HandleRead`, the timer does not catch up: in a stretch of a run it fires once, and then once more
for each interval that has gone by.

`made` are the timers as `AddTimer` has made them, also those that the callbacks have asked for.
-/

namespace EasyLib.Reactors.TimerQueue

structure Logged where
  queue : TimerQueue
  made : List Timer

/-- The timers that a call makes. The callbacks ask for theirs in the order they are started in. -/
def Call.made (s next : TimerQueue) : Call → List Timer
  | .addTimer ts interval => newTimers s.timerId [(ts, interval)]
  | .removeTimer _ => []
  | .handleRead callback =>
      newTimers s.timerId ((next.started.drop s.started.length).flatMap fun timer =>
        (callback timer).filterMap Command.request)

def logged (clock : ℕ → Int) (l : Logged) (call : Call) : Option Logged :=
  (step clock l.queue call).map fun next => ⟨next, l.made ++ call.made l.queue next⟩

/-- How often a timer was called back since `start`. -/
def firings (start s : TimerQueue) (id : ℕ) : ℕ := (s.started.drop start.started.length).count id

/-- When a timer can fire for the time with this number, from `since` on. -/
def earliest (since : Int) (timer : Timer) (number : ℕ) : Int :=
  max timer.ts since + number * (timer.interval * 1000000)

/-- The timer has fired no earlier and no more often than its expiration and its interval allow. -/
structure Paced (clock : ℕ → Int) (start last : TimerQueue) (timer : Timer) : Prop where
  spaced : ∀ number < firings start last timer.id,
    earliest (clock start.readings) timer number ≤ clock (last.readings - 1)
  oneShot : timer.interval ≤ 0 → firings start last timer.id ≤ 1

variable {clock : ℕ → Int} {s next start : TimerQueue} {waiting : List Timer} {timer object : Timer}
  {made : List Timer} {call : Call}

/-! ### The counters of the queue -/

/-- So many readings were taken, and so many ids were drawn. -/
def Reached (readings timerId : ℕ) (s : TimerQueue) : Prop :=
  readings ≤ s.readings ∧ timerId ≤ s.timerId

variable {readings timerId : ℕ}

theorem addTimer_reached {ts interval : Int} (h : Reached readings timerId s) :
    Reached readings timerId (s.addTimer clock ts interval) :=
  ⟨h.1.trans readings_addTimer, h.2.trans (timerId_addTimer.ge.trans' (Nat.le_succ _))⟩

theorem removeTimer_reached {id : ℕ} (h : Reached readings timerId s)
    (hstep : s.removeTimer id = some next) : Reached readings timerId next := by
  rw [removeTimer] at hstep
  split at hstep
  · rwa [← Option.some.inj hstep]
  · obtain ⟨object, -, rfl⟩ := Option.map_eq_some_iff.mp hstep
    exact h

theorem exec_reached {command : Command} (h : Reached readings timerId s)
    (hstep : exec clock s command = some next) : Reached readings timerId next := by
  cases command with
  | addTimer ts interval =>
      rw [← Option.some.inj hstep]
      exact addTimer_reached h
  | removeTimer id => exact removeTimer_reached h hstep

theorem fire_reached {callback : ℕ → List Command} {id : ℕ} (h : Reached readings timerId s)
    (hstep : fire clock callback s id = some next) : Reached readings timerId next := by
  obtain ⟨object, -, hrun⟩ := Option.bind_eq_some_iff.mp hstep
  have hstart : Reached readings timerId (s.start object) := h
  exact Machine.run_invariant_of_forall (fun _ _ _ => exec_reached) hstart hrun

theorem resetTimer_reached {id : ℕ} (h : Reached readings timerId s)
    (hstep : resetTimer clock s id = some next) : Reached readings timerId next := by
  obtain ⟨object, -, rfl⟩ := Option.map_eq_some_iff.mp hstep
  split_ifs
  · exact ⟨h.1.trans (Nat.le_add_right s.readings 2), h.2⟩
  · exact h

/-- The read of `timer_fd_` and the scan each take the time. -/
theorem handleRead_reached {callback : ℕ → List Command}
    (hstep : s.handleRead clock callback = some next) :
    Reached (s.readings + 2) s.timerId next := by
  obtain ⟨fired, hfire, hreset⟩ := Option.bind_eq_some_iff.mp hstep
  have hscanned : Reached (s.readings + 2) s.timerId (scan clock (readTimerfd clock s)).2 :=
    ⟨Nat.le_refl _, Nat.le_refl _⟩
  have hfired : Reached (s.readings + 2) s.timerId fired :=
    Machine.run_invariant_of_forall (fun _ _ _ => fire_reached) hscanned hfire
  exact Machine.run_invariant_of_forall (fun _ _ _ => resetTimer_reached) hfired hreset

/-! ### What a call does to the timers -/

theorem lt_id_of_mem_newTimers {timerId : ℕ} {requests : List (Int × Int)}
    (htimer : timer ∈ newTimers timerId requests) : timerId < timer.id := by
  induction requests generalizing timerId with
  | nil => cases htimer
  | cons request requests ih =>
      obtain rfl | hrest := List.mem_cons.mp htimer
      · exact Nat.lt_succ_self timerId
      · exact (Nat.lt_succ_self timerId).trans (ih hrest)

theorem lt_id_of_mem_made (htimer : timer ∈ call.made s next) : s.timerId < timer.id := by
  cases call with
  | addTimer ts interval => exact lt_id_of_mem_newTimers htimer
  | removeTimer timerid => cases htimer
  | handleRead callback => exact lt_id_of_mem_newTimers htimer

/-- The call has called back `fired`, has left `kept` alone, and has put back `restarted`. -/
structure Effect (clock : ℕ → Int) (s next : TimerQueue) (waiting kept fired restarted : List Timer) :
    Prop where
  kept : ∀ timer ∈ kept, timer ∈ waiting ∧ timer.id ∉ fired.map Timer.id
  due : ∀ timer ∈ fired, timer ∈ waiting ∧ timer.ts ≤ clock (s.readings + 1)
  once : (fired.map Timer.id).Nodup
  started : next.started = s.started ++ fired.map Timer.id
  restarted : ∀ object ∈ restarted, ∃ timer ∈ fired, timer.repeats ∧
    Restarted clock (s.readings + 1) next.readings timer object
  reached : Reached s.readings s.timerId next
  scanned : fired ≠ [] → s.readings + 1 < next.readings

theorem Effect.of_quiet {kept : List Timer} (hkept : ∀ timer ∈ kept, timer ∈ waiting)
    (hstarted : next.started = s.started) (hreached : Reached s.readings s.timerId next) :
    Effect clock s next waiting kept [] [] where
  kept := fun timer htimer => ⟨hkept timer htimer, List.not_mem_nil⟩
  due := fun _ htimer => absurd htimer List.not_mem_nil
  once := List.nodup_nil
  started := hstarted.trans (List.append_nil _).symm
  restarted := fun _ hobject => absurd hobject List.not_mem_nil
  reached := hreached
  scanned := fun hne => absurd rfl hne

theorem exists_of_mem_restarted {first last : ℕ} {batch restarted : List Timer}
    (h : List.Forall₂ (Restarted clock first last) batch restarted) (hobject : object ∈ restarted) :
    ∃ timer ∈ batch, Restarted clock first last timer object := by
  induction h with
  | nil => cases hobject
  | cons hrestart _ ih =>
      obtain rfl | hrest := List.mem_cons.mp hobject
      · exact ⟨_, List.mem_cons_self, hrestart⟩
      · obtain ⟨timer, htimer, hother⟩ := ih hrest
        exact ⟨timer, List.mem_cons_of_mem _ htimer, hother⟩

theorem FiresDue.effect {callback : ℕ → List Command} {waiting' : List Timer}
    (hids : (waiting.map Timer.id).Nodup) (hreached : Reached (s.readings + 2) s.timerId next)
    (h : FiresDue clock s waiting callback next waiting') :
    ∃ kept fired restarted, Effect clock s next waiting kept fired restarted ∧
      waiting' = kept ++ (Call.handleRead callback).made s next ++ restarted := by
  obtain ⟨fired, restarted, horder, hstarted, hrestarted, rfl⟩ := h
  have hperm := horder.perm
  have hdue : ∀ timer ∈ fired, timer ∈ waiting ∧ timer.ts ≤ clock (s.readings + 1) := by
    intro timer htimer
    obtain ⟨hwaiting, hts⟩ := List.mem_filter.mp (hperm.mem_iff.mp htimer)
    exact ⟨hwaiting, of_decide_eq_true hts⟩
  have hlater : next.started.drop s.started.length = fired.map Timer.id := by
    rw [hstarted, List.drop_left]
  refine ⟨waiting.filter (clock (s.readings + 1) < ·.ts), fired, restarted,
    ⟨?_, hdue, ?_, hstarted, ?_, ?_, fun _ => hreached.1⟩, ?_⟩
  · intro timer htimer
    obtain ⟨hwaiting, hts⟩ := List.mem_filter.mp htimer
    refine ⟨hwaiting, fun hmem => ?_⟩
    obtain ⟨other, hother, hid⟩ := List.mem_map.mp hmem
    have heq : other = timer := List.inj_on_of_nodup_map hids (hdue other hother).1 hwaiting hid
    rw [heq] at hother
    exact (of_decide_eq_true hts).not_ge (hdue timer hother).2
  · exact (hperm.map Timer.id).nodup_iff.mpr (hids.sublist (List.filter_sublist.map Timer.id))
  · intro object hobject
    obtain ⟨timer, htimer, hrestart⟩ := exists_of_mem_restarted hrestarted hobject
    obtain ⟨hfired, hrepeats⟩ := List.mem_filter.mp htimer
    exact ⟨timer, hfired, hrepeats, hrestart⟩
  · exact ⟨(Nat.le_add_right _ 2).trans hreached.1, hreached.2⟩
  · rw [Call.made, hlater, List.flatMap_map]

theorem step_effect (h : Tracks Short s waiting [] []) (hplain : Plain call)
    (hstep : step clock s call = some next) :
    ∃ kept fired restarted, Effect clock s next waiting kept fired restarted ∧
      Tracks Short next (kept ++ call.made s next ++ restarted) [] [] := by
  obtain ⟨next', hnext', waiting', hspec, htracks⟩ := @step_spec clock s waiting call h hplain
  obtain rfl : next = next' := Option.some.inj (hstep.symm.trans hnext')
  cases call with
  | addTimer ts interval =>
      obtain ⟨rfl, hstarted⟩ := hspec
      have hreached : Reached s.readings s.timerId next := by
        rw [← Option.some.inj hstep]
        exact addTimer_reached ⟨Nat.le_refl _, Nat.le_refl _⟩
      refine ⟨waiting, [], [], .of_quiet (fun _ htimer => htimer) hstarted hreached, ?_⟩
      rw [List.append_nil]
      exact htracks
  | removeTimer timerid =>
      obtain ⟨rfl, hstarted⟩ := hspec
      have hkept : ∀ timer ∈ waiting.filter (·.id ≠ timerid), timer ∈ waiting :=
        fun _ htimer => (List.mem_filter.mp htimer).1
      have hreached : Reached s.readings s.timerId next :=
        removeTimer_reached ⟨Nat.le_refl _, Nat.le_refl _⟩ hstep
      refine ⟨_, [], [], .of_quiet hkept hstarted hreached, ?_⟩
      rw [Call.made, List.append_nil, List.append_nil]
      exact htracks
  | handleRead callback =>
      have hids : (waiting.map Timer.id).Nodup := h.represents.distinct
      obtain ⟨kept, fired, restarted, heffect, rfl⟩ := hspec.effect hids (handleRead_reached hstep)
      exact ⟨kept, fired, restarted, heffect, htracks⟩

/-! ### The pace of one timer -/

theorem earliest_succ (since : Int) (timer : Timer) (number : ℕ) :
    earliest since timer (number + 1) = earliest since timer number + timer.interval * 1000000 := by
  rw [earliest, earliest, Nat.cast_succ, add_one_mul, add_assoc]

/-- A timer in the queue whose expiration is as late as its pace asks for. -/
structure Waits (since : Int) (number : ℕ) (timer object : Timer) : Prop where
  interval : object.interval = timer.interval
  ts : timer.ts ≤ object.ts
  again : 0 < number → 0 < timer.interval ∧ earliest since timer number ≤ object.ts

theorem Waits.earliest_le {since now : Int} {number : ℕ} (h : Waits since number timer object)
    (hsince : since ≤ now) (hdue : object.ts ≤ now) : earliest since timer number ≤ now := by
  cases number with
  | zero =>
      rw [earliest, Nat.cast_zero, zero_mul, add_zero]
      exact max_le (h.ts.trans hdue) hsince
  | succ number => exact (h.again number.succ_pos).2.trans hdue

/-- `Restart` comes behind the scan. -/
theorem Waits.restarted {since : Int} {number first last : ℕ} {restarted : Timer}
    (hclock : ∀ i j, i ≤ j → clock i ≤ clock j) (h : Waits since number timer object)
    (hsince : since ≤ clock first) (hdue : object.ts ≤ clock first) (hpos : 0 < object.interval)
    (hrestart : Restarted clock first last object restarted) :
    Waits since (number + 1) timer restarted := by
  obtain ⟨reading, hfirst, -, rfl⟩ := hrestart
  have hlater : clock first ≤ clock reading := hclock _ _ hfirst.le
  have hnow := h.earliest_le hsince hdue
  have hts := h.ts
  rw [h.interval] at hpos
  refine ⟨h.interval, ?_, fun _ => ⟨hpos, ?_⟩⟩
  · show timer.ts ≤ clock reading + object.interval * 1000000
    rw [h.interval]
    omega
  · show earliest since timer (number + 1) ≤ clock reading + object.interval * 1000000
    rw [earliest_succ, h.interval]
    omega

/-! ### The pace of all timers -/

structure PaceInv (clock : ℕ → Int) (start : TimerQueue) (l : Logged) (waiting : List Timer) : Prop where
  tracks : Tracks Short l.queue waiting [] []
  grown : start.started.length ≤ l.queue.started.length
  readings : start.readings ≤ l.queue.readings
  drawn : ∀ timer ∈ l.made, timer.id ≤ l.queue.timerId
  known : ∀ id ∈ l.queue.started, id ≤ l.queue.timerId
  waits : ∀ timer ∈ l.made, ∀ object ∈ waiting, object.id = timer.id →
    Waits (clock start.readings) (firings start l.queue timer.id) timer object
  paced : ∀ timer ∈ l.made, Paced clock start l.queue timer

theorem firings_append {fired : List ℕ} (hgrown : start.started.length ≤ s.started.length)
    (hstarted : next.started = s.started ++ fired) (id : ℕ) :
    firings start next id = firings start s id + fired.count id := by
  rw [firings, hstarted, List.drop_append_of_le_length hgrown, List.count_append]
  rfl

theorem firings_eq_zero {id : ℕ} (hknown : ∀ id ∈ s.started, id ≤ s.timerId) (hid : s.timerId < id) :
    firings start s id = 0 := by
  apply List.count_eq_zero.mpr
  exact fun hmem => (hknown id (List.mem_of_mem_drop hmem)).not_gt hid

theorem PaceInv.renew (h : PaceInv clock start ⟨s, made⟩ waiting) : PaceInv clock s ⟨s, made⟩ waiting := by
  have hzero : ∀ id, firings s s id = 0 := by
    intro id
    rw [firings, List.drop_length, List.count_nil]
  refine ⟨h.tracks, Nat.le_refl _, Nat.le_refl _, h.drawn, h.known, ?_, ?_⟩
  · intro timer htimer object hobject hid
    obtain ⟨hinterval, hts, -⟩ := h.waits timer htimer object hobject hid
    refine ⟨hinterval, hts, fun hpos => ?_⟩
    rw [hzero] at hpos
    exact absurd hpos (Nat.lt_irrefl 0)
  · intro timer _
    refine ⟨fun number hlt => ?_, fun _ => ?_⟩
    · rw [hzero] at hlt
      exact absurd hlt number.not_lt_zero
    · rw [hzero]
      exact Nat.zero_le 1

theorem new_paceInv : PaceInv clock new ⟨new, []⟩ [] where
  tracks := tracks_new
  grown := Nat.le_refl _
  readings := Nat.le_refl _
  drawn := fun _ htimer => absurd htimer List.not_mem_nil
  known := fun _ hid => absurd hid List.not_mem_nil
  waits := fun _ htimer => absurd htimer List.not_mem_nil
  paced := fun _ htimer => absurd htimer List.not_mem_nil

section Step

variable {id : ℕ} {l : Logged} {kept fired restarted : List Timer}
  (hclock : ∀ i j, i ≤ j → clock i ≤ clock j)
  (h : PaceInv clock start l waiting) (heffect : Effect clock l.queue next waiting kept fired restarted)

include h

omit heffect in
include hclock in
theorem PaceInv.since_le : clock start.readings ≤ clock (l.queue.readings + 1) :=
  hclock _ _ (h.readings.trans (Nat.le_succ _))

include heffect

theorem PaceInv.firings_eq (id : ℕ) :
    firings start next id = firings start l.queue id + (fired.map Timer.id).count id :=
  firings_append h.grown heffect.started id

include hclock

/-- The timers that were there before the call. -/
theorem PaceInv.waits_old (hold : timer ∈ l.made) (hobject : object ∈ kept ++ restarted)
    (hid : object.id = timer.id) :
    Waits (clock start.readings) (firings start next timer.id) timer object := by
  rw [h.firings_eq heffect]
  obtain hkept | hrestarted := List.mem_append.mp hobject
  · obtain ⟨hwaiting, hnot⟩ := heffect.kept object hkept
    rw [← hid, List.count_eq_zero.mpr hnot, hid]
    exact h.waits timer hold object hwaiting hid
  · obtain ⟨previous, hfired, hrepeats, hrestart⟩ := heffect.restarted object hrestarted
    have hprevious : previous.id = timer.id := by
      obtain ⟨reading, -, -, rfl⟩ := hrestart
      exact hid
    obtain ⟨hwaiting, hdue⟩ := heffect.due previous hfired
    have hpos : 0 < previous.interval := by
      have hshort := (h.tracks.kept previous (List.mem_append_left _ hwaiting)).1
      rw [hrepeats] at hshort
      exact of_decide_eq_true hshort.symm
    have hcount : (fired.map Timer.id).count timer.id = 1 :=
      hprevious ▸ List.count_eq_one_of_mem heffect.once (List.mem_map_of_mem hfired)
    rw [hcount]
    exact (h.waits timer hold previous hwaiting hprevious).restarted hclock (h.since_le hclock) hdue
      hpos hrestart

theorem PaceInv.paced_old (hold : timer ∈ l.made) : Paced clock start next timer := by
  have hpaced := h.paced timer hold
  by_cases hmem : timer.id ∈ fired.map Timer.id
  · obtain ⟨object, hfired, hid⟩ := List.mem_map.mp hmem
    obtain ⟨hwaiting, hdue⟩ := heffect.due object hfired
    have hwaits := h.waits timer hold object hwaiting hid
    have hcount := h.firings_eq heffect timer.id
    rw [List.count_eq_one_of_mem heffect.once hmem] at hcount
    have hlast : l.queue.readings + 1 ≤ next.readings - 1 :=
      Nat.le_sub_one_of_lt (heffect.scanned (List.ne_nil_of_mem hfired))
    refine ⟨fun number hlt => ?_, fun hinterval => ?_⟩
    · rw [hcount] at hlt
      obtain hlt | rfl := Nat.lt_succ_iff_lt_or_eq.mp hlt
      · exact (hpaced.spaced number hlt).trans (hclock _ _ (by omega))
      · exact (hwaits.earliest_le (h.since_le hclock) hdue).trans (hclock _ _ hlast)
    · have hzero : firings start l.queue timer.id = 0 := by
        by_contra hne
        exact (hwaits.again (Nat.pos_of_ne_zero hne)).1.not_ge hinterval
      omega
  · have hcount := h.firings_eq heffect timer.id
    rw [List.count_eq_zero.mpr hmem, Nat.add_zero] at hcount
    refine ⟨fun number hlt => ?_, fun hinterval => hcount ▸ hpaced.oneShot hinterval⟩
    rw [hcount] at hlt
    exact (hpaced.spaced number hlt).trans (hclock _ _ (Nat.sub_le_sub_right heffect.reached.1 1))

omit hclock in
theorem PaceInv.fired_le (hmem : id ∈ fired.map Timer.id) : id ≤ l.queue.timerId := by
  obtain ⟨object, hfired, rfl⟩ := List.mem_map.mp hmem
  exact h.tracks.drawn object (List.mem_append_left _ (heffect.due object hfired).1)

omit hclock in
theorem PaceInv.firings_new (hnew : timer ∈ call.made l.queue next) :
    firings start next timer.id = 0 := by
  have hid := lt_id_of_mem_made hnew
  have hnot : timer.id ∉ fired.map Timer.id := fun hmem => (h.fired_le heffect hmem).not_gt hid
  rw [h.firings_eq heffect, firings_eq_zero h.known hid, List.count_eq_zero.mpr hnot]

/-- **The step lemma.** -/
theorem PaceInv.step (htracks : Tracks Short next (kept ++ call.made l.queue next ++ restarted) [] []) :
    PaceInv clock start ⟨next, l.made ++ call.made l.queue next⟩
      (kept ++ call.made l.queue next ++ restarted) := by
  have hgrown : start.started.length ≤ next.started.length := by
    rw [heffect.started, List.length_append]
    exact h.grown.trans (Nat.le_add_right _ _)
  have holdId : ∀ object ∈ kept ++ restarted, object.id ≤ l.queue.timerId := by
    intro object hobject
    obtain hkept | hrestarted := List.mem_append.mp hobject
    · exact h.tracks.drawn object (List.mem_append_left _ (heffect.kept object hkept).1)
    · obtain ⟨timer, hfired, -, reading, -, -, rfl⟩ := heffect.restarted object hrestarted
      have hmem : timer.id ∈ fired.map Timer.id := List.mem_map_of_mem hfired
      exact h.fired_le heffect hmem
  have hqueued : ∀ object ∈ call.made l.queue next,
      object ∈ kept ++ call.made l.queue next ++ restarted ++ [] := by
    intro object hobject
    simp only [List.append_nil, List.mem_append]
    exact .inl (.inr hobject)
  refine ⟨htracks, hgrown, h.readings.trans heffect.reached.1, ?_, ?_, ?_, ?_⟩
  · intro timer htimer
    obtain hold | hnew := List.mem_append.mp htimer
    · exact (h.drawn timer hold).trans heffect.reached.2
    · exact htracks.drawn timer (hqueued timer hnew)
  · intro id hid
    rw [heffect.started] at hid
    obtain hold | hfired := List.mem_append.mp hid
    · exact (h.known id hold).trans heffect.reached.2
    · exact (h.fired_le heffect hfired).trans heffect.reached.2
  · intro timer htimer object hobject hid
    have hcases : object ∈ kept ++ restarted ∨ object ∈ call.made l.queue next := by
      simp only [List.mem_append] at hobject ⊢
      exact hobject.elim (fun hfront => hfront.imp_left .inl) fun hrestarted => .inl (.inr hrestarted)
    -- The ids of new timers are above those of all others.
    obtain hold | hnew := List.mem_append.mp htimer
    · obtain hfound | hmade := hcases
      · exact h.waits_old hclock heffect hold hfound hid
      · have hlt := lt_id_of_mem_made hmade
        have hle := h.drawn timer hold
        omega
    · obtain hfound | hmade := hcases
      · have hlt := lt_id_of_mem_made hnew
        have hle := holdId object hfound
        omega
      · have heq : timer = object :=
          htracks.eq_of_id_eq (hqueued object hmade) (hqueued timer hnew) hid.symm
        rw [← heq, h.firings_new heffect hnew]
        exact ⟨rfl, le_rfl, fun hpos => absurd hpos (Nat.lt_irrefl 0)⟩
  · intro timer htimer
    obtain hold | hnew := List.mem_append.mp htimer
    · exact h.paced_old hclock heffect hold
    · have hzero : firings start next timer.id = 0 := h.firings_new heffect hnew
      refine ⟨fun number hlt => absurd (hzero ▸ hlt) number.not_lt_zero, fun _ => ?_⟩
      exact hzero.trans_le (Nat.zero_le 1)

end Step

theorem logged_paceInv {l last : Logged} (hclock : ∀ i j, i ≤ j → clock i ≤ clock j)
    (h : ∃ waiting, PaceInv clock start l waiting) (hplain : Plain call)
    (hstep : logged clock l call = some last) : ∃ waiting, PaceInv clock start last waiting := by
  obtain ⟨waiting, h⟩ := h
  obtain ⟨next, hnext, rfl⟩ := Option.map_eq_some_iff.mp hstep
  obtain ⟨kept, fired, restarted, heffect, htracks⟩ := step_effect h.tracks hplain hnext
  exact ⟨_, h.step hclock heffect htracks⟩

theorem run_paceInv {l last : Logged} {calls : List Call} (hclock : ∀ i j, i ≤ j → clock i ≤ clock j)
    (h : ∃ waiting, PaceInv clock start l waiting) (hplain : ∀ call ∈ calls, Plain call)
    (hrun : Machine.run (logged clock) l calls = some last) :
    ∃ waiting, PaceInv clock start last waiting :=
  Machine.run_invariant (fun l => ∃ waiting, PaceInv clock start l waiting)
    (fun _ _ _ h hplain hstep => logged_paceInv hclock h hplain hstep) calls l last h
    (Machine.allSteps_of_forall_mem hplain l) hrun

/-- **The pace of the timers.** In any stretch of a run each timer fires no earlier than it was made for,
then at most once for each of its intervals that goes by, and a timer that does not repeat at most once. -/
theorem timers_paced {before after : List Call} {first last : Logged}
    (hclock : ∀ i j, i ≤ j → clock i ≤ clock j) (hplain : ∀ call ∈ before ++ after, Plain call)
    (hbefore : Machine.run (logged clock) ⟨new, []⟩ before = some first)
    (hafter : Machine.run (logged clock) first after = some last) :
    ∀ timer ∈ last.made, Paced clock first.queue last.queue timer := by
  have hplainBefore : ∀ call ∈ before, Plain call :=
    fun call hcall => hplain call (List.mem_append_left _ hcall)
  have hplainAfter : ∀ call ∈ after, Plain call :=
    fun call hcall => hplain call (List.mem_append_right _ hcall)
  obtain ⟨waiting, hfirst⟩ := run_paceInv hclock ⟨[], new_paceInv⟩ hplainBefore hbefore
  obtain ⟨waiting', hlast⟩ := run_paceInv hclock ⟨waiting, hfirst.renew⟩ hplainAfter hafter
  exact hlast.paced

/-- The clock of the run below, which shows 0.6 s more at each reading. -/
def tick (reading : ℕ) : Int := 600000 * reading

/-- The callback of the first timer adds a timer that does not repeat. -/
def readAndAdd : Call := .handleRead fun timer => if timer = 1 then [.addTimer 5000000 0] else []

theorem timers_paced_everySecond :
    ∃ first last, Machine.run (logged tick) ⟨new, []⟩ [.addTimer 1000000 1] = some first ∧
      Machine.run (logged tick) first [readAndAdd, readAndAdd, readAndAdd] = some last ∧
      last.queue.started = [1, 1, 2, 3, 1] ∧
      ∀ timer ∈ last.made, Paced tick first.queue last.queue timer := by
  have hclock : ∀ i j, i ≤ j → tick i ≤ tick j := by
    intro reading later hle
    simp only [tick]
    omega
  have hplain : ∀ call ∈ [.addTimer 1000000 1] ++ [readAndAdd, readAndAdd, readAndAdd], Plain call := by
    simp only [List.cons_append, List.nil_append, List.forall_mem_cons, readAndAdd, Plain]
    have hcallback : ∀ timer, ∀ command ∈ if timer = 1 then [Command.addTimer 5000000 0] else [],
        command.Plain := by
      intro timer
      split_ifs <;> simp [Command.Plain]
    exact ⟨by decide, hcallback, hcallback, hcallback, fun _ hcall => absurd hcall List.not_mem_nil⟩
  have hstarted : ((Machine.run (logged tick) ⟨new, []⟩ [.addTimer 1000000 1]).bind fun first =>
      Machine.run (logged tick) first [readAndAdd, readAndAdd, readAndAdd]).map
        (fun last => last.queue.started) = some [1, 1, 2, 3, 1] := by
    decide +kernel
  obtain ⟨last, hlast, hqueue⟩ := Option.map_eq_some_iff.mp hstarted
  obtain ⟨first, hbefore, hafter⟩ := Option.bind_eq_some_iff.mp hlast
  exact ⟨first, last, hbefore, hafter, hqueue, timers_paced hclock hplain hbefore hafter⟩

end EasyLib.Reactors.TimerQueue
