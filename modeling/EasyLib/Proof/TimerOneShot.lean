import EasyLib.Thread.EasyEvent
import Mathlib.Data.List.Nodup

/-!
# A timer event fires once

Between two calls a `TimerEvent` is idle, with no libevent timer, or armed, with one that is pending.
`Cancel` makes it idle from either, and so does `OnTimer` before it calls the handler; therefore a
handler that calls `AsyncWait` or `Cancel` finds an idle event. The handler that is set while the event
is armed came with the latest call.
-/

namespace EasyLib.Thread.TimerEvent

open Machine

variable {s next : TimerEvent} {ev : ℕ}

structure Idle (s : TimerEvent) : Prop where
  active : s.active = false
  timerEv : s.timerEv = none
  alive : s.alive = []
  pending : s.pending = []

structure Armed (s : TimerEvent) (ev : ℕ) : Prop where
  active : s.active = true
  timerEv : s.timerEv = some ev
  alive : s.alive = [ev]
  pending : s.pending = [ev] ∨ s.pending = []

/-- The handlers that have been called, and the one that is set while the event is armed. -/
structure Log (s : TimerEvent) : Prop where
  once : (s.started.map Prod.fst).Nodup
  notAfter : ∀ entry ∈ s.started, entry.1 = entry.2
  past : ∀ entry ∈ s.started, entry.1 ≤ s.calls

structure Inv (s : TimerEvent) : Prop where
  log : s.Log
  state : s.Idle ∨ ∃ ev, s.Armed ev ∧ s.pending = [ev]
  latest : s.active = true → s.handler = some s.calls ∧ ∀ entry ∈ s.started, entry.1 < s.calls

theorem new_inv : Inv new where
  log := ⟨List.nodup_nil, fun _ h => absurd h List.not_mem_nil, fun _ h => absurd h List.not_mem_nil⟩
  state := .inl ⟨rfl, rfl, rfl, rfl⟩
  latest := fun h => Bool.noConfusion h

/-- What the callback and `Cancel` have in common. -/
theorem deleteTimer_armed (h : s.Armed ev) :
    deleteTimer { s with active := false } =
      some { s with active := false, timerEv := none, alive := [], pending := [] } := by
  have hpending : s.pending.erase ev = [] := by
    obtain hpending | hpending := h.pending <;> simp [hpending]
  simp [deleteTimer, delete, h.timerEv, h.alive, hpending]

theorem cancel_spec (h : s.Idle ∨ ∃ ev, s.Armed ev) :
    ∃ next, s.cancel = some next ∧ next.Idle ∧ next.calls = s.calls ∧ next.started = s.started := by
  obtain h | ⟨ev, h⟩ := h
  · exact ⟨s, by simp [cancel, h.active], h, rfl, rfl⟩
  · rw [cancel, if_pos h.active, deleteTimer_armed h]
    exact ⟨_, rfl, ⟨rfl, rfl, rfl, rfl⟩, rfl, rfl⟩

theorem onTimer_armed (h : s.Armed ev) {handler : ℕ} (hhandler : s.handler = some handler) :
    s.onTimer =
      some { s with
        active := false
        timerEv := none
        alive := []
        pending := []
        started := s.started ++ [(handler, s.calls)] } := by
  rw [onTimer, deleteTimer_armed h]
  simp only [Option.bind_eq_bind, Option.bind_some, hhandler, Option.pure_def]

theorem start_of_idle (h : s.Idle) :
    s.start =
      { s with
        timerEv := some s.created
        created := s.created + 1
        alive := [s.created]
        pending := [s.created]
        active := true } := by
  simp only [start, h.active, Bool.false_eq_true, if_false, h.alive, h.pending, List.nil_append]

theorem Inv.idle_or_armed (h : s.Inv) : s.Idle ∨ ∃ ev, s.Armed ev :=
  h.state.imp_right fun ⟨ev, harmed, _⟩ => ⟨ev, harmed⟩

/-- The calls that are numbered leave the timer as it is. -/
theorem Inv.idle_or_armed_calls (h : s.Inv) (calls : ℕ) :
    Idle { s with calls } ∨ ∃ ev, Armed { s with calls } ev :=
  h.idle_or_armed.imp (fun h => ⟨h.active, h.timerEv, h.alive, h.pending⟩)
    fun ⟨ev, h⟩ => ⟨ev, h.active, h.timerEv, h.alive, h.pending⟩

theorem Log.of_calls (h : s.Log) (hcalls : s.calls ≤ next.calls) (hstarted : next.started = s.started) :
    next.Log where
  once := hstarted ▸ h.once
  notAfter := hstarted ▸ h.notAfter
  past := fun entry hentry => Nat.le_trans (h.past entry (hstarted ▸ hentry)) hcalls

theorem step_cancel (h : s.Inv) : ∃ next, s.step .cancel = some next ∧ next.Inv := by
  obtain ⟨next, hnext, hidle, hcalls, hstarted⟩ := cancel_spec (h.idle_or_armed_calls (s.calls + 1))
  refine ⟨next, hnext, h.log.of_calls (hcalls ▸ Nat.le_succ s.calls) hstarted, .inl hidle, ?_⟩
  exact fun hactive => Bool.noConfusion (hidle.active.symm.trans hactive)

theorem step_asyncWait (h : s.Inv) : ∃ next, s.step .asyncWait = some next ∧ next.Inv := by
  obtain ⟨middle, hmiddle, hidle, hcalls, hstarted⟩ := cancel_spec (h.idle_or_armed_calls (s.calls + 1))
  have hprepared : Idle { middle with handler := some (s.calls + 1) } :=
    ⟨hidle.active, hidle.timerEv, hidle.alive, hidle.pending⟩
  refine ⟨start { middle with handler := some (s.calls + 1) }, ?_, ?_⟩
  · simp only [step, asyncWait, hmiddle, Option.map_some]
  · rw [start_of_idle hprepared]
    refine ⟨h.log.of_calls (hcalls ▸ Nat.le_succ s.calls) hstarted, .inr ⟨_, ⟨rfl, rfl, rfl, .inl rfl⟩, rfl⟩,
      fun _ => ⟨congrArg some hcalls.symm, fun entry hentry => ?_⟩⟩
    have hle := h.log.past entry (hstarted ▸ hentry)
    exact hcalls ▸ Nat.lt_succ_of_le hle

theorem nodup_concat {started : List (ℕ × ℕ)} {calls : ℕ} (h : (started.map Prod.fst).Nodup)
    (hlt : ∀ entry ∈ started, entry.1 < calls) :
    ((started ++ [(calls, calls)]).map Prod.fst).Nodup := by
  rw [List.map_append, List.map_singleton, ← List.concat_eq_append]
  refine h.concat fun hmem => ?_
  obtain ⟨entry, hentry, heq⟩ := List.mem_map.mp hmem
  exact Nat.ne_of_lt (hlt entry hentry) heq

/-- When the timer fires, the handler of the latest call is called, for the first time. -/
theorem step_fire (h : s.Inv) (hev : ev ∈ s.pending) :
    ∃ next, s.step (.fire ev) = some next ∧ next.Inv := by
  obtain hidle | ⟨armed, harmed, hpending⟩ := h.state
  · rw [hidle.pending] at hev
    exact absurd hev List.not_mem_nil
  · obtain rfl : ev = armed := by
      rw [hpending] at hev
      exact List.mem_singleton.mp hev
    obtain ⟨hhandler, hlt⟩ := h.latest harmed.active
    have herased : Armed { s with pending := s.pending.erase ev } ev :=
      ⟨harmed.active, harmed.timerEv, harmed.alive, .inr (by simp [hpending])⟩
    rw [step, if_pos hev, onTimer_armed herased hhandler]
    refine ⟨_, rfl, ⟨nodup_concat h.log.once hlt, ?_, ?_⟩, .inl ⟨rfl, rfl, rfl, rfl⟩,
      fun hactive => Bool.noConfusion hactive⟩
    · intro entry hentry
      obtain hentry | hentry := List.mem_append.mp hentry
      · exact h.log.notAfter entry hentry
      · rw [List.mem_singleton.mp hentry]
    · intro entry hentry
      obtain hentry | hentry := List.mem_append.mp hentry
      · exact h.log.past entry hentry
      · obtain rfl := List.mem_singleton.mp hentry
        exact Nat.le_refl _

theorem step_inv (h : s.Inv) (label : Label) (hstep : s.step label = some next) : next.Inv := by
  have hspec : ∃ next, s.step label = some next ∧ next.Inv := by
    cases label with
    | asyncWait => exact step_asyncWait h
    | cancel => exact step_cancel h
    | fire ev => exact step_fire h (Option.ite_none_right_eq_some.mp hstep).1
  obtain ⟨other, hother, hinv⟩ := hspec
  rwa [← Option.some.inj (hother.symm.trans hstep)]

theorem enabled_of_spec {label : Label} (h : ∃ next, s.step label = some next ∧ next.Inv) :
    Enabled step s label := by
  obtain ⟨next, hnext, -⟩ := h
  rw [Enabled, hnext]
  rfl

theorem Inv.oneShot (h : s.Inv) : s.OneShot where
  alive := by
    obtain hidle | ⟨ev, harmed, -⟩ := h.state
    · rw [hidle.alive]
      exact Nat.zero_le 1
    · rw [harmed.alive]
      exact Nat.le_refl 1
  pending := by
    obtain hidle | ⟨ev, harmed, hpending⟩ := h.state
    · rw [hidle.pending]
      exact List.nil_subset _
    · rw [harmed.alive, hpending]
      exact List.Subset.refl _
  active := by
    obtain hidle | ⟨ev, harmed, hpending⟩ := h.state
    · simp [hidle.active, hidle.pending]
    · simp [harmed.active, hpending]
  once := h.log.once
  notAfter := h.log.notAfter
  asyncWait := enabled_of_spec (step_asyncWait h)
  cancel := enabled_of_spec (step_cancel h)
  fire := fun _ hev => enabled_of_spec (step_fire h hev)

/-- A `TimerEvent` has at most one libevent timer, and is active exactly when this one is pending; no
handler is called twice, or behind a call that follows its `AsyncWait`. -/
theorem timer_one_shot (labels : List Label) : Throughout step OneShot new labels :=
  throughout_of_forall Inv (fun _ h => h.oneShot) (fun _ label _ h hstep => step_inv h label hstep) labels
    new_inv

end EasyLib.Thread.TimerEvent
