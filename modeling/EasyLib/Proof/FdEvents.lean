import EasyLib.Thread.EasyEvent

/-!
# Descriptor events: the two copies, and what they report

An `AsyncWait` first cancels what is active and then registers an event; the copies differ only in
whether they are active afterwards (`asyncWait_of_inactive`). The `frame/` copy never is, so it does
not delete its event and does not call its handler: the copies agree for as long as the `thread/` copy
is not active either.

The `thread/` copy reports `flags_`, which collects what has been reported before and takes one bit of
a firing. A firing is reported as it is exactly when these two do not show.
-/

namespace EasyLib.Thread.FdEvent

open Machine

variable {Handler : Type*} {s : FdEvent Handler} {number : ℕ} {what : What} {fd : Int} {events : Flags}
  {handler : Handler} {added deleted : Bool} {copy : Copy}

theorem cancel_of_inactive (h : s.active = false) (deleted : Bool) : s.cancel deleted = s := by
  rw [cancel, h]
  rfl

theorem cancel_cases (s : FdEvent Handler) (deleted : Bool) :
    (s.active = false ∧ s.cancel deleted = s) ∨
    (s.active = true ∧ s.ev = none ∧
      s.cancel deleted = { s with active := false, handler := none, timeFlag := .noTime }) ∨
    (s.active = true ∧ deleted = false ∧ s.cancel deleted = { s with active := false }) ∨
    ∃ number, s.active = true ∧ s.ev = some number ∧ deleted = true ∧ s.cancel deleted =
      { s with
        active := false
        ev := none
        handler := none
        timeFlag := .noTime
        registered := s.registered.filter (·.number ≠ number) } := by
  cases hactive : s.active with
  | false => exact .inl ⟨rfl, cancel_of_inactive hactive deleted⟩
  | true =>
      cases hev : s.ev with
      | none => exact .inr (.inl ⟨rfl, rfl, by simp only [cancel, hactive, hev, if_true]⟩)
      | some number =>
          cases deleted with
          | false => exact .inr (.inr (.inl ⟨rfl, rfl, by simp [cancel, hactive, hev]⟩))
          | true => exact .inr (.inr (.inr ⟨number, rfl, rfl, rfl, by simp [cancel, hactive, hev]⟩))

theorem active_cancel (s : FdEvent Handler) (deleted : Bool) : (s.cancel deleted).active = false := by
  obtain ⟨h, heq⟩ | ⟨-, -, heq⟩ | ⟨-, -, heq⟩ | ⟨_, -, -, -, heq⟩ := cancel_cases s deleted
  · rw [heq, h]
  · rw [heq]
  · rw [heq]
  · rw [heq]

theorem invoked_cancel (s : FdEvent Handler) (deleted : Bool) :
    (s.cancel deleted).invoked = s.invoked := by
  obtain ⟨-, heq⟩ | ⟨-, -, heq⟩ | ⟨-, -, heq⟩ | ⟨_, -, -, -, heq⟩ := cancel_cases s deleted <;> rw [heq]

theorem created_cancel (s : FdEvent Handler) (deleted : Bool) :
    (s.cancel deleted).created = s.created := by
  obtain ⟨-, heq⟩ | ⟨-, -, heq⟩ | ⟨-, -, heq⟩ | ⟨_, -, -, -, heq⟩ := cancel_cases s deleted <;> rw [heq]

theorem cancel_of_not_deleted (hev : s.ev ≠ none) :
    s.cancel false = { s with active := false } := by
  obtain ⟨h, heq⟩ | ⟨-, hnone, -⟩ | ⟨-, -, heq⟩ | ⟨_, -, -, hdeleted, -⟩ := cancel_cases s false
  · rw [heq, ← h]
  · exact absurd hnone hev
  · exact heq
  · cases hdeleted

/-- `Start` creates an event. -/
def Creates (fd : Int) (events : Flags) : Prop :=
  (events.readable = true ∨ events.writable = true) ∧ 0 ≤ fd

instance (fd : Int) (events : Flags) : Decidable (Creates fd events) :=
  inferInstanceAs (Decidable (_ ∧ _))

def afterNew (s : FdEvent Handler) (fd : Int) (events : Flags) (handler : Handler) : FdEvent Handler :=
  let prepared := { s with timeFlag := .noTime, handler := some handler }
  if Creates fd events then prepared.eventNew else prepared

/-- An `AsyncWait` begins with a `Cancel`, and goes on from an inactive event. -/
theorem asyncWait_cancel :
    s.asyncWait copy fd events handler added deleted =
      (s.cancel deleted).asyncWait copy fd events handler added deleted := by
  have hinactive := active_cancel s deleted
  cases hactive : s.active with
  | false => rw [cancel_of_inactive hactive]
  | true => simp only [asyncWait, hactive, hinactive, if_true, Bool.false_eq_true, if_false]

theorem asyncWait_of_inactive (h : s.active = false) :
    s.asyncWait copy fd events handler added deleted =
      if Creates fd events ∧ added = true then
        { s.afterNew fd events handler with
          registered := s.registered ++ [s.nextEvent fd events handler]
          active := copy = .thread }
      else s.afterNew fd events handler := by
  obtain ⟨readable, writable⟩ := events
  by_cases hfd : 0 ≤ fd <;>
    cases readable <;> cases writable <;> cases added <;> cases copy <;>
      simp [asyncWait, start, h, hfd, cancel_of_inactive, Creates, afterNew, eventNew, nextEvent]

@[simp]
theorem invoked_afterNew : (s.afterNew fd events handler).invoked = s.invoked := by
  rw [afterNew]
  split <;> rfl

@[simp]
theorem registered_afterNew : (s.afterNew fd events handler).registered = s.registered := by
  rw [afterNew]
  split <;> rfl

@[simp]
theorem active_afterNew : (s.afterNew fd events handler).active = s.active := by
  rw [afterNew]
  split <;> rfl

@[simp]
theorem handler_afterNew : (s.afterNew fd events handler).handler = some handler := by
  rw [afterNew]
  split <;> rfl

theorem ev_afterNew (h : Creates fd events) : (s.afterNew fd events handler).ev = some s.created := by
  rw [afterNew, if_pos h]
  rfl

/-- What an `AsyncWait` registers behind `created` other events. -/
def registration (created : ℕ) (fd : Int) (events : Flags) (handler : Handler) (added : Bool) :
    List (Event Handler) :=
  if Creates fd events ∧ added = true then
    [⟨created, fd, ⟨false, events.readable, events.writable⟩, handler⟩]
  else []

theorem registered_asyncWait (h : s.active = false) :
    (s.asyncWait copy fd events handler added deleted).registered =
      s.registered ++ registration s.created fd events handler added := by
  rw [asyncWait_of_inactive h, registration]
  split
  · rfl
  · rw [registered_afterNew, List.append_nil]

theorem invoked_asyncWait :
    (s.asyncWait copy fd events handler added deleted).invoked = s.invoked := by
  rw [asyncWait_cancel, asyncWait_of_inactive (active_cancel s deleted)]
  split <;> simp only [invoked_afterNew, invoked_cancel]

/-! ### A firing -/

/-- What becomes of `flags_` when the event fires. -/
def report (flags : Flags) (what : What) : Flags :=
  if what.read then { flags with readable := true } else { flags with writable := true }

theorem among_of_firing {event : Event Handler} (h : s.firing number what = some event) :
    event ∈ s.registered ∧ event.number = number ∧ what.Among event.what := by
  have hsome := List.find?_some h
  exact ⟨List.mem_of_find?_eq_some h, by simpa using hsome⟩

theorem notify_of_among {registered : What} (h : what.Among registered) :
    s.notify what = callHandler { s with flags := report s.flags what } := by
  obtain ⟨-, hread | hwrite, -⟩ := h
  · simp only [notify, report, hread, if_true]
  · simp only [notify, report, hwrite, if_true]
    split <;> rfl

theorem apply_fire {event : Event Handler} (h : s.firing number what = some event) :
    s.apply copy (.fire number what) = callHandler { s with
      registered := s.registered.filter (·.number ≠ number)
      flags := report s.flags what } := by
  rw [apply, h, Option.isSome_some, if_pos rfl, notify_of_among (among_of_firing h).2.2]

@[simp]
theorem active_callHandler : s.callHandler.active = s.active := by
  rw [callHandler]
  split <;> rfl

@[simp]
theorem registered_callHandler : s.callHandler.registered = s.registered := by
  rw [callHandler]
  split <;> rfl

@[simp]
theorem ev_callHandler : s.callHandler.ev = s.ev := by
  rw [callHandler]
  split <;> rfl

@[simp]
theorem handler_callHandler : s.callHandler.handler = s.handler := by
  rw [callHandler]
  split <;> rfl

theorem apply_fire_of_none (h : s.firing number what = none) :
    s.apply copy (.fire number what) = s := by
  rw [apply, h, Option.isSome_none, if_neg Bool.false_ne_true]

theorem active_apply_fire : (s.apply copy (.fire number what)).active = s.active := by
  cases h : s.firing number what with
  | none => rw [apply_fire_of_none h]
  | some event => rw [apply_fire h, active_callHandler]

/-! ### The copies -/

namespace Copies

/-- The copies differ in `active_` alone, and an active event is registered. -/
structure Inv (s : Copies Handler) : Prop where
  inactive : s.frame.active = false
  same : s.thread = { s.frame with active := s.thread.active }
  owned : s.thread.active = true →
    (∃ event ∈ s.frame.registered, s.frame.ev = some event.number) ∧ s.frame.handler ≠ none

theorem new_inv : Inv (new : Copies Handler) where
  inactive := rfl
  same := rfl
  owned := fun h => Bool.noConfusion h

theorem Inv.agree {s : Copies Handler} (h : s.Inv) : s.Agree := by
  rw [Agree, h.same]
  exact ⟨rfl, rfl⟩

theorem Inv.thread_eq {s : Copies Handler} (h : s.Inv) (hactive : s.thread.active = false) :
    s.thread = s.frame := by
  rw [h.same, hactive, ← h.inactive]

theorem inv_of_inactive (hs : s.active = false) : Inv ⟨s, s⟩ :=
  ⟨hs, rfl, fun hs' => Bool.noConfusion (hs.symm.trans hs')⟩

/-- An `AsyncWait` of an event that neither copy has active. -/
theorem asyncWait_inv (hs : s.active = false) :
    Inv ⟨s.asyncWait .frame fd events handler added deleted,
      s.asyncWait .thread fd events handler added deleted⟩ := by
  rw [asyncWait_of_inactive hs, asyncWait_of_inactive hs]
  split
  · rename_i hcreates
    refine ⟨rfl, rfl, fun _ => ⟨⟨s.nextEvent fd events handler, ?_, ?_⟩, ?_⟩⟩
    · exact List.mem_append_right _ List.mem_cons_self
    · exact ev_afterNew hcreates.1
    · rw [handler_afterNew]
      exact Option.some_ne_none handler
  · exact inv_of_inactive (active_afterNew.trans hs)

/-- A `Cancel` of an active event whose `event_del` fails. -/
theorem Inv.cancel_thread {s : Copies Handler} (h : s.Inv) (hactive : s.thread.active = true) :
    s.thread.cancel false = s.frame := by
  obtain ⟨⟨event, -, hev⟩, -⟩ := h.owned hactive
  have hthread : s.thread.ev ≠ none := by
    rw [h.same, hev]
    exact Option.some_ne_none _
  rw [cancel_of_not_deleted hthread, h.same, ← h.inactive]

theorem step_inv {s : Copies Handler} (h : s.Inv) (label : Label Handler) (hok : s.Untold label) :
    ∃ next ∈ s.step label, next.Inv := by
  refine ⟨_, rfl, ?_⟩
  cases hactive : s.thread.active with
  | false =>
      have hsame := h.thread_eq hactive
      rw [hsame]
      cases label with
      | asyncWait fd events handler added deleted => exact asyncWait_inv h.inactive
      | cancel deleted =>
          simp only [apply, cancel_of_inactive h.inactive]
          exact inv_of_inactive h.inactive
      | fire number what => exact inv_of_inactive (active_apply_fire.trans h.inactive)
  | true =>
      have hcase := hok.resolve_left (by simp [hactive])
      cases label with
      | asyncWait fd events handler added deleted =>
          obtain rfl : deleted = false := hcase
          simp only [apply]
          rw [@asyncWait_cancel _ s.thread, h.cancel_thread hactive]
          exact asyncWait_inv h.inactive
      | cancel deleted =>
          obtain rfl : deleted = false := hcase
          simp only [apply, h.cancel_thread hactive, cancel_of_inactive h.inactive]
          exact inv_of_inactive h.inactive
      | fire number what =>
          have hnone : s.thread.firing number what = none := hcase
          have hframe : s.frame.firing number what = none := by
            rw [h.same] at hnone
            exact hnone
          rw [apply_fire_of_none hnone, apply_fire_of_none hframe]
          exact h

/-- A `Cancel` that succeeds takes the registered event of an active copy away. -/
theorem Inv.registered_cancel {s : Copies Handler} (h : s.Inv) (hactive : s.thread.active = true) :
    (s.thread.cancel true).registered ≠ s.frame.registered := by
  obtain ⟨⟨event, hevent, hev⟩, -⟩ := h.owned hactive
  have hregistered : s.thread.registered = s.frame.registered := by rw [h.same]
  have hthread : s.thread.ev = some event.number := by rw [h.same, hev]
  have hcancel : (s.thread.cancel true).registered =
      s.frame.registered.filter (·.number ≠ event.number) := by
    simp only [cancel, hactive, hthread, hregistered, if_true]
  intro heq
  have hmem : event ∈ s.frame.registered.filter (·.number ≠ event.number) := by
    rw [← hcancel, heq]
    exact hevent
  simpa using List.of_mem_filter hmem

theorem step_not_agree {s : Copies Handler} (h : s.Inv) (label : Label Handler)
    (hbad : ¬ s.Untold label) : ∀ next ∈ s.step label, ¬ next.Agree := by
  rintro _ ⟨⟩ ⟨hinvoked, hregistered⟩
  obtain ⟨hactive, hlabel⟩ := not_or.mp hbad
  rw [Bool.not_eq_false] at hactive
  cases label with
  | asyncWait fd events handler added deleted =>
      rw [Bool.not_eq_false] at hlabel
      simp only [apply] at hregistered
      rw [@asyncWait_cancel _ s.thread, registered_asyncWait h.inactive,
        registered_asyncWait (active_cancel _ _), hlabel] at hregistered
      have hcreated : (s.thread.cancel true).created = s.frame.created := by
        rw [created_cancel, h.same]
      rw [hcreated, List.append_left_inj] at hregistered
      exact h.registered_cancel hactive hregistered.symm
  | cancel deleted =>
      rw [Bool.not_eq_false] at hlabel
      simp only [apply, cancel_of_inactive h.inactive, hlabel] at hregistered
      exact h.registered_cancel hactive hregistered.symm
  | fire number what =>
      obtain ⟨event, hevent⟩ := Option.ne_none_iff_exists'.mp hlabel
      have hframe : s.frame.firing number what = some event := by
        rw [h.same] at hevent
        exact hevent
      obtain ⟨handler, hhandler⟩ := Option.ne_none_iff_exists'.mp (h.owned hactive).2
      have hthread : s.thread.handler = some handler := by rw [h.same, hhandler]
      have hsame : s.thread.invoked = s.frame.invoked := by rw [h.same]
      simp only [apply_fire hevent, apply_fire hframe, callHandler, h.inactive, hactive, hthread,
        Bool.false_eq_true, if_true, if_false, hsame, Option.map_some, Option.toList_some] at hinvoked
      simpa using congrArg List.length hinvoked

/-- The copies call the same handlers with the same flags and have the same events registered, if and
only if the `thread/` copy gets no occasion to call a handler or to delete an event. -/
theorem copies_agree_iff (labels : List (Label Handler)) :
    Safe step Agree new labels ↔ AllSteps step Untold new labels := by
  have hadmissible : AllSteps step (fun _ _ => True) (new : Copies Handler) labels :=
    allSteps_of_forall (fun _ _ => trivial) new labels
  exact safe_iff_allSteps Inv (fun _ h => h.agree) (fun _ label h _ hok => step_inv h label hok)
    (fun _ label h _ hbad => step_not_agree h label hbad) labels new new_inv hadmissible

/-- After an `AsyncWait` for reading, a firing is reported by one copy only, and a `Cancel` deletes the
event of one copy only. -/
theorem copies_disagree :
    (∃ last, run step (new : Copies ℕ) [.asyncWait 3 ⟨true, false⟩ 7 true true,
      .fire 0 ⟨false, true, false⟩] = some last ∧
      last.frame.invoked = [] ∧ last.thread.invoked = [(7, ⟨true, false⟩)]) ∧
    ∃ last, run step (new : Copies ℕ) [.asyncWait 3 ⟨true, false⟩ 7 true true, .cancel true] =
      some last ∧ last.frame.registered.length = 1 ∧ last.thread.registered = [] :=
  ⟨⟨_, rfl, rfl, rfl⟩, _, rfl, rfl, rfl⟩

end Copies

/-! ### The reports of the `thread/` copy -/

namespace Reporting

theorem report_eq_iff {flags : Flags} {registered : What} (h : what.Among registered) :
    report flags what = what.flags ↔ Ready flags what := by
  obtain ⟨-, hsome, -⟩ := h
  obtain ⟨readable, writable⟩ := flags
  obtain ⟨timeout, read, write⟩ := what
  cases read <;> cases write <;> cases readable <;> cases writable <;>
    simp_all [report, Ready, What.flags]

/-- What a firing adds to the calls of handlers. -/
theorem invoked_apply_fire {event : Event Handler} (h : s.firing number what = some event) :
    (s.apply copy (.fire number what)).invoked =
      s.invoked ++ if s.active then (s.handler.map (·, report s.flags what)).toList else [] := by
  rw [apply_fire h, callHandler]
  split
  · rfl
  · rw [List.append_nil]

theorem fire_exact_iff {s : Reporting Handler} (h : s.Exact) :
    (∃ next ∈ s.step (.fire number what), next.Exact) ↔ s.Fresh (.fire number what) := by
  simp only [step, Option.mem_some_iff, exists_eq_left', Exact, Fresh]
  cases hfiring : s.event.firing number what with
  | none => simpa [apply_fire_of_none hfiring, Exact] using h
  | some event =>
      rw [invoked_apply_fire hfiring, h, Option.map_some, Option.toList_some, List.append_right_inj]
      simp only [Option.mem_some_iff, forall_eq', ← report_eq_iff (among_of_firing hfiring).2.2]
      split
      · rename_i hactive
        cases hhandler : s.event.handler with
        | none => simp
        | some handler => simp [hactive]
      · rename_i hactive
        simp [hactive]

theorem step_exact {s : Reporting Handler} (h : s.Exact) (label : Label Handler) :
    (∃ next ∈ s.step label, next.Exact) ↔ s.Fresh label := by
  cases label with
  | asyncWait fd events handler added deleted =>
      exact iff_of_true ⟨_, rfl, invoked_asyncWait.trans h⟩ trivial
  | cancel deleted => exact iff_of_true ⟨_, rfl, (invoked_cancel _ _).trans h⟩ trivial
  | fire number what => exact fire_exact_iff h

/-- The registered events are the one of the latest `AsyncWait`. -/
def Owned (s : FdEvent Handler) : Prop :=
  ∀ event ∈ s.registered, s.active = true ∧ s.ev = some event.number ∧ s.handler = some event.handler

theorem Owned.registered_cancel (h : Owned s) : (s.cancel true).registered = [] := by
  rw [List.eq_nil_iff_forall_not_mem]
  intro event hevent
  obtain ⟨hinactive, heq⟩ | ⟨-, hnone, heq⟩ | ⟨-, hdeleted, -⟩ | ⟨number, -, hev, -, heq⟩ :=
    cancel_cases s true
  · rw [heq] at hevent
    exact Bool.noConfusion (hinactive.symm.trans (h event hevent).1)
  · rw [heq] at hevent
    cases hnone.symm.trans (h event hevent).2.1
  · cases hdeleted
  · rw [heq, List.mem_filter] at hevent
    have hnumber : some number = some event.number := hev.symm.trans (h event hevent.1).2.1
    simp [Option.some.inj hnumber] at hevent

theorem Owned.asyncWait (h : Owned s) :
    Owned (s.asyncWait .thread fd events handler added true) := by
  rw [asyncWait_cancel, asyncWait_of_inactive (active_cancel s true)]
  split
  · rename_i hcreates
    intro event hevent
    rw [h.registered_cancel, List.nil_append, List.mem_singleton] at hevent
    rw [hevent]
    exact ⟨rfl, ev_afterNew hcreates.1, handler_afterNew⟩
  · intro event hevent
    rw [registered_afterNew, h.registered_cancel] at hevent
    exact absurd hevent List.not_mem_nil

theorem Owned.apply (h : Owned s) (label : Label Handler) (hdeleted : label.deleted = true) :
    Owned (s.apply .thread label) := by
  cases label with
  | asyncWait fd events handler added deleted =>
      obtain rfl : deleted = true := hdeleted
      exact h.asyncWait
  | cancel deleted =>
      obtain rfl : deleted = true := hdeleted
      intro event hevent
      rw [FdEvent.apply, h.registered_cancel] at hevent
      exact absurd hevent List.not_mem_nil
  | fire number what =>
      cases hfiring : s.firing number what with
      | none => exact (apply_fire_of_none hfiring).symm ▸ h
      | some event =>
          rw [apply_fire hfiring]
          intro other hother
          rw [registered_callHandler] at hother
          rw [active_callHandler, ev_callHandler, handler_callHandler]
          exact h other (List.mem_of_mem_filter hother)

theorem fresh_iff_clean {s : Reporting Handler} (h : Owned s.event) (label : Label Handler) :
    s.Fresh label ↔ s.Clean label := by
  cases label with
  | asyncWait fd events handler added deleted => exact Iff.rfl
  | cancel deleted => exact Iff.rfl
  | fire number what =>
      simp only [Fresh, Clean]
      cases hfiring : s.event.firing number what with
      | none => simp
      | some event =>
          obtain ⟨hactive, -, hhandler⟩ := h event (among_of_firing hfiring).1
          simp [hactive, hhandler]

/-- Every firing is reported once, to the handler of the `AsyncWait` that has registered it and with
exactly what has fired, if and only if `flags_` is ready for it whenever the event fires. This is for
events that `event_del` can delete. In general the event that fires must also be the one of the latest
`AsyncWait`. -/
theorem reports_exact_iff (labels : List (Label Handler)) :
    (Safe step Exact new labels ↔ AllSteps step Fresh new labels) ∧
      ((∀ label ∈ labels, label.deleted = true) →
        (Safe step Exact new labels ↔ AllSteps step Clean new labels)) := by
  constructor
  · have hadmissible : AllSteps step (fun _ _ => True) (new : Reporting Handler) labels :=
      allSteps_of_forall (fun _ _ => trivial) new labels
    refine safe_iff_allSteps Exact (fun _ h => h) (fun s label h _ hok => ?_)
      (fun s label h _ hbad next hnext hexact => ?_) labels new rfl hadmissible
    · exact (step_exact h label).mpr hok
    · exact hbad ((step_exact h label).mp ⟨next, hnext, hexact⟩)
  · intro hdeleted
    have hadmissible : AllSteps step (fun _ label => label.deleted = true) (new : Reporting Handler)
        labels := allSteps_of_forall_mem hdeleted new
    have hnew : Exact (new : Reporting Handler) ∧ Owned (new : Reporting Handler).event :=
      ⟨rfl, fun _ hevent => absurd hevent List.not_mem_nil⟩
    refine safe_iff_allSteps (fun s => s.Exact ∧ Owned s.event) (fun _ h => h.1)
      (fun s label h hlabel hok => ?_) (fun s label h _ hbad next hnext hexact => ?_) labels new hnew
      hadmissible
    · obtain ⟨next, hnext, hexact⟩ := (step_exact h.1 label).mpr ((fresh_iff_clean h.2 label).mpr hok)
      refine ⟨next, hnext, hexact, ?_⟩
      obtain rfl := Option.some.inj hnext
      exact h.2.apply label hlabel
    · exact hbad ((fresh_iff_clean h.2 label).mp ((step_exact h.1 label).mp ⟨next, hnext, hexact⟩))

/-- A firing for reading and writing is reported as readable only, and a firing for writing behind one
for reading as both. -/
theorem reports_inexact :
    (∃ last, run step (new : Reporting ℕ) [.asyncWait 3 ⟨true, true⟩ 7 true true,
      .fire 0 ⟨false, true, true⟩] = some last ∧ last.event.invoked = [(7, ⟨true, false⟩)]) ∧
    ∃ last, run step (new : Reporting ℕ) [.asyncWait 3 ⟨true, false⟩ 7 true true,
      .fire 0 ⟨false, true, false⟩, .asyncWait 3 ⟨false, true⟩ 7 true true,
      .fire 1 ⟨false, false, true⟩] = some last ∧
      last.event.invoked = [(7, ⟨true, false⟩), (7, ⟨true, true⟩)] :=
  ⟨⟨_, rfl, rfl⟩, _, rfl, rfl⟩

end Reporting

end EasyLib.Thread.FdEvent
