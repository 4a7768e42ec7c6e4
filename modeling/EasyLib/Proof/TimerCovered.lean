import EasyLib.Reactors.Timer

/-!
# Which timers the timerfd wakes up for

The timerfd is set in two places only: for a new timer that is earlier than every key of the queue, and
for an expired timer that repeats. In between it is spent by the first read that finds it expired. So
a queue that still holds timers stays covered as long as one of the two happens at the right moment,
and `Covers` says of each call when that is so.

What the argument needs of the data structure is that a queued timer is alive and stands under its own
expiration, which is why a timer may be restarted or deleted only while it is out of the queue.
-/

namespace EasyLib.Reactors.TimerQueue

open MachineInt

/-! ### The representation -/

structure Rep (s : TimerQueue) : Prop where
  live : ∀ entry ∈ s.queue.entries, ∀ timer ∈ entry.2, ∃ object ∈ s.timers timer, object.ts = entry.1
  nodup : ∀ entry ∈ s.queue.entries, entry.2.Nodup
  fresh : ∀ timer, s.timerId < timer → s.timers timer = none

/-- `timers` have been taken out of the queue and, unless a callback has deleted them, are still what
they were in `objects`. -/
structure Detached (objects : ℕ → Option Timer) (timers : List ℕ) (s : TimerQueue) : Prop
    extends Rep s where
  apart : ∀ timer ∈ timers, ∀ entry ∈ s.queue.entries, timer ∉ entry.2
  old : ∀ timer ∈ timers, timer ≤ s.timerId
  kept : ∀ timer ∈ timers, s.timers timer = objects timer ∨ s.timers timer = none

variable {clock : ℕ → Int} {s next : TimerQueue} {ts interval : Int}
  {timer timerid : ℕ} {timers : List ℕ} {object : Timer} {objects : ℕ → Option Timer}

theorem new_rep : Rep new := by
  constructor
  · intro entry hentry
    cases hentry
  · intro entry hentry
    cases hentry
  · intro timer _
    rfl

theorem Rep.covered_iff (h : Rep s) :
    Covered s ↔ ∀ entry ∈ s.queue.entries, ∀ timer ∈ entry.2, ∃ armed ∈ s.timerfd, armed ≤ entry.1 := by
  constructor
  · intro hcovered entry hentry timer htimer
    obtain ⟨object, hobject, hts⟩ := h.live entry hentry timer htimer
    rw [← hts]
    exact hcovered entry hentry timer htimer object hobject
  · intro hcovered entry hentry timer htimer object hobject
    obtain ⟨object', hobject', hts⟩ := h.live entry hentry timer htimer
    obtain rfl : object = object' := Option.mem_unique hobject hobject'
    rw [hts]
    exact hcovered entry hentry timer htimer

theorem Rep.le_timerId (h : Rep s) {entry : Int × List ℕ} (hentry : entry ∈ s.queue.entries)
    (htimer : timer ∈ entry.2) : timer ≤ s.timerId := by
  by_contra hgt
  obtain ⟨object, hobject, -⟩ := h.live entry hentry timer htimer
  rw [h.fresh timer (by omega)] at hobject
  cases hobject

/-! ### Setting the timerfd -/

theorem timerfdSettime_getIntervalFromNow {now ts : Int} (hlt : now < ts) (hspan : ts - now < 2 ^ 64) :
    timerfdSettime now (getIntervalFromNow ts now) = some ts := by
  obtain ⟨span, rfl⟩ := Int.exists_add_of_le (le_of_lt hlt)
  have hvalue : toUInt64 (now + span - now) = span := by
    rw [add_sub_cancel_left]
    exact toUInt64_natCast (by omega)
  simp only [timerfdSettime, getIntervalFromNow, hvalue]
  rw [if_neg (by omega)]
  congr 2
  omega

theorem resetTimerfd_eq (hin : InTime (clock s.readings) ts) :
    resetTimerfd clock s ts = { s with timerfd := some ts, readings := s.readings + 1 } := by
  rw [resetTimerfd, timerfdSettime_getIntervalFromNow hin.1 hin.2]

theorem resetTimerfd_rep (h : Rep s) : Rep (resetTimerfd clock s ts) :=
  ⟨h.live, h.nodup, h.fresh⟩

theorem resetTimerfd_detached (h : Detached objects timers s) :
    Detached objects timers (resetTimerfd clock s ts) :=
  ⟨resetTimerfd_rep h.toRep, h.apart, h.old, h.kept⟩

theorem covered_of_resetTimerfd (h : Rep s) (hin : InTime (clock s.readings) ts)
    (hle : ∀ entry ∈ s.queue.entries, ts ≤ entry.1) : Covered (resetTimerfd clock s ts) := by
  rw [(resetTimerfd_rep h).covered_iff, resetTimerfd_eq hin]
  intro entry hentry _ _
  exact ⟨ts, rfl, hle entry hentry⟩

/-! ### A timer in a bucket -/

theorem forall_mem_push (P : Int → ℕ → Prop)
    (hold : ∀ entry ∈ s.queue.entries, ∀ other ∈ entry.2, P entry.1 other) (hnew : P ts timer) :
    ∀ entry ∈ (s.queue.alter ts fun bucket => bucket.getD [] ++ [timer]).entries,
      ∀ other ∈ entry.2, P entry.1 other := by
  apply OrdMap.forall_alter
  · intro entry hentry _
    exact hold entry hentry
  · intro other hother
    rw [List.mem_singleton.mp hother]
    exact hnew
  · intro bucket hbucket other hother
    rcases List.mem_append.mp hother with hmem | hmem
    · exact hold _ hbucket other hmem
    · rw [List.mem_singleton.mp hmem]
      exact hnew

theorem nodup_push (hnodup : ∀ entry ∈ s.queue.entries, entry.2.Nodup)
    (hapart : ∀ entry ∈ s.queue.entries, timer ∉ entry.2) :
    ∀ entry ∈ (s.queue.alter ts fun bucket => bucket.getD [] ++ [timer]).entries,
      entry.2.Nodup := by
  apply OrdMap.forall_alter
  · intro entry hentry _
    exact hnodup entry hentry
  · exact List.nodup_singleton timer
  · intro bucket hbucket
    simp only [Option.getD_some]
    rw [← List.concat_eq_append]
    exact (hnodup _ hbucket).concat (hapart _ hbucket)

theorem notMem_push {other : ℕ} (hne : other ≠ timer)
    (hapart : ∀ entry ∈ s.queue.entries, other ∉ entry.2) :
    ∀ entry ∈ (s.queue.alter ts fun bucket => bucket.getD [] ++ [timer]).entries,
      other ∉ entry.2 := by
  intro entry hentry hmem
  refine forall_mem_push (fun _ found => found ≠ other) ?_ hne.symm entry hentry other hmem rfl
  rintro entry hentry found hfound rfl
  exact hapart entry hentry hfound

theorem forall_mem_filter {P : Int × List ℕ → Prop}
    (hP : ∀ entry ∈ s.queue.entries, ∀ bucket, bucket.Sublist entry.2 →
      (∀ other ∈ bucket, entry.1 = ts → other ≠ timer) → P (entry.1, bucket))
    (hnil : P (ts, [])) :
    ∀ entry ∈ (s.queue.alter ts fun bucket => (bucket.getD []).filter (· ≠ timer)).entries,
      P entry := by
  apply OrdMap.forall_alter
  · intro entry hentry hne
    exact hP entry hentry entry.2 (List.Sublist.refl _) fun _ _ hkey => absurd hkey hne
  · exact hnil
  · intro bucket hbucket
    refine hP (ts, bucket) hbucket _ List.filter_sublist fun other hother _ => ?_
    simpa using (List.mem_filter.mp hother).2

theorem update_none_eq_none {other : ℕ} (hnone : s.timers other = none) :
    Function.update s.timers timer none other = none := by
  by_cases heq : other = timer
  · rw [heq, Function.update_self]
  · rw [Function.update_of_ne heq, hnone]

theorem update_none_kept {other : ℕ} (hkept : s.timers other = objects other ∨ s.timers other = none) :
    Function.update s.timers timer none other = objects other ∨
      Function.update s.timers timer none other = none := by
  by_cases heq : other = timer
  · rw [heq, Function.update_self]
    exact Or.inr rfl
  · rw [Function.update_of_ne heq]
    exact hkept

/-! ### `AddTimer` -/

theorem Earliest.le (h : s.Earliest ts) {entry : Int × List ℕ}
    (hentry : entry ∈ s.queue.entries) : ts ≤ entry.1 := by
  cases hfirst : s.queue.first with
  | none =>
      rw [OrdMap.first_eq_none hfirst] at hentry
      cases hentry
  | some first =>
      calc
        ts ≤ first := le_of_lt (h first hfirst)
        _ ≤ entry.1 := OrdMap.first_le hfirst hentry

theorem insertNew_rep (h : Rep s) : Rep (s.insertNew ts interval) := by
  have hold : ∀ entry ∈ s.queue.entries, ∀ timer ∈ entry.2,
      ∃ object ∈ (s.insertNew ts interval).timers timer, object.ts = entry.1 := by
    intro entry hentry timer htimer
    have hle := h.le_timerId hentry htimer
    simp only [insertNew]
    rw [Function.update_of_ne (by omega)]
    exact h.live entry hentry timer htimer
  have hnew : ∃ object ∈ (s.insertNew ts interval).timers (s.timerId + 1), object.ts = ts := by
    refine ⟨Timer.new (s.timerId + 1) ts interval, ?_, rfl⟩
    simp only [insertNew, Function.update_self]
    rfl
  constructor
  · exact forall_mem_push (fun key timer =>
      ∃ object ∈ (s.insertNew ts interval).timers timer, object.ts = key) hold hnew
  · apply nodup_push h.nodup
    intro entry hentry hmem
    have hle := h.le_timerId hentry hmem
    omega
  · intro timer hlt
    simp only [insertNew] at hlt ⊢
    rw [Function.update_of_ne (by omega)]
    exact h.fresh timer (by omega)

theorem insertNew_detached (h : Detached objects timers s) :
    Detached objects timers (s.insertNew ts interval) := by
  refine ⟨insertNew_rep h.toRep, ?_, ?_, ?_⟩
  · intro timer htimer
    have hold := h.old timer htimer
    exact notMem_push (by omega) (h.apart timer htimer)
  · intro timer htimer
    exact Nat.le_succ_of_le (h.old timer htimer)
  · intro timer htimer
    have hold := h.old timer htimer
    simp only [insertNew]
    rw [Function.update_of_ne (by omega)]
    exact h.kept timer htimer

theorem addTimer_detached (h : Detached objects timers s) :
    Detached objects timers (s.addTimer clock ts interval) := by
  unfold addTimer
  split_ifs
  · exact resetTimerfd_detached (insertNew_detached h)
  · exact insertNew_detached h

theorem addTimer_covered (h : Rep s) (hcovered : Covered s) (hcovers : AddCovers clock s ts) :
    Covered (s.addTimer clock ts interval) := by
  have hrep : Rep (s.insertNew ts interval) := insertNew_rep h
  unfold addTimer
  unfold AddCovers at hcovers
  split_ifs at hcovers ⊢ with hearliest
  · refine covered_of_resetTimerfd hrep hcovers ?_
    exact OrdMap.forall_alter (fun entry hentry _ => hearliest.le hentry) le_rfl
      (fun bucket _ => le_rfl)
  · rw [h.covered_iff] at hcovered
    rw [hrep.covered_iff]
    exact forall_mem_push (fun key _ => ∃ armed ∈ s.timerfd, armed ≤ key) hcovered hcovers

/-! ### `RemoveTimer` -/

theorem removeTimer_eq_some (hstep : s.removeTimer timerid = some next) :
    next = s ∨ ∃ timer, ∃ object ∈ s.timers timer, next = { s with
      idtotimers := Function.update s.idtotimers timerid none
      queue := s.queue.alter object.ts fun bucket => (bucket.getD []).filter (· ≠ timer)
      timers := Function.update s.timers timer none } := by
  unfold removeTimer at hstep
  cases hid : s.idtotimers timerid with
  | none =>
      rw [hid] at hstep
      exact Or.inl (Option.some.inj hstep).symm
  | some timer =>
      rw [hid] at hstep
      obtain ⟨object, hobject, hnext⟩ := Option.map_eq_some_iff.mp hstep
      exact Or.inr ⟨timer, object, hobject, hnext.symm⟩

theorem removeTimer_detached (h : Detached objects timers s)
    (hstep : s.removeTimer timerid = some next) : Detached objects timers next := by
  rcases removeTimer_eq_some hstep with rfl | ⟨timer, object, hobject, rfl⟩
  · exact h
  · refine ⟨⟨?_, ?_, ?_⟩, ?_, h.old, ?_⟩
    · refine forall_mem_filter (fun entry hentry bucket hsub hne other hother => ?_) (by simp)
      obtain ⟨found, hfound, hts⟩ := h.live entry hentry other (hsub.mem hother)
      have hother : other ≠ timer := by
        rintro rfl
        obtain rfl : found = object := Option.mem_unique hfound hobject
        exact hne other hother hts.symm rfl
      refine ⟨found, ?_, hts⟩
      simp only
      rw [Function.update_of_ne hother]
      exact hfound
    · exact forall_mem_filter (fun entry hentry bucket hsub _ => (h.nodup entry hentry).sublist hsub)
        List.nodup_nil
    · intro other hlt
      exact update_none_eq_none (h.fresh other hlt)
    · intro other hother
      exact forall_mem_filter
        (fun entry hentry bucket hsub _ hmem => h.apart other hother entry hentry (hsub.mem hmem))
        (by simp)
    · intro other hother
      exact update_none_kept (h.kept other hother)

theorem removeTimer_covered (h : Detached objects timers s) (hcovered : Covered s)
    (hstep : s.removeTimer timerid = some next) : Covered next := by
  have hrep : Rep next := (removeTimer_detached h hstep).toRep
  rw [h.covered_iff] at hcovered
  rw [hrep.covered_iff]
  rcases removeTimer_eq_some hstep with rfl | ⟨timer, object, -, rfl⟩
  · exact hcovered
  · exact forall_mem_filter
      (fun entry hentry bucket hsub _ other hother => hcovered entry hentry other (hsub.mem hother))
      (by simp)

/-! ### `HandleRead` -/

variable {command : Command} {callback : ℕ → List Command}

theorem exec_detached (h : Detached objects timers s) (hstep : exec clock s command = some next) :
    Detached objects timers next := by
  cases command with
  | addTimer ts interval =>
      rw [← Option.some.inj hstep]
      exact addTimer_detached h
  | removeTimer timerid => exact removeTimer_detached h hstep

theorem exec_covered (h : Detached objects timers s) (hcovered : Covered s)
    (hcovers : CommandCovers clock s command) (hstep : exec clock s command = some next) :
    Covered next := by
  cases command with
  | addTimer ts interval =>
      rw [← Option.some.inj hstep]
      exact addTimer_covered h.toRep hcovered hcovers
  | removeTimer timerid => exact removeTimer_covered h hcovered hstep

theorem start_detached (h : Detached objects timers s) : Detached objects timers (s.start object) :=
  ⟨⟨h.live, h.nodup, h.fresh⟩, h.apart, h.old, h.kept⟩

theorem fire_detached (h : Detached objects timers s) (hstep : fire clock callback s timer = some next) :
    Detached objects timers next := by
  obtain ⟨object, -, hrun⟩ := Option.bind_eq_some_iff.mp hstep
  exact Machine.run_invariant_of_forall (fun _ _ _ => exec_detached) (start_detached h) hrun

theorem fire_covered (h : Detached objects timers s) (hcovered : Covered s)
    (hcovers : ∀ object ∈ s.timers timer,
      Machine.AllSteps (exec clock) (CommandCovers clock) (s.start object) (callback timer))
    (hstep : fire clock callback s timer = some next) : Covered next := by
  obtain ⟨object, hobject, hrun⟩ := Option.bind_eq_some_iff.mp hstep
  have hboth : Detached objects timers next ∧ Covered next :=
    Machine.run_invariant (fun s => Detached objects timers s ∧ Covered s)
      (fun _ _ _ hinv hok hexec =>
        ⟨exec_detached hinv.1 hexec, exec_covered hinv.1 hinv.2 hok hexec⟩)
      _ _ _ ⟨start_detached h, hcovered⟩ (hcovers object hobject) hrun
  exact hboth.2

theorem expiredTs_le (s : TimerQueue) (ts : Int) : s.expiredTs ts ≤ ts := by
  unfold expiredTs
  split
  · exact le_rfl
  · split_ifs <;> omega

theorem expiredTs_le_key {entry : Int × List ℕ} (hentry : entry ∈ s.queue.entries) :
    s.expiredTs ts ≤ entry.1 := by
  unfold expiredTs
  cases hfirst : s.queue.first with
  | none =>
      rw [OrdMap.first_eq_none hfirst] at hentry
      cases hentry
  | some first =>
      have hle := OrdMap.first_le hfirst hentry
      simp only
      split_ifs <;> omega

theorem reinsert_detached (h : Detached objects (timer :: timers) s) (hnodup : timer ∉ timers)
    (hobject : object ∈ s.timers timer) (now : Int) :
    Detached objects timers (s.reinsert timer (object.restart now)) := by
  have hapart := h.apart timer List.mem_cons_self
  have hself : ∃ found ∈ (s.reinsert timer (object.restart now)).timers timer,
      found.ts = (object.restart now).ts := by
    refine ⟨object.restart now, ?_, rfl⟩
    simp only [reinsert, Function.update_self]
    rfl
  have hlive : ∀ entry ∈ s.queue.entries, ∀ other ∈ entry.2,
      ∃ found ∈ (s.reinsert timer (object.restart now)).timers other, found.ts = entry.1 := by
    intro entry hentry other hother
    have hne : other ≠ timer := by
      rintro rfl
      exact hapart entry hentry hother
    simp only [reinsert]
    rw [Function.update_of_ne hne]
    exact h.live entry hentry other hother
  have hne : ∀ other ∈ timers, other ≠ timer := by
    rintro other hother rfl
    exact hnodup hother
  refine ⟨⟨?_, nodup_push h.nodup hapart, ?_⟩, ?_, ?_, ?_⟩
  · exact forall_mem_push (fun key other =>
      ∃ found ∈ (s.reinsert timer (object.restart now)).timers other, found.ts = key) hlive hself
  · intro other hlt
    have hle := h.old timer List.mem_cons_self
    simp only [reinsert] at hlt ⊢
    rw [Function.update_of_ne (by omega)]
    exact h.fresh other hlt
  · intro other hother
    exact notMem_push (hne other hother) (h.apart other (List.mem_cons_of_mem _ hother))
  · intro other hother
    exact h.old other (List.mem_cons_of_mem _ hother)
  · intro other hother
    simp only [reinsert]
    rw [Function.update_of_ne (hne other hother)]
    exact h.kept other (List.mem_cons_of_mem _ hother)

theorem delete_detached (h : Detached objects (timer :: timers) s) :
    Detached objects timers { s with timers := Function.update s.timers timer none } := by
  refine ⟨⟨?_, h.nodup, ?_⟩, ?_, ?_, ?_⟩
  · intro entry hentry other hother
    have hne : other ≠ timer := by
      rintro rfl
      exact h.apart other List.mem_cons_self entry hentry hother
    simp only
    rw [Function.update_of_ne hne]
    exact h.live entry hentry other hother
  · intro other hlt
    exact update_none_eq_none (h.fresh other hlt)
  · intro other hother
    exact h.apart other (List.mem_cons_of_mem _ hother)
  · intro other hother
    exact h.old other (List.mem_cons_of_mem _ hother)
  · intro other hother
    exact update_none_kept (h.kept other (List.mem_cons_of_mem _ hother))

theorem resetTimer_detached (h : Detached objects (timer :: timers) s) (hnodup : timer ∉ timers)
    (hstep : resetTimer clock s timer = some next) : Detached objects timers next := by
  obtain ⟨object, hobject, hnext⟩ := Option.map_eq_some_iff.mp hstep
  rw [← hnext]
  split
  · exact resetTimerfd_detached (reinsert_detached h hnodup hobject (clock s.readings))
  · exact delete_detached h

/-- One round of `ResetTimers`: a repeating timer leaves the queue covered, any other leaves it as
covered as it was. -/
theorem resetTimer_covered (h : Detached objects (timer :: timers) s) (hnodup : timer ∉ timers)
    (hin : ResetInTime clock s timer) (hstep : resetTimer clock s timer = some next)
    (hsome : Covered s ∨ ∃ object ∈ objects timer, object.repeats) : Covered next := by
  obtain ⟨object, hobject, hnext⟩ := Option.map_eq_some_iff.mp hstep
  by_cases hrepeats : object.repeats
  · rw [if_pos hrepeats] at hnext
    have hdetached := reinsert_detached h hnodup hobject (clock s.readings)
    rw [← hnext]
    refine covered_of_resetTimerfd hdetached.toRep (hin object hobject hrepeats) ?_
    exact OrdMap.forall_alter (fun entry hentry _ => expiredTs_le_key hentry) (expiredTs_le s _)
      (fun _ _ => expiredTs_le s _)
  · rw [if_neg hrepeats] at hnext
    have hdetached := delete_detached h
    rw [← hnext]
    obtain hcovered | ⟨object', hobject', hrepeats'⟩ := hsome
    · rw [h.covered_iff] at hcovered
      rw [hdetached.covered_iff]
      exact hcovered
    · rcases h.kept timer List.mem_cons_self with hsame | hnone
      · rw [← hsame] at hobject'
        obtain rfl : object' = object := Option.mem_unique hobject' hobject
        exact absurd hrepeats' hrepeats
      · rw [hnone] at hobject
        cases hobject

theorem resetTimers_covered :
    ∀ (timers : List ℕ) (s last : TimerQueue), timers.Nodup → Detached objects timers s →
      Machine.AllSteps (resetTimer clock) (ResetInTime clock) s timers →
      resetTimers clock s timers = some last →
      Covered s ∨ (∃ timer ∈ timers, ∃ object ∈ objects timer, object.repeats) →
      Rep last ∧ Covered last := by
  intro timers
  induction timers with
  | nil =>
      intro s last _ h _ hrun hsome
      obtain rfl : s = last := Option.some.inj hrun
      rcases hsome with hcovered | ⟨timer, htimer, -⟩
      · exact ⟨h.toRep, hcovered⟩
      · cases htimer
  | cons timer timers ih =>
      intro s last hnodup h hall hrun hsome
      obtain ⟨next, hnext, hrest⟩ := Option.bind_eq_some_iff.mp hrun
      obtain ⟨hnotMem, hnodup⟩ := List.nodup_cons.mp hnodup
      have hcovered := resetTimer_covered h hnotMem hall.1 hnext
      refine ih next last hnodup (resetTimer_detached h hnotMem hnext) (hall.2 next hnext) hrest ?_
      rcases hsome with hs | ⟨other, hother, hrepeats⟩
      · exact Or.inl (hcovered (Or.inl hs))
      · rcases List.mem_cons.mp hother with rfl | hother
        · exact Or.inl (hcovered (Or.inr hrepeats))
        · exact Or.inr ⟨other, hother, hrepeats⟩

/-! ### The scan -/

theorem scan_nodup (h : Rep s) : (scan clock s).1.Nodup := by
  have hsub : ((s.queue.splitLe (clock s.readings)).1).Sublist s.queue.entries :=
    List.takeWhile_sublist _
  refine List.nodup_flatMap.mpr ⟨fun entry hentry => h.nodup entry (hsub.mem hentry), ?_⟩
  refine List.Pairwise.imp_of_mem ?_ (s.queue.sorted.sublist hsub)
  intro left right hleft hright hlt timer htimer htimer'
  obtain ⟨object, hobject, hts⟩ := h.live left (hsub.mem hleft) timer htimer
  obtain ⟨object', hobject', hts'⟩ := h.live right (hsub.mem hright) timer htimer'
  obtain rfl : object = object' := Option.mem_unique hobject hobject'
  omega

theorem mem_scan (htimer : timer ∈ (scan clock s).1) :
    ∃ entry ∈ s.queue.entries, timer ∈ entry.2 ∧ entry.1 ≤ clock s.readings := by
  obtain ⟨entry, hentry, htimer⟩ := List.mem_flatMap.mp htimer
  obtain ⟨hentry, hle⟩ := OrdMap.mem_splitLe_fst hentry
  exact ⟨entry, hentry, htimer, hle⟩

theorem scan_due (h : Rep s) (htimer : timer ∈ (scan clock s).1) (hobject : object ∈ s.timers timer) :
    object.ts ≤ clock s.readings := by
  obtain ⟨entry, hentry, htimer, hle⟩ := mem_scan htimer
  obtain ⟨object', hobject', hts⟩ := h.live entry hentry timer htimer
  obtain rfl : object = object' := Option.mem_unique hobject hobject'
  rw [hts]
  exact hle

/-- The scan takes the timers of the earlier buckets out of the queue: a timer stands under its own
expiration, so none of them is in a later bucket. -/
theorem scan_detached (h : Rep s) : Detached s.timers (scan clock s).1 (scan clock s).2 := by
  have hmem : ∀ timer ∈ (scan clock s).1, ∃ entry ∈ s.queue.entries, timer ∈ entry.2 ∧
      entry.1 ≤ clock s.readings := fun timer => mem_scan
  refine ⟨⟨?_, ?_, h.fresh⟩, ?_, ?_, fun _ _ => Or.inl rfl⟩
  · intro entry hentry
    exact h.live entry (OrdMap.mem_splitLe_snd hentry).1
  · intro entry hentry
    exact h.nodup entry (OrdMap.mem_splitLe_snd hentry).1
  · intro timer htimer entry hentry htimer'
    obtain ⟨hentry, hlt⟩ := OrdMap.mem_splitLe_snd hentry
    obtain ⟨entry', hentry', htimer, hle⟩ := hmem timer htimer
    obtain ⟨object, hobject, hts⟩ := h.live entry hentry timer htimer'
    obtain ⟨object', hobject', hts'⟩ := h.live entry' hentry' timer htimer
    obtain rfl : object = object' := Option.mem_unique hobject hobject'
    omega
  · intro timer htimer
    obtain ⟨entry, hentry, htimer, -⟩ := hmem timer htimer
    exact h.le_timerId hentry htimer

theorem readTimerfd_rep (h : Rep s) : Rep (readTimerfd clock s) := ⟨h.live, h.nodup, h.fresh⟩

theorem scan_covered (h : Rep s) (hcovered : Covered s) (hspent : NotSpent clock s) :
    Covered (scan clock (readTimerfd clock s)).2 := by
  rw [h.covered_iff] at hcovered
  rw [(scan_detached (readTimerfd_rep h)).covered_iff]
  intro entry hentry timer htimer
  obtain ⟨hentry, hlt⟩ := OrdMap.mem_splitLe_snd hentry
  rcases hspent with hdue | hnone
  · obtain ⟨armed, harmed, hle⟩ := hcovered entry hentry timer htimer
    refine ⟨armed, ?_, hle⟩
    exact Option.mem_filter_iff.mpr ⟨harmed, by simpa using hdue armed harmed⟩
  · rw [hnone entry hentry hlt] at htimer
    cases htimer

theorem handleRead_covered (h : Rep s) (hcovered : Covered s)
    (hcovers : Covers clock s (.handleRead callback)) (hstep : s.handleRead clock callback = some next) :
    Rep next ∧ Covered next := by
  obtain ⟨fired, hfired, hreset⟩ := Option.bind_eq_some_iff.mp hstep
  obtain ⟨hsome, hin⟩ := hcovers
  have hscan : Detached s.timers (scan clock (readTimerfd clock s)).1
      (scan clock (readTimerfd clock s)).2 := scan_detached (readTimerfd_rep h)
  have hdetached : Detached s.timers (scan clock (readTimerfd clock s)).1 fired :=
    Machine.run_invariant_of_forall (fun _ _ _ => fire_detached) hscan hfired
  refine resetTimers_covered _ _ _ (scan_nodup (readTimerfd_rep h)) hdetached (hin fired hfired)
    hreset ?_
  rcases hsome with hrepeats | ⟨hspent, hall⟩
  · exact Or.inr hrepeats
  · refine Or.inl ?_
    have hboth : Detached s.timers (scan clock (readTimerfd clock s)).1 fired ∧ Covered fired :=
      Machine.run_invariant
        (fun state => Detached s.timers (scan clock (readTimerfd clock s)).1 state ∧ Covered state)
        (fun _ _ _ hinv hok hfire =>
          ⟨fire_detached hinv.1 hfire, fire_covered hinv.1 hinv.2 hok hfire⟩)
        _ _ _ ⟨hscan, scan_covered h hcovered hspent⟩ hall hfired
    exact hboth.2

/-! ### Whole runs -/

theorem Rep.detached_nil (h : Rep s) : Detached s.timers [] s := by
  refine ⟨h, ?_, ?_, ?_⟩ <;>
    · intro timer htimer
      cases htimer

theorem step_covered {call : Call} (h : Rep s ∧ Covered s) (hcovers : Covers clock s call)
    (hstep : step clock s call = some next) : Rep next ∧ Covered next := by
  obtain ⟨hrep, hcovered⟩ := h
  cases call with
  | addTimer ts interval =>
      rw [← Option.some.inj hstep]
      exact ⟨(addTimer_detached hrep.detached_nil).toRep, addTimer_covered hrep hcovered hcovers⟩
  | removeTimer timerid =>
      have hdetached := hrep.detached_nil
      exact ⟨(removeTimer_detached hdetached hstep).toRep,
        removeTimer_covered hdetached hcovered hstep⟩
  | handleRead callback => exact handleRead_covered hrep hcovered hcovers hstep

/-- In every run whose calls all keep the timerfd in step, every live timer of the queue has the
timerfd armed for it after every call. -/
theorem timers_covered_of_covers (clock : ℕ → Int) (calls : List Call)
    (hcovers : Machine.AllSteps (step clock) (Covers clock) new calls) :
    Machine.Throughout (step clock) Covered new calls := by
  refine Machine.throughout_of_allSteps (fun s => Rep s ∧ Covered s) (fun _ h => h.2)
    (fun _ _ _ h hok hstep => step_covered h hok hstep) calls new ⟨new_rep, ?_⟩ hcovers
  intro entry hentry
  cases hentry

theorem timers_covered_repeating :
    (Machine.run (step fun reading => if reading = 0 then 0 else 10) new
        [.addTimer 10 1, .addTimer 20 0, .handleRead fun _ => []]).isSome ∧
      Machine.Throughout (step fun reading => if reading = 0 then 0 else 10) Covered new
        [.addTimer 10 1, .addTimer 20 0, .handleRead fun _ => []] :=
  ⟨rfl, timers_covered_of_covers _ _ (by decide +kernel)⟩

/-- Two one-shot timers: the first one's expiration is read, nothing sets the timerfd again, and the
second one is stranded. -/
theorem timers_not_covered_of_oneShot :
    ∃ clock : ℕ → Int, (∀ earlier later, earlier ≤ later → clock earlier ≤ clock later) ∧
      ∃ s, Machine.run (step clock) new
        [.addTimer 10 0, .addTimer 20 0, .handleRead fun _ => []] = some s ∧ ¬ Covered s := by
  refine ⟨fun reading => if reading = 0 then 0 else 10, ?_, _, rfl, by decide +kernel⟩
  intro earlier later hle
  dsimp only
  split_ifs <;> omega

end EasyLib.Reactors.TimerQueue
