import Mathlib.Data.List.Nodup
import Mathlib.Data.List.Perm.Basic
import EasyLib.Reactors.TimerSpec

/-!
# The indexes of the timer queue

`HandleRead` moves the expired timers out of `queue_` at once, out of `idtotimers_` one by one between
the callbacks, and puts those that repeat back into both at the end. `Tracks` is the invariant across all
of it: it follows the timers in the queue, those that are out of it and those of them that are still in
`idtotimers_`. Each operation of the queue keeps it, with the lists that the operation leaves.
-/

namespace EasyLib.Reactors.TimerQueue

open scoped List

/-! ### Stable order -/

theorem InOrder.perm {due fired : List Timer} (h : InOrder due fired) : fired ~ due := by
  rw [List.perm_iff_count]
  intro timer
  have hcount : ∀ timers : List Timer,
      timers.count timer = (timers.filter (·.ts = timer.ts)).count timer := by
    intro timers
    rw [List.count_filter (by simp)]
  rw [hcount fired, h.stable, ← hcount due]

/-- Grouping by distinct keys keeps the order under each key. -/
theorem filter_flatMap_filter {keys : List Int} (hkeys : keys.Nodup) (timers : List Timer) (ts : Int) :
    (keys.flatMap fun key => timers.filter (·.ts = key)).filter (·.ts = ts) =
      if ts ∈ keys then timers.filter (·.ts = ts) else [] := by
  induction keys with
  | nil => rfl
  | cons key keys ih =>
      obtain ⟨hkey, hkeys⟩ := List.nodup_cons.mp hkeys
      rw [List.flatMap_cons, List.filter_append, ih hkeys, List.filter_filter]
      by_cases hts : ts = key
      · subst hts
        simp [hkey]
      · have hnil :
            timers.filter (fun timer => decide (timer.ts = ts) && decide (timer.ts = key)) = [] := by
          rw [List.filter_eq_nil_iff]
          intro timer _
          simp only [Bool.and_eq_true, decide_eq_true_eq, not_and]
          exact fun heq => heq ▸ hts
        rw [hnil, List.nil_append]
        simp [hts]

/-- In a list with distinct ids, no other timer has the id of a given one. -/
theorem nodup_map_middle {left right : List Timer} {timer : Timer} :
    ((left ++ timer :: right).map Timer.id).Nodup ↔
      timer.id ∉ (left ++ right).map Timer.id ∧ ((left ++ right).map Timer.id).Nodup := by
  rw [List.map_append, List.map_cons, List.nodup_middle, ← List.map_append, List.nodup_cons]

/-! ### The indexes while timers are out of the queue -/

/-- `waiting` are the timers in the queue, `batch` those that `HandleRead` has taken out of it and has
not disposed of, and `indexed` the ones among these that `idtotimers_` still has. -/
structure Tracks (ok : Timer → Prop) (s : TimerQueue) (waiting batch indexed : List Timer) : Prop where
  buckets : ∀ ts, s.bucket ts = (waiting.filter (·.ts = ts)).map Timer.id
  index : ∀ id, s.idtotimers id = if id ∈ (waiting ++ indexed).map Timer.id then some id else none
  objects : ∀ timer ∈ waiting ++ batch, s.timers timer.id = some timer
  distinct : ((waiting ++ batch).map Timer.id).Nodup
  drawn : ∀ timer ∈ waiting ++ batch, timer.id ≤ s.timerId
  sub : indexed.Sublist batch
  kept : ∀ timer ∈ waiting ++ batch, ok timer

variable {clock : ℕ → Int} {ok : Timer → Prop} {s : TimerQueue} {waiting batch indexed : List Timer}
  {timer : Timer} {ts interval : Int} {timerid : ℕ}

theorem tracks_new : Tracks ok new [] [] [] := by
  constructor <;> simp [new, bucket, OrdMap.find, OrdMap.empty]

theorem resetTimerfd_tracks (h : Tracks ok s waiting batch indexed) :
    Tracks ok (resetTimerfd clock s ts) waiting batch indexed := { h with }

theorem bucket_alter (change : Option (List ℕ) → List ℕ) (hnil : change none = change (some []))
    (key : Int) :
    ((s.queue.alter ts change).find key).getD [] =
      if key = ts then change (some (s.bucket ts)) else s.bucket key := by
  rw [OrdMap.find_alter, bucket, bucket]
  split_ifs with hkey
  · cases s.queue.find ts with
    | none => exact hnil
    | some found => rfl
  · rfl

/-- A timer with an id of its own goes to the end of its bucket. -/
theorem buckets_push (hbuckets : ∀ key, s.bucket key = (waiting.filter (·.ts = key)).map Timer.id)
    (timer : Timer) (key : Int) :
    ((s.queue.alter timer.ts fun bucket => bucket.getD [] ++ [timer.id]).find key).getD [] =
      ((waiting ++ [timer]).filter (·.ts = key)).map Timer.id := by
  rw [bucket_alter _ rfl, List.filter_append, List.map_append, ← hbuckets]
  split_ifs with hkey
  · simp [hkey]
  · have hne : timer.ts ≠ key := fun heq => hkey heq.symm
    simp [hne]

theorem index_push
    (hindex : ∀ id, s.idtotimers id = if id ∈ (waiting ++ indexed).map Timer.id then some id else none)
    (timer : Timer) (id : ℕ) :
    Function.update s.idtotimers timer.id (some timer.id) id =
      if id ∈ (waiting ++ [timer] ++ indexed).map Timer.id then some id else none := by
  by_cases hid : id = timer.id
  · rw [hid, Function.update_self, if_pos (by simp)]
  · rw [Function.update_of_ne hid, hindex]
    simp [hid]

theorem index_erase {ids left : List ℕ} {erased : ℕ}
    (hindex : ∀ id, s.idtotimers id = if id ∈ ids then some id else none)
    (hleft : ∀ id, id ∈ left ↔ id ≠ erased ∧ id ∈ ids) (id : ℕ) :
    Function.update s.idtotimers erased none id = if id ∈ left then some id else none := by
  by_cases hid : id = erased
  · rw [hid, Function.update_self, if_neg fun hmem => ((hleft erased).mp hmem).1 rfl]
  · rw [Function.update_of_ne hid, hindex]
    refine if_congr ?_ rfl rfl
    rw [hleft, and_iff_right hid]

theorem mem_push_iff {other : Timer} :
    other ∈ waiting ++ [timer] ++ batch ↔ other = timer ∨ other ∈ waiting ++ batch := by
  simp only [List.mem_append, List.mem_singleton]
  tauto

theorem insertNew_tracks (h : Tracks ok s waiting batch indexed)
    (hok : ok (Timer.new (s.timerId + 1) ts interval)) :
    Tracks ok (s.insertNew ts interval) (waiting ++ [Timer.new (s.timerId + 1) ts interval]) batch
      indexed := by
  have hfresh : ∀ timer ∈ waiting ++ batch, timer.id ≠ s.timerId + 1 := by
    intro timer htimer
    have hle := h.drawn timer htimer
    omega
  refine ⟨buckets_push h.buckets (Timer.new (s.timerId + 1) ts interval),
    index_push h.index (Timer.new (s.timerId + 1) ts interval), ?_, ?_, ?_, h.sub, ?_⟩
  · intro other hother
    obtain rfl | hother := mem_push_iff.mp hother
    · exact Function.update_self ..
    · rw [← h.objects other hother]
      exact Function.update_of_ne (hfresh other hother) ..
  · rw [List.append_assoc, List.singleton_append, nodup_map_middle]
    refine ⟨fun hmem => ?_, h.distinct⟩
    obtain ⟨other, hother, hid⟩ := List.mem_map.mp hmem
    exact hfresh other hother hid
  · intro other hother
    obtain rfl | hother := mem_push_iff.mp hother
    · exact Nat.le_refl _
    · exact Nat.le_succ_of_le (h.drawn other hother)
  · intro other hother
    obtain rfl | hother := mem_push_iff.mp hother
    · exact hok
    · exact h.kept other hother

theorem addTimer_tracks (clock : ℕ → Int) (ts : Int) (h : Tracks ok s waiting batch indexed)
    (hok : ok (Timer.new (s.timerId + 1) ts interval)) :
    Tracks ok (s.addTimer clock ts interval) (waiting ++ [Timer.new (s.timerId + 1) ts interval]) batch
      indexed := by
  unfold addTimer
  split_ifs
  · exact resetTimerfd_tracks (insertNew_tracks h hok)
  · exact insertNew_tracks h hok

theorem timerId_addTimer : (s.addTimer clock ts interval).timerId = s.timerId + 1 := by
  unfold addTimer
  split_ifs <;> rfl

theorem timers_addTimer : (s.addTimer clock ts interval).timers =
    Function.update s.timers (s.timerId + 1) (some (Timer.new (s.timerId + 1) ts interval)) := by
  unfold addTimer
  split_ifs <;> rfl

theorem idtotimers_addTimer : (s.addTimer clock ts interval).idtotimers =
    Function.update s.idtotimers (s.timerId + 1) (some (s.timerId + 1)) := by
  unfold addTimer
  split_ifs <;> rfl

theorem started_addTimer : (s.addTimer clock ts interval).started = s.started := by
  unfold addTimer
  split_ifs <;> rfl

theorem readings_addTimer : s.readings ≤ (s.addTimer clock ts interval).readings := by
  unfold addTimer
  split_ifs
  · exact Nat.le_succ _
  · exact Nat.le_refl _

/-! ### `RemoveTimer` -/

theorem removeTimer_absent (h : Tracks ok s waiting batch indexed)
    (hbatch : timerid ∉ batch.map Timer.id) (hid : timerid ∉ waiting.map Timer.id) :
    s.removeTimer timerid = some s ∧ waiting.filter (·.id ≠ timerid) = waiting := by
  constructor
  · have hnot : timerid ∉ (waiting ++ indexed).map Timer.id := by
      rw [List.map_append, List.mem_append, not_or]
      exact ⟨hid, fun hmem => hbatch ((h.sub.map Timer.id).mem hmem)⟩
    rw [removeTimer, h.index, if_neg hnot]
  · rw [List.filter_eq_self]
    intro timer htimer
    simp only [decide_eq_true_eq]
    rintro rfl
    exact hid (List.mem_map_of_mem htimer)

theorem Tracks.eq_of_id_eq (h : Tracks ok s waiting batch indexed) {other : Timer}
    (hmem : timer ∈ waiting ++ batch) (hother : other ∈ waiting ++ batch) (hid : other.id = timer.id) :
    other = timer := by
  have hobject := h.objects other hother
  rw [hid, h.objects timer hmem] at hobject
  exact (Option.some.inj hobject).symm

theorem buckets_remove (h : Tracks ok s waiting batch indexed) (hmem : timer ∈ waiting) (key : Int) :
    ((s.queue.alter timer.ts fun bucket => (bucket.getD []).filter (· ≠ timer.id)).find key).getD [] =
      ((waiting.filter (·.id ≠ timer.id)).filter (·.ts = key)).map Timer.id := by
  rw [bucket_alter _ rfl]
  split_ifs with hkey
  · simp only [Option.getD_some]
    rw [h.buckets, List.filter_map, List.filter_filter, List.filter_filter, hkey]
    congr 2
    funext other
    exact Bool.and_comm ..
  · -- The timer stands under another key, so no timer of this bucket is lost.
    rw [h.buckets, List.filter_filter]
    congr 1
    apply List.filter_congr
    intro other hother
    have hne : other.ts = key → other.id ≠ timer.id := by
      intro hts hid
      have heq := h.eq_of_id_eq (List.mem_append_left _ hmem) (List.mem_append_left _ hother) hid
      exact hkey (by rw [← hts, heq])
    by_cases hts : other.ts = key <;> simp [hts, hne]

theorem removeTimer_frame (hid : s.idtotimers timerid = some timerid)
    (hobject : s.timers timerid = some timer) :
    ∃ next, s.removeTimer timerid = some next ∧ next.timerId = s.timerId ∧
      next.timers = Function.update s.timers timerid none ∧
      next.idtotimers = Function.update s.idtotimers timerid none := by
  rw [removeTimer, hid]
  simp only [hobject, Option.map_some]
  exact ⟨_, rfl, rfl, rfl, rfl⟩

theorem removeTimer_present (h : Tracks ok s waiting batch indexed) (hmem : timer ∈ waiting)
    (hbatch : timer.id ∉ batch.map Timer.id) :
    ∃ next, s.removeTimer timer.id = some next ∧ next.started = s.started ∧
      next.timerId = s.timerId ∧ Tracks ok next (waiting.filter (·.id ≠ timer.id)) batch indexed := by
  have hobject : s.timers timer.id = some timer := h.objects timer (List.mem_append_left _ hmem)
  have hindex : s.idtotimers timer.id = some timer.id := by
    rw [h.index, if_pos (List.mem_map_of_mem (List.mem_append_left _ hmem))]
  have hsub : waiting.filter (·.id ≠ timer.id) ++ batch <+ waiting ++ batch :=
    List.filter_sublist.append_right _
  have hout : ∀ other ∈ batch, other.id ≠ timer.id := by
    intro other hother hid
    exact hbatch (hid ▸ List.mem_map_of_mem hother)
  have hne : ∀ other ∈ waiting.filter (·.id ≠ timer.id) ++ batch, other.id ≠ timer.id := by
    intro other hother
    obtain hother | hother := List.mem_append.mp hother
    · exact of_decide_eq_true (List.mem_filter.mp hother).2
    · exact hout other hother
  refine ⟨{ s with
    idtotimers := Function.update s.idtotimers timer.id none
    queue := s.queue.alter timer.ts fun bucket => (bucket.getD []).filter (· ≠ timer.id)
    timers := Function.update s.timers timer.id none }, ?_, rfl, rfl, ?_⟩
  · rw [removeTimer, hindex]
    simp only [hobject, Option.map_some]
  · refine ⟨buckets_remove h hmem, ?_, ?_, h.distinct.sublist (hsub.map _), ?_, h.sub, ?_⟩
    · apply index_erase h.index
      intro id
      simp only [List.mem_map, List.mem_append, List.mem_filter, decide_eq_true_eq]
      constructor
      · rintro ⟨other, ⟨hother, hid⟩ | hother, rfl⟩
        · exact ⟨hid, other, .inl hother, rfl⟩
        · exact ⟨hout other (h.sub.mem hother), other, .inr hother, rfl⟩
      · rintro ⟨hid, other, hother | hother, rfl⟩
        · exact ⟨other, .inl ⟨hother, hid⟩, rfl⟩
        · exact ⟨other, .inr hother, rfl⟩
    · intro other hother
      rw [← h.objects other (hsub.mem hother)]
      exact Function.update_of_ne (hne other hother) ..
    · exact fun other hother => h.drawn other (hsub.mem hother)
    · exact fun other hother => h.kept other (hsub.mem hother)

theorem removeTimer_spec (h : Tracks ok s waiting batch indexed)
    (hbatch : timerid ∉ batch.map Timer.id) :
    ∃ next, s.removeTimer timerid = some next ∧ next.started = s.started ∧
      next.timerId = s.timerId ∧ Tracks ok next (waiting.filter (·.id ≠ timerid)) batch indexed := by
  by_cases hid : timerid ∈ waiting.map Timer.id
  · obtain ⟨timer, hmem, rfl⟩ := List.mem_map.mp hid
    exact removeTimer_present h hmem hbatch
  · obtain ⟨hsome, hfilter⟩ := removeTimer_absent h hbatch hid
    rw [hfilter]
    exact ⟨s, hsome, rfl, rfl, h⟩

/-! ### The scan -/

theorem readTimerfd_tracks (clock : ℕ → Int) (h : Tracks ok s waiting batch indexed) :
    Tracks ok (readTimerfd clock s) waiting batch indexed := { h with }

/-- The timers of the buckets that the scan takes. -/
def dueTimers (clock : ℕ → Int) (s : TimerQueue) (waiting : List Timer) : List Timer :=
  ((s.queue.splitLe (clock s.readings)).1.map Prod.fst).flatMap fun key =>
    waiting.filter (·.ts = key)

theorem map_id_dueTimers (clock : ℕ → Int) (h : Tracks ok s waiting batch indexed) :
    (dueTimers clock s waiting).map Timer.id = (scan clock s).1 := by
  rw [dueTimers, scan, List.flatMap_map, List.map_flatMap]
  apply List.flatMap_congr
  intro entry hentry
  have hfind := OrdMap.find_of_mem (OrdMap.mem_splitLe_fst hentry).1
  rw [← h.buckets, bucket, hfind, Option.getD_some]

/-- A timer that is due stands in one of the buckets taken. -/
theorem mem_taken {key : Int} (hle : key ≤ clock s.readings) (hbucket : s.bucket key ≠ []) :
    key ∈ (s.queue.splitLe (clock s.readings)).1.map Prod.fst := by
  cases hfind : s.queue.find key with
  | none =>
      rw [bucket, hfind] at hbucket
      exact absurd rfl hbucket
  | some found =>
      have hentry : (key, found) ∈ s.queue.entries := OrdMap.mem_of_find hfind
      exact List.mem_map_of_mem (OrdMap.mem_splitLe_of_le hentry hle)

theorem dueTimers_inOrder (clock : ℕ → Int) (h : Tracks ok s waiting batch indexed) :
    InOrder (waiting.filter (·.ts ≤ clock s.readings)) (dueTimers clock s waiting) := by
  have htaken : ((s.queue.splitLe (clock s.readings)).1.map Prod.fst).Pairwise (· < ·) :=
    List.pairwise_map.mpr (s.queue.sorted.sublist (List.takeWhile_sublist _))
  constructor
  · rw [dueTimers, List.pairwise_flatMap]
    constructor
    · intro key _
      apply List.pairwise_of_forall_mem_list
      intro left hleft right hright
      have hleft := (List.mem_filter.mp hleft).2
      have hright := (List.mem_filter.mp hright).2
      simp only [decide_eq_true_eq] at hleft hright
      omega
    · refine htaken.imp fun hlt left hleft right hright => ?_
      have hleft := (List.mem_filter.mp hleft).2
      have hright := (List.mem_filter.mp hright).2
      simp only [decide_eq_true_eq] at hleft hright
      omega
  · intro ts
    rw [dueTimers, filter_flatMap_filter (htaken.imp fun hlt => ne_of_lt hlt), List.filter_filter]
    split_ifs with hmem
    · obtain ⟨entry, hentry, rfl⟩ := List.mem_map.mp hmem
      have hle := (OrdMap.mem_splitLe_fst hentry).2
      apply List.filter_congr
      intro timer _
      by_cases hts : timer.ts = entry.1 <;> simp [hts, hle]
    · symm
      rw [List.filter_eq_nil_iff]
      intro timer htimer
      simp only [Bool.and_eq_true, decide_eq_true_eq, not_and]
      rintro rfl hle
      refine hmem (mem_taken hle ?_)
      rw [h.buckets]
      exact List.ne_nil_of_mem (List.mem_map_of_mem (List.mem_filter.mpr ⟨htimer, by simp⟩))

theorem scan_tracks (clock : ℕ → Int) (h : Tracks ok s waiting [] []) :
    Tracks ok (scan clock s).2 (waiting.filter (clock s.readings < ·.ts)) (dueTimers clock s waiting)
      (dueTimers clock s waiting) := by
  have horder := dueTimers_inOrder clock h
  have hperm :
      waiting.filter (clock s.readings < ·.ts) ++ dueTimers clock s waiting ~ waiting ++ [] := by
    rw [List.append_nil]
    calc waiting.filter (clock s.readings < ·.ts) ++ dueTimers clock s waiting
      _ ~ waiting.filter (clock s.readings < ·.ts) ++ waiting.filter (·.ts ≤ clock s.readings) :=
        horder.perm.append_left _
      _ = waiting.filter (clock s.readings < ·.ts) ++
          waiting.filter (fun timer => !decide (clock s.readings < timer.ts)) := by
        simp only [← not_lt, decide_not]
      _ ~ waiting := List.filter_append_perm _ _
  refine ⟨?_, ?_, ?_, ?_, ?_, .refl _, ?_⟩
  · intro ts
    rw [bucket, scan, OrdMap.find_splitLe, List.filter_filter]
    split_ifs with hle
    · symm
      rw [Option.getD_none, List.map_eq_nil_iff, List.filter_eq_nil_iff]
      intro timer _
      simp only [Bool.and_eq_true, decide_eq_true_eq, not_and, not_lt]
      rintro rfl
      exact hle
    · have hbucket := h.buckets ts
      rw [bucket] at hbucket
      rw [hbucket]
      congr 1
      apply List.filter_congr
      intro timer _
      by_cases hts : timer.ts = ts <;> simp [hts, not_le.mp hle]
  · intro id
    exact (h.index id).trans (if_congr (hperm.map Timer.id).mem_iff.symm rfl rfl)
  · exact fun timer htimer => h.objects timer (hperm.mem_iff.mp htimer)
  · exact (hperm.map Timer.id).nodup_iff.mpr h.distinct
  · exact fun timer htimer => h.drawn timer (hperm.mem_iff.mp htimer)
  · exact fun timer htimer => h.kept timer (hperm.mem_iff.mp htimer)

/-! ### Expired timers -/

theorem start_tracks (h : Tracks ok s waiting batch (timer :: indexed)) :
    Tracks ok (s.start timer) waiting batch indexed := by
  have hsub : (waiting ++ timer :: indexed).map Timer.id <+ (waiting ++ batch).map Timer.id :=
    (h.sub.append_left waiting).map Timer.id
  have hnodup := nodup_map_middle.mp (h.distinct.sublist hsub)
  have hless : indexed <+ timer :: indexed := List.sublist_cons_self _ _
  refine { h with index := index_erase h.index fun id => ⟨fun hid => ?_, ?_⟩, sub := hless.trans h.sub }
  · refine ⟨fun heq => hnodup.1 (heq ▸ hid), ?_⟩
    exact ((hless.append_left waiting).map Timer.id).mem hid
  · rintro ⟨hne, hid⟩
    simpa [hne] using hid

theorem Tracks.id_ne (h : Tracks ok s waiting (timer :: batch) indexed) {other : Timer}
    (hother : other ∈ waiting ++ batch) : other.id ≠ timer.id := by
  intro hid
  exact (nodup_map_middle.mp h.distinct).1 (hid ▸ List.mem_map_of_mem hother)

theorem reinsert_tracks (h : Tracks ok s waiting (timer :: batch) []) (ts : Int)
    (hok : ok { timer with ts }) :
    Tracks ok (s.reinsert timer.id { timer with ts }) (waiting ++ [{ timer with ts }]) batch [] := by
  have htimer : timer ∈ waiting ++ timer :: batch := List.mem_append_right _ List.mem_cons_self
  have hsub : waiting ++ batch <+ waiting ++ timer :: batch :=
    (List.sublist_cons_self _ _).append_left _
  refine ⟨buckets_push h.buckets { timer with ts }, index_push h.index { timer with ts }, ?_, ?_, ?_,
    List.nil_sublist _, ?_⟩
  · intro other hother
    obtain rfl | hother := mem_push_iff.mp hother
    · exact Function.update_self ..
    · rw [← h.objects other (hsub.mem hother)]
      exact Function.update_of_ne (h.id_ne hother) ..
  · have hdistinct := h.distinct
    rw [List.map_append, List.map_cons] at hdistinct
    rw [List.append_assoc, List.map_append, List.singleton_append, List.map_cons]
    exact hdistinct
  · intro other hother
    obtain rfl | hother := mem_push_iff.mp hother
    · exact h.drawn timer htimer
    · exact h.drawn other (hsub.mem hother)
  · intro other hother
    obtain rfl | hother := mem_push_iff.mp hother
    · exact hok
    · exact h.kept other (hsub.mem hother)

theorem delete_tracks (h : Tracks ok s waiting (timer :: batch) []) :
    Tracks ok { s with timers := Function.update s.timers timer.id none } waiting batch [] := by
  have hsub : waiting ++ batch <+ waiting ++ timer :: batch :=
    (List.sublist_cons_self _ _).append_left _
  refine ⟨h.buckets, h.index, ?_, h.distinct.sublist (hsub.map _), ?_, List.nil_sublist _, ?_⟩
  · intro other hother
    rw [← h.objects other (hsub.mem hother)]
    exact Function.update_of_ne (h.id_ne hother) ..
  · exact fun other hother => h.drawn other (hsub.mem hother)
  · exact fun other hother => h.kept other (hsub.mem hother)

theorem resetTimer_frame (clock : ℕ → Int) {id : ℕ} (hobject : s.timers id = some timer) :
    ∃ next, resetTimer clock s id = some next ∧ ∀ other ≠ id, next.timers other = s.timers other := by
  rw [resetTimer, hobject, Option.map_some]
  refine ⟨_, rfl, fun other hother => ?_⟩
  split_ifs
  · exact Function.update_of_ne hother ..
  · exact Function.update_of_ne hother ..

theorem resetTimer_repeating (clock : ℕ → Int) (h : Tracks ok s waiting (timer :: batch) [])
    (hrepeats : timer.repeats) (hok : ok (timer.restart (clock s.readings))) :
    ∃ next, resetTimer clock s timer.id = some next ∧ next.started = s.started ∧
      s.readings < next.readings ∧ next.timerId = s.timerId ∧
      Tracks ok next (waiting ++ [timer.restart (clock s.readings)]) batch [] := by
  have htimer : timer ∈ waiting ++ timer :: batch := List.mem_append_right _ List.mem_cons_self
  rw [resetTimer, h.objects timer htimer, Option.map_some, if_pos hrepeats]
  refine ⟨_, rfl, rfl, ?_, rfl, resetTimerfd_tracks (reinsert_tracks h _ hok)⟩
  simp only [resetTimerfd, reinsert]
  omega

theorem resetTimer_oneShot (clock : ℕ → Int) (h : Tracks ok s waiting (timer :: batch) [])
    (hrepeats : ¬ timer.repeats) :
    ∃ next, resetTimer clock s timer.id = some next ∧ next.started = s.started ∧
      next.readings = s.readings ∧ next.timerId = s.timerId ∧ Tracks ok next waiting batch [] := by
  have htimer : timer ∈ waiting ++ timer :: batch := List.mem_append_right _ List.mem_cons_self
  rw [resetTimer, h.objects timer htimer, Option.map_some, if_neg hrepeats]
  exact ⟨_, rfl, rfl, rfl, rfl, delete_tracks h⟩

end EasyLib.Reactors.TimerQueue
