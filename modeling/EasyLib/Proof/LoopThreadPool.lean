import EasyLib.Thread.EventLoopThreadPool

/-!
# The three views of a pool agree

`started_`, `threads_num_` and `threads_` are written by different calls, and nothing ties them
together: `SetThreadNum` leaves the threads, `Stop` clears them and leaves the flag, and a `Start` that
fails midway leaves its first threads behind. The calls that rely on the views agreeing are right
exactly when they do agree.
-/

namespace EasyLib.Thread.EventLoopThreadPool

open Machine

variable {s : EventLoopThreadPool}

/-- The thread that is pushed for an outcome. -/
def threadOf (outcome : StartOutcome) : EventLoopThread := ⟨outcome = .started⟩

theorem startThreads_succ {outcome : ℕ → StartOutcome} {i : ℕ} (h : outcome i ≠ .failed)
    (threads : List EventLoopThread) (count : ℕ) :
    startThreads outcome threads i (count + 1) =
      startThreads outcome (threads ++ [threadOf (outcome i)]) (i + 1) count := by
  rw [startThreads]
  cases hi : outcome i with
  | started => rfl
  | unstarted => rfl
  | failed => exact absurd hi h

theorem startThreads_of_failed {outcome : ℕ → StartOutcome} :
    ∀ (count i : ℕ) (threads : List EventLoopThread),
      (∃ j < count, outcome (i + j) = .failed) →
      (startThreads outcome threads i count).2 = false := by
  intro count
  induction count with
  | zero => rintro i threads ⟨j, hj, -⟩; exact absurd hj (Nat.not_lt_zero j)
  | succ count ih =>
      rintro i threads ⟨j, hj, hfailed⟩
      by_cases hi : outcome i = .failed
      · rw [startThreads, hi]
      · rw [startThreads_succ hi]
        obtain _ | j := j
        · exact absurd hfailed hi
        · refine ih (i + 1) _ ⟨j, by omega, ?_⟩
          rwa [Nat.add_assoc, Nat.add_comm 1 j]

theorem startThreads_of_not_failed {outcome : ℕ → StartOutcome} :
    ∀ (count i : ℕ) (threads : List EventLoopThread),
      (∀ j < count, outcome (i + j) ≠ .failed) →
      startThreads outcome threads i count =
        (threads ++ (List.range' i count).map fun j => threadOf (outcome j), true) := by
  intro count
  induction count with
  | zero => intro i threads _; rw [startThreads, List.range'_zero, List.map_nil, List.append_nil]
  | succ count ih =>
      intro i threads hall
      have hi : outcome i ≠ .failed := hall 0 (Nat.succ_pos count)
      rw [startThreads_succ hi, ih, List.range'_succ, List.map_cons, List.append_assoc,
        List.singleton_append]
      intro j hj
      rw [Nat.add_assoc, Nat.add_comm 1 j]
      exact hall (j + 1) (by omega)

/-- After a `Start` of an unstarted pool that returns true. -/
theorem complete_iff_of_not_failed {outcome : ℕ → StartOutcome} {started : Bool}
    (hall : ∀ i < s.threadsNum, outcome i ≠ .failed) :
    Complete { s with
      threads := (startThreads outcome s.threads 0 s.threadsNum).1
      started
      startReturned := some true } ↔
      s.threads = [] ∧ ∀ i < s.threadsNum, outcome i = .started := by
  rw [startThreads_of_not_failed s.threadsNum 0 s.threads (by simpa using hall)]
  simp only [Complete, List.length_append, List.length_map, List.length_range', List.forall_mem_append,
    List.forall_mem_map, List.mem_range'_1, threadOf, decide_eq_true_eq, Nat.zero_le, true_and,
    Nat.zero_add]
  constructor
  · rintro ⟨hlength, -, hstarted⟩
    exact ⟨List.length_eq_zero_iff.mp (by omega), hstarted⟩
  · rintro ⟨hnil, hstarted⟩
    rw [hnil]
    exact ⟨by simp, by simp, hstarted⟩

theorem start_consistent_iff (outcome : ℕ → StartOutcome) :
    Consistent ((s.start outcome).1.returned (s.start outcome).2) ↔ s.Matched (.start outcome) := by
  by_cases hstarted : s.started = true
  · simp [start, hstarted, Consistent, returned, Matched, Complete]
  · by_cases hfailed : ∃ i < s.threadsNum, outcome i = .failed
    · have hrc := startThreads_of_failed s.threadsNum 0 s.threads (by simpa using hfailed)
      simp [start, hstarted, Consistent, returned, Matched, hrc, hfailed]
    · have hall : ∀ i < s.threadsNum, outcome i ≠ .failed := fun i hi hi' => hfailed ⟨i, hi, hi'⟩
      have hrc : (startThreads outcome s.threads 0 s.threadsNum).2 = true := by
        rw [startThreads_of_not_failed s.threadsNum 0 s.threads (by simpa using hall)]
      simp only [start, hstarted, Consistent, returned, Matched, hrc, hfailed, if_false, false_or,
        Bool.false_eq_true, forall_const]
      exact complete_iff_of_not_failed hall

theorem isSome_allThreads {answer : ℕ → Bool} {threads : List EventLoopThread} :
    ∀ (count i : ℕ), i ≤ threads.length →
      ((allThreads answer threads i count).isSome ↔
        i + count ≤ threads.length ∨ ∃ j < threads.length, i ≤ j ∧ answer j = false) := by
  intro count
  induction count with
  | zero => intro i hi; simp [allThreads, hi]
  | succ count ih =>
      intro i hi
      rw [allThreads]
      split_ifs with hlt hanswer
      · rw [ih (i + 1) hlt]
        refine or_congr (by omega) (exists_congr fun j => and_congr_right fun _ => ?_)
        refine and_congr_left fun hj => ⟨fun hle => by omega, fun hle => ?_⟩
        have hne : i ≠ j := by rintro rfl; simp [hanswer] at hj
        omega
      · exact iff_of_true rfl (.inr ⟨i, hlt, le_rfl, by simpa using hanswer⟩)
      · refine iff_of_false Bool.false_ne_true ?_
        rintro (hle | ⟨j, hj, hij, -⟩) <;> omega

theorem isSome_allThreads_iff_within {answer : ℕ → Bool} :
    (allThreads answer s.threads 0 s.threadsNum).isSome ↔ s.Within answer := by
  rw [isSome_allThreads s.threadsNum 0 (Nat.zero_le _), Within, Nat.zero_add]
  simp

theorem isSome_stop {waitThreadExit : Bool} {stopped : ℕ → Bool} :
    (s.stop waitThreadExit stopped).isSome ↔ s.threadsNum ≤ s.threads.length := by
  have hfirst : (allThreads (fun _ => true) s.threads 0 s.threadsNum).isSome ↔
      s.threadsNum ≤ s.threads.length := by
    simp [isSome_allThreads_iff_within, Within]
  rw [← hfirst, stop, Option.isSome_iff_exists, Option.isSome_iff_exists]
  constructor
  · rintro ⟨next, hnext⟩
    obtain ⟨value, hvalue, -⟩ := Option.bind_eq_some_iff.mp hnext
    exact ⟨value, hvalue⟩
  · rintro ⟨value, hvalue⟩
    have hle : s.threadsNum ≤ s.threads.length := hfirst.mp (by rw [hvalue]; rfl)
    obtain ⟨answer, hanswer⟩ := Option.isSome_iff_exists.mp
      (isSome_allThreads_iff_within.mpr (.inl hle : s.Within stopped))
    cases waitThreadExit <;> simp [hvalue, isStopped, hanswer]

theorem mod_length_lt (h : s.threads ≠ []) (value : ℕ) :
    value % s.threads.length < s.threads.length :=
  Nat.mod_lt value (List.length_pos_iff.mpr h)

theorem isSome_getNextLoop : s.getNextLoop.isSome := by
  rw [getNextLoop]
  split
  · rfl
  · rename_i hne
    rw [List.getElem?_eq_getElem (mod_length_lt hne _)]
    rfl

theorem isSome_getNextLoopWithHash (hash : ℕ) : (s.getNextLoopWithHash hash).isSome := by
  rw [getNextLoopWithHash]
  split
  · rfl
  · rename_i hne
    rw [List.getElem?_eq_getElem (mod_length_lt hne hash)]
    rfl

/-- A call that is not `Start` leaves nothing to be shown about what `Start` has returned. -/
theorem exists_of_isSome {α : Type*} {result : Option α} (h : result.isSome)
    {f : α → EventLoopThreadPool} :
    ∃ next ∈ result.map (fun value => (f value).returned none), next.Consistent := by
  obtain ⟨value, rfl⟩ := Option.isSome_iff_exists.mp h
  exact ⟨_, rfl, fun hreturned => by cases hreturned⟩

theorem step_consistent (call : Call) (hok : s.Matched call) : ∃ next ∈ s.step call, next.Consistent := by
  cases call with
  | setThreadNum threadNum => exact ⟨_, rfl, fun hreturned => by cases hreturned⟩
  | start outcome => exact ⟨_, rfl, (start_consistent_iff outcome).mpr hok⟩
  | stop waitThreadExit stopped => exact exists_of_isSome (isSome_stop.mpr hok)
  | getNextLoop => exact exists_of_isSome isSome_getNextLoop
  | getNextLoopWithHash hash => exact exists_of_isSome (isSome_getNextLoopWithHash hash)
  | isRunning running => exact exists_of_isSome (isSome_allThreads_iff_within.mpr hok)
  | isStopped stopped => exact exists_of_isSome (isSome_allThreads_iff_within.mpr hok)

theorem isSome_of_map {α β : Type*} {result : Option α} {f : α → β} {value : β}
    (h : value ∈ result.map f) : result.isSome := by
  obtain ⟨original, rfl, -⟩ := Option.map_eq_some_iff.mp h
  rfl

theorem step_not_consistent (call : Call) (hbad : ¬ s.Matched call) :
    ∀ next ∈ s.step call, ¬ next.Consistent := by
  intro next hnext
  cases call with
  | setThreadNum threadNum => exact absurd trivial hbad
  | start outcome =>
      obtain rfl := Option.some.inj hnext
      exact fun h => hbad ((start_consistent_iff outcome).mp h)
  | stop waitThreadExit stopped => exact absurd (isSome_stop.mp (isSome_of_map hnext)) hbad
  | getNextLoop => exact absurd trivial hbad
  | getNextLoopWithHash hash => exact absurd trivial hbad
  | isRunning running => exact absurd (isSome_allThreads_iff_within.mp (isSome_of_map hnext)) hbad
  | isStopped stopped => exact absurd (isSome_allThreads_iff_within.mp (isSome_of_map hnext)) hbad

/-- In a sequence of calls all accesses are within `threads_`, and every `Start` that returns true
leaves the pool complete, if and only if each call finds the views of the pool in agreement. -/
theorem pool_consistent_iff (calls : List Call) :
    Safe step Consistent new calls ↔ AllSteps step Matched new calls := by
  have hadmissible : AllSteps step (fun _ _ => True) new calls :=
    allSteps_of_forall (fun _ _ => trivial) new calls
  have hnew : Consistent new := fun h => by cases h
  exact safe_iff_allSteps Consistent (fun _ h => h) (fun s call _ _ hok => step_consistent call hok)
    (fun s call _ _ hbad => step_not_consistent call hbad) calls new hnew hadmissible

/-- `Stop` or `IsRunning` before `Start`, and `Start` again after `Stop`. -/
theorem pool_inconsistent :
    run step new [.setThreadNum 1, .isRunning fun _ => true] = none ∧
    run step new [.setThreadNum 1, .stop false fun _ => false] = none ∧
    ∃ last, run step new [.setThreadNum 1, .start fun _ => .started, .stop false fun _ => false,
      .start fun _ => .started] = some last ∧
      last.startReturned = some true ∧ last.threadsNum = 1 ∧ last.threads = [] :=
  ⟨rfl, rfl, _, rfl, rfl, rfl, rfl⟩

end EasyLib.Thread.EventLoopThreadPool
