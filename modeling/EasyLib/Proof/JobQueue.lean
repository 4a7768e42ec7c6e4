import EasyLib.Reactors.Workers

/-!
# Every job is taken once and in order

A worker that finds a job takes it from the front, and one that finds none goes to wait, so there is
no job when a worker begins to wait. From then on every job that comes wakes a worker or finds none
waiting; a worker that barges in takes a job away and leaves a woken one over.
-/

namespace EasyLib.Reactors.WorkerManager

open CondVar

variable {Worker Job : Type*} [DecidableEq Worker] [Fintype Worker]
  {s next : WorkerManager Worker Job} {worker : Worker} {job : Job}

structure Inv (s : WorkerManager Worker Job) : Prop where
  order : s.taken.map Prod.snd ++ s.jobList = s.queued
  covered : Covered (fun _ => 0) s.jobList.length s.place

omit [DecidableEq Worker] in
theorem new_inv : Inv (new : WorkerManager Worker Job) := ⟨rfl, covered_zero⟩

theorem step_work (hstep : s.step (.work worker) = some next) : next = s.work worker := by
  simp only [step] at hstep
  split at hstep
  · exact (Option.some.inj hstep).symm
  · exact (Option.some.inj hstep).symm
  · cases hstep

theorem step_finish (hstep : s.step (.finish worker) = some next) :
    ∃ job, s.place worker = .outside (.running job) ∧
      next = { s with place := Function.update s.place worker (.outside .idle) } := by
  simp only [step] at hstep
  split at hstep
  · rename_i job hplace
    exact ⟨job, hplace, (Option.some.inj hstep).symm⟩
  · cases hstep

omit [Fintype Worker] in
theorem work_of_nil (hjobs : s.jobList = []) (worker : Worker) :
    s.work worker = { s with place := Function.update s.place worker .waiting } := by
  simp only [work, hjobs]

omit [Fintype Worker] in
theorem work_of_cons {jobList : List Job} (hjobs : s.jobList = job :: jobList) (worker : Worker) :
    s.work worker =
      { s with
        jobList
        place := Function.update s.place worker (.outside (.running job))
        taken := s.taken ++ [(worker, job)] } := by
  simp only [work, hjobs]

theorem work_inv (h : s.Inv) (worker : Worker) : (s.work worker).Inv := by
  cases hjobs : s.jobList with
  | nil =>
      rw [work_of_nil hjobs]
      refine ⟨h.order, ?_⟩
      rw [hjobs]
      exact covered_zero
  | cons job jobList =>
      rw [work_of_cons hjobs]
      constructor
      · rw [← h.order, hjobs]
        simp
      · -- A woken worker takes its own item, any other one takes an item of a woken worker.
        have hle : weight (fun _ => 0) (s.place worker) ≤ 1 := weight_le_one (fun _ => Nat.zero_le 1) _
        apply covered_update h.covered rfl
        rw [hjobs, List.length_cons]
        exact Nat.add_le_add_left hle jobList.length

theorem step_inv {label : Label Worker Job} (h : s.Inv) (hstep : s.step label = some next) :
    next.Inv := by
  cases label with
  | queueJob job chosen =>
      obtain ⟨place, hsignal, rfl⟩ := Option.map_eq_some_iff.mp hstep
      constructor
      · rw [← h.order, List.append_assoc]
      · rw [List.length_append]
        exact covered_signal h.covered hsignal
  | work worker =>
      rw [step_work hstep]
      exact work_inv h worker
  | finish worker =>
      obtain ⟨job, hplace, rfl⟩ := step_finish hstep
      refine ⟨h.order, covered_update h.covered rfl ?_⟩
      rw [hplace]
      exact le_rfl
  | wakeUp worker =>
      obtain ⟨place, hwake, rfl⟩ := Option.map_eq_some_iff.mp hstep
      exact ⟨h.order, h.covered.wake hwake⟩

omit [DecidableEq Worker] in
theorem Inv.attended (h : s.Inv) : s.Attended := by
  intro hjobs worker hwaiting
  obtain ⟨other, hpos⟩ := h.covered.exists_pos (List.length_pos_of_ne_nil hjobs) hwaiting
  obtain hwoken | ⟨activity, -, hcredit⟩ := woken_or_credit_of_weight_pos hpos
  · exact ⟨other, hwoken⟩
  · cases hcredit

/-! ### The workers by themselves take all the jobs -/

omit [DecidableEq Worker] in
theorem Inv.exists_not_waiting [Nonempty Worker] (h : s.Inv) (hjobs : s.jobList ≠ []) :
    ∃ worker, (s.place worker).isWaiting = false := by
  obtain ⟨worker⟩ := ‹Nonempty Worker›
  cases hwaiting : (s.place worker).isWaiting with
  | false => exact ⟨worker, hwaiting⟩
  | true =>
      obtain ⟨other, hother⟩ := h.attended hjobs worker hwaiting
      exact ⟨other, by rw [hother]; rfl⟩

theorem work_serves (h : s.Inv) {jobList : List Job} (hjobs : s.jobList = job :: jobList)
    (hstep : s.step (.work worker) = some (s.work worker)) :
    Machine.Completes step (fun _ label => label.ofWorker)
      (fun last => last.Inv ∧ last.jobList = jobList ∧ last.queued = s.queued) s
      [.work worker] := by
  refine ⟨rfl, s.work worker, hstep, work_inv h worker, ?_⟩
  rw [work_of_cons hjobs]
  exact ⟨rfl, rfl⟩

/-- One of the workers takes the next job, if need be after the one it runs. -/
theorem Inv.serve [Nonempty Worker] (h : s.Inv) {jobList : List Job}
    (hjobs : s.jobList = job :: jobList) :
    ∃ labels, Machine.Completes step (fun _ label => label.ofWorker)
      (fun last => last.Inv ∧ last.jobList = jobList ∧ last.queued = s.queued) s labels := by
  obtain ⟨worker, hplace⟩ := h.exists_not_waiting (by rw [hjobs]; exact List.cons_ne_nil job jobList)
  cases hat : s.place worker with
  | waiting =>
      rw [hat] at hplace
      cases hplace
  | woken => exact ⟨[.work worker], work_serves h hjobs (by simp only [step, hat])⟩
  | outside activity =>
      cases activity with
      | idle => exact ⟨[.work worker], work_serves h hjobs (by simp only [step, hat])⟩
      | running current =>
          have hfinish : s.step (.finish worker) =
              some { s with place := Function.update s.place worker (.outside .idle) } := by
            simp only [step, hat]
          refine ⟨[.finish worker, .work worker], rfl, _, hfinish, ?_⟩
          exact work_serves (step_inv h hfinish) hjobs (by simp only [step, Function.update_self])

theorem Inv.serve_all [Nonempty Worker] (jobList : List Job) (s : WorkerManager Worker Job)
    (h : s.Inv) (hjobs : s.jobList = jobList) :
    ∃ labels, Machine.Completes step (fun _ label => label.ofWorker)
      (fun last => last.jobList = [] ∧ last.taken.map Prod.snd = s.queued) s labels := by
  induction jobList generalizing s with
  | nil =>
      refine ⟨[], hjobs, ?_⟩
      rw [← h.order, hjobs, List.append_nil]
  | cons job jobList ih =>
      obtain ⟨first, hfirst⟩ := h.serve hjobs
      obtain ⟨last, hrun, hinv, hrest, hqueued⟩ := hfirst.run
      obtain ⟨more, hmore⟩ := ih last hinv hrest
      rw [hqueued] at hmore
      exact ⟨first ++ more, hfirst.append_of_run hrun hmore⟩

/-- **No job is lost, repeated or overtaken, and no wake-up is lost.** The jobs taken are the first ones
that were queued; while there are jobs and a worker waits, another one is woken; and from then on the
workers by themselves can take every job that is left. -/
theorem jobs_taken_in_order {labels : List (Label Worker Job)}
    (hrun : Machine.run step new labels = some s) :
    s.taken.map Prod.snd ++ s.jobList = s.queued ∧ s.Attended ∧
      (Nonempty Worker → ∃ more, Machine.Completes step (fun _ label => label.ofWorker)
        (fun last => last.jobList = [] ∧ last.taken.map Prod.snd = s.queued) s more) := by
  have hinv : s.Inv := Machine.run_invariant_of_forall (fun _ _ _ => step_inv) new_inv hrun
  refine ⟨hinv.order, hinv.attended, ?_⟩
  intro hworker
  exact hinv.serve_all s.jobList s rfl

/-- A worker barges in and takes the job another one was woken for. -/
theorem jobs_taken_by_two :
    let labels : List (Label (Fin 2) ℕ) :=
      [.work 0, .queueJob 7 (some 0), .work 1, .work 0, .queueJob 8 (some 0)]
    ∃ s, Machine.run step new labels = some s ∧ s.taken = [(1, 7)] ∧ s.jobList = [8] ∧
      s.taken.map Prod.snd ++ s.jobList = s.queued ∧ s.Attended := by
  intro labels
  have hrun := jobs_taken_in_order (rfl : Machine.run step new labels = some _)
  exact ⟨_, rfl, rfl, rfl, hrun.1, hrun.2.1⟩

end EasyLib.Reactors.WorkerManager
