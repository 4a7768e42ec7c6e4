import EasyLib.Reactors.Workers

/-!
# Starting the workers

`StartWork` counts with a `uint8_t` up to a bound that is a `uint32_t`. After `n` iterations the counter
is `n % 256`, so a bound of 256 or more is never reached, and from the 257th iteration on workers are
started again that have been started before.
-/

namespace EasyLib.Reactors.StartWork

open Machine

/-- The loop ends after exactly `worker_num_` iterations, with that many workers, each one started once. -/
def StartsAll (workerNum : BitVec 32) : Prop :=
  ∃ s, run (step workerNum) new (List.replicate workerNum.toNat ()) = some s ∧
    ¬ s.Continues workerNum ∧ s.workers.length = workerNum.toNat ∧
    ∀ worker ∈ s.workers, worker.starts = 1

/-- The loop after `n` iterations. -/
structure After (n : ℕ) (s : StartWork) : Prop where
  counter : s.i.toNat = n % 256
  created : s.workers.length = n
  started : n ≤ 256 → ∀ worker ∈ s.workers, worker.starts = 1

variable {workerNum : BitVec 32} {s : StartWork} {n : ℕ}

theorem continues_iff (h : After n s) : s.Continues workerNum ↔ n % 256 < workerNum.toNat := by
  rw [Continues, BitVec.lt_def, BitVec.toNat_setWidth, h.counter]
  omega

/-- In the first 256 iterations the worker started is the one just made. -/
theorem modify_last (workers : List StartedWorker) (worker : StartedWorker) :
    (workers ++ [worker]).modify workers.length StartedWorker.start = workers ++ [worker.start] := by
  rw [List.modify_eq_take_cons_drop (by simp)]
  simp

theorem step_after (h : After n s) (hcontinues : s.Continues workerNum) :
    ∃ next, step workerNum s () = some next ∧ After (n + 1) next := by
  have hcounter := h.counter
  have hcreated := h.created
  refine ⟨_, if_pos ⟨hcontinues, by simp; omega⟩, ?_, ?_, ?_⟩
  · rw [BitVec.toNat_add, hcounter]
    simp
  · simp [hcreated]
  · intro hle
    have hindex : s.i.toNat = s.workers.length := by omega
    rw [hindex, modify_last]
    rintro worker hworker
    rcases List.mem_append.mp hworker with hold | hnew
    · exact h.started (by omega) worker hold
    · obtain rfl := List.mem_singleton.mp hnew
      rfl

/-- The loop goes on up to its bound, and for ever if the counter cannot reach the bound. -/
theorem run_after (hlong : n ≤ workerNum.toNat ∨ 256 ≤ workerNum.toNat) :
    ∃ s, run (step workerNum) new (List.replicate n ()) = some s ∧ After n s := by
  induction n with
  | zero => exact ⟨new, rfl, rfl, rfl, fun _ worker hworker => absurd hworker List.not_mem_nil⟩
  | succ n ih =>
      obtain ⟨s, hrun, hafter⟩ := ih (by omega)
      have hmod := Nat.mod_lt n (by decide : 256 > 0)
      have hle := Nat.mod_le n 256
      have hcontinues : s.Continues workerNum := (continues_iff hafter).mpr (by omega)
      obtain ⟨next, hnext, hafter'⟩ := step_after hafter hcontinues
      refine ⟨next, ?_, hafter'⟩
      rw [List.replicate_succ', run_append, hrun, Option.bind_some, run_cons, hnext]
      rfl

theorem startsAll_of_lt (hlt : workerNum.toNat < 256) : StartsAll workerNum := by
  obtain ⟨s, hrun, hafter⟩ := run_after (Or.inl (le_refl workerNum.toNat))
  refine ⟨s, hrun, ?_, hafter.created, hafter.started (by omega)⟩
  rw [continues_iff hafter, Nat.mod_eq_of_lt hlt]
  exact lt_irrefl _

theorem continues_of_ge (hge : 256 ≤ workerNum.toNat) (n : ℕ) :
    ∃ s, run (step workerNum) new (List.replicate n ()) = some s ∧ s.Continues workerNum := by
  obtain ⟨s, hrun, hafter⟩ := run_after (n := n) (Or.inr hge)
  have hmod := Nat.mod_lt n (by decide : 256 > 0)
  exact ⟨s, hrun, (continues_iff hafter).mpr (by omega)⟩

theorem not_startsAll_of_ge (hge : 256 ≤ workerNum.toNat) : ¬ StartsAll workerNum := by
  rintro ⟨s, hrun, hdone, -⟩
  obtain ⟨s', hrun', hcontinues⟩ := continues_of_ge hge workerNum.toNat
  obtain rfl := Option.some.inj (hrun.symm.trans hrun')
  exact hdone hcontinues

/-- `StartWork` starts the workers it is asked for exactly if there are fewer than 256 of them, and does
not end otherwise. -/
theorem startsAll_iff_lt (workerNum : BitVec 32) :
    (StartsAll workerNum ↔ workerNum.toNat < 256) ∧
    (256 ≤ workerNum.toNat → ∀ n, ∃ s,
      run (step workerNum) new (List.replicate n ()) = some s ∧ s.Continues workerNum) := by
  refine ⟨⟨fun hall => ?_, startsAll_of_lt⟩, continues_of_ge⟩
  by_contra hge
  exact not_startsAll_of_ge (not_lt.mp hge) hall

/-- 256 workers: none is missing after 256 iterations, and the loop goes on. -/
theorem not_startsAll_256 : ¬ StartsAll 256 := not_startsAll_of_ge (by decide)

end EasyLib.Reactors.StartWork
