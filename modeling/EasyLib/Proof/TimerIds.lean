import EasyLib.Reactors.TimerId

/-!
# Which timers get an id of their own

The value of the counter is the number of increments, whoever made them. A constructor that reads it
when nobody has incremented it since the latest read gets an id that is taken. Any other one gets an id
above all that are taken, until the counter wraps around.
-/

namespace EasyLib.Reactors.TimerIds

open Machine

variable {Thread : Type*} [DecidableEq Thread] {s next : TimerIds Thread} {thread : Thread}

theorem step_increment (hstep : s.step (.increment thread) = some next) :
    next = { s with
      timerId := s.timerId + 1
      constructing := Function.update s.constructing thread true
      increments := s.increments + 1
      renewed := true } := by
  simp only [step] at hstep
  split at hstep
  · cases hstep
  · exact (Option.some.inj hstep).symm

theorem step_get (hstep : s.step (.get thread) = some next) :
    s.constructing thread = true ∧ next = { s with
      constructing := Function.update s.constructing thread false
      ids := s.ids ++ [s.timerId]
      renewed := false } := by
  obtain ⟨hconstructing, hnext⟩ := Option.ite_none_right_eq_some.mp hstep
  exact ⟨hconstructing, (Option.some.inj hnext).symm⟩

/-! ### Ids that are new -/

structure Inv (s : TimerIds Thread) : Prop where
  timerId : s.timerId.toNat = s.increments % 2 ^ 64
  unique : s.Unique
  past : ∀ id ∈ s.ids, id.toNat ≤ s.increments
  renewed : s.renewed = true → ∀ id ∈ s.ids, id.toNat < s.increments

omit [DecidableEq Thread] in
theorem new_inv : Inv (new : TimerIds Thread) where
  timerId := rfl
  unique := List.nodup_nil
  past := fun _ h => absurd h List.not_mem_nil
  renewed := fun _ _ h => absurd h List.not_mem_nil

theorem step_inv (h : s.Inv) (label : Label Thread) (hok : s.Renewed label ∧ s.Few label)
    (hstep : s.step label = some next) : next.Inv := by
  cases label with
  | increment thread =>
      rw [step_increment hstep]
      refine ⟨?_, h.unique, fun id hid => ?_, fun _ id hid => ?_⟩
      · rw [BitVec.toNat_add, h.timerId]
        exact Nat.mod_add_mod _ _ _
      · exact Nat.le_succ_of_le (h.past id hid)
      · exact Nat.lt_succ_of_le (h.past id hid)
  | get thread =>
      obtain ⟨hconstructing, hnext⟩ := step_get hstep
      have hfew : s.increments < 2 ^ 64 := hok.2
      have hvalue : s.timerId.toNat = s.increments :=
        calc s.timerId.toNat = s.increments % 2 ^ 64 := h.timerId
          _ = s.increments := Nat.mod_eq_of_lt hfew
      have hnew : s.timerId ∉ s.ids := by
        intro hid
        have hlt := h.renewed (hok.1 hconstructing) s.timerId hid
        rw [hvalue] at hlt
        exact Nat.lt_irrefl _ hlt
      rw [hnext]
      refine ⟨h.timerId, ?_, fun id hid => ?_, fun hrenewed => Bool.noConfusion hrenewed⟩
      · rw [Unique, ← List.concat_eq_append]
        exact h.unique.concat hnew
      · obtain hid | hid := List.mem_append.mp hid
        · exact h.past id hid
        · rw [List.mem_singleton.mp hid, hvalue]

/-! ### Ids that are taken -/

/-- Without an increment since the latest `get()`, a constructor finds a value that is taken. -/
def Taken (s : TimerIds Thread) : Prop :=
  s.renewed = false → ∀ thread, s.constructing thread = true → s.timerId ∈ s.ids

omit [DecidableEq Thread] in
theorem new_taken : Taken (new : TimerIds Thread) := fun _ _ h => Bool.noConfusion h

theorem step_taken (label : Label Thread) (hstep : s.step label = some next) : next.Taken := by
  cases label with
  | increment thread =>
      rw [step_increment hstep]
      exact fun hrenewed => Bool.noConfusion hrenewed
  | get thread =>
      rw [(step_get hstep).2]
      exact fun _ _ _ => List.mem_append_right _ List.mem_cons_self

theorem not_unique_of_not_renewed (h : s.Taken) (label : Label Thread) (hbad : ¬ s.Renewed label) :
    ∃ next ∈ s.step label, ¬ next.Unique := by
  cases label with
  | increment thread => exact absurd trivial hbad
  | get thread =>
      simp only [Renewed, Classical.not_imp, Bool.not_eq_true] at hbad
      obtain ⟨hconstructing, hrenewed⟩ := hbad
      have hmem := h hrenewed thread hconstructing
      refine ⟨_, if_pos hconstructing, fun hunique => ?_⟩
      exact (List.nodup_append.mp hunique).2.2 s.timerId hmem s.timerId List.mem_cons_self rfl

/-- The ids are unique in every run where each `get()` follows an `increment()` that comes after the
`get()` before it, as long as the counter has not wrapped around. In a run where they are unique, each
`get()` does so. -/
theorem timer_ids_unique (labels : List (Label Thread)) :
    (AllSteps step (fun s label => s.Renewed label ∧ s.Few label) new labels →
      Throughout step Unique new labels) ∧
    (Throughout step Unique new labels → AllSteps step Renewed new labels) := by
  constructor
  · exact throughout_of_allSteps Inv (fun _ h => h.unique)
      (fun _ label _ h hok hstep => step_inv h label hok hstep) labels new new_inv
  · exact allSteps_of_throughout Taken (fun _ label _ _ hstep => step_taken label hstep)
      (fun _ label h hbad => not_unique_of_not_renewed h label hbad) labels new new_taken

theorem timer_ids_unique_of_turns :
    let labels : List (Label Bool) := [.increment false, .get false, .increment true, .get true]
    (∃ last, run step new labels = some last ∧ last.ids = [1, 2]) ∧
      Throughout step Unique new labels := by
  intro labels
  refine ⟨⟨_, rfl, rfl⟩, (timer_ids_unique labels).1 ?_⟩
  simp [labels, AllSteps, step, new, Renewed, Few]

/-- Two constructors that both increment before either of them reads. -/
theorem timer_ids_drawn_twice :
    ∃ last, run step (new : TimerIds Bool) [.increment false, .increment true, .get false, .get true] =
      some last ∧ last.ids = [2, 2] :=
  ⟨_, rfl, rfl⟩

end EasyLib.Reactors.TimerIds
