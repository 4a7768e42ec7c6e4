import EasyLib.Frame.ProcessTree
import EasyLib.Frame.Skel

/-!
# The shape of the process tree

A process that is still in the loop is seen by its next act (`exists_act`), so the tree is flat only if
no worker returns there. The other half of the condition is counting: a flat tree has at most one
process a module (`countP_creates_le`), and a `fork()` that fails costs one of them. At the end the
root of the tree is found to be the process that `Skel.runWorkers` describes.
-/

namespace EasyLib.Frame.Surroundings

open Common

variable {around : Surroundings} {debug : Bool} {process : Path} {index : ℕ} {entry : Str}
  {entries : List Str}

theorem contained_cons :
    around.Contained debug process index (entry :: entries) ↔
      (around.fork process index = true ∧
        around.body debug (process ++ [index]) index entry ≠ .returns) ∧
      around.Contained debug process (index + 1) entries := by
  constructor
  · intro h
    refine ⟨h 0 entry rfl, fun offset other hother => ?_⟩
    have hbehind := h (offset + 1) other hother
    rwa [← Nat.add_assoc, Nat.add_right_comm] at hbehind
  · rintro ⟨hhead, hrest⟩ offset other hother
    cases offset with
    | zero =>
        obtain rfl : entry = other := Option.some.inj hother
        exact hhead
    | succ offset =>
        rw [← Nat.add_assoc, Nat.add_right_comm]
        exact hrest offset other hother

/-! ### One turn of the loop -/

theorem runModules_nil : around.runModules debug process index [] = [.dispatch process] := rfl

theorem runModules_stays (hfork : around.fork process index = true)
    (hbody : around.body debug (process ++ [index]) index entry ≠ .returns) :
    around.runModules debug process index (entry :: entries) =
      .fork process true :: around.runModules debug process (index + 1) entries := by
  simp [runModules, hfork, hbody]

theorem runModules_returns (hfork : around.fork process index = true)
    (hbody : around.body debug (process ++ [index]) index entry = .returns) :
    around.runModules debug process index (entry :: entries) =
      .fork process true :: (around.runModules debug (process ++ [index]) (index + 1) entries ++
        around.runModules debug process (index + 1) entries) := by
  simp [runModules, hfork, hbody]

theorem runModules_failed_stays (hfork : around.fork process index = false)
    (hbody : around.body debug process index entry ≠ .returns) :
    around.runModules debug process index (entry :: entries) = [.fork process false] := by
  simp [runModules, hfork, hbody]

theorem runModules_failed_returns (hfork : around.fork process index = false)
    (hbody : around.body debug process index entry = .returns) :
    around.runModules debug process index (entry :: entries) =
      .fork process false :: around.runModules debug process (index + 1) entries := by
  simp [runModules, hfork, hbody]

/-- A process that is in the loop calls `fork()` or enters the event loop next. -/
theorem exists_act (around : Surroundings) (debug : Bool) (process : Path) (index : ℕ)
    (entries : List Str) :
    ∃ act ∈ around.runModules debug process index entries, act.process = process := by
  cases entries with
  | nil => exact ⟨.dispatch process, List.mem_singleton_self _, rfl⟩
  | cons entry entries =>
      unfold runModules
      split_ifs
      · exact ⟨.fork process true, List.mem_cons_self, rfl⟩
      · exact ⟨.fork process false, List.mem_cons_self, rfl⟩

/-- A worker that returns is seen to go on, so it is none of the processes of a flat tree. -/
theorem body_ne_returns (hfork : around.fork process index = true)
    (hall : ∀ act ∈ around.runModules debug process index (entry :: entries), act.process = process) :
    around.body debug (process ++ [index]) index entry ≠ .returns := by
  intro hbody
  rw [runModules_returns hfork hbody] at hall
  obtain ⟨act, hact, hprocess⟩ := exists_act around debug (process ++ [index]) (index + 1) entries
  have hsame := hall act (List.mem_cons_of_mem _ (List.mem_append_left _ hact))
  rw [hprocess] at hsame
  simp at hsame

theorem countP_creates_le (hall : ∀ act ∈ around.runModules debug process index entries,
    act.process = process) :
    (around.runModules debug process index entries).countP Act.creates ≤ entries.length := by
  induction entries generalizing index with
  | nil => exact Nat.le_refl 0
  | cons entry entries ih =>
      cases hfork : around.fork process index with
      | true =>
          have hbody := body_ne_returns hfork hall
          rw [runModules_stays hfork hbody] at hall ⊢
          rw [List.countP_cons_of_pos rfl]
          apply Nat.succ_le_succ
          exact ih fun act hact => hall act (List.mem_cons_of_mem _ hact)
      | false =>
          by_cases hbody : around.body debug process index entry = .returns
          · rw [runModules_failed_returns hfork hbody] at hall ⊢
            rw [List.countP_cons_of_neg (by simp [Act.creates])]
            apply Nat.le_succ_of_le
            exact ih fun act hact => hall act (List.mem_cons_of_mem _ hact)
          · rw [runModules_failed_stays hfork hbody]
            exact Nat.zero_le _

/-! ### Flat trees -/

theorem flat_runModules_iff (around : Surroundings) (debug : Bool) (process : Path) (index : ℕ)
    (entries : List Str) :
    Flat process entries.length (around.runModules debug process index entries) ↔
      around.Contained debug process index entries := by
  induction entries generalizing index with
  | nil =>
      refine iff_of_true ⟨rfl, fun act hact => ?_⟩ (fun offset entry hentry => ?_)
      · rw [runModules_nil, List.mem_singleton] at hact
        rw [hact, Act.process]
      · cases hentry
  | cons entry entries ih =>
      rw [contained_cons, ← ih]
      constructor
      · rintro ⟨hcount, hall⟩
        cases hfork : around.fork process index with
        | true =>
            have hbody := body_ne_returns hfork hall
            rw [runModules_stays hfork hbody] at hcount hall
            rw [List.countP_cons_of_pos rfl, List.length_cons] at hcount
            refine ⟨⟨rfl, hbody⟩, Nat.succ.inj hcount, fun act hact => ?_⟩
            exact hall act (List.mem_cons_of_mem _ hact)
        | false =>
            -- The master has made one process too few, and cannot make up for it.
            exfalso
            by_cases hbody : around.body debug process index entry = .returns
            · rw [runModules_failed_returns hfork hbody] at hcount hall
              rw [List.countP_cons_of_neg (by simp [Act.creates]), List.length_cons] at hcount
              have hle := countP_creates_le fun act hact => hall act (List.mem_cons_of_mem _ hact)
              omega
            · rw [runModules_failed_stays hfork hbody] at hcount
              cases hcount
      · rintro ⟨⟨hfork, hbody⟩, hcount, hall⟩
        rw [runModules_stays hfork hbody]
        refine ⟨?_, fun act hact => ?_⟩
        · rw [List.countP_cons_of_pos rfl, hcount, List.length_cons]
        · obtain rfl | hact := List.mem_cons.mp hact
          · rfl
          · exact hall act hact

theorem masterRun_eq_runModules {modulesConf : Str}
    (hcheck : checkModules debug around.check modulesConf = .passed)
    (hmodules : modules modulesConf = some entries) :
    around.masterRun debug modulesConf = around.runModules debug [] 0 entries := by
  unfold masterRun
  rw [hcheck, hmodules]

/-- A `MasterRun` that passes `CheckModules` makes one process a module, and no process but the master
calls `fork()` or enters the event loop, if and only if every `fork()` of the master succeeds and no
worker returns from `WorkerRun`. -/
theorem process_tree_flat_iff (around : Surroundings) (debug : Bool) (modulesConf : Str)
    (entries : List Str) (hmodules : modules modulesConf = some entries)
    (hcheck : checkModules debug around.check modulesConf = .passed) :
    Flat [] entries.length (around.masterRun debug modulesConf) ↔
      around.Contained debug [] 0 entries := by
  rw [masterRun_eq_runModules hcheck hmodules]
  exact flat_runModules_iff around debug [] 0 entries

def twoModules : Str := ['a', ':', 'b', ';', 'c', ':', 'd']

/-- Every library has both functions, every `fork()` succeeds and the modules run for ever. -/
def calm : Surroundings where
  check := fun _ => some { getModule := true, destroyModule := true }
  fork := fun _ _ => true
  loader := fun _ _ _ => some { getModule := true, destroyModule := true }
  run := fun _ _ => .stays

theorem process_tree_flat_two :
    Flat [] 2 (calm.masterRun false twoModules) := by
  refine (process_tree_flat_iff calm false twoModules [['a', ':', 'b'], ['c', ':', 'd']]
    (by decide) (by decide)).mpr ?_
  rw [contained_cons, contained_cons]
  refine ⟨by decide, by decide, fun offset entry hentry => ?_⟩
  cases hentry

/-- `Run()` of the first module returns: its process makes one of its own for the second module and
enters the event loop, and there are three processes for two modules. -/
theorem process_tree_not_flat :
    let around := { calm with run := fun _ index => if index = 0 then .returns else .stays }
    checkModules false around.check twoModules = .passed ∧
      around.masterRun false twoModules =
        [.fork [] true, .fork [0] true, .dispatch [0], .fork [] true, .dispatch []] ∧
      ¬ Flat [] 2 (around.masterRun false twoModules) := by
  refine ⟨by decide, by decide, fun hflat => ?_⟩
  have hcount := hflat.1
  revert hcount
  decide

/-! ### The master of the tree

The acts of `[]` are those of the process in which `Skel.runWorkers` has the same results of `fork()`.
-/

theorem process_of_mem {act : Act} (hact : act ∈ around.runModules debug process index entries) :
    process <+: act.process := by
  induction entries generalizing process index with
  | nil =>
      rw [runModules_nil, List.mem_singleton] at hact
      rw [hact]
      exact List.prefix_rfl
  | cons entry entries ih =>
      unfold runModules at hact
      dsimp only at hact
      split_ifs at hact with hfork hbody hbody
      · obtain rfl | hact := List.mem_cons.mp hact
        · exact List.prefix_rfl
        · obtain hact | hact := List.mem_append.mp hact
          · exact (List.prefix_append process [index]).trans (ih hact)
          · exact ih hact
      · obtain rfl | hact := List.mem_cons.mp hact
        · exact List.prefix_rfl
        · exact ih (List.mem_append.mp hact |>.resolve_left List.not_mem_nil)
      · obtain rfl | hact := List.mem_cons.mp hact
        · exact List.prefix_rfl
        · exact ih hact
      · rw [List.mem_singleton.mp hact]
        exact List.prefix_rfl

theorem process_ne_nil {act : Act} (hact : act ∈ around.runModules debug [index] (index + 1) entries) :
    act.process ≠ [] := by
  intro hnil
  have hprefix := process_of_mem hact
  rw [hnil] at hprefix
  cases List.prefix_nil.mp hprefix

/-- What `fork()` returns to the master, with `pid` for the pids of the workers. -/
def masterForks (around : Surroundings) (debug : Bool) (pid : ℕ → Pid) (index : ℕ) :
    List Str → List Fork
  | [] => []
  | entry :: entries =>
      (if around.fork [] index then .child (pid index)
        else .failed (around.body debug [] index entry)) ::
      around.masterForks debug pid (index + 1) entries

def created (acts : List Act) : ℕ := acts.countP (· = .fork [] true)

theorem created_worker :
    created (around.runModules debug [index] (index + 1) entries) = 0 := by
  refine List.countP_eq_zero.mpr fun act hact heq => ?_
  apply process_ne_nil hact
  rw [of_decide_eq_true heq, Act.process]

theorem dispatch_not_mem_worker :
    .dispatch [] ∉ around.runModules debug [index] (index + 1) entries :=
  fun hact => process_ne_nil hact rfl

theorem created_turn (hfork : around.fork [] index = true) :
    created (around.runModules debug [] index (entry :: entries)) =
      created (around.runModules debug [] (index + 1) entries) + 1 := by
  by_cases hbody : around.body debug [index] index entry = .returns
  · rw [runModules_returns hfork hbody, created, List.countP_cons_of_pos (by simp),
      List.countP_append]
    have hworker : created (around.runModules debug [index] (index + 1) entries) = 0 := created_worker
    unfold created at hworker ⊢
    simp only [List.nil_append, hworker, Nat.zero_add]
  · rw [runModules_stays hfork hbody, created, List.countP_cons_of_pos (by simp)]
    rfl

theorem dispatch_turn (hfork : around.fork [] index = true) :
    .dispatch [] ∈ around.runModules debug [] index (entry :: entries) ↔
      .dispatch [] ∈ around.runModules debug [] (index + 1) entries := by
  by_cases hbody : around.body debug [index] index entry = .returns
  · rw [runModules_returns hfork hbody]
    simp [dispatch_not_mem_worker]
  · rw [runModules_stays hfork hbody]
    simp

theorem runWorkers_of_ne {s : Skel} {forks : List Fork} (hmaster : s.master ≠ .looping) :
    s.runWorkers forks = s := by
  cases forks with
  | nil => rfl
  | cons fork forks => rw [Skel.runWorkers, if_neg hmaster]

/-- The master has one entry in `modules_` for each process that it has made, and it is in its event
loop exactly when the tree says so. -/
theorem runWorkers_masterForks (around : Surroundings) (debug : Bool) (pid : ℕ → Pid) (index : ℕ)
    (entries : List Str) (s : Skel) (hlooping : s.master = .looping) :
    (s.runWorkers (around.masterForks debug pid index entries)).modules.length =
        s.modules.length + created (around.runModules debug [] index entries) ∧
      ((s.runWorkers (around.masterForks debug pid index entries)).master = .looping ↔
        .dispatch [] ∈ around.runModules debug [] index entries) := by
  induction entries generalizing index s with
  | nil => simp [masterForks, Skel.runWorkers, runModules_nil, created, hlooping]
  | cons entry entries ih =>
      rw [masterForks, Skel.runWorkers, if_pos hlooping]
      cases hfork : around.fork [] index with
      | true =>
          obtain ⟨hlength, hmaster⟩ := ih (index + 1) (s.workerRun (.child (pid index))) hlooping
          rw [if_pos rfl, hlength, hmaster, created_turn hfork, dispatch_turn hfork]
          refine ⟨?_, Iff.rfl⟩
          simp only [Skel.workerRun, List.length_append, List.length_singleton]
          omega
      | false =>
          rw [if_neg Bool.false_ne_true]
          cases hbody : around.body debug [] index entry with
          | returns =>
              rw [runModules_failed_returns hfork hbody]
              simpa [created, Skel.workerRun] using ih (index + 1) s hlooping
          | stays =>
              rw [runModules_failed_stays hfork (by simp [hbody]),
                runWorkers_of_ne (by simp [Skel.workerRun])]
              simp [created, Skel.workerRun]
          | undefined =>
              rw [runModules_failed_stays hfork (by simp [hbody]),
                runWorkers_of_ne (by simp [Skel.workerRun])]
              simp [created, Skel.workerRun]

end EasyLib.Frame.Surroundings
