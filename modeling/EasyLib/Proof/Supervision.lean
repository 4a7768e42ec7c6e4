import Mathlib.Data.List.Nodup
import EasyLib.Frame.Skel

/-!
# Supervising the workers

The handlers are first put into one form: a handler that returns has started workers (`started`), after
it has dropped the old ones (`dropped`) when it was a reload, and reaping is one record update
(`reap_eq`). Three invariants of the runs follow, one for each thing that is asked of the master.

`Clocked` says when a reboot timer is pending. Only a `SIGHUP` that comes while one is can break it.
`Kept` says that the targets of the next `kill` are distinct. The pid of a worker that died by itself is
the only one of them that can be no child any more. `Watched` ties the log to `modules_` and `dropPid_`
when no pid is reused: every worker of `modules_` that was reaped has `status_` at `SUSPENDING`, and
every pid that was killed is in `dropPid_` until it is reaped.
-/

namespace EasyLib.Frame.Skel

open Common

variable {s next : Skel} {pid : Pid} {status : WaitStatus} {label : Label} {forks : List Fork}
  {loader : Loader} {reload : Reload}

/-! ### What the handlers do -/

@[simp]
theorem pids_nil : pids [] = [] := rfl

@[simp]
theorem pids_child (pid : Pid) (forks : List Fork) : pids (.child pid :: forks) = pid :: pids forks :=
  rfl

@[simp]
theorem pids_failed (body : Ending) (forks : List Fork) : pids (.failed body :: forks) = pids forks :=
  rfl

def started (s : Skel) (forks : List Fork) : Skel :=
  { s with
    modules := s.modules ++ pids forks
    alive := s.alive ++ pids forks
    log := s.log ++ (pids forks).map .fork }

theorem runWorkers_eq (hlooping : (s.runWorkers forks).master = .looping) :
    s.runWorkers forks = s.started forks := by
  induction forks generalizing s with
  | nil => simp [runWorkers, started]
  | cons fork forks ih =>
      by_cases hmaster : s.master = .looping
      · rw [runWorkers, if_pos hmaster] at hlooping ⊢
        rw [ih hlooping]
        cases fork with
        | child pid => simp [workerRun, started]
        | failed body =>
            cases body with
            | returns => rfl
            | stays =>
                rw [ih hlooping] at hlooping
                cases hlooping
            | undefined =>
                rw [ih hlooping] at hlooping
                cases hlooping
      · rw [runWorkers, if_neg hmaster] at hlooping
        exact absurd hlooping hmaster

theorem returned_eq_some : s.returned = some next ↔ s.master = .looping ∧ s = next := by
  unfold returned
  rw [Option.ite_none_right_eq_some, Option.some.injEq]

/-- The master goes on after `CheckModules` when that has passed only. -/
theorem passed_of_looping {check : Check} {passed : Skel}
    (hlooping : (match check with
      | .undefined => { s with master := .crashed }
      | .failed => { s with master := .exited }
      | .passed => passed : Skel).master = .looping) : check = .passed := by
  cases check with
  | passed => rfl
  | failed => cases hlooping
  | undefined => cases hlooping

theorem masterRun_eq (hlooping : (s.masterRun loader forks).master = .looping) :
    s.masterRun loader forks = { s with master := .looping }.started forks := by
  unfold masterRun at hlooping ⊢
  have hcheck := passed_of_looping hlooping
  simp only [hcheck] at hlooping ⊢
  exact runWorkers_eq hlooping

theorem master_resume (s : Skel) : s.resume.master = s.master := by
  unfold resume
  split_ifs <;> rfl

theorem restart_eq (hlooping : (s.restart loader forks).master = .looping) :
    s.restart loader forks = { s.started forks with status := .running } := by
  unfold restart at hlooping ⊢
  have hcheck := passed_of_looping hlooping
  simp only [hcheck] at hlooping ⊢
  have hrun : (s.runWorkers forks).master = .looping := (master_resume _).symm.trans hlooping
  rw [resume, if_pos hrun, runWorkers_eq hrun]

/-- What a reload has done before it starts the new workers, its last assignment of `status_` included. -/
def dropped (s : Skel) (modulesConf : Str) : Skel :=
  { s with
    modulesConf
    status := .running
    dropPid := s.dropPid ++ s.modules
    modules := []
    log := s.log ++ s.modules.map fun pid => .kill pid (pid ∈ s.children) }

theorem reloadHandle_eq (hlooping : (s.reloadHandle reload).master = .looping) :
    ∃ modulesConf, s.reloadHandle reload = (s.dropped modulesConf).started reload.forks := by
  unfold reloadHandle at hlooping ⊢
  cases hconf : reload.modulesConf with
  | none =>
      rw [hconf] at hlooping
      cases hlooping
  | some modulesConf =>
      rw [hconf] at hlooping
      refine ⟨modulesConf, ?_⟩
      dsimp only at hlooping ⊢
      rw [restart_eq hlooping]
      rfl

theorem step_masterRun (hstep : s.step (.masterRun loader forks) = some next) :
    s.master = .starting ∧ (s.children ++ pids forks).Nodup ∧
      next = { s with master := .looping }.started forks := by
  obtain ⟨⟨hstarting, -, hnodup⟩, hreturned⟩ := Option.ite_none_right_eq_some.mp hstep
  obtain ⟨hlooping, hnext⟩ := returned_eq_some.mp hreturned
  rw [← hnext]
  exact ⟨hstarting, hnodup, masterRun_eq hlooping⟩

theorem step_sighup (hstep : s.step (.sighup reload) = some next) :
    s.master = .looping ∧ (s.children ++ pids reload.forks).Nodup ∧
      ∃ modulesConf, next = (s.dropped modulesConf).started reload.forks := by
  obtain ⟨⟨hmaster, -, hnodup⟩, hreturned⟩ := Option.ite_none_right_eq_some.mp hstep
  obtain ⟨hlooping, hnext⟩ := returned_eq_some.mp hreturned
  rw [← hnext]
  exact ⟨hmaster, hnodup, reloadHandle_eq hlooping⟩

theorem step_timer (hstep : s.step (.timer reload) = some next) :
    s.master = .looping ∧ 0 < s.timers ∧ (s.children ++ pids reload.forks).Nodup ∧
      ∃ modulesConf,
        next = ({ s with timers := s.timers - 1 }.dropped modulesConf).started reload.forks := by
  obtain ⟨⟨hmaster, htimers, -, hnodup⟩, hreturned⟩ := Option.ite_none_right_eq_some.mp hstep
  obtain ⟨hlooping, hnext⟩ := returned_eq_some.mp hreturned
  rw [← hnext]
  exact ⟨hmaster, htimers, hnodup, reloadHandle_eq hlooping⟩

/-- `WaitChildren` sets a timer when it reaps `pid`. -/
def Reboots (s : Skel) (pid : Pid) : Prop :=
  pid ∉ s.dropPid ∧ s.autoReboot ≠ 0 ∧ s.status ≠ .suspending

instance (s : Skel) (pid : Pid) : Decidable (s.Reboots pid) := inferInstanceAs (Decidable (_ ∧ _ ∧ _))

theorem reap_eq (s : Skel) (pid : Pid) (status : WaitStatus) :
    s.reap pid status =
      { s.reaped pid status with
        dropPid := s.dropPid.erase pid
        timers := if s.Reboots pid then s.timers + 1 else s.timers
        status := if s.Reboots pid then .suspending else s.status
        log := (s.reaped pid status).log ++ if s.Reboots pid then [.setTimer pid] else [] } := by
  by_cases hdrop : pid ∈ s.dropPid
  · have hnot : ¬ s.Reboots pid := fun h => h.1 hdrop
    simp [reap, reaped, hdrop, hnot]
  · have hset : s.Reboots pid ↔ s.autoReboot ≠ 0 ∧ s.status ≠ .suspending := and_iff_right hdrop
    simp only [reap, reaped, if_neg hdrop, List.erase_of_not_mem hdrop]
    by_cases hreboots : s.Reboots pid
    · simp only [if_pos hreboots]
      exact if_pos (hset.mp hreboots)
    · simp only [if_neg hreboots, List.append_nil]
      exact if_neg (mt hset.mpr hreboots)

theorem zombies_reap (s : Skel) (pid : Pid) (status : WaitStatus) :
    (s.reap pid status).zombies = s.zombies.erase pid := by
  rw [reap_eq]
  rfl

theorem children_reap (hnodup : s.children.Nodup) (hmem : pid ∈ s.zombies) (status : WaitStatus) :
    (s.reap pid status).children = s.children.erase pid := by
  have hnot : pid ∉ s.alive := fun halive => hnodup.disjoint halive hmem
  rw [reap_eq, children, children, List.erase_append_right _ hnot]
  rfl

theorem mem_log_reap {event : Event} :
    event ∈ (s.reap pid status).log ↔ event ∈ s.log ∨ event = .reap pid ∨
      (needKill status ∧ event = .killGroup pid) ∨ (s.Reboots pid ∧ event = .setTimer pid) := by
  simp only [reap_eq, reaped, List.mem_append, List.mem_cons]
  split_ifs <;> simp_all [or_assoc]

/-- The induction over the loop of `WaitChildren`: `waitpid` reports the dead children one by one. -/
theorem waitChildren_induction {P : Skel → Prop}
    (hreap : ∀ s pid status, pid ∈ s.zombies → P s → P (s.reap pid status))
    {reports : List (Pid × WaitStatus)} (hperm : (reports.map Prod.fst).Perm s.zombies) (h : P s) :
    P (s.waitChildren reports) := by
  induction reports generalizing s with
  | nil => exact h
  | cons report reports ih =>
      obtain ⟨hmem, hrest⟩ := List.cons_perm_iff_perm_erase.mp hperm
      apply ih
      · rw [zombies_reap]
        exact hrest
      · exact hreap s report.1 report.2 hmem h

/-! ### A run with one module -/

def soleModule : Str := ['a', ':', 'b']

def soleLoader : Loader := fun _ => some { getModule := true, destroyModule := true }

def soleReload (pid : Pid) : Reload where
  file := some (['m', 'o', 'd', 'u', 'l', 'e', 's', '='] ++ soleModule ++ ['\n'])
  loader := soleLoader
  forks := [.child pid]

/-! ### The reboot timer -/

structure Clocked (s : Skel) : Prop where
  autoReboot : s.autoReboot ≠ 0
  timed : s.Timed

theorem reap_clocked (h : Clocked s) : Clocked (s.reap pid status) := by
  obtain ⟨hreboot, hle, htimers⟩ := h
  rw [reap_eq]
  refine ⟨hreboot, ?_⟩
  by_cases hset : s.Reboots pid
  · have hzero : ¬ 0 < s.timers := fun hpos => hset.2.2 (htimers.mp hpos)
    simp only [Timed, if_pos hset, iff_true]
    omega
  · simp only [Timed, if_neg hset]
    exact ⟨hle, htimers⟩

theorem step_clocked (h : Clocked s) (hsettled : s.Settled label)
    (hstep : s.step label = some next) : Clocked next := by
  obtain ⟨hreboot, hle, htimers⟩ := h
  cases label with
  | masterRun loader forks =>
      obtain ⟨-, -, rfl⟩ := step_masterRun hstep
      exact ⟨hreboot, hle, htimers⟩
  | die pid =>
      obtain ⟨-, hnext⟩ := Option.ite_none_right_eq_some.mp hstep
      rw [← Option.some.inj hnext]
      exact ⟨hreboot, hle, htimers⟩
  | sigchld reports =>
      obtain ⟨⟨-, hperm⟩, hnext⟩ := Option.ite_none_right_eq_some.mp hstep
      rw [← Option.some.inj hnext]
      exact waitChildren_induction (fun _ _ _ _ h => reap_clocked h) hperm ⟨hreboot, hle, htimers⟩
  | sighup reload =>
      obtain ⟨-, -, modulesConf, rfl⟩ := step_sighup hstep
      have hzero : ¬ 0 < s.timers := fun hpos => hsettled (htimers.mp hpos)
      exact ⟨hreboot, hle, iff_of_false hzero (fun hstatus => by cases hstatus)⟩
  | timer reload =>
      obtain ⟨-, -, -, modulesConf, rfl⟩ := step_timer hstep
      have hzero : ¬ 0 < s.timers - 1 := by omega
      exact ⟨hreboot, Nat.le_of_lt_succ (by simp only [started, dropped]; omega),
        iff_of_false hzero (fun hstatus => by cases hstatus)⟩
  | sigterm => cases hstep

/-- A reload by `SIGHUP` leaves the timer of the failure pending that it has repaired. -/
theorem step_not_timed (h : Clocked s) (hsettled : ¬ s.Settled label)
    (hstep : s.step label = some next) : ¬ next.Timed := by
  cases label with
  | sighup reload =>
      obtain ⟨-, -, modulesConf, rfl⟩ := step_sighup hstep
      have hpending : 0 < s.timers := h.timed.2.mpr (not_not.mp hsettled)
      intro htimed
      cases htimed.2.mp hpending
  | _ => exact absurd trivial hsettled

/-- In every run the timer is pending exactly while `status_` is `SUSPENDING` if and only if no `SIGHUP`
is handled while it is. -/
theorem reboot_timed_iff (debug : Bool) (autoReboot : Int) (modulesConf : Str)
    (hreboot : autoReboot ≠ 0) (labels : List Label)
    (henabled : Machine.AllSteps step (Machine.Enabled step) (new debug autoReboot modulesConf) labels) :
    Machine.Safe step Timed (new debug autoReboot modulesConf) labels ↔
      Machine.AllSteps step Settled (new debug autoReboot modulesConf) labels := by
  have hstart : Clocked (new debug autoReboot modulesConf) := by
    refine ⟨hreboot, Nat.zero_le 1, iff_of_false (Nat.lt_irrefl 0) (fun hstatus => ?_)⟩
    cases hstatus
  apply Machine.safe_iff_allSteps_of_enabled Clocked (fun _ h => h.timed) (fun _ _ h => h) _ _ labels _
    hstart henabled
  · intro s label next h _ hsettled hstep
    exact step_clocked h hsettled hstep
  · intro s label next h hsettled hstep
    exact step_not_timed h hsettled hstep

/-- A worker fails and the reload by the timer repairs it. -/
theorem reboot_timed_one :
    Machine.Safe step Timed (new false 1 soleModule)
      [.masterRun soleLoader [.child 1], .die 1, .sigchld [(1, .exited 1)], .timer (soleReload 2)] :=
  (reboot_timed_iff _ _ _ (by decide) _ (by decide +kernel)).mpr (by decide +kernel)

/-- `SIGHUP` comes between the failure and the timer: the timer is pending for a repaired failure. -/
theorem reboot_not_timed :
    ∃ s, Machine.run step (new false 1 soleModule)
        [.masterRun soleLoader [.child 1], .die 1, .sigchld [(1, .exited 1)], .sighup (soleReload 2)] =
          some s ∧
      s.timers = 1 ∧ s.status = .running ∧ ¬ s.Timed :=
  ⟨_, rfl, rfl, rfl, by decide +kernel⟩

/-! ### Whom the master signals -/

structure Kept (s : Skel) : Prop where
  own : s.OwnOnly
  starting : s.master = .starting → s.modules = []
  children : s.children.Nodup
  targets : (s.dropPid ++ s.modules).Nodup

theorem mem_children_started : pid ∈ (s.started forks).children ↔ pid ∈ s.children ∨ pid ∈ pids forks := by
  simp only [started, children, List.mem_append]
  tauto

theorem nodup_children_started (h : (s.children ++ pids forks).Nodup) :
    (s.started forks).children.Nodup := by
  have hperm : (s.started forks).children.Perm (s.children ++ pids forks) := by
    simp only [started, children, List.append_assoc]
    exact List.perm_append_comm.append_left s.alive
  exact hperm.nodup_iff.mpr h

theorem mem_children_reap (hnodup : s.children.Nodup) (hmem : pid ∈ s.zombies) {other : Pid} :
    other ∈ (s.reap pid status).children ↔ other ≠ pid ∧ other ∈ s.children := by
  rw [children_reap hnodup hmem]
  exact hnodup.mem_erase_iff

theorem reap_kept (h : Kept s) (hmem : pid ∈ s.zombies) : Kept (s.reap pid status) := by
  obtain ⟨⟨hkill, hdrop⟩, hstarting, hchildren, htargets⟩ := h
  have hnodup : s.dropPid.Nodup := htargets.of_append_left
  refine ⟨⟨?_, ?_⟩, ?_, ?_, ?_⟩
  · intro event hevent
    obtain hevent | rfl | ⟨-, rfl⟩ | ⟨-, rfl⟩ := mem_log_reap.mp hevent
    · exact hkill event hevent
    all_goals trivial
  · intro other hother
    rw [reap_eq] at hother
    obtain ⟨hne, hother⟩ := hnodup.mem_erase_iff.mp hother
    exact (mem_children_reap hchildren hmem).mpr ⟨hne, hdrop other hother⟩
  · rw [reap_eq]
    exact hstarting
  · rw [children_reap hchildren hmem]
    exact hchildren.erase pid
  · rw [reap_eq]
    exact htargets.sublist (List.erase_sublist.append_right _)

theorem dropped_kept (h : Kept s) (hmaster : s.master = .looping)
    (hunreaped : ∀ pid ∈ s.modules, pid ∈ s.children) (modulesConf : Str) :
    Kept (s.dropped modulesConf) := by
  obtain ⟨⟨hkill, hdrop⟩, hstarting, hchildren, htargets⟩ := h
  refine ⟨⟨?_, ?_⟩, ?_, hchildren, ?_⟩
  · intro event hevent
    simp only [dropped, List.mem_append, List.mem_map] at hevent
    obtain hevent | ⟨target, htarget, rfl⟩ := hevent
    · exact hkill event hevent
    · exact decide_eq_true (hunreaped target htarget)
  · intro pid hpid
    exact (List.mem_append.mp hpid).elim (hdrop pid) (hunreaped pid)
  · intro hstarting
    cases hmaster.symm.trans hstarting
  · simpa only [dropped, List.append_nil] using htargets

theorem started_kept (h : Kept s) (hmaster : s.master = .looping) (hmodules : s.modules = [])
    (hnodup : (s.children ++ pids forks).Nodup) : Kept (s.started forks) := by
  obtain ⟨⟨hkill, hdrop⟩, hstarting, hchildren, htargets⟩ := h
  refine ⟨⟨?_, ?_⟩, ?_, ?_, ?_⟩
  · intro event hevent
    simp only [started, List.mem_append, List.mem_map] at hevent
    obtain hevent | ⟨child, -, rfl⟩ := hevent
    · exact hkill event hevent
    · trivial
  · intro pid hpid
    exact mem_children_started.mpr (.inl (hdrop pid hpid))
  · intro hstarting
    cases hmaster.symm.trans hstarting
  · exact nodup_children_started hnodup
  · simp only [started, hmodules, List.nil_append]
    apply htargets.of_append_left.append hnodup.of_append_right
    intro pid hpid hnew
    exact hnodup.disjoint (hdrop pid hpid) hnew

theorem perm_children_die (halive : pid ∈ s.alive) :
    (s.alive.erase pid ++ (s.zombies ++ [pid])).Perm s.children := by
  rw [← List.append_assoc]
  refine (List.perm_append_singleton pid _).trans ?_
  exact (List.perm_cons_erase halive).symm.append_right s.zombies

theorem die_kept (h : Kept s) (halive : pid ∈ s.alive) :
    Kept { s with alive := s.alive.erase pid, zombies := s.zombies ++ [pid] } := by
  have hperm := perm_children_die halive
  refine ⟨⟨h.own.1, fun other hother => ?_⟩, h.starting, hperm.nodup_iff.mpr h.children, h.targets⟩
  exact hperm.mem_iff.mpr (h.own.2 other hother)

theorem step_kept (h : Kept s) (hunreaped : s.Unreaped label) (hstep : s.step label = some next) :
    Kept next := by
  cases label with
  | masterRun loader forks =>
      obtain ⟨hstarting, hnodup, rfl⟩ := step_masterRun hstep
      have h' : Kept { s with master := .looping } :=
        ⟨h.own, fun _ => h.starting hstarting, h.children, h.targets⟩
      exact started_kept h' rfl (h.starting hstarting) hnodup
  | die pid =>
      obtain ⟨halive, hnext⟩ := Option.ite_none_right_eq_some.mp hstep
      rw [← Option.some.inj hnext]
      exact die_kept h halive
  | sigchld reports =>
      obtain ⟨⟨-, hperm⟩, hnext⟩ := Option.ite_none_right_eq_some.mp hstep
      rw [← Option.some.inj hnext]
      exact waitChildren_induction (fun _ _ _ hmem h => reap_kept h hmem) hperm h
  | sighup reload =>
      obtain ⟨hmaster, hnodup, modulesConf, rfl⟩ := step_sighup hstep
      exact started_kept (dropped_kept h hmaster hunreaped modulesConf) hmaster rfl hnodup
  | timer reload =>
      obtain ⟨hmaster, -, hnodup, modulesConf, rfl⟩ := step_timer hstep
      have h' : Kept { s with timers := s.timers - 1 } := ⟨h.own, h.starting, h.children, h.targets⟩
      exact started_kept (dropped_kept h' hmaster hunreaped modulesConf) hmaster rfl hnodup
  | sigterm => cases hstep

theorem dropped_not_own (modulesConf : Str) (hmem : pid ∈ s.modules) (hreaped : pid ∉ s.children) :
    ¬ ((s.dropped modulesConf).started forks).OwnOnly := by
  rintro ⟨haimed, -⟩
  have hkilled : .kill pid (pid ∈ s.children) ∈ ((s.dropped modulesConf).started forks).log := by
    refine List.mem_append_left _ (List.mem_append_right _ ?_)
    exact List.mem_map.mpr ⟨pid, hmem, rfl⟩
  exact hreaped (of_decide_eq_true (haimed _ hkilled))

/-- A worker that was reaped stays in `modules_` until the reload that kills it. -/
theorem step_not_own (hunreaped : ¬ s.Unreaped label) (hstep : s.step label = some next) :
    ¬ next.OwnOnly := by
  cases label with
  | sighup reload =>
      obtain ⟨-, -, modulesConf, rfl⟩ := step_sighup hstep
      obtain ⟨pid, hmem, hreaped⟩ : ∃ pid ∈ s.modules, pid ∉ s.children := by
        simpa [Unreaped] using hunreaped
      exact dropped_not_own modulesConf hmem hreaped
  | timer reload =>
      obtain ⟨-, -, -, modulesConf, rfl⟩ := step_timer hstep
      obtain ⟨pid, hmem, hreaped⟩ : ∃ pid ∈ s.modules, pid ∉ s.children := by
        simpa [Unreaped] using hunreaped
      exact dropped_not_own modulesConf hmem hreaped
  | _ => exact absurd trivial hunreaped

/-- In every run the master signals its own unreaped children only, and keeps no other pid in
`dropPid_`, if and only if no reload finds a reaped worker in `modules_`. -/
theorem signals_own_iff (debug : Bool) (autoReboot : Int) (modulesConf : Str) (labels : List Label)
    (henabled : Machine.AllSteps step (Machine.Enabled step) (new debug autoReboot modulesConf) labels) :
    Machine.Safe step OwnOnly (new debug autoReboot modulesConf) labels ↔
      Machine.AllSteps step Unreaped (new debug autoReboot modulesConf) labels := by
  have hstart : Kept (new debug autoReboot modulesConf) := by
    refine ⟨⟨fun event hevent => ?_, fun pid hpid => ?_⟩, fun _ => rfl, List.nodup_nil, List.nodup_nil⟩
    · cases hevent
    · cases hpid
  apply Machine.safe_iff_allSteps_of_enabled Kept (fun _ h => h.own) (fun _ _ h => h) _ _ labels _
    hstart henabled
  · intro s label next h _ hunreaped hstep
    exact step_kept h hunreaped hstep
  · intro s label next _ hunreaped hstep
    exact step_not_own hunreaped hstep

/-- The worker is alive when `SIGHUP` comes, and is reaped after it was killed. -/
theorem signals_own_one :
    Machine.Safe step OwnOnly (new false 1 soleModule)
      [.masterRun soleLoader [.child 1], .sighup (soleReload 2), .die 1, .sigchld [(1, .signaled 9)]] :=
  (signals_own_iff _ _ _ _ (by decide +kernel)).mpr (by decide +kernel)

/-- A worker dies by itself and is reaped: the reload kills its pid all the same, and leaves it in
`dropPid_`. -/
theorem signals_not_own :
    ∃ s, Machine.run step (new false 1 soleModule)
        [.masterRun soleLoader [.child 1], .die 1, .sigchld [(1, .exited 1)], .timer (soleReload 2)] =
          some s ∧
      .kill 1 false ∈ s.log ∧ s.dropPid = [1] ∧ s.children = [2] ∧ ¬ s.OwnOnly :=
  ⟨_, rfl, by decide +kernel, rfl, rfl, by decide +kernel⟩

/-! ### Failures and reboots -/

/-- The fields are what the handlers keep, for a kernel that reuses no pid. -/
structure Watched (s : Skel) : Prop where
  autoReboot : s.autoReboot ≠ 0
  pending : s.status = .suspending → 0 < s.timers
  failed : ∀ pid ∈ s.modules, .reap pid ∈ s.log → s.status = .suspending
  apart : ∀ pid ∈ s.modules, pid ∉ s.dropPid
  killed : ∀ pid own, .kill pid own ∈ s.log → pid ∈ s.dropPid ∨ .reap pid ∈ s.log
  children : s.children.Nodup
  unreaped : ∀ pid ∈ s.children, .reap pid ∉ s.log
  forked : ∀ pid, pid ∈ s.modules ++ s.dropPid ++ s.children ∨ .reap pid ∈ s.log → .fork pid ∈ s.log
  blameless : s.log.Pairwise fun earlier later => ¬ Blamed earlier later

theorem blameless_append {log events : List Event}
    (h : log.Pairwise fun earlier later => ¬ Blamed earlier later)
    (hevents : ∀ event ∈ events, ∀ pid, event ≠ .setTimer pid) :
    (log ++ events).Pairwise fun earlier later => ¬ Blamed earlier later := by
  have hnot : ∀ earlier, ∀ later ∈ events, ¬ Blamed earlier later := by
    intro earlier later hlater
    cases later with
    | setTimer pid => exact absurd rfl (hevents _ hlater pid)
    | _ => cases earlier <;> exact id
  refine List.pairwise_append.mpr ⟨h, ?_, fun earlier _ later hlater => hnot earlier later hlater⟩
  exact List.pairwise_of_forall_mem_list fun earlier _ later hlater => hnot earlier later hlater

theorem status_reap (hdrop : pid ∉ s.dropPid) (hreboot : s.autoReboot ≠ 0) :
    (s.reap pid status).status = .suspending := by
  rw [reap_eq]
  by_cases hsuspending : s.status = .suspending
  · simp [hsuspending]
  · simp [Reboots, hdrop, hreboot, hsuspending]

theorem suspending_reap (h : s.status = .suspending) : (s.reap pid status).status = .suspending := by
  simp [reap_eq, h]

theorem pending_reap (h : s.status = .suspending → 0 < s.timers) :
    (s.reap pid status).status = .suspending → 0 < (s.reap pid status).timers := by
  rw [reap_eq]
  by_cases hset : s.Reboots pid
  · simp [hset]
  · simpa [hset] using h

theorem blameless_reap (h : Watched s) (hmem : pid ∈ s.zombies) :
    (s.reap pid status).log.Pairwise fun earlier later => ¬ Blamed earlier later := by
  have hreaped : (s.reaped pid status).log.Pairwise fun earlier later => ¬ Blamed earlier later := by
    apply blameless_append h.blameless
    intro event hevent other heq
    subst heq
    split_ifs at hevent <;> simp at hevent
  rw [reap_eq]
  by_cases hset : s.Reboots pid
  · -- A worker that was killed is in `dropPid_` until it is reaped, and this one is not in there.
    have hkill : ∀ own, .kill pid own ∉ s.log := by
      intro own hown
      obtain hdrop | hreap := h.killed pid own hown
      · exact hset.1 hdrop
      · exact h.unreaped pid (List.mem_append_right _ hmem) hreap
    simp only [if_pos hset]
    refine List.pairwise_append.mpr ⟨hreaped, List.pairwise_singleton _ _, ?_⟩
    intro earlier hearlier later hlater hblamed
    rw [List.mem_singleton.mp hlater] at hblamed
    cases earlier with
    | kill other own =>
        rw [hblamed] at hearlier
        apply hkill own
        simpa [reaped] using hearlier
    | _ => exact hblamed
  · simpa only [if_neg hset, List.append_nil] using hreaped

theorem reap_watched (h : Watched s) (hmem : pid ∈ s.zombies) : Watched (s.reap pid status) := by
  have hmodules : (s.reap pid status).modules = s.modules := by
    rw [reap_eq]
    rfl
  have hdropPid : (s.reap pid status).dropPid = s.dropPid.erase pid := by rw [reap_eq]
  have hreaps : ∀ other, .reap other ∈ (s.reap pid status).log ↔ .reap other ∈ s.log ∨ other = pid := by
    simp [mem_log_reap]
  have hforks : ∀ other, .fork other ∈ (s.reap pid status).log ↔ .fork other ∈ s.log := by
    simp [mem_log_reap]
  have hchildren : ∀ other, other ∈ (s.reap pid status).children ↔ other ≠ pid ∧ other ∈ s.children :=
    fun _ => mem_children_reap h.children hmem
  refine ⟨?_, pending_reap h.pending, ?_, ?_, ?_, ?_, ?_, ?_, blameless_reap h hmem⟩
  · rw [reap_eq]
    exact h.autoReboot
  · intro other hother hreap
    rw [hmodules] at hother
    obtain hreap | rfl := (hreaps other).mp hreap
    · exact suspending_reap (h.failed other hother hreap)
    · exact status_reap (h.apart other hother) h.autoReboot
  · intro other hother
    rw [hmodules] at hother
    rw [hdropPid]
    exact fun hdrop => h.apart other hother (List.mem_of_mem_erase hdrop)
  · intro other own hkill
    rw [hdropPid, hreaps]
    by_cases heq : other = pid
    · exact .inr (.inr heq)
    · have hkill' : .kill other own ∈ s.log := by simpa [mem_log_reap] using hkill
      exact (h.killed other own hkill').imp (List.mem_erase_of_ne heq).mpr .inl
  · rw [children_reap h.children hmem]
    exact h.children.erase pid
  · intro other hother
    rw [hreaps]
    obtain ⟨hne, hother⟩ := (hchildren other).mp hother
    exact not_or.mpr ⟨h.unreaped other hother, hne⟩
  · intro other hother
    rw [hforks]
    apply h.forked other
    simp only [List.mem_append, hmodules, hdropPid, hchildren, hreaps] at hother ⊢
    obtain ((hother | hother) | hother) | hother | rfl := hother
    · exact .inl (.inl (.inl hother))
    · exact .inl (.inl (.inr (List.mem_of_mem_erase hother)))
    · exact .inl (.inr hother.2)
    · exact .inr hother
    · exact .inl (.inr (List.mem_append_right _ hmem))

theorem fork_mem_dropped (modulesConf : Str) :
    .fork pid ∈ (s.dropped modulesConf).log ↔ .fork pid ∈ s.log := by
  simp [dropped]

theorem dropped_watched (h : Watched s) (modulesConf : Str) : Watched (s.dropped modulesConf) := by
  have hreaps : ∀ pid, .reap pid ∈ (s.dropped modulesConf).log ↔ .reap pid ∈ s.log := by
    simp [dropped]
  have hkills : ∀ pid own, .kill pid own ∈ (s.dropped modulesConf).log →
      .kill pid own ∈ s.log ∨ pid ∈ s.modules := by
    intro pid own hkill
    simp only [dropped, List.mem_append, List.mem_map] at hkill
    obtain hkill | ⟨target, htarget, heq⟩ := hkill
    · exact .inl hkill
    · obtain ⟨rfl, -⟩ := Event.kill.inj heq
      exact .inr htarget
  refine ⟨h.autoReboot, ?_, ?_, ?_, ?_, h.children, ?_, ?_, ?_⟩
  · intro hstatus
    cases hstatus
  · intro pid hpid
    cases hpid
  · intro pid hpid
    cases hpid
  · intro pid own hkill
    rw [hreaps]
    obtain hkill | hpid := hkills pid own hkill
    · exact (h.killed pid own hkill).imp_left (List.mem_append_left _)
    · exact .inl (List.mem_append_right _ hpid)
  · intro pid hpid
    rw [hreaps]
    exact h.unreaped pid hpid
  · intro pid hpid
    refine List.mem_append_left _ (h.forked pid ?_)
    rw [hreaps] at hpid
    refine hpid.imp_left fun hpid => ?_
    simp only [dropped, List.nil_append, List.mem_append] at hpid ⊢
    exact hpid.imp_left Or.symm
  · apply blameless_append h.blameless
    intro event hevent pid heq
    subst heq
    simp at hevent

theorem started_watched (h : Watched s) (hnodup : (s.children ++ pids forks).Nodup)
    (hfresh : ∀ pid ∈ pids forks, .fork pid ∉ s.log) : Watched (s.started forks) := by
  have hreaps : ∀ pid, .reap pid ∈ (s.started forks).log ↔ .reap pid ∈ s.log := by
    simp [started]
  have hkills : ∀ pid own, .kill pid own ∈ (s.started forks).log ↔ .kill pid own ∈ s.log := by
    simp [started]
  have hforks : ∀ pid, .fork pid ∈ (s.started forks).log ↔ .fork pid ∈ s.log ∨ pid ∈ pids forks := by
    simp [started]
  -- No worker that was there, or has been reaped, has the pid of a new one.
  have hnew : ∀ pid ∈ pids forks, ¬ (pid ∈ s.modules ++ s.dropPid ++ s.children ∨ .reap pid ∈ s.log) :=
    fun pid hpid hold => hfresh pid hpid (h.forked pid hold)
  refine ⟨h.autoReboot, h.pending, ?_, ?_, ?_, nodup_children_started hnodup, ?_, ?_, ?_⟩
  · intro pid hpid hreap
    rw [hreaps] at hreap
    obtain hpid | hpid := List.mem_append.mp hpid
    · exact h.failed pid hpid hreap
    · exact absurd (.inr hreap) (hnew pid hpid)
  · intro pid hpid hdrop
    obtain hpid | hpid := List.mem_append.mp hpid
    · exact h.apart pid hpid hdrop
    · exact hnew pid hpid (.inl (List.mem_append_left _ (List.mem_append_right _ hdrop)))
  · intro pid own hkill
    rw [hreaps]
    exact h.killed pid own ((hkills pid own).mp hkill)
  · intro pid hpid
    rw [hreaps]
    obtain hpid | hpid := mem_children_started.mp hpid
    · exact h.unreaped pid hpid
    · exact fun hreap => hnew pid hpid (.inr hreap)
  · intro pid hpid
    rw [hforks]
    by_cases hmem : pid ∈ pids forks
    · exact .inr hmem
    · refine .inl (h.forked pid ?_)
      rw [hreaps] at hpid
      refine hpid.imp_left fun hpid => ?_
      simp only [List.mem_append, mem_children_started] at hpid ⊢
      simpa [started, hmem] using hpid
  · apply blameless_append h.blameless
    intro event hevent pid heq
    subst heq
    simp at hevent

theorem die_watched (h : Watched s) (halive : pid ∈ s.alive) :
    Watched { s with alive := s.alive.erase pid, zombies := s.zombies ++ [pid] } := by
  have hperm := perm_children_die halive
  have hmem : ∀ other, other ∈ s.alive.erase pid ++ (s.zombies ++ [pid]) ↔ other ∈ s.children :=
    fun _ => hperm.mem_iff
  refine { h with
    children := hperm.nodup_iff.mpr h.children
    unreaped := fun other hother => h.unreaped other ((hmem other).mp hother)
    forked := fun other hother => h.forked other (hother.imp_left fun hother => ?_) }
  obtain hother | hother := List.mem_append.mp hother
  · exact List.mem_append_left _ hother
  · exact List.mem_append_right _ ((hmem other).mp hother)

theorem step_watched (h : Watched s) (hfresh : s.NoReuse label) (hstep : s.step label = some next) :
    Watched next := by
  cases label with
  | masterRun loader forks =>
      obtain ⟨-, hnodup, rfl⟩ := step_masterRun hstep
      have h' : Watched { s with master := .looping } := { h with }
      exact started_watched h' hnodup hfresh
  | die pid =>
      obtain ⟨halive, hnext⟩ := Option.ite_none_right_eq_some.mp hstep
      rw [← Option.some.inj hnext]
      exact die_watched h halive
  | sigchld reports =>
      obtain ⟨⟨-, hperm⟩, hnext⟩ := Option.ite_none_right_eq_some.mp hstep
      rw [← Option.some.inj hnext]
      exact waitChildren_induction (fun _ _ _ hmem h => reap_watched h hmem) hperm h
  | sighup reload =>
      obtain ⟨-, hnodup, modulesConf, rfl⟩ := step_sighup hstep
      apply started_watched (dropped_watched h modulesConf) hnodup
      exact fun pid hpid hfork => hfresh pid hpid ((fork_mem_dropped modulesConf).mp hfork)
  | timer reload =>
      obtain ⟨-, -, hnodup, modulesConf, rfl⟩ := step_timer hstep
      -- The timer is not pending any more, but `status_` is not `SUSPENDING` either.
      have h' : Watched ({ s with timers := s.timers - 1 }.dropped modulesConf) :=
        { dropped_watched h modulesConf with pending := fun hstatus => by cases hstatus }
      apply started_watched h' hnodup
      exact fun pid hpid hfork => hfresh pid hpid ((fork_mem_dropped modulesConf).mp hfork)
  | sigterm => cases hstep

/-- Between any two handlers, a worker of `modules_` that has been reaped has a reboot timer pending for
it, and no timer was ever set for a worker that a reload had killed. -/
theorem run_supervised (debug : Bool) (autoReboot : Int) (modulesConf : Str)
    (hreboot : autoReboot ≠ 0) (labels : List Label) (s : Skel)
    (hfresh : Machine.AllSteps step NoReuse (new debug autoReboot modulesConf) labels)
    (hrun : Machine.run step (new debug autoReboot modulesConf) labels = some s) : s.Supervised := by
  have hstart : Watched (new debug autoReboot modulesConf) := by
    constructor <;> simp [new, children, hreboot]
  have h : Watched s :=
    Machine.run_invariant Watched (fun _ _ _ h hfresh hstep => step_watched h hfresh hstep) labels _ s
      hstart hfresh hrun
  refine ⟨fun pid hpid hreap => ?_, h.blameless⟩
  exact h.pending (h.failed pid hpid hreap)

def killedThenFailed : List Label :=
  [.masterRun soleLoader [.child 1], .sighup (soleReload 2), .die 1, .sigchld [(1, .signaled 9)], .die 2,
    .sigchld [(2, .exited 1)]]

/-- The worker that was killed is reaped, and then the new one fails. -/
theorem run_supervised_one :
    ∃ s, Machine.run step (new false 1 soleModule) killedThenFailed = some s ∧
      s.modules = [2] ∧ .reap 2 ∈ s.log ∧ .kill 1 true ∈ s.log ∧ s.Supervised :=
  ⟨_, rfl, rfl, by decide +kernel, by decide +kernel,
    run_supervised false 1 soleModule (by decide) killedThenFailed _ (by decide +kernel) rfl⟩

/-! ### A configuration that is rejected -/

theorem restart_rejected (hcheck : checkModules s.debug loader s.modulesConf ≠ .passed)
    (forks : List Fork) :
    ∃ master, master ≠ .looping ∧ s.restart loader forks = { s with master } := by
  unfold restart
  cases h : checkModules s.debug loader s.modulesConf with
  | passed => exact absurd h hcheck
  | failed => exact ⟨.exited, by decide, rfl⟩
  | undefined => exact ⟨.crashed, by decide, rfl⟩

/-- The master does not survive a configuration that it rejects; and when there is a `modules` key,
every worker of `modules_` has been killed by then. -/
theorem reload_rejected_not_untouched (s : Skel) (reload : Reload) (hrejected : s.Rejected reload) :
    ¬ s.Untouched (s.reloadHandle reload) ∧
      (reload.modulesConf.isSome →
        (s.reloadHandle reload).modules = [] ∧
          (s.reloadHandle reload).dropPid = s.dropPid ++ s.modules ∧
          ∀ pid ∈ s.modules, .kill pid (pid ∈ s.children) ∈ (s.reloadHandle reload).log) := by
  unfold Rejected at hrejected
  unfold reloadHandle
  cases hconf : reload.modulesConf with
  | none =>
      refine ⟨fun huntouched => ?_, fun hsome => ?_⟩
      · cases huntouched.2.2.2
      · cases hsome
  | some modulesConf =>
      rw [hconf] at hrejected
      have hcheck : checkModules s.debug reload.loader modulesConf ≠ .passed :=
        fun hpassed => hrejected (congrArg some hpassed)
      have hrestart :=
        @restart_rejected { s with status := .suspending, modulesConf }.killModules.clearModules reload.loader
      obtain ⟨master, hmaster, heq⟩ := hrestart hcheck reload.forks
      simp only [heq]
      refine ⟨fun huntouched => hmaster huntouched.2.2.2, fun _ => ⟨rfl, rfl, fun pid hpid => ?_⟩⟩
      exact List.mem_append_right _ (List.mem_map.mpr ⟨pid, hpid, rfl⟩)

theorem reload_rejected_not_untouched_missing :
    ∃ s, Machine.run step (new false 1 soleModule) [.masterRun soleLoader [.child 1]] = some s ∧
      ¬ s.Untouched (s.reloadHandle { file := none, loader := soleLoader, forks := [] }) :=
  ⟨_, rfl, (reload_rejected_not_untouched _ _ (by decide +kernel)).1⟩

/-- The library of the new configuration cannot be opened: the worker that was running has been killed
and the master has exited. -/
theorem reload_rejected_kills :
    ∃ s, Machine.run step (new false 1 soleModule) [.masterRun soleLoader [.child 1]] = some s ∧
      s.Rejected { soleReload 2 with loader := fun _ => none } ∧
      .kill 1 true ∈ (s.reloadHandle { soleReload 2 with loader := fun _ => none }).log ∧
      (s.reloadHandle { soleReload 2 with loader := fun _ => none }).modules = [] ∧
      (s.reloadHandle { soleReload 2 with loader := fun _ => none }).master = .exited :=
  ⟨_, rfl, by decide +kernel, by decide +kernel, by decide +kernel, by decide +kernel⟩

end EasyLib.Frame.Skel
