import EasyLib.Lib.Progress
import EasyLib.Proof.Supervision
import Mathlib.Data.Set.Card
import Mathlib.Data.Set.Finite.List

/-!
# The workers recover

A reload sends `SIGKILL` to every worker that it drops. So each child of the master is one of `modules_` or
has been killed, and `Stop`, which goes over `modules_` only, misses none.

From there it is two stages to where every entry of the configuration has a worker again. The workers that
were killed die and are reaped; for one that had failed by itself, this may set a timer. Then each timer that
is pending drops the workers and starts others. What it leaves to be reaped was killed, and is in `dropPid_`,
so that no new timer is set and the timers come to an end.
-/

namespace EasyLib.Frame.Skel

open Common Machine

variable {full : Prop} {debug : Bool} {s next : Skel} {pid : Pid} {label : Label} {forks : List Fork}
  {loader : Loader} {reload : Reload} {file : Option Str} {modulesConf : Str}

/-- Every `fork()` of the handler succeeds. -/
def Label.Forked (label : Label) : Prop := ∀ fork ∈ label.forks, fork.pid?.isSome

instance : DecidablePred Label.Forked := fun label =>
  inferInstanceAs (Decidable (∀ fork ∈ label.forks, fork.pid?.isSome))

/-! ### Every child is accounted for -/

/-- The child that has the pid now was sent `SIGKILL`: the pid was not given to another one since. -/
def Killed (log : List Event) (pid : Pid) : Prop :=
  ∃ before after, log = before ++ .kill pid true :: after ∧ .fork pid ∉ after

theorem Killed.mem {log : List Event} (h : Killed log pid) : .kill pid true ∈ log := by
  obtain ⟨before, after, rfl, -⟩ := h
  exact List.mem_append_right _ List.mem_cons_self

theorem Killed.append {log more : List Event} (h : Killed log pid) (hmore : .fork pid ∉ more) :
    Killed (log ++ more) pid := by
  obtain ⟨before, after, rfl, hafter⟩ := h
  refine ⟨before, after ++ more, by simp, fun hfork => ?_⟩
  exact (List.mem_append.mp hfork).elim hafter hmore

/-- Every child is one of `modules_` or was killed, and every worker of `modules_` is a child or was reaped.
Each of them belongs to an entry of the configuration, and each entry has one if all of them were forked. -/
structure Accounted (full : Prop) (s : Skel) : Prop where
  starting : s.master = .starting → s.modules = []
  known : ∀ pid ∈ s.children, pid ∈ s.modules ∨ Killed s.log pid
  present : ∀ pid ∈ s.modules, pid ∈ s.children ∨ .reap pid ∈ s.log
  children : s.children.Nodup
  modules : s.modules.Nodup
  entries : s.master = .looping → ∃ entries, Frame.modules s.modulesConf = some entries ∧
    s.modules.length ≤ entries.length ∧ (full → s.modules.length = entries.length)

theorem new_accounted (debug : Bool) (autoReboot : Int) (modulesConf : Str) :
    Accounted full (new debug autoReboot modulesConf) := by
  constructor <;> simp [new, children]

/-- Workers are started when all the children that are there were killed. -/
theorem started_accounted (hmaster : s.master = .looping) (hmodules : s.modules = [])
    (hkilled : ∀ pid ∈ s.children, Killed s.log pid)
    (hforks : s.Forks (some s.modulesConf) forks) (hfull : full → ∀ fork ∈ forks, fork.pid?.isSome) :
    Accounted full (s.started forks) := by
  obtain ⟨hlength, hnodup⟩ := hforks
  have hsame : (s.started forks).modules = pids forks := by
    rw [started, hmodules]
    rfl
  refine ⟨fun hstarting => ?_, fun pid hpid => ?_, fun pid hpid => ?_, nodup_children_started hnodup, ?_,
    fun _ => ?_⟩
  · cases hmaster.symm.trans hstarting
  · rw [hsame]
    refine (mem_children_started.mp hpid).symm.imp_right fun hpid => ?_
    refine (hkilled pid hpid).append fun hfork => ?_
    obtain ⟨other, hother, heq⟩ := List.mem_map.mp hfork
    exact hnodup.disjoint hpid (Event.fork.inj heq ▸ hother)
  · rw [hsame] at hpid
    exact .inl (mem_children_started.mpr (.inr hpid))
  · rw [hsame]
    exact hnodup.of_append_right
  · rw [Option.bind_some, Option.map_eq_some_iff] at hlength
    obtain ⟨entries, hentries, hlength⟩ := hlength
    rw [hsame]
    refine ⟨entries, hentries, ?_, fun h => ?_⟩
    · rw [hlength]
      exact List.length_filterMap_le ..
    · rw [hlength]
      exact List.filterMap_length_eq_length.mpr (hfull h)

theorem modulesConf_reloadHandle (hlooping : (s.reloadHandle reload).master = .looping) :
    reload.modulesConf = some (s.reloadHandle reload).modulesConf := by
  unfold reloadHandle at hlooping ⊢
  cases hconf : reload.modulesConf with
  | none =>
      rw [hconf] at hlooping
      cases hlooping
  | some modulesConf =>
      rw [hconf] at hlooping
      dsimp only at hlooping ⊢
      rw [restart_eq hlooping]
      rfl

/-- A child in `modules_` is killed by the loop over it, and any other one was killed before. -/
theorem Accounted.killed_killModules (h : Accounted full s) (hpid : pid ∈ s.children) :
    Killed s.killModules.log pid := by
  have hkills : ∀ workers : List Pid,
      .fork pid ∉ workers.map fun pid => Event.kill pid (pid ∈ s.children) := by
    intro workers hfork
    obtain ⟨_, -, heq⟩ := List.mem_map.mp hfork
    cases heq
  obtain hmodule | hkill := h.known pid hpid
  · obtain ⟨before, after, hsplit⟩ := List.append_of_mem hmodule
    refine ⟨s.log ++ before.map fun pid => .kill pid (pid ∈ s.children), _, ?_, hkills after⟩
    simp [killModules, hsplit, hpid]
  · exact hkill.append (hkills s.modules)

/-- The workers that a reload drops are killed by it. -/
theorem reloadHandle_accounted (h : Accounted full s) (hmaster : s.master = .looping)
    (hforks : s.Forks reload.modulesConf reload.forks)
    (hfull : full → ∀ fork ∈ reload.forks, fork.pid?.isSome)
    (hlooping : (s.reloadHandle reload).master = .looping) : Accounted full (s.reloadHandle reload) := by
  obtain ⟨modulesConf, heq⟩ := reloadHandle_eq hlooping
  have hconf := modulesConf_reloadHandle hlooping
  rw [heq] at hconf ⊢
  rw [hconf] at hforks
  exact started_accounted hmaster rfl (fun pid hpid => h.killed_killModules hpid) hforks hfull

theorem killed_reap {other : Pid} {status : WaitStatus} (h : Killed s.log other) :
    Killed (s.reap pid status).log other := by
  rw [reap_eq]
  refine Killed.append (h.append ?_) ?_
  · cases needKill status <;> simp
  · split_ifs <;> simp

theorem reap_accounted (status : WaitStatus) (h : Accounted full s) (hmem : pid ∈ s.zombies) :
    Accounted full (s.reap pid status) := by
  have hmodules : (s.reap pid status).modules = s.modules := by
    rw [reap_eq]
    rfl
  have hmaster : (s.reap pid status).master = s.master := by
    rw [reap_eq]
    rfl
  have hconf : (s.reap pid status).modulesConf = s.modulesConf := by
    rw [reap_eq]
    rfl
  have hchildren : ∀ other, other ∈ (s.reap pid status).children ↔ other ≠ pid ∧ other ∈ s.children :=
    fun _ => mem_children_reap h.children hmem
  refine ⟨?_, fun other hother => ?_, fun other hother => ?_, ?_, ?_, ?_⟩
  · rw [hmaster, hmodules]
    exact h.starting
  · rw [hmodules]
    refine (h.known other ((hchildren other).mp hother).2).imp_right fun hkill => ?_
    exact killed_reap hkill
  · rw [hmodules] at hother
    rw [hchildren, mem_log_reap]
    by_cases heq : other = pid
    · exact .inr (.inr (.inl (heq ▸ rfl)))
    · exact (h.present other hother).imp (⟨heq, ·⟩) .inl
  · rw [children_reap h.children hmem]
    exact h.children.erase pid
  · rw [hmodules]
    exact h.modules
  · rw [hmaster, hmodules, hconf]
    exact h.entries

theorem die_accounted (h : Accounted full s) (halive : pid ∈ s.alive) :
    Accounted full { s with alive := s.alive.erase pid, zombies := s.zombies ++ [pid] } := by
  have hperm := perm_children_die halive
  refine ⟨h.starting, fun other hother => ?_, fun other hother => ?_, hperm.nodup_iff.mpr h.children,
    h.modules, h.entries⟩
  · exact h.known other (hperm.mem_iff.mp hother)
  · exact (h.present other hother).imp_left hperm.mem_iff.mpr

theorem step_accounted (h : Accounted full s) (hfull : full → label.Forked)
    (hstep : s.step label = some next) : Accounted full next := by
  cases label with
  | masterRun loader forks =>
      obtain ⟨hstarting, -, hnext⟩ := step_masterRun hstep
      obtain ⟨⟨-, hforks⟩, -⟩ := Option.ite_none_right_eq_some.mp hstep
      have hmodules := h.starting hstarting
      rw [hnext]
      refine started_accounted rfl hmodules (fun pid hpid => ?_) hforks hfull
      refine (h.known pid hpid).resolve_left fun hmodule => ?_
      rw [hmodules] at hmodule
      cases hmodule
  | die pid =>
      obtain ⟨halive, hnext⟩ := Option.ite_none_right_eq_some.mp hstep
      rw [← Option.some.inj hnext]
      exact die_accounted h halive
  | sigchld reports =>
      obtain ⟨⟨-, hperm⟩, hnext⟩ := Option.ite_none_right_eq_some.mp hstep
      rw [← Option.some.inj hnext]
      exact waitChildren_induction (fun _ _ status hmem h => reap_accounted status h hmem) hperm h
  | sighup reload =>
      obtain ⟨⟨hmaster, hforks⟩, hreturned⟩ := Option.ite_none_right_eq_some.mp hstep
      obtain ⟨hlooping, hnext⟩ := returned_eq_some.mp hreturned
      rw [← hnext]
      exact reloadHandle_accounted h hmaster hforks hfull hlooping
  | timer reload =>
      obtain ⟨⟨hmaster, -, hforks⟩, hreturned⟩ := Option.ite_none_right_eq_some.mp hstep
      obtain ⟨hlooping, hnext⟩ := returned_eq_some.mp hreturned
      have h' : Accounted full { s with timers := s.timers - 1 } := { h with }
      rw [← hnext]
      exact reloadHandle_accounted h' hmaster hforks hfull hlooping
  | sigterm => cases hstep

/-- No worker gets out of the hands of the master. -/
structure InHand (s : Skel) : Prop where
  known : ∀ pid ∈ s.children, pid ∈ s.modules ∨ Killed s.log pid
  entries : s.master = .looping →
    ∃ entries, Frame.modules s.modulesConf = some entries ∧ s.modules.length ≤ entries.length
  stopped : ∀ pid ∈ s.stop.children, Killed s.stop.log pid

/-- **No worker escapes.** Whatever has died, been reloaded or been rebooted, and whatever pids the kernel
uses again, the children that were not sent `SIGKILL` are among the workers of `modules_`, not more than
the configuration has entries; and when `Stop` is through with `modules_`, every child has been sent one. -/
theorem no_worker_escapes {autoReboot : Int} {labels : List Label}
    (hrun : run step (new debug autoReboot modulesConf) labels = some s) : s.InHand := by
  have h : Accounted False s :=
    run_invariant_of_forall (fun _ _ _ h hstep => step_accounted h False.elim hstep)
      (new_accounted debug autoReboot modulesConf) hrun
  refine ⟨h.known, fun hlooping => ?_, fun pid hpid => h.killed_killModules hpid⟩
  obtain ⟨entries, hentries, hle, -⟩ := h.entries hlooping
  exact ⟨entries, hentries, hle⟩

/-- The first worker was killed by a reload and is not dead yet. -/
theorem no_worker_escapes_reloaded :
    ∃ s, run step (new false 1 soleModule) [.masterRun soleLoader [.child 1], .sighup (soleReload 2)] =
        some s ∧
      s.alive = [1, 2] ∧ s.modules = [2] ∧ s.InHand := by
  have hrun : run step (new false 1 soleModule)
      [.masterRun soleLoader [.child 1], .sighup (soleReload 2)] = some _ := rfl
  exact ⟨_, hrun, rfl, rfl, no_worker_escapes hrun⟩

/-! ### What goes on by itself -/

/-- Workers that were killed die, the master reaps what is dead, and a timer that expires reloads the
configuration that stands in the file. -/
def Unaided (file : Option Str) (loader : Loader) (s : Skel) : Label → Prop
  | .die pid => .kill pid true ∈ s.log
  | .sigchld _ => True
  | .timer reload =>
      reload.file = file ∧ reload.loader = loader ∧ s.NoReuse (.timer reload) ∧
        (Label.timer reload).Forked
  | .masterRun _ _ | .sighup _ | .sigterm => False

/-- Every entry of the configuration has a worker, and nothing is left to be done. -/
structure Manned (s : Skel) : Prop where
  looping : s.master = .looping
  entries : (Frame.modules s.modulesConf).map List.length = some s.modules.length
  workers : s.alive.Perm s.modules
  reaped : s.zombies = []
  timers : s.timers = 0

structure Tended (debug : Bool) (s : Skel) : Prop where
  watched : Watched s
  accounted : Accounted True s
  looping : s.master = .looping
  debug : s.debug = debug

theorem step_debug (hstep : s.step label = some next) : next.debug = s.debug := by
  cases label with
  | masterRun loader forks =>
      obtain ⟨-, -, rfl⟩ := step_masterRun hstep
      rfl
  | die pid =>
      obtain ⟨-, hnext⟩ := Option.ite_none_right_eq_some.mp hstep
      rw [← Option.some.inj hnext]
  | sigchld reports =>
      obtain ⟨⟨-, hperm⟩, hnext⟩ := Option.ite_none_right_eq_some.mp hstep
      rw [← Option.some.inj hnext]
      have hreap : ∀ (t : Skel) pid status, pid ∈ t.zombies → t.debug = s.debug →
          (t.reap pid status).debug = s.debug := by
        intro t pid status _ ht
        rw [reap_eq]
        exact ht
      exact waitChildren_induction hreap hperm rfl
  | sighup reload =>
      obtain ⟨-, -, modulesConf, rfl⟩ := step_sighup hstep
      rfl
  | timer reload =>
      obtain ⟨-, -, -, modulesConf, rfl⟩ := step_timer hstep
      rfl
  | sigterm => cases hstep

/-! ### What was killed dies and is reaped -/

/-- All that is to be reaped was killed before. -/
def Calm (s : Skel) : Prop := ∀ pid ∈ s.zombies, pid ∈ s.dropPid

/-- The calm state `s` has come to `next` without a timer being set. -/
def KeepsCalm (s next : Skel) : Prop := s.Calm → next.Calm ∧ next.timers = s.timers

theorem Tended.die (h : Tended debug s) (halive : pid ∈ s.alive) :
    Tended debug { s with alive := s.alive.erase pid, zombies := s.zombies ++ [pid] } :=
  ⟨die_watched h.watched halive, die_accounted h.accounted halive, h.looping, h.debug⟩

theorem Tended.mem_dropPid (h : Tended debug s) (hpid : pid ∈ s.children)
    (hkill : .kill pid true ∈ s.log) : pid ∈ s.dropPid :=
  (h.watched.killed pid true hkill).resolve_right (h.watched.unreaped pid hpid)

theorem Tended.leads_dead (h : Tended debug s) :
    Leads step (Unaided file loader) (fun next => (Tended debug next ∧ s.KeepsCalm next) ∧
      ∀ pid ∈ next.alive, pid ∈ next.modules) s := by
  apply leads_of_measure (fun next => Tended debug next ∧ s.KeepsCalm next) fun next => next.alive.length
  · rintro t ⟨ht, hcalm⟩ hnot
    obtain ⟨pid, halive, hmodule⟩ : ∃ pid ∈ t.alive, pid ∉ t.modules := by
      by_contra hall
      exact hnot fun pid halive => not_not.mp fun hmodule => hall ⟨pid, halive, hmodule⟩
    have hchild : pid ∈ t.children := List.mem_append_left _ halive
    have hkill := ((ht.accounted.known pid hchild).resolve_left hmodule).mem
    have hunaided : t.Unaided file loader (.die pid) := hkill
    have hstep : t.step (.die pid) =
        some { t with alive := t.alive.erase pid, zombies := t.zombies ++ [pid] } := if_pos halive
    refine .head hunaided hstep (.refl
      ⟨⟨ht.die halive, fun hs => ⟨fun other hother => ?_, (hcalm hs).2⟩⟩, ?_⟩)
    · obtain hother | hother := List.mem_append.mp hother
      · exact (hcalm hs).1 other hother
      · rw [List.mem_singleton.mp hother]
        exact ht.mem_dropPid hchild hkill
    · have hlength := List.length_erase_of_mem halive
      have hpos := List.length_pos_of_mem halive
      dsimp only
      omega
  · exact ⟨h, fun hcalm => ⟨hcalm, rfl⟩⟩

theorem reap_keepsCalm {t : Skel} {status : WaitStatus} (h : Watched t) (hcalm : s.KeepsCalm t)
    (hmem : pid ∈ t.zombies) : s.KeepsCalm (t.reap pid status) := by
  intro hs
  obtain ⟨hdrop, htimers⟩ := hcalm hs
  have hnot : ¬ t.Reboots pid := fun hreboots => hreboots.1 (hdrop pid hmem)
  have hnodup : t.zombies.Nodup := h.children.of_append_right
  rw [reap_eq]
  refine ⟨fun other hother => ?_, ?_⟩
  · obtain ⟨hne, hother⟩ := hnodup.mem_erase_iff.mp hother
    exact (List.mem_erase_of_ne hne).mpr (hdrop other hother)
  · exact (if_neg hnot).trans htimers

theorem zombies_waitChildren {reports : List (Pid × WaitStatus)}
    (hperm : (reports.map Prod.fst).Perm s.zombies) : (s.waitChildren reports).zombies = [] := by
  induction reports generalizing s with
  | nil => exact List.nil_perm.mp hperm
  | cons report reports ih =>
      obtain ⟨-, hrest⟩ := List.cons_perm_iff_perm_erase.mp hperm
      apply ih
      rw [zombies_reap]
      exact hrest

/-- What the killed workers leave behind is gone. -/
structure Swept (debug : Bool) (s : Skel) : Prop where
  tended : Tended debug s
  alive : ∀ pid ∈ s.alive, pid ∈ s.modules
  zombies : s.zombies = []

/-- What `waitpid` may report of the workers that are dead. -/
def killReports (s : Skel) : List (Pid × WaitStatus) := s.zombies.map fun pid => (pid, .signaled 9)

theorem map_fst_killReports (s : Skel) : s.killReports.map Prod.fst = s.zombies := by
  rw [killReports, List.map_map]
  exact List.map_id _

theorem Tended.leads_reaped {first : Skel} (h : Tended debug s) (hcalm : first.KeepsCalm s)
    (halive : ∀ pid ∈ s.alive, pid ∈ s.modules) :
    Leads step (Unaided file loader) (fun next => Swept debug next ∧ first.KeepsCalm next) s := by
  have hperm : (s.killReports.map Prod.fst).Perm s.zombies := .of_eq s.map_fst_killReports
  have hunaided : s.Unaided file loader (.sigchld s.killReports) := trivial
  have hunforked : (Label.sigchld s.killReports).Forked := fun fork hfork => by cases hfork
  have hstep : s.step (.sigchld s.killReports) = some (s.waitChildren s.killReports) :=
    if_pos ⟨h.looping, hperm⟩
  have hreap : ∀ (t : Skel) pid status, pid ∈ t.zombies →
      Watched t ∧ first.KeepsCalm t ∧ t.master = s.master ∧ t.alive = s.alive ∧ t.modules = s.modules →
      Watched (t.reap pid status) ∧ first.KeepsCalm (t.reap pid status) ∧
        (t.reap pid status).master = s.master ∧ (t.reap pid status).alive = s.alive ∧
        (t.reap pid status).modules = s.modules := by
    rintro t pid status hmem ⟨hwatched, hcalm, hsame⟩
    refine ⟨reap_watched hwatched hmem, reap_keepsCalm hwatched hcalm hmem, ?_⟩
    rw [reap_eq]
    exact hsame
  obtain ⟨hwatched, hcalm, hmaster, halive', hmodules⟩ :=
    waitChildren_induction hreap hperm ⟨h.watched, hcalm, rfl, rfl, rfl⟩
  have htended : Tended debug (s.waitChildren s.killReports) :=
    ⟨hwatched, step_accounted h.accounted (fun _ => hunforked) hstep, hmaster.trans h.looping,
      (step_debug hstep).trans h.debug⟩
  refine .head hunaided hstep (.refl ⟨⟨htended, fun pid hpid => ?_, zombies_waitChildren hperm⟩, hcalm⟩)
  rw [hmodules]
  exact halive pid (halive' ▸ hpid)

theorem Tended.leads_swept (h : Tended debug s) :
    Leads step (Unaided file loader) (fun next => Swept debug next ∧ s.KeepsCalm next) s :=
  h.leads_dead.trans fun _ hnext => hnext.1.1.leads_reaped hnext.1.2 hnext.2

/-! ### The timers -/

theorem looping_runWorkers (hmaster : s.master = .looping) (hall : ∀ fork ∈ forks, fork.pid?.isSome) :
    (s.runWorkers forks).master = .looping := by
  induction forks generalizing s with
  | nil => exact hmaster
  | cons fork forks ih =>
      rw [runWorkers, if_pos hmaster]
      refine ih ?_ fun other hother => hall other (List.mem_cons_of_mem fork hother)
      cases fork with
      | child pid => exact hmaster
      | failed body => cases hall _ List.mem_cons_self

theorem looping_reloadHandle (hmaster : s.master = .looping) (hconf : reload.modulesConf = some modulesConf)
    (hcheck : checkModules s.debug reload.loader modulesConf = .passed)
    (hall : ∀ fork ∈ reload.forks, fork.pid?.isSome) : (s.reloadHandle reload).master = .looping := by
  simp only [reloadHandle, hconf, restart, clearModules, killModules, hcheck, master_resume]
  exact looping_runWorkers hmaster hall

def forkedPid : Event → Option Pid
  | .fork pid => some pid
  | .kill _ _ | .killGroup _ | .reap _ | .setTimer _ => none

/-- There are pids that no worker has had. -/
theorem exists_fresh (s : Skel) (count : ℕ) :
    ∃ fresh : List Pid, fresh.length = count ∧ fresh.Nodup ∧ ∀ pid ∈ fresh, .fork pid ∉ s.log := by
  have hinfinite := (List.finite_toSet (s.log.filterMap forkedPid)).infinite_compl
  obtain ⟨fresh, hfresh, hcard⟩ := hinfinite.exists_subset_card_eq count
  refine ⟨fresh.toList, by rw [Finset.length_toList, hcard], fresh.nodup_toList, fun pid hpid hfork => ?_⟩
  exact hfresh (Finset.mem_toList.mp hpid) (List.mem_filterMap.mpr ⟨_, hfork, rfl⟩)

/-- A timer expires, and the reload finds pids for the workers of the configuration. -/
theorem Tended.exists_reload (h : Tended debug s) (htimers : 0 < s.timers)
    (hfile : (Reload.mk file loader []).modulesConf = some modulesConf)
    (hcheck : checkModules debug loader modulesConf = .passed) :
    ∃ reload next, s.Unaided file loader (.timer reload) ∧ s.step (.timer reload) = some next := by
  obtain ⟨entries, hentries⟩ : ∃ entries, Frame.modules modulesConf = some entries := by
    cases hmodules : Frame.modules modulesConf with
    | none =>
        rw [checkModules, hmodules] at hcheck
        cases hcheck
    | some entries => exact ⟨entries, rfl⟩
  obtain ⟨fresh, hlength, hnodup, hfresh⟩ := s.exists_fresh entries.length
  have hpids : pids (fresh.map Fork.child) = fresh := by
    rw [pids, List.filterMap_map]
    exact List.filterMap_some
  have hall : ∀ fork ∈ fresh.map Fork.child, fork.pid?.isSome := by
    intro fork hfork
    obtain ⟨pid, -, rfl⟩ := List.mem_map.mp hfork
    rfl
  have hconf : (Reload.mk file loader (fresh.map .child)).modulesConf = some modulesConf := hfile
  have hforks : s.Forks (Reload.mk file loader (fresh.map .child)).modulesConf (fresh.map .child) := by
    refine ⟨?_, ?_⟩
    · rw [hconf, Option.bind_some, hentries, Option.map_some, List.length_map, hlength]
    · rw [hpids]
      refine h.accounted.children.append hnodup fun pid hchild hpid => hfresh pid hpid ?_
      exact h.watched.forked pid (.inl (List.mem_append_right _ hchild))
  have hlooping := looping_reloadHandle (s := { s with timers := s.timers - 1 }) h.looping hconf
    (h.debug ▸ hcheck) hall
  refine ⟨⟨file, loader, fresh.map .child⟩, _, ⟨rfl, rfl, fun pid hpid => hfresh pid ?_, hall⟩,
    (if_pos ⟨h.looping, htimers, hforks⟩).trans (returned_eq_some.mpr ⟨hlooping, rfl⟩)⟩
  rw [← hpids]
  exact hpid

/-- A timer less is pending, and nothing is to be reaped that was not killed. -/
theorem Swept.leads_fewer (h : Swept debug s) (htimers : s.timers ≠ 0)
    (hfile : (Reload.mk file loader []).modulesConf = some modulesConf)
    (hcheck : checkModules debug loader modulesConf = .passed) :
    Leads step (Unaided file loader) (fun next => Swept debug next ∧ next.timers < s.timers) s := by
  obtain ⟨reload, next, hunaided, hstep⟩ :=
    h.tended.exists_reload (Nat.pos_of_ne_zero htimers) hfile hcheck
  have ⟨_, _, hfresh, hforked⟩ := hunaided
  have hwatched := step_watched h.tended.watched hfresh hstep
  have haccounted := step_accounted h.tended.accounted (fun _ => hforked) hstep
  have hdebug := (step_debug hstep).trans h.tended.debug
  obtain ⟨hmaster, -, -, _, rfl⟩ := step_timer hstep
  have htended : Tended debug _ := ⟨hwatched, haccounted, hmaster, hdebug⟩
  refine .head hunaided hstep (htended.leads_swept.trans fun last hlast => .refl ⟨hlast.1, ?_⟩)
  have hcalm := hlast.2 fun pid hpid => by
    have hzombie : pid ∈ s.zombies := hpid
    rw [h.zombies] at hzombie
    cases hzombie
  have hless : last.timers = s.timers - 1 := hcalm.2
  omega

theorem Swept.manned (h : Swept debug s) (htimers : s.timers = 0) : s.Manned := by
  obtain ⟨htended, halive, hzombies⟩ := h
  have hchildren : s.children = s.alive := by rw [children, hzombies, List.append_nil]
  have hstatus : s.status ≠ .suspending := by
    intro hsuspending
    exact absurd (htended.watched.pending hsuspending) (htimers ▸ Nat.lt_irrefl 0)
  refine ⟨htended.looping, ?_, ?_, hzombies, htimers⟩
  · obtain ⟨entries, hentries, -, hlength⟩ := htended.accounted.entries htended.looping
    rw [hentries, Option.map_some, hlength trivial]
  · have hnodup : s.alive.Nodup := hchildren ▸ htended.accounted.children
    apply (List.perm_ext_iff_of_nodup hnodup htended.accounted.modules).mpr
    intro pid
    refine ⟨halive pid, fun hmodule => ?_⟩
    rw [← hchildren]
    refine (htended.accounted.present pid hmodule).resolve_right fun hreap => ?_
    exact hstatus (htended.watched.failed pid hmodule hreap)

/-- **The workers recover.** Whatever has died, been reloaded or been rebooted, the deaths of killed workers,
the reaping and the timers can lead to where every entry of the configuration has a worker that is alive,
there is no other child, and no timer is pending. -/
theorem workers_recover {autoReboot : Int} {initialConf : Str} {labels : List Label}
    (hreboot : autoReboot ≠ 0)
    (hfair : AllSteps step (fun s label => s.NoReuse label ∧ label.Forked)
      (new debug autoReboot initialConf) labels)
    (hrun : run step (new debug autoReboot initialConf) labels = some s) (hlooping : s.master = .looping)
    (hfile : (Reload.mk file loader []).modulesConf = some modulesConf)
    (hcheck : checkModules debug loader modulesConf = .passed) :
    Leads step (Unaided file loader) Manned s := by
  have hstart : Watched (new debug autoReboot initialConf) := by
    constructor <;> simp [new, children, hreboot]
  have hinv : Watched s ∧ Accounted True s ∧ s.debug = debug :=
    run_invariant (fun s => Watched s ∧ Accounted True s ∧ s.debug = debug)
      (fun _ _ _ h hok hstep => ⟨step_watched h.1 hok.1 hstep,
        step_accounted h.2.1 (fun _ => hok.2) hstep, (step_debug hstep).trans h.2.2⟩)
      labels _ s ⟨hstart, new_accounted debug autoReboot initialConf, rfl⟩ hfair hrun
  have htended : Tended debug s := ⟨hinv.1, hinv.2.1, hlooping, hinv.2.2⟩
  refine htended.leads_swept.trans fun next hnext => ?_
  have hleads := leads_of_measure (Swept debug) timers
    (fun _ h htimers => h.leads_fewer htimers hfile hcheck) hnext.1
  exact hleads.imp fun last hlast => hlast.1.manned hlast.2

/-- The worker that a reload has started fails, while the one that it has killed is still to die. -/
def failedBehindReload : List Label :=
  [.masterRun soleLoader [.child 1], .sighup (soleReload 2), .die 2, .sigchld [(2, .exited 1)]]

theorem workers_recover_one :
    ∃ s, run step (new false 1 soleModule) failedBehindReload = some s ∧ s.alive = [1] ∧ s.timers = 1 ∧
      Leads step (Unaided (soleReload 0).file soleLoader) Manned s := by
  have hfair : AllSteps step (fun s label => s.NoReuse label ∧ label.Forked) (new false 1 soleModule)
      failedBehindReload := by
    decide +kernel
  have hfile : (Reload.mk (soleReload 0).file soleLoader []).modulesConf = some soleModule := by
    decide +kernel
  have hcheck : checkModules false soleLoader soleModule = .passed := by decide +kernel
  exact ⟨_, rfl, rfl, rfl, workers_recover (by decide) hfair rfl rfl hfile hcheck⟩

end EasyLib.Frame.Skel
