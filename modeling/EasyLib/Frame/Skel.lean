import EasyLib.Common.Config
import EasyLib.Frame.Modules
import EasyLib.Lib.Run

/-!
# The master process and its workers

`frame/skeleton.cpp`, in the process that runs `MasterRun`. Its handlers run one after the other in the
event loop, so a handler is one step. A worker that dies while a handler runs is found by the handler,
or not, just as if it had died before or after it.

The kernel is part of the state: the children that are alive, those that have died and not been reaped,
and the number of reboot timers that are pending. What a handler asks of it is kept in a log, with
whether the target of a `kill` is a child that has not been reaped. A handler that does not return
leaves the process in one of the states other than `looping`.
-/

namespace EasyLib.Frame

open Common

abbrev Pid := ℕ

inductive Status where
  | starting
  | running
  | suspending
  deriving DecidableEq, Repr

inductive Process where
  | starting
  | looping
  | working
  | exited
  | crashed
  deriving DecidableEq, Repr

inductive Event where
  | fork (pid : Pid)
  | kill (pid : Pid) (own : Bool)
  | killGroup (pid : Pid)
  | reap (pid : Pid)
  | setTimer (pid : Pid)
  deriving DecidableEq, Repr

/-- What `fork()` returns to the master. When it fails, the master goes on as a worker would. -/
inductive Fork where
  | child (pid : Pid)
  | failed (body : Ending)
  deriving DecidableEq, Repr

def Fork.pid? : Fork → Option Pid
  | .child pid => some pid
  | .failed _ => none

def pids (forks : List Fork) : List Pid := forks.filterMap Fork.pid?

/-- What `waitpid` reports without `WUNTRACED`. -/
inductive WaitStatus where
  | exited (code : ℕ)
  | signaled (signal : ℕ)
  deriving DecidableEq, Repr

structure Skel where
  debug : Bool
  autoReboot : Int
  modulesConf : Str
  status : Status
  dropPid : List Pid
  modules : List Pid
  timers : ℕ
  alive : List Pid
  zombies : List Pid
  master : Process
  log : List Event

namespace Skel

def new (debug : Bool) (autoReboot : Int) (modulesConf : Str) : Skel where
  debug := debug
  autoReboot := autoReboot
  modulesConf := modulesConf
  status := .starting
  dropPid := []
  modules := []
  timers := 0
  alive := []
  zombies := []
  master := .starting
  log := []

def children (s : Skel) : List Pid := s.alive ++ s.zombies

def workerRun (s : Skel) : Fork → Skel
  | .child pid =>
      { s with
        modules := s.modules ++ [pid]
        alive := s.alive ++ [pid]
        log := s.log ++ [.fork pid] }
  | .failed .returns => s
  | .failed .stays => { s with master := .working }
  | .failed .undefined => { s with master := .crashed }

def runWorkers (s : Skel) : List Fork → Skel
  | [] => s
  | fork :: forks => if s.master = .looping then runWorkers (s.workerRun fork) forks else s

def masterRun (s : Skel) (loader : Loader) (forks : List Fork) : Skel :=
  match checkModules s.debug loader s.modulesConf with
  | .undefined => { s with master := .crashed }
  | .failed => { s with master := .exited }
  | .passed => runWorkers { s with master := .looping } forks

def sigterm : ℕ := 15

/-- `needKillChildren`. -/
def needKill : WaitStatus → Bool
  | .exited code => code ≠ 0
  | .signaled signal => signal ≠ sigterm

def reaped (s : Skel) (pid : Pid) (status : WaitStatus) : Skel :=
  { s with
    zombies := s.zombies.erase pid
    log := s.log ++ .reap pid :: if needKill status then [.killGroup pid] else [] }

def reap (s : Skel) (pid : Pid) (status : WaitStatus) : Skel :=
  let s := s.reaped pid status
  if pid ∈ s.dropPid then { s with dropPid := s.dropPid.erase pid }
  else if s.autoReboot ≠ 0 ∧ s.status ≠ .suspending then
    { s with timers := s.timers + 1, status := .suspending, log := s.log ++ [.setTimer pid] }
  else s

/-- `WaitChildren`, with what the calls of `waitpid` report until one finds nothing. -/
def waitChildren (s : Skel) (reports : List (Pid × WaitStatus)) : Skel :=
  reports.foldl (fun s report => s.reap report.1 report.2) s

/-- The loops of `ReloadHandle` and `Stop` over `modules_`. -/
def killModules (s : Skel) : Skel :=
  { s with
    dropPid := s.dropPid ++ s.modules
    log := s.log ++ s.modules.map fun pid => .kill pid (pid ∈ s.children) }

def clearModules (s : Skel) : Skel := { s with modules := [] }

def resume (s : Skel) : Skel := if s.master = .looping then { s with status := .running } else s

def stop (s : Skel) : Skel := { s.killModules with master := .exited }

/-- What `ReloadHandle` meets: the configuration file, the libraries and what `fork()` returns. -/
structure Reload where
  file : Option Str
  loader : Loader
  forks : List Fork

def Reload.modulesConf (reload : Reload) : Option Str :=
  (Config.new.init (fun _ => true) reload.file).1.getConfStr ['m', 'o', 'd', 'u', 'l', 'e', 's']

/-- The end of `ReloadHandle`, from `CheckModules` on. -/
def restart (s : Skel) (loader : Loader) (forks : List Fork) : Skel :=
  match checkModules s.debug loader s.modulesConf with
  | .undefined => { s with master := .crashed }
  | .failed => { s with master := .exited }
  | .passed => (s.runWorkers forks).resume

/-- `ReloadHandle`. A key that is not there makes `modulesConf_` a string from a null pointer. -/
def reloadHandle (s : Skel) (reload : Reload) : Skel :=
  match reload.modulesConf with
  | none => { s with status := .suspending, master := .crashed }
  | some modulesConf =>
      { s with status := .suspending, modulesConf }.killModules.clearModules.restart
        reload.loader reload.forks

/-! ### Runs -/

inductive Label where
  | masterRun (loader : Loader) (forks : List Fork)
  | die (pid : Pid)
  | sigchld (reports : List (Pid × WaitStatus))
  | sighup (reload : Reload)
  | timer (reload : Reload)
  | sigterm

/-- There is a `fork()` for each module, and no two unreaped children have the same pid. -/
def Forks (s : Skel) (modulesConf : Option Str) (forks : List Fork) : Prop :=
  (modulesConf.bind Frame.modules).map List.length = some forks.length ∧
    (s.children ++ pids forks).Nodup

instance (s : Skel) (modulesConf : Option Str) (forks : List Fork) :
    Decidable (s.Forks modulesConf forks) :=
  inferInstanceAs (Decidable (_ ∧ _))

def returned (s : Skel) : Option Skel := if s.master = .looping then some s else none

def step (s : Skel) : Label → Option Skel
  | .masterRun loader forks =>
      if s.master = .starting ∧ s.Forks (some s.modulesConf) forks then
        (s.masterRun loader forks).returned
      else none
  | .die pid =>
      if pid ∈ s.alive then
        some { s with alive := s.alive.erase pid, zombies := s.zombies ++ [pid] }
      else none
  | .sigchld reports =>
      if s.master = .looping ∧ (reports.map Prod.fst).Perm s.zombies then
        some (s.waitChildren reports)
      else none
  | .sighup reload =>
      if s.master = .looping ∧ s.Forks reload.modulesConf reload.forks then
        (s.reloadHandle reload).returned
      else none
  | .timer reload =>
      if s.master = .looping ∧ 0 < s.timers ∧ s.Forks reload.modulesConf reload.forks then
        ({ s with timers := s.timers - 1 }.reloadHandle reload).returned
      else none
  | .sigterm => s.stop.returned

/-! ### What is asked of the master -/

def Blamed : Event → Event → Prop
  | .kill pid _, .setTimer pid' => pid = pid'
  | _, _ => False

/-- While a worker of `modules_` has been reaped a reboot timer is pending; and no timer was set for the
reaping of a worker that had been killed before. -/
def Supervised (s : Skel) : Prop :=
  (∀ pid ∈ s.modules, .reap pid ∈ s.log → 0 < s.timers) ∧
    s.log.Pairwise fun earlier later => ¬ Blamed earlier later

def Label.forks : Label → List Fork
  | .masterRun _ forks => forks
  | .sighup reload | .timer reload => reload.forks
  | .die _ | .sigchld _ | .sigterm => []

/-- The kernel gives no worker a pid that another one had before. -/
def NoReuse (s : Skel) (label : Label) : Prop :=
  ∀ pid ∈ pids label.forks, .fork pid ∉ s.log

def Aimed : Event → Prop
  | .kill _ own => own = true
  | _ => True

/-- Every `kill` so far was aimed at a child that had not been reaped, and `dropPid_` holds such
children only. -/
def OwnOnly (s : Skel) : Prop :=
  (∀ event ∈ s.log, Aimed event) ∧ ∀ pid ∈ s.dropPid, pid ∈ s.children

/-- No worker that `ReloadHandle` finds in `modules_` has been reaped. -/
def Unreaped (s : Skel) : Label → Prop
  | .sighup _ | .timer _ => ∀ pid ∈ s.modules, pid ∈ s.children
  | _ => True

/-- At most one reboot timer is pending, and one is exactly while `status_` is `SUSPENDING`. -/
def Timed (s : Skel) : Prop := s.timers ≤ 1 ∧ (0 < s.timers ↔ s.status = .suspending)

/-- `SIGHUP` is not handled while `status_` is `SUSPENDING`. -/
def Settled (s : Skel) : Label → Prop
  | .sighup _ => s.status ≠ .suspending
  | _ => True

/-- The configuration that `ReloadHandle` has read is not one that `CheckModules` accepts. -/
def Rejected (s : Skel) (reload : Reload) : Prop :=
  reload.modulesConf.map (checkModules s.debug reload.loader) ≠ some .passed

/-- Nothing has been killed, `modules_` and `dropPid_` are what they were and the master is running. -/
def Untouched (s next : Skel) : Prop :=
  (∀ pid own, .kill pid own ∈ next.log → .kill pid own ∈ s.log) ∧ next.modules = s.modules ∧
    next.dropPid = s.dropPid ∧ next.master = .looping

instance : ∀ event, Decidable (Aimed event)
  | .kill _ own => inferInstanceAs (Decidable (own = true))
  | .fork _ | .killGroup _ | .reap _ | .setTimer _ => inferInstanceAs (Decidable True)

instance : ∀ earlier later, Decidable (Blamed earlier later)
  | .kill pid _, .setTimer pid' => inferInstanceAs (Decidable (pid = pid'))
  | .kill _ _, .fork _ | .kill _ _, .kill _ _ | .kill _ _, .killGroup _ | .kill _ _, .reap _ =>
      inferInstanceAs (Decidable False)
  | .fork _, _ | .killGroup _, _ | .reap _, _ | .setTimer _, _ => inferInstanceAs (Decidable False)

instance (s : Skel) : Decidable s.Supervised := inferInstanceAs (Decidable (_ ∧ _))

instance (s : Skel) : DecidablePred (s.NoReuse) := fun label =>
  inferInstanceAs (Decidable (∀ pid ∈ pids label.forks, .fork pid ∉ s.log))

instance (s : Skel) : Decidable s.OwnOnly := inferInstanceAs (Decidable (_ ∧ _))

instance (s : Skel) : DecidablePred s.Unreaped
  | .sighup _ | .timer _ => inferInstanceAs (Decidable (∀ pid ∈ s.modules, pid ∈ s.children))
  | .masterRun _ _ | .die _ | .sigchld _ | .sigterm => inferInstanceAs (Decidable True)

instance (s : Skel) : DecidablePred s.Rejected := fun reload =>
  inferInstanceAs (Decidable (reload.modulesConf.map (checkModules s.debug reload.loader) ≠ some .passed))

instance (s : Skel) : Decidable s.Timed := inferInstanceAs (Decidable (_ ∧ (_ ↔ _)))

instance (s : Skel) : DecidablePred s.Settled
  | .sighup _ => inferInstanceAs (Decidable (s.status ≠ .suspending))
  | .masterRun _ _ | .die _ | .sigchld _ | .timer _ | .sigterm => inferInstanceAs (Decidable True)

end Skel

end EasyLib.Frame
