import Mathlib.Data.List.Count
import EasyLib.Frame.Modules

/-!
# The processes that `MasterRun` makes

`frame/skeleton.cpp`, `MasterRun` with its loop over `WorkerRun`, in all the processes that come out of
it. A process that `WorkerRun` has forked runs a module; when it returns from there it is in the loop
still, and goes on with the modules behind its own. So does a process whose `fork()` has failed. The
loop of `ReloadHandle` is the same, and the event loop that it returns to is the one that `MasterRun`
enters.

A process is named by the indices of the modules at which it and its ancestors were forked; the master
is `[]`. The acts are listed parent first. Which acts there are does not depend on how the processes
interleave, since none of them reads what another one writes.
-/

namespace EasyLib.Frame

open Common

abbrev Path := List ℕ

/-- What the processes meet: at `CheckModules`, and at the index of a module in one of them. -/
structure Surroundings where
  check : Loader
  fork : Path → ℕ → Bool
  loader : Path → ℕ → Loader
  run : Path → ℕ → Ending

inductive Act where
  | fork (process : Path) (created : Bool)
  | dispatch (process : Path)
  deriving DecidableEq, Repr

def Act.process : Act → Path
  | .fork process _ => process
  | .dispatch process => process

def Act.creates : Act → Bool
  | .fork _ created => created
  | .dispatch _ => false

namespace Surroundings

/-- `WorkerRun` behind `fork()`, in `process`. -/
def body (around : Surroundings) (debug : Bool) (process : Path) (index : ℕ) (entry : Str) : Ending :=
  workerBody debug (around.loader process index) (around.run process index) entry

/-- The loop over the modules from `index` on and the event loop behind it, in `process` and in all the
processes that come out of it. -/
def runModules (around : Surroundings) (debug : Bool) (process : Path) (index : ℕ) : List Str → List Act
  | [] => [.dispatch process]
  | entry :: entries =>
      let behind := fun worker =>
        if around.body debug worker index entry = .returns then
          around.runModules debug worker (index + 1) entries
        else []
      if around.fork process index then
        .fork process true ::
          (behind (process ++ [index]) ++ around.runModules debug process (index + 1) entries)
      else .fork process false :: behind process

def masterRun (around : Surroundings) (debug : Bool) (modulesConf : Str) : List Act :=
  match checkModules debug around.check modulesConf, modules modulesConf with
  | .passed, some entries => around.runModules debug [] 0 entries
  | _, _ => []

/-- `count` processes are created, and only `process` calls `fork()` or enters the event loop. -/
def Flat (process : Path) (count : ℕ) (acts : List Act) : Prop :=
  acts.countP Act.creates = count ∧ ∀ act ∈ acts, act.process = process

instance (process : Path) (count : ℕ) (acts : List Act) : Decidable (Flat process count acts) :=
  inferInstanceAs (Decidable (_ ∧ _))

/-- Every `fork()` of `process` succeeds, and none of the workers that it makes returns from
`WorkerRun`. -/
def Contained (around : Surroundings) (debug : Bool) (process : Path) (index : ℕ) (entries : List Str) :
    Prop :=
  ∀ offset entry, entries[offset]? = some entry →
    around.fork process (index + offset) = true ∧
      around.body debug (process ++ [index + offset]) (index + offset) entry ≠ .returns

end Surroundings

end EasyLib.Frame
