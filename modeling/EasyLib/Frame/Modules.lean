import EasyLib.Common.Strops

/-!
# Loading modules

`frame/skeleton.cpp`, the parts that `CheckModules` and `WorkerRun` share. `modulesConf_` lists modules
as `library:configuration` with semicolons between them. What `dlopen` and `dlsym` find is given by a
loader, and an element of a split that is not there has no value.
-/

namespace EasyLib.Frame

open Common

structure Library where
  getModule : Bool
  destroyModule : Bool
  deriving DecidableEq, Repr

abbrev Loader := Str → Option Library

/-- `tmpVec[0]`. The debug message before its use reads `tmpVec[1]` as well. -/
def moduleName (debug : Bool) (entry : Str) : Option Str :=
  match EasyString.splitInto entry [':'] [] with
  | some (name :: _ :: _) => some name
  | some [name] => if debug then none else some name
  | _ => none

/-- The library is opened and both functions are found. -/
def Loader.loads (loader : Loader) (name : Str) : Bool :=
  match loader name with
  | none => false
  | some library => library.getModule && library.destroyModule

inductive Check where
  | passed
  | failed
  | undefined
  deriving DecidableEq, Repr

def checkEntries (debug : Bool) (loader : Loader) : List Str → Check
  | [] => .passed
  | entry :: entries =>
      match moduleName debug entry with
      | none => .undefined
      | some name => if loader.loads name then checkEntries debug loader entries else .failed

def modules (modulesConf : Str) : Option (List Str) :=
  EasyString.splitInto modulesConf [';'] []

def checkModules (debug : Bool) (loader : Loader) (modulesConf : Str) : Check :=
  match modules modulesConf with
  | none => .undefined
  | some entries => checkEntries debug loader entries

/-- An entry as `modulesConf_` is meant to list it: `library:configuration`. -/
def WellFormed (entry : Str) : Prop :=
  ∃ library conf, entry = library ++ ([':'] ++ conf) ∧ ':' ∉ library ∧ conf ≠ []

inductive Ending where
  | returns
  | stays
  | undefined
  deriving DecidableEq, Repr

/-- `WorkerRun` from the point behind `fork()`, with what `Run()` of the module does. A module that ends
its process stays away as well as one that runs for ever. -/
def workerBody (debug : Bool) (loader : Loader) (run : Ending) (entry : Str) : Ending :=
  match moduleName debug entry with
  | none => .undefined
  | some name => if loader.loads name then run else .returns

end EasyLib.Frame
