import EasyLib.Common.Strops
import EasyLib.Lib.CppString
import EasyLib.Lib.Run

/-!
# Configuration files

`common/Config.cpp`, of which `frame/Config.cpp` is a copy. A configuration has two maps, of which
`mIdx` says which one is in use: `init` fills the other one and switches over. A file is its content,
or `none` when it cannot be opened.
-/

namespace EasyLib.Common

open CppString MachineInt

abbrev StrMap := Str → Option Str

structure Config where
  idx : Option (Fin 2)
  confMap : Fin 2 → StrMap

namespace Config

def new : Config where
  idx := none
  confMap := fun _ _ => none

def blanks : List Char := [' ', '\t', '\n', '\r']

/-- The two calls of `erase`, with `find_first_not_of` and `find_last_not_of`. -/
def trim (str : Str) : Str :=
  ((str.dropWhile (· ∈ blanks)).reverse.dropWhile (· ∈ blanks)).reverse

/-- What the loop of `init` makes of a line: `substr` may throw. -/
inductive Line where
  | ignored
  | assignment (key value : Str)
  | outOfRange
  deriving DecidableEq, Repr

/-- Blank lines and comments assign nothing, and neither do lines without a `=`, with nothing before it
or with nothing behind it. The position of the `=`, the one behind it and the last one are `int`s. -/
def parseLine (line : Str) : Line :=
  let str := trim line
  let pos := find str '=' 0
  if str = [] ∨ str.head? = some '#' ∨ pos = -1 ∨ pos = 0 ∨
      pos = toInt32 ((str.length : Int) - 1) then .ignored
  else
    match substr str 0 pos, substr str (toInt32 (pos + 1)) (-1) with
    | some key, some value => .assignment (trim key) (trim value)
    | _, _ => .outOfRange

/-- The loop of `init` over the lines that are left. It says whether it has come to the end of them. -/
def fill : StrMap → List Str → StrMap × Bool
  | map, [] => (map, true)
  | map, line :: lines =>
      match parseLine line with
      | .ignored => fill map lines
      | .assignment key value => fill (Function.update map key (some value)) lines
      | .outOfRange => (map, false)

def parse (content : Str) : StrMap × Bool := fill (fun _ => none) (content.splitOn '\n')

def newIdx (config : Config) : Fin 2 := if config.idx = some 0 then 1 else 0

def load (config : Config) (content : Str) : Config :=
  { config with confMap := Function.update config.confMap config.newIdx (parse content).1 }

def activate (config : Config) : Config := { config with idx := some config.newIdx }

/-- `init`, with the value it returns, or `none` when it throws. `confCheck` is virtual. -/
def init (config : Config) (confCheck : StrMap → Bool) (file : Option Str) : Config × Option Bool :=
  match file with
  | none => (config, some false)
  | some content =>
      if !(parse content).2 then (config.load content, none)
      else if confCheck (parse content).1 then ((config.load content).activate, some true)
      else (config.load content, some false)

def getConfStr (config : Config) (key : Str) : Option Str :=
  config.idx.bind fun idx => config.confMap idx key

def spaces : List Char := [' ', '\t', '\n', '\x0b', '\x0c', '\r']

def digits (str : Str) : ℕ :=
  (str.takeWhile Char.isDigit).foldl (fun value c => 10 * value + (c.toNat - 48)) 0

/-- `atol`, which stops at the bounds of a `long`. -/
def atol (str : Str) : Int :=
  match str.dropWhile (· ∈ spaces) with
  | '-' :: rest => max (-2 ^ 63) (-(digits rest : Int))
  | '+' :: rest => min (2 ^ 63 - 1) (digits rest)
  | rest => min (2 ^ 63 - 1) (digits rest)

def getConfInt (config : Config) (key : Str) : Int :=
  match config.idx with
  | none => -1
  | some idx =>
      match config.confMap idx key with
      | none => -1
      | some value => atol value

/-! ### Several calls of `init` -/

structure InitCall where
  confCheck : StrMap → Bool
  file : Option Str

/-- `loaded` is the map of the file that the last successful `init` has read. -/
structure Session where
  config : Config
  loaded : Option StrMap

def Session.step (s : Session) (call : InitCall) : Option Session :=
  some
    { config := (s.config.init call.confCheck call.file).1
      loaded :=
        if (s.config.init call.confCheck call.file).2 = some true then
          call.file.map fun content => (parse content).1
        else s.loaded }

/-- The lookups answer from `loaded`. -/
def Answers (config : Config) (loaded : Option StrMap) : Prop :=
  ∀ key, config.getConfStr key = loaded.bind (· key) ∧
    config.getConfInt key = (loaded.bind (· key)).elim (-1) atol

/-! ### Hot reload

A writer replaces the watched file as a whole, so that a file that has been opened keeps its content. The
thread that calls `init` and `rechecking` is between two calls, behind the `stat` of `rechecking`, about
to call `init` from there, or inside `init`, where it has opened the file or read all of it. -/

inductive Stage where
  | idle
  | observed (mtime : Int)
  | calling
  | opened (content : Str)
  | filled
  deriving DecidableEq, Repr

structure Watch where
  config : Config
  modifiedTime : Int
  content : Str
  mtime : Int
  stage : Stage

namespace Watch

def start (modifiedTime : Int) (content : Str) (mtime : Int) : Watch where
  config := .new
  modifiedTime := modifiedTime
  content := content
  mtime := mtime
  stage := .idle

inductive Label where
  | replace (content : Str) (mtime : Int)
  | openFile
  | read
  | stat
  | recheck
  | compare
  deriving DecidableEq, Repr

/-- `confCheck` accepts. An exception out of `init` ends it, with the map in use as it was. -/
def step (s : Watch) : Label → Option Watch
  | .replace content mtime => if s.mtime < mtime then some { s with content, mtime } else none
  | .openFile =>
      if s.stage = .idle ∨ s.stage = .calling then some { s with stage := .opened s.content } else none
  | .read =>
      match s.stage with
      | .opened content =>
          some { s with
            config := s.config.load content
            stage := if (parse content).2 then .filled else .idle }
      | _ => none
  | .stat =>
      if s.stage = .filled then
        some { s with config := s.config.activate, modifiedTime := s.mtime, stage := .idle }
      else none
  | .recheck => if s.stage = .idle then some { s with stage := .observed s.mtime } else none
  | .compare =>
      match s.stage with
      | .observed mtime =>
          some { s with stage := if mtime > s.modifiedTime then .calling else .idle }
      | _ => none

def InInit (s : Watch) : Prop :=
  match s.stage with
  | .opened _ | .filled => True
  | _ => False

instance (s : Watch) : Decidable s.InInit := by
  unfold InInit
  split <;> infer_instance

/-- Once an `init` has succeeded and while none is in progress, a file that is not newer than
`mModifiedTime` is the one that is loaded. -/
def UpToDate (s : Watch) : Prop :=
  ¬ s.InInit → ∀ idx, s.config.idx = some idx → s.mtime ≤ s.modifiedTime →
    s.config.confMap idx = (parse s.content).1

/-- The file is not replaced while an `init` is between its opening and its `stat`. -/
def Undisturbed (s : Watch) : Label → Prop
  | .replace _ _ => ¬ s.InInit
  | _ => True

instance (s : Watch) : ∀ label, Decidable (s.Undisturbed label)
  | .replace _ _ => inferInstanceAs (Decidable (¬ s.InInit))
  | .openFile | .read | .stat | .recheck | .compare => inferInstanceAs (Decidable True)

end Watch

/-! ### What a file is meant to say -/

/-- Neither end is blank. -/
def Bare (str : Str) : Prop :=
  (∀ c ∈ str.head?, c ∉ blanks) ∧ ∀ c ∈ str.getLast?, c ∉ blanks

structure Storable (key value : Str) : Prop where
  key_ne_nil : key ≠ []
  value_ne_nil : value ≠ []
  key_bare : Bare key
  value_bare : Bare value
  key_line : '\n' ∉ key
  value_line : '\n' ∉ value
  key_eq : '=' ∉ key
  key_comment : key.head? ≠ some '#'

/-- `key=value` with spaces and tabs around the key and the value. -/
def Renders (key value line : Str) : Prop :=
  ∃ left afterKey beforeValue right : Str,
    (∀ c ∈ left ++ afterKey ++ beforeValue ++ right, c = ' ' ∨ c = '\t') ∧
    line = left ++ (key ++ afterKey ++ '=' :: (beforeValue ++ value)) ++ right

/-- A blank line, a comment, or a line without a usable `=`: none, a leading or a trailing one. -/
def Ignorable (line : Str) : Prop :=
  '\n' ∉ line ∧
    ((∀ c ∈ line, c ∈ blanks) ∨
      (∃ left comment, (∀ c ∈ left, c ∈ blanks) ∧ line = left ++ '#' :: comment) ∨
      '=' ∉ trim line ∨ (trim line).head? = some '=' ∨
      ∃ key, '=' ∉ key ∧ trim line = key ++ ['='])

/-- The lines of a file that lists the pairs in this order, among others to be ignored. -/
inductive Lists : List (Str × Str) → List Str → Prop
  | nil : Lists [] []
  | pair {key value line : Str} {pairs : List (Str × Str)} {lines : List Str} :
      Renders key value line → Lists pairs lines → Lists ((key, value) :: pairs) (line :: lines)
  | other {line : Str} {pairs : List (Str × Str)} {lines : List Str} :
      Ignorable line → Lists pairs lines → Lists pairs (line :: lines)

/-- The position behind the `=` is in the range of `int`, and the length of what is there is not lost when
the last position is narrowed. -/
def Fits (line : Str) : Prop :=
  (before '=' (trim line)).length < 2 ^ 31 - 1 ∧ ¬ 2 ^ 32 ∣ (after '=' (trim line)).length

end Config

end EasyLib.Common
