import EasyLib.Common.Strops
import EasyLib.Lib.CppString

/-!
# The parameters of a request

`HttpContext::ParseUri` of `http/HttpService.cpp`. Positions are kept in variables of type `int`, and the
variable that holds the position of the `?` holds the next `&` afterwards. `none` stands for an exception
of `substr`, and for a scan that does not come to its end, as it may not when a position has wrapped around.
-/

namespace EasyLib.Http

open Common CppString MachineInt

abbrev ParamsMap := Str → Option Str

structure HttpContext where
  url : Str
  paramsMap : ParamsMap

namespace HttpContext

def new : HttpContext where
  url := []
  paramsMap := fun _ => none

/-- The loop of `ParseUri` from the position `pos1` on, and the part behind it for the last parameter.
Each round moves on unless a position wraps around, so that there are no more rounds than characters. -/
def parseParams (uri : Str) : ℕ → Int → ParamsMap → Option ParamsMap
  | 0, _, _ => none
  | rounds + 1, pos1, paramsMap =>
      let pos := find uri '&' pos1
      let pos2 := find uri '=' pos1
      if pos ≠ -1 then
        if pos2 = -1 then some paramsMap
        else do
          let key ← substr uri pos1 (toInt32 (pos2 - pos1))
          let val ← substr uri (toInt32 (pos2 + 1)) (toInt32 (pos - pos2 - 1))
          parseParams uri rounds (toInt32 (pos + 1)) (Function.update paramsMap key (some val))
      else if pos1 ≠ uri.length then
        if pos2 = -1 then some paramsMap
        else do
          let key ← substr uri pos1 (toInt32 (pos2 - pos1))
          let val ← substr uri (toInt32 (pos2 + 1)) (uri.length - pos2 - 1)
          some (Function.update paramsMap key (some val))
      else some paramsMap

def parseUri (context : HttpContext) (uri : Str) : Option HttpContext := do
  let pos := find uri '?' 0
  let url ← if pos ≠ -1 then substr uri 0 pos else some uri
  let paramsMap ← parseParams uri (uri.length + 1) (toInt32 (pos + 1)) context.paramsMap
  some { url, paramsMap }

/-! ### What a URI is meant to say -/

def encode (pairs : List (Str × Str)) : Str :=
  ['&'].intercalate (pairs.map fun pair => pair.1 ++ '=' :: pair.2)

/-- Every parameter is one of the segments of the text behind the first `?`, split at its first `=`. -/
def Confined (uri : Str) (context : HttpContext) : Prop :=
  ∀ key value, context.paramsMap key = some value →
    '?' ∈ uri ∧ key ++ '=' :: value ∈ (after '?' uri).splitOn '&' ∧ '=' ∉ key ∧ '&' ∉ key ∧
      '&' ∉ value

/-- With a `?`, no segment without a `=` stands before one that has it; without, there is no `=`. -/
def Orderly (uri : Str) : Prop :=
  if '?' ∈ uri then
    ((after '?' uri).splitOn '&').Pairwise fun earlier later => '=' ∈ later → '=' ∈ earlier
  else '=' ∉ uri

instance (uri : Str) : Decidable (Orderly uri) :=
  inferInstanceAs (Decidable (if '?' ∈ uri then _ else _))

/-- The scan of the segments, the first of which begins at `offset`, as far as there is a `=` to be found:
each `=` and each `&` that it comes to has a position that is an `int`, and so is the one behind it. -/
def Measured : ℕ → List Str → Prop
  | _, [] => True
  | offset, segment :: segments =>
      '=' ∈ ['&'].intercalate (segment :: segments) →
        offset + (before '=' (['&'].intercalate (segment :: segments))).length < 2 ^ 31 - 1 ∧
          (segments ≠ [] → offset + segment.length < 2 ^ 31 - 1) ∧
          Measured (offset + segment.length + 1) segments

instance decidableMeasured : ∀ offset segments, Decidable (Measured offset segments)
  | _, [] => inferInstanceAs (Decidable True)
  | offset, segment :: segments =>
      have := decidableMeasured (offset + segment.length + 1) segments
      inferInstanceAs (Decidable (_ → _ ∧ _ ∧ _))

/-- The positions that `ParseUri` comes to are in the range of `int`. -/
def InReach (uri : Str) : Prop :=
  if '?' ∈ uri then
    (before '?' uri).length < 2 ^ 31 - 1 ∧
      Measured ((before '?' uri).length + 1) ((after '?' uri).splitOn '&')
  else Measured 0 (uri.splitOn '&')

instance (uri : Str) : Decidable (InReach uri) :=
  inferInstanceAs (Decidable (if '?' ∈ uri then _ else _))

end HttpContext

end EasyLib.Http
