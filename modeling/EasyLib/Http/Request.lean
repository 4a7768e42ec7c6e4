import EasyLib.Http.HttpContext
import EasyLib.Lib.Loop

/-!
# A request as its callback sees it

`HttpContext::Init` and its getters, and `HttpService::GenericCallBack`, of `http/HttpService.cpp`. The body
is copied through an array of 128 characters, 127 at a time. `body_.append(cbuf, 0, n)` is the overload for
a part of a string, so that the array is first made into a string, up to the first null character in it or
behind it, and then cut to `n` characters. What the array holds behind the characters that were read is not
initialised: `behind` says what is found there when so many characters are left.
-/

namespace EasyLib.Http

open Common CppString

/-- The parts of an `evhttp_request` that are read. -/
structure Request where
  uri : Str
  inputHeaders : List (Str × Str)
  inputBuffer : Str
  deriving DecidableEq, Repr

structure RequestContext extends HttpContext where
  headersMap : ParamsMap
  body : Str

namespace RequestContext

def new : RequestContext where
  toHttpContext := .new
  headersMap := fun _ => none
  body := []

def nullChar : Char := Char.ofNat 0

/-- The string that a `const char*` into this memory is converted to. -/
def ofCharPtr (memory : Str) : Str := memory.takeWhile (· ≠ nullChar)

/-- A round of the loop that copies the body, on the buffer and `body_`. -/
def bodyRound (behind : ℕ → Str) : Str × Str → (Str × Str) ⊕ Str
  | (buf, body) =>
      if buf.length ≠ 0 then
        let n := min buf.length (128 - 1)
        let cbuf := buf.take n ++ behind buf.length
        .inl (buf.drop n, if 0 < n then body ++ (ofCharPtr cbuf).take n else body)
      else .inr body

def init (behind : ℕ → Str) (context : RequestContext) (request : Request) : Option RequestContext := do
  let headersMap := assignAll context.headersMap request.inputHeaders
  let parsed ← context.parseUri request.uri
  let body ← Loop.iterate (bodyRound behind) (request.inputBuffer.length + 1)
    (request.inputBuffer, context.body)
  some { parsed with headersMap, body }

def getParamValue (context : RequestContext) (paramName : Str) : Str :=
  (context.paramsMap paramName).getD []

def getHeaderValue (context : RequestContext) (headerName : Str) : Str :=
  (context.headersMap headerName).getD []

/-! ### What a callback is to see -/

/-- The last of several values for a name counts. -/
def lastValue (pairs : List (Str × Str)) (name : Str) : Str := (pairs.reverse.lookup name).getD []

/-- The context tells what the request says, save for a body with null characters. -/
structure Faithful (request : Request) (context : RequestContext) : Prop where
  url : context.url = before '?' request.uri
  params : ∀ path pairs, request.uri = path ++ '?' :: HttpContext.encode pairs → '?' ∉ path →
    (∀ pair ∈ pairs, '=' ∉ pair.1 ∧ '&' ∉ pair.1 ∧ '&' ∉ pair.2) →
      ∀ name, context.getParamValue name = lastValue pairs name
  headers : ∀ name, context.getHeaderValue name = lastValue request.inputHeaders name
  body : context.body = request.inputBuffer ↔ nullChar ∉ request.inputBuffer
  bodyPart : context.body.Sublist request.inputBuffer

end RequestContext

/-- The callbacks that were registered with a service. -/
structure Registered (CallBack : Type) where
  callbackMap : Str → Option CallBack
  defaultCallback : Option CallBack

namespace Registered

variable {CallBack : Type}

def new : Registered CallBack where
  callbackMap := fun _ => none
  defaultCallback := none

def registerRequestCallback (service : Registered CallBack) (url : Str) (callback : CallBack) :
    Registered CallBack :=
  { service with callbackMap := Function.update service.callbackMap url (some callback) }

def registerDefaultCallback (service : Registered CallBack) (callback : CallBack) :
    Registered CallBack :=
  { service with defaultCallback := some callback }

/-- The callback that is called, with the context it is given. Calling a default callback that was not
registered throws. -/
def genericCallBack (service : Registered CallBack) (behind : ℕ → Str) (request : Request) :
    Option (CallBack × RequestContext) := do
  let context ← RequestContext.init behind .new request
  match service.callbackMap context.url with
  | some callback => some (callback, context)
  | none => service.defaultCallback.map fun callback => (callback, context)

end Registered

end EasyLib.Http
