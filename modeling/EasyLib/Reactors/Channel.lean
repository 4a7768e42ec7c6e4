import Mathlib.Data.BitVec

/-!
# The channel of a file descriptor

`Reactors/net/channel.h`. Only the interest in events is kept here: `Update()` hands it on to the
poller, which has no influence on it.
-/

namespace EasyLib.Reactors

def kReadEvent : BitVec 32 := 3

def kWriteEvent : BitVec 32 := 4

structure Channel where
  events : BitVec 32
  deriving DecidableEq, Repr

namespace Channel

def enableReading (channel : Channel) : Channel := { events := channel.events ||| kReadEvent }

def enableWriting (channel : Channel) : Channel := { events := channel.events ||| kWriteEvent }

def disableWriting (channel : Channel) : Channel := { events := channel.events &&& ~~~kWriteEvent }

def disableAll (_ : Channel) : Channel := { events := 0 }

def isReading (channel : Channel) : Bool := channel.events &&& kReadEvent ≠ 0

def isWriting (channel : Channel) : Bool := channel.events &&& kWriteEvent ≠ 0

end Channel

end EasyLib.Reactors
