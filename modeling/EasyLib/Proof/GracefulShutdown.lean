import EasyLib.Proof.Stream
import EasyLib.Proof.WriteInterest

/-!
# Graceful shutdown

`ShutdownInLoop` does not look at the send buffer, and `SendInLoop` does not look at `writeable_`. So the
caller has to: a shutdown is graceful exactly if it is taken when nothing is buffered and nothing is sent
after it. While the connection is writeable the log holds no `shutdown(2)`. Once it is not, the buffer is
empty and stays empty, and a further `SendInLoop` writes at once.
-/

namespace EasyLib.Reactors.TcpConnection

open MachineInt

variable {c next : TcpConnection} {data : List Byte} {result : WriteResult}

theorem sendInLoop_wf (hwf : c.sendBuffer.Wf) (hlen : data.length < 2 ^ 32)
    (hsend : c.sendInLoop data result = some next) : next.sendBuffer.Wf := by
  obtain ⟨-, ⟨hbuffer, -⟩ | ⟨hbuffered, happend, -⟩ | ⟨count, hshort, happend, -⟩⟩ :=
    sendInLoop_cases hsend
  · exact hbuffer ▸ hwf
  · exact (readableBytes_pos_of_append hwf hlen (by omega) happend).1
  · have hdrop := List.length_drop (i := count) (l := data)
    exact (readableBytes_pos_of_append hwf (by omega) (by omega) happend).1

theorem handleWrite_wf (hwf : c.sendBuffer.Wf) (hhandle : c.handleWrite result = some next) :
    next.sendBuffer.Wf := by
  obtain ⟨-, ⟨hbuffer, -⟩ | ⟨len, hbuffer, -⟩⟩ := handleWrite_cases hwf hhandle
  · exact hbuffer ▸ hwf
  · exact hbuffer ▸ (Buffer.retrieve_spec hwf len).1

theorem handleWrite_of_not_writeable (hclosed : c.writeable = false) :
    c.handleWrite result = some c := by
  simp [handleWrite, hclosed]

namespace Closing

structure Inv (s : Closing) : Prop where
  established : s.stream.conn.state = .established
  wf : s.stream.conn.sendBuffer.Wf
  graceful : s.Graceful
  opened : s.stream.conn.writeable = true → ∀ call ∈ s.log, call.isShutdown = false
  closed : s.stream.conn.writeable = false →
    s.stream.conn.sendBuffer.readableBytes = 0 ∧ ∃ call ∈ s.log, call.isShutdown = true

theorem start_inv (fd : Int) (events : BitVec 32) : (start fd events).Inv where
  established := rfl
  wf := (Stream.start_inv fd events).wf
  graceful := ⟨fun _ _ _ hmem => absurd hmem List.not_mem_nil, List.Pairwise.nil⟩
  opened := fun _ _ hmem => absurd hmem List.not_mem_nil
  closed := fun hclosed => Bool.noConfusion hclosed

variable {s next : Closing} {call : Call} {label : Label}

/-! ### The log -/

/-- One more system call. -/
theorem Graceful.concat (h : s.Graceful) {last : Syscall} (hlog : next.log = s.log ++ [last])
    (hempty : ∀ buffered kernel sent, last = .shutdown buffered kernel sent → buffered = [])
    (hordered : ∀ earlier ∈ s.log, earlier.isShutdown = true → last ≠ .write) : next.Graceful := by
  rw [Graceful, hlog]
  constructor
  · intro buffered kernel sent hmem
    rcases List.mem_append.mp hmem with hmem | hmem
    · exact h.1 buffered kernel sent hmem
    · exact hempty buffered kernel sent (List.mem_singleton.mp hmem).symm
  · rw [List.pairwise_append]
    refine ⟨h.2, List.pairwise_singleton _ _, fun earlier hearlier later hlater => ?_⟩
    rw [List.mem_singleton.mp hlater]
    exact hordered earlier hearlier

theorem Graceful.write (h : s.Graceful) (hopened : ∀ call ∈ s.log, call.isShutdown = false)
    (hlog : next.log = s.log ++ [.write]) : next.Graceful := by
  refine h.concat hlog (fun _ _ _ heq => by cases heq) fun earlier hearlier hshutdown => ?_
  exact absurd hshutdown (by simp [hopened earlier hearlier])

theorem Graceful.shutdown (h : s.Graceful) (hempty : s.stream.conn.sendBuffer.readable = [])
    (hlog : next.log = s.log ++ [s.shutdownCall]) : next.Graceful := by
  refine h.concat hlog (fun buffered kernel sent heq => ?_) fun _ _ _ => Syscall.noConfusion
  injection heq with hbuffered
  exact hbuffered.symm.trans hempty

theorem not_graceful_of_write (hshutdown : ∃ call ∈ s.log, call.isShutdown = true)
    (hlog : next.log = s.log ++ [.write]) : ¬ next.Graceful := by
  rintro ⟨-, hordered⟩
  obtain ⟨earlier, hearlier, htrue⟩ := hshutdown
  rw [hlog, List.pairwise_append] at hordered
  exact hordered.2.2 earlier hearlier .write (List.mem_singleton_self _) htrue rfl

theorem not_graceful_of_shutdown (hbuffered : s.stream.conn.sendBuffer.readable ≠ [])
    (hlog : next.log = s.log ++ [s.shutdownCall]) : ¬ next.Graceful := by
  rintro ⟨hempty, -⟩
  apply hbuffered
  apply hempty _ s.stream.conn.kernel s.stream.sent
  rw [hlog]
  exact List.mem_append_right _ (List.mem_singleton_self _)

/-! ### One step -/

theorem call_cases (hcall : s.call call = some next) :
    s.stream.step call = some next.stream ∧
      next.log = if writes s.stream.conn call then s.log ++ [.write] else s.log := by
  obtain ⟨stream, hstream, rfl⟩ := Option.map_eq_some_iff.mp hcall
  exact ⟨hstream, rfl⟩

theorem call_frame (hwf : s.stream.conn.sendBuffer.Wf)
    (hlen : ∀ data result, call = .sendInLoop data result → data.length < 2 ^ 32)
    (hcall : s.call call = some next) :
    next.stream.conn.state = s.stream.conn.state ∧
      next.stream.conn.writeable = s.stream.conn.writeable ∧ next.stream.conn.sendBuffer.Wf := by
  obtain ⟨hstream, -⟩ := call_cases hcall
  cases call with
  | sendInLoop data result =>
      obtain ⟨conn, hsend, hnext⟩ := Option.map_eq_some_iff.mp hstream
      obtain ⟨⟨hstate, hwriteable⟩, -⟩ := sendInLoop_cases hsend
      rw [← hnext]
      exact ⟨hstate, hwriteable, sendInLoop_wf hwf (hlen data result rfl) hsend⟩
  | handleWrite result =>
      obtain ⟨conn, hhandle, hnext⟩ := Option.map_eq_some_iff.mp hstream
      obtain ⟨⟨hstate, hwriteable⟩, -⟩ := handleWrite_cases hwf hhandle
      rw [← hnext]
      exact ⟨hstate, hwriteable, handleWrite_wf hwf hhandle⟩

/-- A call on a writeable connection. -/
theorem call_inv (h : s.Inv) (hopen : s.stream.conn.writeable = true)
    (hlen : ∀ data result, call = .sendInLoop data result → data.length < 2 ^ 32)
    (hcall : s.call call = some next) : next.Inv := by
  obtain ⟨hstate, hwriteable, hwf⟩ := call_frame h.wf hlen hcall
  have hopened := h.opened hopen
  have hlog := (call_cases hcall).2
  have hclosed (hnot : next.stream.conn.writeable = false) : False := by
    rw [hwriteable, hopen] at hnot
    cases hnot
  split_ifs at hlog
  · refine ⟨hstate.trans h.established, hwf, h.graceful.write hopened hlog, fun _ => ?_,
      fun hnot => (hclosed hnot).elim⟩
    rw [hlog]
    intro call hmem
    rcases List.mem_append.mp hmem with hmem | hmem
    · exact hopened call hmem
    · rw [List.mem_singleton.mp hmem]
      rfl
  · refine ⟨hstate.trans h.established, hwf, ?_, fun _ => ?_, fun hnot => (hclosed hnot).elim⟩
    · rw [Graceful, hlog]
      exact h.graceful
    · rw [hlog]
      exact hopened

theorem handleWrite_of_closed (hclosed : s.stream.conn.writeable = false) :
    s.step (.handleWrite result) = some s := by
  simp [step, call, Stream.step, handleWrite_of_not_writeable hclosed, writes, hclosed]

theorem shutdown_cases (hstep : s.step .shutdown = some next) :
    next.stream = s.stream ∧ next.log = s.log := by
  rw [← Option.some.inj hstep]
  split_ifs <;> exact ⟨rfl, rfl⟩

theorem shutdownInLoop_cases (hstep : s.step .shutdownInLoop = some next) :
    next.stream.sent = s.stream.sent ∧ next.stream.conn = s.stream.conn.shutdownInLoop ∧
      next.log = if s.stream.conn.writeable then s.log ++ [s.shutdownCall] else s.log := by
  obtain ⟨-, hnext⟩ := Option.ite_none_right_eq_some.mp hstep
  rw [← Option.some.inj hnext]
  exact ⟨rfl, rfl, rfl⟩

theorem Inv.of_eq (h : s.Inv) (hstream : next.stream.conn = s.stream.conn) (hlog : next.log = s.log) :
    next.Inv := by
  obtain ⟨hestablished, hwf, hgraceful, hopened, hclosed⟩ := h
  rw [Graceful, ← hlog] at hgraceful
  rw [← hstream] at hestablished hwf hopened hclosed
  rw [← hlog] at hopened hclosed
  exact ⟨hestablished, hwf, hgraceful, hopened, hclosed⟩

theorem shutdownInLoop_inv (h : s.Inv) (htimely : s.Timely .shutdownInLoop)
    (hstep : s.step .shutdownInLoop = some next) : next.Inv := by
  obtain ⟨-, hconn, hlog⟩ := shutdownInLoop_cases hstep
  cases hopen : s.stream.conn.writeable with
  | false =>
      rw [shutdownInLoop, hopen] at hconn
      rw [hopen] at hlog
      exact h.of_eq hconn hlog
  | true =>
      rw [shutdownInLoop, hopen, if_pos rfl] at hconn
      rw [hopen, if_pos rfl] at hlog
      have hbytes := htimely hopen
      have hempty : s.stream.conn.sendBuffer.readable = [] := by
        apply List.eq_nil_of_length_eq_zero
        rw [Buffer.length_readable h.wf, hbytes]
      refine ⟨?_, ?_, h.graceful.shutdown hempty hlog, ?_, ?_⟩ <;> rw [hconn]
      · exact h.established
      · exact h.wf
      · exact fun hopened => Bool.noConfusion hopened
      · refine fun _ => ⟨hbytes, s.shutdownCall, ?_, rfl⟩
        rw [hlog]
        exact List.mem_append_right _ (List.mem_singleton_self _)

theorem length_lt_of_admissible {data : List Byte} (hadmissible : s.Admissible (.send data result)) :
    data.length < 2 ^ 32 := by
  cases result with
  | accepted count => exact hadmissible.2.1
  | failed errno => exact hadmissible.2.elim

theorem step_of_timely (s : Closing) (label : Label) (next : Closing) (h : s.Inv)
    (hadmissible : s.Admissible label) (htimely : s.Timely label)
    (hstep : s.step label = some next) : next.Inv := by
  cases label with
  | send data result =>
      apply call_inv h htimely _ hstep
      rintro _ _ ⟨⟩
      exact length_lt_of_admissible hadmissible
  | handleWrite result =>
      cases hopen : s.stream.conn.writeable with
      | false =>
          rw [handleWrite_of_closed hopen] at hstep
          exact Option.some.inj hstep ▸ h
      | true =>
          apply call_inv h hopen _ hstep
          rintro _ _ ⟨⟩
  | shutdown =>
      obtain ⟨hstream, hlog⟩ := shutdown_cases hstep
      exact h.of_eq (congrArg Stream.conn hstream) hlog
  | shutdownInLoop => exact shutdownInLoop_inv h htimely hstep

/-- **Any other step** sends on a connection that is shut down, or shuts down with something buffered. -/
theorem step_of_not_timely (s : Closing) (label : Label) (next : Closing) (h : s.Inv)
    (hnot : ¬ s.Timely label) (hstep : s.step label = some next) : ¬ next.Graceful := by
  cases label with
  | send data result =>
      have hclosed : s.stream.conn.writeable = false := Bool.eq_false_iff.mpr hnot
      obtain ⟨hempty, hshutdown⟩ := h.closed hclosed
      have hlog := (call_cases hstep).2
      have hwrites : writes s.stream.conn (.sendInLoop data result) = true :=
        decide_eq_true ⟨h.established, hempty⟩
      rw [hwrites, if_pos rfl] at hlog
      exact not_graceful_of_write hshutdown hlog
  | shutdownInLoop =>
      obtain ⟨hopen, hbuffered⟩ := Classical.not_imp.mp hnot
      obtain ⟨-, -, hlog⟩ := shutdownInLoop_cases hstep
      rw [hopen, if_pos rfl] at hlog
      apply not_graceful_of_shutdown _ hlog
      intro hempty
      rw [← Buffer.length_readable h.wf, hempty] at hbuffered
      exact hbuffered rfl
  | handleWrite result => exact absurd trivial hnot
  | shutdown => exact absurd trivial hnot

/-! ### What has reached the kernel -/

structure Delivering (s : Closing) : Prop where
  inv : s.Inv
  delivered : s.Delivered
  stream : s.stream.conn.writeable = true → s.stream.Inv

theorem start_delivering (fd : Int) (events : BitVec 32) : (start fd events).Delivering where
  inv := start_inv fd events
  delivered := fun _ _ _ hmem => absurd hmem List.not_mem_nil
  stream := fun _ => Stream.start_inv fd events

theorem Delivered.of_log (h : s.Delivered)
    (hlog : ∀ buffered kernel sent, .shutdown buffered kernel sent ∈ next.log →
      .shutdown buffered kernel sent ∈ s.log) : next.Delivered :=
  fun buffered kernel sent hmem => h buffered kernel sent (hlog buffered kernel sent hmem)

theorem call_delivered (h : s.Delivered) (hcall : s.call call = some next) : next.Delivered := by
  apply h.of_log
  intro buffered kernel sent hmem
  rw [(call_cases hcall).2] at hmem
  split_ifs at hmem
  · rcases List.mem_append.mp hmem with hmem | hmem
    · exact hmem
    · cases List.mem_singleton.mp hmem
  · exact hmem

/-- A call that returns is lossless while the results of `write(2)` are in range. -/
theorem lossless_of_call {count : Nat} {data : List Byte} (h : s.stream.Inv)
    (hlen : data.length < 2 ^ 32) (hcount : count < 2 ^ 31)
    (hcall : s.call (.sendInLoop data (.accepted count)) = some next) :
    s.stream.Lossless (.sendInLoop data (.accepted count)) := by
  have hstream := (call_cases hcall).1
  by_cases hbuffered : s.stream.conn.sendBuffer.readableBytes > 0
  · simp only [Stream.Lossless, if_pos hbuffered]
    exact Stream.fits_of_buffered h hbuffered hlen hstream
  · simp only [Stream.Lossless, if_neg hbuffered, if_pos hcount]
    exact Stream.fits_of_direct h hbuffered hcount hlen hstream

theorem call_delivering (h : s.Delivering) (hinv : next.Inv) (hopen : s.stream.conn.writeable = true)
    (hadmissible : s.stream.Admissible call) (hlossless : s.stream.Lossless call)
    (hcall : s.call call = some next) : next.Delivering := by
  refine ⟨hinv, call_delivered h.delivered hcall, fun _ => ?_⟩
  obtain ⟨stream, hstream, hkept⟩ :=
    Stream.step_of_lossless s.stream call (h.stream hopen) hadmissible hlossless
  obtain rfl : stream = next.stream := Option.mem_unique hstream (call_cases hcall).1
  exact hkept

theorem shutdownInLoop_delivering (h : s.Delivering) (hinv : next.Inv)
    (htimely : s.Timely .shutdownInLoop) (hstep : s.step .shutdownInLoop = some next) :
    next.Delivering := by
  obtain ⟨-, hconn, hlog⟩ := shutdownInLoop_cases hstep
  have hclosed : next.stream.conn.writeable = false := by
    rw [hconn, shutdownInLoop]
    split_ifs with hopen
    · rfl
    · exact Bool.eq_false_iff.mpr hopen
  refine ⟨hinv, ?_, fun hopen => ?_⟩
  · intro buffered kernel sent hmem
    rw [hlog] at hmem
    split_ifs at hmem with hopen
    · rcases List.mem_append.mp hmem with hmem | hmem
      · exact h.delivered buffered kernel sent hmem
      · injection List.mem_singleton.mp hmem with _ hkernel hsent
        rw [hkernel, hsent]
        exact Stream.kernel_eq_sent (h.stream hopen) (htimely hopen).not_gt
    · exact h.delivered buffered kernel sent hmem
  · rw [hclosed] at hopen
    cases hopen

theorem step_delivering (s : Closing) (label : Label) (h : s.Delivering)
    (hadmissible : s.Admissible label) (hok : s.Timely label ∧ s.InRange label) :
    ∃ next ∈ s.step label, next.Delivering := by
  obtain ⟨next, hstep⟩ := Option.isSome_iff_exists.mp hadmissible.1
  obtain ⟨htimely, hrange⟩ := hok
  have hinv := step_of_timely s label next h.inv hadmissible htimely hstep
  refine ⟨next, hstep, ?_⟩
  cases label with
  | send data result =>
      cases result with
      | failed errno => exact hadmissible.2.elim
      | accepted count =>
          obtain ⟨-, hlen, hle⟩ := hadmissible
          have hallowed : s.stream.Admissible (.sendInLoop data (.accepted count)) := ⟨hlen, hle⟩
          have hlossless := lossless_of_call (h.stream htimely) hlen hrange hstep
          exact call_delivering h hinv htimely hallowed hlossless hstep
  | handleWrite result =>
      cases result with
      | failed errno => exact hadmissible.2.elim
      | accepted count =>
          cases hopen : s.stream.conn.writeable with
          | false =>
              rw [handleWrite_of_closed hopen] at hstep
              exact Option.some.inj hstep ▸ h
          | true =>
              have hallowed : s.stream.Admissible (.handleWrite (.accepted count)) := hadmissible.2
              exact call_delivering h hinv hopen hallowed hrange hstep
  | shutdown =>
      obtain ⟨hstream, hlog⟩ := shutdown_cases hstep
      refine ⟨hinv, h.delivered.of_log fun _ _ _ hmem => hlog ▸ hmem, ?_⟩
      rw [hstream]
      exact h.stream
  | shutdownInLoop => exact shutdownInLoop_delivering h hinv htimely hstep

/-! ### Whole runs -/

/-- **Shutdowns are graceful exactly in the timely runs.** If moreover every count that `write(2)` returns
is in the range of `int`, the kernel has accepted all that was sent when `shutdown(2)` is called. -/
theorem shutdown_graceful_iff {fd : Int} {events : BitVec 32} {labels : List Label}
    (hadmissible : Machine.AllSteps step Admissible (start fd events) labels) :
    (Machine.Safe step Graceful (start fd events) labels ↔
      Machine.AllSteps step Timely (start fd events) labels) ∧
    (Machine.AllSteps step (fun s label => s.Timely label ∧ s.InRange label) (start fd events) labels →
      Machine.Safe step Delivered (start fd events) labels) := by
  constructor
  · exact Machine.safe_iff_allSteps_of_enabled Inv (fun _ h => h.graceful) (fun _ _ h => h.1)
      step_of_timely step_of_not_timely labels _ (start_inv fd events) hadmissible
  · exact Machine.safe_of_allSteps Delivering (fun _ h => h.delivered) step_delivering labels _
      (start_delivering fd events) hadmissible

theorem shutdown_graceful_after_flush :
    let labels := [.send [1, 2, 3] (.accepted 1), .shutdown, .handleWrite (.accepted 2),
      .shutdownInLoop, .shutdown, .handleWrite (.accepted 0), .shutdownInLoop]
    Machine.Safe step Graceful (start 5 0) labels ∧ Machine.Safe step Delivered (start 5 0) labels := by
  intro labels
  have hadmissible : Machine.AllSteps step Admissible (start 5 0) labels := by decide +kernel
  obtain ⟨hgraceful, hdelivered⟩ := shutdown_graceful_iff hadmissible
  exact ⟨hgraceful.mpr (by decide +kernel), hdelivered (by decide +kernel)⟩

/-- Two bytes are still buffered when `shutdown(2)` is called, and `HandleWrite` never writes them. A `Send`
on a connection that is shut down writes. -/
theorem shutdown_not_graceful :
    (Machine.AllSteps step Admissible (start 5 0)
        [.send [1, 2, 3] (.accepted 1), .shutdown, .shutdownInLoop, .handleWrite (.accepted 2)] ∧
      ∃ last ∈ Machine.run step (start 5 0)
          [.send [1, 2, 3] (.accepted 1), .shutdown, .shutdownInLoop, .handleWrite (.accepted 2)],
        last.log = [.write, .shutdown [2, 3] [1] [1, 2, 3]] ∧
          last.stream.conn.sendBuffer.readable = [2, 3]) ∧
    Machine.AllSteps step Admissible (start 5 0) [.shutdown, .shutdownInLoop, .send [1] (.accepted 1)] ∧
      ∃ last ∈ Machine.run step (start 5 0) [.shutdown, .shutdownInLoop, .send [1] (.accepted 1)],
        last.log = [.shutdown [] [] [], .write] := by
  decide +kernel

end Closing

end EasyLib.Reactors.TcpConnection
