import EasyLib.Proof.WriteInterest
import EasyLib.Reactors.IoLoop

/-!
# The stages of a connection

A connection is fresh until its `ConnectionEstablished` is run, then open, and closed by the `HandleRead`
that finds the end of the stream. Each stage says which callbacks the user has seen and what has been
read; each function of the connection is summed up in the stages between which it leads.
-/

namespace EasyLib.Reactors

open MachineInt

namespace Channel

variable (channel : Channel)

theorem isReading_enableReading : channel.enableReading.isReading = true := by
  have hbits : (channel.events ||| kReadEvent) &&& kReadEvent ≠ 0#32 := by
    rw [BitVec.and_or_distrib_right, Ne, BitVec.or_eq_zero_iff]
    rintro ⟨-, hzero⟩
    exact absurd hzero (by decide)
  exact decide_eq_true hbits

theorem isReading_enableWriting : channel.enableWriting.isReading = channel.isReading := by
  have hzero : kWriteEvent &&& kReadEvent = 0#32 := by decide
  have hbits : (channel.events ||| kWriteEvent) &&& kReadEvent = channel.events &&& kReadEvent := by
    rw [BitVec.and_or_distrib_right, hzero, BitVec.or_zero]
  simp only [isReading, enableWriting, hbits]

theorem isReading_disableWriting : channel.disableWriting.isReading = channel.isReading := by
  have hmask : ~~~kWriteEvent &&& kReadEvent = kReadEvent := by decide
  have hbits : channel.events &&& ~~~kWriteEvent &&& kReadEvent = channel.events &&& kReadEvent := by
    rw [BitVec.and_assoc, hmask]
  simp only [isReading, disableWriting, hbits]

end Channel

/-! ### The functions of a connection -/

namespace TcpConnection

variable {c next : TcpConnection} {data : List Byte} {result : WriteResult}

/-- What `SendInLoop` and `HandleWrite` leave alone, with the callback that they may have called. -/
structure Wrote (c next : TcpConnection) : Prop where
  fd : next.fd = c.fd
  state : next.state = c.state
  reading : next.channel.isReading = c.channel.isReading
  callbacks : next.callbacks = c.callbacks ∨ next.callbacks = c.callbacks ++ [.writeComplete]

theorem sendInLoop_wrote (hsend : c.sendInLoop data result = some next) : Wrote c next := by
  obtain ⟨kernel, hwrite⟩ := write_frame c data result
  simp only [sendInLoop] at hsend
  rw [hwrite] at hsend
  split at hsend
  · rw [← Option.some.inj hsend]
    exact ⟨rfl, rfl, rfl, .inl rfl⟩
  split at hsend
  · obtain ⟨buffer, -, rfl⟩ := Option.map_eq_some_iff.mp hsend
    exact ⟨rfl, rfl, rfl, .inl rfl⟩
  split at hsend
  · split at hsend
    · obtain ⟨buffer, -, rfl⟩ := Option.map_eq_some_iff.mp hsend
      exact ⟨rfl, rfl, Channel.isReading_enableWriting _, .inl rfl⟩
    · rw [← Option.some.inj hsend]
      exact ⟨rfl, rfl, rfl, .inr rfl⟩
  · rw [← Option.some.inj hsend]
    exact ⟨rfl, rfl, rfl, .inl rfl⟩

theorem sendInLoop_of_not_established (hstate : c.state ≠ .established) :
    c.sendInLoop data result = some c := if_pos hstate

theorem handleWrite_wrote (hhandle : c.handleWrite result = some next) : Wrote c next := by
  obtain ⟨kernel, hwrite⟩ := write_frame c c.sendBuffer.readable result
  simp only [handleWrite] at hhandle
  split at hhandle
  · rw [← Option.some.inj hhandle]
    exact ⟨rfl, rfl, rfl, .inl rfl⟩
  obtain ⟨-, -, hhandle⟩ := Option.bind_eq_some_iff.mp hhandle
  rw [hwrite] at hhandle
  split at hhandle
  · split at hhandle
    · rw [← Option.some.inj hhandle]
      exact ⟨rfl, rfl, Channel.isReading_disableWriting _, .inr rfl⟩
    · rw [← Option.some.inj hhandle]
      exact ⟨rfl, rfl, rfl, .inl rfl⟩
  · rw [← Option.some.inj hhandle]
    exact ⟨rfl, rfl, rfl, .inl rfl⟩

theorem shutdownInLoop_wrote (c : TcpConnection) : Wrote c c.shutdownInLoop := by
  unfold shutdownInLoop
  split
  · exact ⟨rfl, rfl, rfl, .inl rfl⟩
  · exact ⟨rfl, rfl, rfl, .inl rfl⟩

theorem new_interest_of (fd : ℤ) {events : BitVec 32} (hevents : events &&& kWriteEvent = 0) :
    (new fd events).Interest := by
  have hnone : ¬ (Channel.mk 0).isWriting = true := by decide
  obtain ⟨hwf, hwriting⟩ := new_interest fd
  refine ⟨hwf, iff_of_false ?_ (mt hwriting.mpr hnone)⟩
  simp [new, Channel.isWriting, hevents]

theorem channel_shutdownInLoop (c : TcpConnection) : c.shutdownInLoop.channel = c.channel := by
  unfold shutdownInLoop
  split <;> rfl

theorem sendBuffer_shutdownInLoop (c : TcpConnection) :
    c.shutdownInLoop.sendBuffer = c.sendBuffer := by
  unfold shutdownInLoop
  split <;> rfl

end TcpConnection

def Buffer.ReadvResult.count : Buffer.ReadvResult → ℤ
  | .error _ => -1
  | .bytes data => data.length

theorem Buffer.readFromSocket_spec {b next : Buffer} {result : ReadvResult} {n : ℤ} (h : b.Wf)
    (hread : b.readFromSocket result = some (next, n))
    (hadmissible : b.Admissible (.readFromSocket result)) :
    next.Wf ∧ next.readable = b.readable ++ (IoConnection.delivered result).flatten ∧
      n = result.count := by
  have hstep : b.step (.readFromSocket result) = some next := by
    rw [Buffer.step, hread]
    rfl
  obtain ⟨hwf, hqueue⟩ := step_refines b _ next h hadmissible hstep
  cases result with
  | error errno =>
      refine ⟨hwf, hqueue, ?_⟩
      simp only [readFromSocket, begin_eq h, Option.bind_eq_bind, Option.bind_some,
        Option.some.injEq, Prod.mk.injEq] at hread
      exact hread.2.symm
  | bytes data =>
      refine ⟨hwf, ?_, ?_⟩
      · rw [hqueue]
        simp [fifo, Call.added, IoConnection.delivered]
      · by_cases hroom : data.length ≤ b.writeableBytes
        · obtain ⟨b', hread', -⟩ := readFromSocket_of_le h hroom
          exact (Prod.mk.inj (Option.some.inj (hread.symm.trans hread'))).2
        · obtain ⟨full, -, -, -, hread'⟩ := readFromSocket_of_gt h (not_le.mp hroom)
          obtain ⟨b', -, hpair⟩ := Option.map_eq_some_iff.mp (hread'.symm.trans hread)
          exact (Prod.mk.inj hpair).2.symm

namespace IoConnection

variable {c next : IoConnection} {conn : TcpConnection}

def Body (body : List UserCall) : Prop :=
  ∀ call ∈ body, call = .message ∨ call = .callback .writeComplete

/-- The receiving side in every stage. -/
structure Stream (c : IoConnection) : Prop where
  wf : c.recvBuffer.Wf
  stream : c.reads.flatten = c.consumed ++ c.recvBuffer.readable

structure Fresh (c : IoConnection) : Prop where
  state : c.conn.state = .closed
  calls : c.calls = []
  reads : c.reads = []

structure Opened (c : IoConnection) : Prop where
  state : c.conn.state = .established
  reading : c.conn.channel.isReading = true
  calls : ∃ body, Body body ∧ c.calls = .callback .established :: body ∧
    body.count .message = c.reads.length
  nonempty : [] ∉ c.reads

structure Closed (c : IoConnection) : Prop where
  state : c.conn.state = .closed
  events : c.conn.channel.events = 0
  calls : ∃ body chunks, Body body ∧
    c.calls = .callback .established :: body ++ [.callback .disconnected, .callback .closed] ∧
    c.reads = chunks ++ [[]] ∧ [] ∉ chunks ∧ body.count .message = chunks.length

theorem Body.concat {body : List UserCall} (h : Body body) {call : UserCall}
    (hcall : call = .message ∨ call = .callback .writeComplete) : Body (body ++ [call]) := by
  intro other hother
  obtain hother | hother := List.mem_append.mp hother
  · exact h other hother
  · rw [List.mem_singleton.mp hother]
    exact hcall

theorem new_fresh (fd : ℤ) (events : BitVec 32) : (new fd events).Fresh := ⟨rfl, rfl, rfl⟩

theorem new_stream (fd : ℤ) (events : BitVec 32) : (new fd events).Stream := by
  have hnew : Buffer.new Buffer.kInitialSize = some (new fd events).recvBuffer := if_pos (by decide)
  obtain ⟨hwf, hempty, -⟩ := Buffer.new_wf (by decide) hnew
  refine ⟨hwf, ?_⟩
  rw [hempty]
  rfl

theorem calls_set {more : List Callback} (h : conn.callbacks = c.conn.callbacks ++ more) :
    (c.set conn).calls = c.calls ++ more.map .callback := by
  rw [set, h, List.drop_left]

theorem set_self (c : IoConnection) : c.set c.conn = c := by
  simp [set]

theorem Stream.set (h : c.Stream) (conn : TcpConnection) : (c.set conn).Stream := ⟨h.wf, h.stream⟩

theorem Opened.set_wrote (h : c.Opened) (hwrote : c.conn.Wrote conn) : (c.set conn).Opened := by
  obtain ⟨body, hbody, hcalls, hcount⟩ := h.calls
  refine ⟨hwrote.state.trans h.state, hwrote.reading.trans h.reading, ?_, h.nonempty⟩
  rcases hwrote.callbacks with hsame | hcomplete
  · refine ⟨body, hbody, ?_, hcount⟩
    rw [calls_set (hsame.trans (List.append_nil _).symm), hcalls, List.map_nil, List.append_nil]
  · refine ⟨body ++ [.callback .writeComplete], hbody.concat (.inr rfl), ?_, ?_⟩
    · rw [calls_set hcomplete, hcalls]
      rfl
    · rw [List.count_append, hcount]
      rfl

theorem Fresh.established (h : c.Fresh) : (c.set c.conn.connectionEstablished).Opened := by
  refine ⟨rfl, Channel.isReading_enableReading _, ⟨[], by simp [Body], ?_, ?_⟩, ?_⟩
  · rw [calls_set rfl, h.calls]
    rfl
  · rw [set, h.reads]
    rfl
  · rw [set, h.reads]
    exact List.not_mem_nil

/-- What `HandleRead` does, by what `readv` has returned. -/
theorem handleRead_cases {result : Buffer.ReadvResult} (h : c.Stream) (hreadable : c.Readable result)
    (hread : c.handleRead result = some next) : next.Stream ∧ ∃ recvBuffer,
      (next = { c with recvBuffer } ∨
      (∃ data ≠ [], next = { c with
        recvBuffer, reads := c.reads ++ [data], calls := c.calls ++ [.message] }) ∨
      next = IoConnection.set { c with recvBuffer, reads := c.reads ++ [[]] } c.conn.handleClose) := by
  obtain ⟨⟨recvBuffer, n⟩, hsocket, hnext⟩ := Option.map_eq_some_iff.mp hread
  cases result with
  | error errno =>
      obtain ⟨hwf, hqueue, rfl⟩ := Buffer.readFromSocket_spec h.wf hsocket trivial
      have hnext : { c with recvBuffer, reads := c.reads ++ [] } = next := hnext
      rw [List.append_nil] at hnext
      refine ⟨hnext ▸ ⟨hwf, ?_⟩, recvBuffer, .inl hnext.symm⟩
      rw [hqueue, h.stream]
      simp [delivered]
  | bytes data =>
      obtain ⟨hroom, hint⟩ := hreadable
      obtain ⟨hwf, hqueue, rfl⟩ := Buffer.readFromSocket_spec h.wf hsocket hroom
      have hstream : (c.reads ++ [data]).flatten = c.consumed ++ recvBuffer.readable := by
        rw [hqueue, List.flatten_append, h.stream, List.append_assoc]
        rfl
      simp only [Buffer.ReadvResult.count, toInt32_of_lt hint, delivered] at hnext
      by_cases hdata : data = []
      · subst hdata
        rw [if_neg (by simp), if_pos (by simp)] at hnext
        exact ⟨hnext ▸ ⟨hwf, hstream⟩, recvBuffer, .inr (.inr hnext.symm)⟩
      · have hpos : (0 : ℤ) < data.length := by
          have := List.length_pos_iff.mpr hdata
          omega
        rw [if_pos hpos] at hnext
        exact ⟨hnext ▸ ⟨hwf, hstream⟩, recvBuffer, .inr (.inl ⟨data, hdata, hnext.symm⟩)⟩

theorem Opened.handleRead {result : Buffer.ReadvResult} (h : c.Opened) (hstream : c.Stream)
    (hreadable : c.Readable result) (hread : c.handleRead result = some next) :
    next.Stream ∧ (next.Opened ∧ next.conn = c.conn ∨ next.Closed ∧ next.conn = c.conn.handleClose) := by
  obtain ⟨hstream', recvBuffer, rfl | ⟨data, hdata, rfl⟩ | rfl⟩ := handleRead_cases hstream hreadable hread
  · exact ⟨hstream', .inl ⟨⟨h.state, h.reading, h.calls, h.nonempty⟩, rfl⟩⟩
  · obtain ⟨body, hbody, hcalls, hcount⟩ := h.calls
    refine ⟨hstream', .inl ⟨⟨h.state, h.reading, ?_, ?_⟩, rfl⟩⟩
    · refine ⟨body ++ [.message], hbody.concat (.inl rfl), by simp [hcalls], ?_⟩
      simp [hcount]
    · simp [h.nonempty, hdata.symm]
  · obtain ⟨body, hbody, hcalls, hcount⟩ := h.calls
    refine ⟨hstream', .inr ⟨⟨rfl, rfl, body, c.reads, hbody, ?_, rfl, h.nonempty, hcount⟩, rfl⟩⟩
    rw [calls_set rfl, hcalls]
    rfl

/-- A connection that is not established ignores what is sent. -/
theorem request_of_not_established {request : Request} (hstate : c.conn.state ≠ .established)
    (hrequest : c.request request = some next) :
    ∃ writeable, next = { c with conn := { c.conn with writeable } } := by
  cases request with
  | sendInLoop data result =>
      rw [IoConnection.request, TcpConnection.sendInLoop_of_not_established hstate, Option.map_some,
        set_self] at hrequest
      exact ⟨c.conn.writeable, (Option.some.inj hrequest).symm⟩
  | shutdownInLoop =>
      have hrequest : c.set c.conn.shutdownInLoop = next := Option.some.inj hrequest
      refine ⟨c.conn.shutdownInLoop.writeable, hrequest ▸ ?_⟩
      unfold TcpConnection.shutdownInLoop
      split <;> simp [set]

theorem request_wrote {request : Request} (hrequest : c.request request = some next) :
    ∃ conn, c.conn.Wrote conn ∧ next = c.set conn := by
  cases request with
  | sendInLoop data result =>
      obtain ⟨conn, hsend, rfl⟩ := Option.map_eq_some_iff.mp hrequest
      exact ⟨conn, TcpConnection.sendInLoop_wrote hsend, rfl⟩
  | shutdownInLoop =>
      exact ⟨_, c.conn.shutdownInLoop_wrote, (Option.some.inj hrequest).symm⟩

/-- A request never takes the interest in writing away. -/
theorem isWriting_of_request {request : Request} (hrequest : c.request request = some next)
    (hwriting : c.conn.channel.isWriting = true) : next.conn.channel.isWriting = true := by
  cases request with
  | sendInLoop data result =>
      obtain ⟨conn, hsend, rfl⟩ := Option.map_eq_some_iff.mp hrequest
      obtain ⟨-, ⟨-, hchannel⟩ | ⟨-, -, hchannel⟩ | ⟨-, -, -, hchannel⟩⟩ :=
        TcpConnection.sendInLoop_cases hsend
      · exact (congrArg Channel.isWriting hchannel).trans hwriting
      · exact (congrArg Channel.isWriting hchannel).trans hwriting
      · exact (congrArg Channel.isWriting hchannel).trans (Channel.isWriting_enableWriting _)
  | shutdownInLoop =>
      rw [← Option.some.inj hrequest]
      exact (congrArg Channel.isWriting c.conn.channel_shutdownInLoop).trans hwriting

/-- The length of what is sent is a `uint32_t`. -/
def Short : Request → Prop
  | .sendInLoop data _ => data.length < 2 ^ 32
  | .shutdownInLoop => True

theorem MayRequest.short {request : Request} (h : c.MayRequest request) : Short request := by
  cases request with
  | sendInLoop data result => exact h
  | shutdownInLoop => trivial

theorem request_interest {request : Request} (h : c.conn.Interest) (hshort : Short request)
    (hrequest : c.request request = some next) : next.conn.Interest := by
  cases request with
  | sendInLoop data result =>
      obtain ⟨conn, hsend, rfl⟩ := Option.map_eq_some_iff.mp hrequest
      exact TcpConnection.sendInLoop_interest h hshort hsend
  | shutdownInLoop =>
      rw [← Option.some.inj hrequest]
      exact h.of_eq c.conn.sendBuffer_shutdownInLoop c.conn.channel_shutdownInLoop

theorem Stream.retrieve (h : c.Stream) (len : ℕ) : (c.retrieve len).Stream := by
  obtain ⟨hwf, hqueue, -⟩ := Buffer.retrieve_spec h.wf len
  refine ⟨hwf, ?_⟩
  simp only [IoConnection.retrieve]
  rw [hqueue, h.stream, List.append_assoc, List.take_append_drop]

end IoConnection

end EasyLib.Reactors
