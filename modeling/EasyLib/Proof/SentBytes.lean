import EasyLib.Reactors.Sending

/-!
# The bytes that are sent

A `Send` from another thread sends what its memory holds when the loop reads it. That is what the caller
passed as long as nothing is stored there, and a store in between can always be followed to a byte that the
caller did not pass.
-/

namespace EasyLib.Reactors

theorem Memory.length_read (memory : Memory) (data len : ℕ) : (memory.read data len).length = len := by
  rw [read, List.length_map, List.length_range]

theorem Memory.getElem?_read {memory : Memory} {data len i : ℕ} (h : i < len) :
    (memory.read data len)[i]? = some (memory (data + i)) := by
  rw [read, List.getElem?_map, List.getElem?_range h, Option.map_some]

theorem Memory.read_succ (memory : Memory) (data len : ℕ) :
    memory.read data (len + 1) = memory data :: memory.read (data + 1) len := by
  rw [read, read, List.range_succ_eq_map, List.map_cons, List.map_map]
  refine congrArg _ (List.map_congr_left fun i _ => ?_)
  rw [Function.comp_apply, Nat.succ_eq_add_one, Nat.add_assoc, Nat.add_comm 1 i]

theorem Memory.take_read (memory : Memory) (data : ℕ) {count len : ℕ} (h : count ≤ len) :
    (memory.read data len).take count = memory.read data count := by
  rw [read, ← List.map_take, List.take_range, Nat.min_eq_left h, read]

theorem Memory.drop_read (memory : Memory) (data count len : ℕ) :
    (memory.read data len).drop count = memory.read (data + count) (len - count) := by
  ext1 i
  rw [List.getElem?_drop]
  by_cases hlt : count + i < len
  · rw [getElem?_read hlt, getElem?_read (by omega), Nat.add_assoc]
  · rw [List.getElem?_eq_none (by rw [length_read]; omega),
      List.getElem?_eq_none (by rw [length_read]; omega)]

theorem Memory.read_update {memory : Memory} {data len address : ℕ} {byte : Byte}
    (h : address < data ∨ data + len ≤ address) :
    Memory.read (Function.update memory address byte) data len = memory.read data len := by
  refine List.map_congr_left fun i hi => ?_
  have hlt := List.mem_range.mp hi
  exact Function.update_of_ne (by omega) _ _

namespace Sending

open Machine MachineInt

variable {s next : Sending} {call : QueuedSend} {target : CopyTarget} {offset count : ℕ}
  {copied : List Byte}

/-- A copy stays inside the bytes of its call. -/
def InRange : SendingLoop → Prop
  | .idle => True
  | .copying call _ offset count _ => offset + count ≤ call.len.toNat

/-- The bytes of the calls that wait are as they were, and so are those copied so far. -/
structure Inv (s : Sending) : Prop where
  content : ∀ call ∈ s.pending, s.memory.read call.data call.len.toNat = call.content
  range : InRange s.loop
  faithful : s.Faithful

theorem start_inv (conn : TcpConnection) (memory : Memory) : (start conn memory).Inv where
  content := fun _ hcall => absurd hcall List.not_mem_nil
  range := trivial
  faithful := ⟨fun _ hentry => absurd hentry List.not_mem_nil, List.prefix_rfl⟩

/-! ### The steps of the loop -/

theorem run_cases {result : WriteResult} (hstep : s.step (.run result) = some next) :
    ∃ call queue, s.loop = .idle ∧ s.queue = call :: queue ∧ next.memory = s.memory ∧
      next.queue = queue ∧ next.handed = s.handed ∧
      (next.loop = .idle ∨ ∃ target count, count ≤ call.len.toNat ∧
        next.loop = .copying call target 0 count []) := by
  simp only [step] at hstep
  split at hstep
  · rename_i call queue hloop hqueue
    refine ⟨call, queue, hloop, hqueue, ?_⟩
    simp only [sendInLoop] at hstep
    split at hstep
    · obtain rfl := Option.some.inj hstep
      exact ⟨rfl, rfl, rfl, Or.inl hloop⟩
    · split at hstep
      · obtain rfl := Option.some.inj hstep
        exact ⟨rfl, rfl, rfl, Or.inr ⟨_, _, le_rfl, rfl⟩⟩
      · split at hstep
        · split at hstep
          · rename_i hle
            obtain rfl := Option.some.inj hstep
            exact ⟨rfl, rfl, rfl, Or.inr ⟨_, _, hle, rfl⟩⟩
          · cases hstep
        · obtain rfl := Option.some.inj hstep
          exact ⟨rfl, rfl, rfl, Or.inl hloop⟩
  · cases hstep

theorem copy_cases (hstep : s.copy = some next) :
    ∃ call target offset count copied, s.loop = .copying call target offset count copied ∧
      copied.length < count ∧
      next = { s with
        loop := .copying call target offset count
          (copied ++ [s.memory (call.data + (offset + copied.length))]) } := by
  rw [copy] at hstep
  split at hstep
  · cases hstep
  · rename_i call target offset count copied hloop
    split at hstep
    · rename_i hlt
      exact ⟨call, target, offset, count, copied, hloop, hlt, (Option.some.inj hstep).symm⟩
    · cases hstep

theorem written_cases (s : Sending) (call : QueuedSend) (writeCnt : Int) :
    (s.written call writeCnt).memory = s.memory ∧ (s.written call writeCnt).queue = s.queue ∧
      (s.written call writeCnt).handed = s.handed ∧
      ((s.written call writeCnt).loop = .idle ∨ ∃ offset < call.len.toNat,
        (s.written call writeCnt).loop =
          .copying call (.sendBuffer true) offset (call.len.toNat - offset) []) := by
  rw [written]
  split
  · split
    · rename_i hlt
      exact ⟨rfl, rfl, rfl, Or.inr ⟨_, hlt, rfl⟩⟩
    · exact ⟨rfl, rfl, rfl, Or.inl rfl⟩
  · exact ⟨rfl, rfl, rfl, Or.inl rfl⟩

theorem finish_cases (hstep : s.finish = some next) :
    ∃ call target offset copied, s.loop = .copying call target offset copied.length copied ∧
      next.memory = s.memory ∧ next.queue = s.queue ∧
      next.handed = s.handed ++ [(s.loop.due, copied)] ∧
      (next.loop = .idle ∨ ∃ offset < call.len.toNat,
        next.loop = .copying call (.sendBuffer true) offset (call.len.toNat - offset) []) := by
  rw [finish] at hstep
  split at hstep
  · cases hstep
  · rename_i call target offset count copied hloop
    split at hstep
    · rename_i hcount
      subst hcount
      refine ⟨call, target, offset, copied, hloop, ?_⟩
      cases target with
      | kernel =>
          obtain rfl := Option.some.inj hstep
          exact written_cases _ call _
      | sendBuffer enableWriting =>
          obtain ⟨sendBuffer, -, rfl⟩ := Option.map_eq_some_iff.mp hstep
          exact ⟨rfl, rfl, rfl, Or.inl rfl⟩
    · cases hstep

theorem between_eq {conn : Option TcpConnection} (hstep : s.between conn = some next) :
    s.loop = .idle ∧ ∃ c, next = { s with conn := c } := by
  rw [between] at hstep
  split at hstep
  · rename_i hloop
    obtain ⟨c, -, rfl⟩ := Option.map_eq_some_iff.mp hstep
    exact ⟨hloop, c, rfl⟩
  · cases hstep

/-! ### What they keep -/

/-- The next byte of a call whose bytes are as they were is the next one due. -/
theorem getElem?_due (hcontent : s.memory.read call.data call.len.toNat = call.content)
    (hrange : offset + count ≤ call.len.toNat) {i : ℕ} (hi : i < count) :
    ((call.content.drop offset).take count)[i]? = some (s.memory (call.data + (offset + i))) := by
  rw [List.getElem?_take_of_lt hi, List.getElem?_drop, ← hcontent, Memory.getElem?_read (by omega)]

theorem prefix_concat_of_getElem? {due : List Byte} {byte : Byte} (h : copied <+: due)
    (hbyte : due[copied.length]? = some byte) : copied ++ [byte] <+: due := by
  obtain ⟨rest, rfl⟩ := h
  rw [List.getElem?_append_right le_rfl, Nat.sub_self] at hbyte
  obtain ⟨rest', rfl⟩ : ∃ rest', rest = byte :: rest' := by
    cases rest with
    | nil => cases hbyte
    | cons first rest' => exact ⟨rest', by rw [Option.some.inj hbyte]⟩
  exact ⟨rest', by simp⟩

theorem inv_of_idle (hidle : next.loop = .idle)
    (hcontent : ∀ call ∈ next.queue, next.memory.read call.data call.len.toNat = call.content)
    (hhanded : ∀ entry ∈ next.handed, entry.2 = entry.1) : next.Inv := by
  refine ⟨?_, ?_, hhanded, ?_⟩
  · rw [pending, hidle]
    exact hcontent
  · rw [hidle]
    trivial
  · rw [hidle]
    exact List.prefix_rfl

theorem inv_of_copying (hloop : next.loop = .copying call target offset count [])
    (hrange : offset + count ≤ call.len.toNat)
    (hcontent : ∀ other ∈ call :: next.queue,
      next.memory.read other.data other.len.toNat = other.content)
    (hhanded : ∀ entry ∈ next.handed, entry.2 = entry.1) : next.Inv := by
  refine ⟨?_, ?_, hhanded, ?_⟩
  · rw [pending, hloop]
    exact hcontent
  · rw [hloop]
    exact hrange
  · rw [hloop]
    exact List.nil_prefix

theorem copy_inv (h : s.Inv) (hstep : s.copy = some next) : next.Inv := by
  obtain ⟨call, target, offset, count, copied, hloop, hlt, rfl⟩ := copy_cases hstep
  obtain ⟨hcontent, hrange, hhanded, hcopied⟩ := h
  simp only [pending, hloop] at hcontent hrange hcopied
  refine ⟨hcontent, hrange, hhanded, ?_⟩
  exact prefix_concat_of_getElem? hcopied
    (getElem?_due (hcontent call List.mem_cons_self) hrange hlt)

theorem finish_inv (h : s.Inv) (hstep : s.finish = some next) : next.Inv := by
  obtain ⟨call, target, offset, copied, hloop, hmemory, hqueue, hhanded, hnext⟩ := finish_cases hstep
  have hcontent := h.content
  have hrange := h.range
  have hcopied := h.faithful.copied
  simp only [pending, hloop] at hcontent hrange hcopied
  -- All that was due has been copied, since as many bytes have been.
  have hall : copied = s.loop.due := by
    rw [hloop]
    refine hcopied.eq_of_length ?_
    have hlen : call.content.length = call.len.toNat := by
      rw [← hcontent call List.mem_cons_self, Memory.length_read]
    simp only [SendingLoop.due, SendingLoop.copied, InRange] at hrange ⊢
    rw [List.length_take, List.length_drop, hlen]
    omega
  have hfaithful : ∀ entry ∈ next.handed, entry.2 = entry.1 := by
    intro entry hentry
    rw [hhanded] at hentry
    rcases List.mem_append.mp hentry with hold | hnew
    · exact h.faithful.handed entry hold
    · rw [List.mem_singleton.mp hnew]
      exact hall
  rw [← hqueue, ← hmemory] at hcontent
  rcases hnext with hidle | ⟨rest, hrest, hbuffer⟩
  · exact inv_of_idle hidle (fun other hother => hcontent other (List.mem_cons_of_mem _ hother)) hfaithful
  · exact inv_of_copying hbuffer (by omega) hcontent hfaithful

theorem run_inv {result : WriteResult} (h : s.Inv) (hstep : s.step (.run result) = some next) :
    next.Inv := by
  obtain ⟨call, queue, hloop, hqueue, hmemory, hrest, hhanded, hnext⟩ := run_cases hstep
  have hcontent := h.content
  have hfaithful := h.faithful.handed
  rw [pending, hloop, hqueue, ← hrest, ← hmemory] at hcontent
  rw [← hhanded] at hfaithful
  rcases hnext with hidle | ⟨target, count, hle, hcopying⟩
  · exact inv_of_idle hidle (fun other hother => hcontent other (List.mem_cons_of_mem _ hother)) hfaithful
  · exact inv_of_copying hcopying (by omega) hcontent hfaithful

theorem between_inv {conn : Option TcpConnection} (h : s.Inv) (hstep : s.between conn = some next) :
    next.Inv := by
  obtain ⟨-, c, rfl⟩ := between_eq hstep
  exact ⟨h.content, h.range, h.faithful.handed, h.faithful.copied⟩

theorem send_inv (h : s.Inv) (data : ℕ) (len : BitVec 32) : (s.send data len).Inv := by
  refine ⟨fun call hcall => ?_, h.range, h.faithful.handed, h.faithful.copied⟩
  rw [pending, send, ← List.append_assoc] at hcall
  rcases List.mem_append.mp hcall with hold | hnew
  · exact h.content call hold
  · rw [List.mem_singleton.mp hnew]
    rfl

theorem store_inv (h : s.Inv) {address : ℕ} {byte : Byte} (hok : s.Untouched (.store address byte)) :
    (s.store address byte).Inv := by
  refine ⟨fun call hcall => ?_, h.range, h.faithful.handed, h.faithful.copied⟩
  rw [store, Memory.read_update (hok call hcall)]
  exact h.content call hcall

theorem step_inv (s : Sending) (label : Label) (next : Sending) (h : s.Inv) (hok : s.Untouched label)
    (hstep : s.step label = some next) : next.Inv := by
  cases label with
  | send data len =>
      obtain rfl := Option.some.inj hstep
      exact send_inv h data len
  | store address byte =>
      obtain rfl := Option.some.inj hstep
      exact store_inv h hok
  | run result => exact run_inv h hstep
  | copy => exact copy_inv h hstep
  | finish => exact finish_inv h hstep
  | sendInLoop | handleWrite | handleClose | connectionEstablished | shutdownInLoop =>
      exact between_inv h hstep

/-! ### A call that nothing interferes with -/

theorem copy_eq (hloop : s.loop = .copying call target offset count copied)
    (hlt : copied.length < count) :
    s.copy = some { s with
      loop := .copying call target offset count
        (copied ++ [s.memory (call.data + (offset + copied.length))]) } := by
  rw [copy, hloop]
  exact if_pos hlt

/-- Copies that nothing interferes with read on in the memory. -/
theorem run_copies {steps : ℕ} (hloop : s.loop = .copying call target offset count copied)
    (hsteps : copied.length + steps ≤ count) :
    run step s (List.replicate steps .copy) =
      some { s with
        loop := .copying call target offset count
          (copied ++ s.memory.read (call.data + (offset + copied.length)) steps) } := by
  induction steps generalizing s copied with
  | zero =>
      obtain ⟨conn, memory, queue, loop, handed⟩ := s
      subst hloop
      simp [Memory.read]
  | succ steps ih =>
      rw [List.replicate_succ, run_cons, step, copy_eq hloop (by omega), Option.bind_some, ih rfl]
      · simp [Memory.read_succ, Nat.add_assoc]
      · simp
        omega

/-- With the steps of the loop alone the call gets to its end, and leaves the connection as `conn`. -/
def EndsWith (s : Sending) (conn : TcpConnection) : Prop :=
  ∃ labels last, (∀ label ∈ labels, label = .copy ∨ label = .finish) ∧ run step s labels = some last ∧
    last.conn = conn ∧ last.loop = .idle ∧ last.queue = s.queue ∧ last.memory = s.memory

theorem endsWith_of_idle {conn : TcpConnection} (hidle : s.loop = .idle) (hconn : s.conn = conn) :
    s.EndsWith conn :=
  ⟨[], s, fun _ hlabel => absurd hlabel List.not_mem_nil, rfl, hconn, hidle, rfl, rfl⟩

/-- All copies of one part of a call, and the step behind the last of them. -/
theorem EndsWith.of_copies {conn : TcpConnection}
    (hloop : s.loop = .copying call target offset count [])
    (h : ∀ whole : Sending,
      whole.loop = .copying call target offset count (s.memory.read (call.data + offset) count) →
      whole.conn = s.conn → whole.queue = s.queue → whole.memory = s.memory →
      ∃ next, whole.finish = some next ∧ next.queue = s.queue ∧ next.memory = s.memory ∧
        next.EndsWith conn) : s.EndsWith conn := by
  have hsteps : ([] : List Byte).length + count ≤ count := by simp
  have hcopies := run_copies hloop hsteps
  rw [List.nil_append, List.length_nil, Nat.add_zero] at hcopies
  obtain ⟨next, hfinish, hqueue, hmemory, labels, last, hlabels, hrun, hconn, hidle, hqueue', hmemory'⟩ :=
    h { s with loop := .copying call target offset count (s.memory.read (call.data + offset) count) }
      rfl rfl rfl rfl
  refine ⟨List.replicate count .copy ++ (.finish :: labels), last, fun label hlabel => ?_, ?_, hconn, hidle,
    hqueue'.trans hqueue, hmemory'.trans hmemory⟩
  · rcases List.mem_append.mp hlabel with hcopy | hrest
    · exact Or.inl (List.eq_of_mem_replicate hcopy)
    · rcases List.mem_cons.mp hrest with hlast | hmore
      · exact Or.inr hlast
      · exact hlabels label hmore
  · rw [run_append, hcopies, Option.bind_some, run_cons, step, hfinish, Option.bind_some, hrun]

theorem finish_of_append {enableWriting : Bool} {sendBuffer : Buffer}
    (hloop : s.loop = .copying call (.sendBuffer enableWriting) offset count copied)
    (hcount : copied.length = count) (happend : s.conn.sendBuffer.append copied = some sendBuffer) :
    ∃ next, s.finish = some next ∧ next.queue = s.queue ∧ next.memory = s.memory ∧ next.loop = .idle ∧
      next.conn = { s.conn with
        sendBuffer
        channel := if enableWriting then s.conn.channel.enableWriting else s.conn.channel } := by
  rw [finish, hloop]
  simp only [hcount, if_true, happend, Option.map_some]
  exact ⟨_, rfl, rfl, rfl, rfl, rfl⟩

theorem finish_of_write (hloop : s.loop = .copying call .kernel offset count copied)
    (hcount : copied.length = count) :
    ∃ before : Sending, s.finish = some (before.written call (toInt32 count)) ∧
      before.queue = s.queue ∧ before.memory = s.memory ∧
      before.conn = { s.conn with kernel := s.conn.kernel ++ copied } := by
  rw [finish, hloop]
  simp only [hcount, if_true]
  exact ⟨_, rfl, rfl, rfl, rfl⟩

theorem endsWith_of_append {enableWriting : Bool} {sendBuffer : Buffer} {conn : TcpConnection}
    (hloop : s.loop = .copying call (.sendBuffer enableWriting) offset count [])
    (happend : s.conn.sendBuffer.append (s.memory.read (call.data + offset) count) = some sendBuffer)
    (hconn : { s.conn with
      sendBuffer
      channel := if enableWriting then s.conn.channel.enableWriting else s.conn.channel } = conn) :
    s.EndsWith conn := by
  refine EndsWith.of_copies hloop fun whole hwhole hsame hqueue hmemory => ?_
  rw [← hsame] at happend hconn
  obtain ⟨next, hfinish, hqueue', hmemory', hidle, hnext⟩ :=
    finish_of_append hwhole (Memory.length_read _ _ _) happend
  exact ⟨next, hfinish, hqueue'.trans hqueue, hmemory'.trans hmemory,
    endsWith_of_idle hidle (hnext.trans hconn)⟩

/-- The part of `TcpConnection.sendInLoop` behind `write(2)`. -/
def afterWrite (c : TcpConnection) (data : List Byte) (writeCnt : Int) : Option TcpConnection :=
  if 0 ≤ writeCnt then
    if writeCnt.toNat < data.length then
      (c.sendBuffer.append (data.drop writeCnt.toNat)).map fun sendBuffer =>
        { c with sendBuffer, channel := c.channel.enableWriting }
    else some { c with callbacks := c.callbacks ++ [.writeComplete] }
  else some c

theorem sendInLoop_eq_afterWrite {c : TcpConnection} (hstate : c.state = .established)
    (hreadable : ¬ c.sendBuffer.readableBytes > 0) (data : List Byte) (result : WriteResult) :
    c.sendInLoop data result = afterWrite (c.write data result).1 data (c.write data result).2 := by
  rw [TcpConnection.sendInLoop, if_neg (not_not.mpr hstate), if_neg hreadable]
  rfl

theorem endsWith_of_written {writeCnt : Int} {conn : TcpConnection}
    (hafter : afterWrite s.conn (s.memory.read call.data call.len.toNat) writeCnt = some conn) :
    (s.written call writeCnt).EndsWith conn := by
  rw [afterWrite, Memory.length_read] at hafter
  unfold written
  split at hafter
  · rename_i hnonneg
    rw [if_pos hnonneg]
    split at hafter
    · rename_i hlt
      rw [Memory.drop_read] at hafter
      obtain ⟨sendBuffer, happend, hconn⟩ := Option.map_eq_some_iff.mp hafter
      rw [if_pos hlt]
      apply endsWith_of_append
      · rfl
      · exact happend
      · exact hconn
    · rename_i hge
      rw [if_neg hge]
      exact endsWith_of_idle rfl (Option.some.inj hafter)
  · rename_i hneg
    rw [if_neg hneg]
    exact endsWith_of_idle rfl (Option.some.inj hafter)

theorem endsWith_of_write {conn : TcpConnection} (hloop : s.loop = .copying call .kernel 0 count [])
    (hafter : afterWrite { s.conn with kernel := s.conn.kernel ++ s.memory.read call.data count }
      (s.memory.read call.data call.len.toNat) (toInt32 count) = some conn) : s.EndsWith conn := by
  refine EndsWith.of_copies hloop fun whole hwhole hsame hqueue hmemory => ?_
  obtain ⟨before, hfinish, hqueue', hmemory', hconn⟩ :=
    finish_of_write hwhole (Memory.length_read _ _ _)
  have hframe := written_cases before call (toInt32 count)
  refine ⟨_, hfinish, hframe.2.1.trans (hqueue'.trans hqueue),
    hframe.1.trans (hmemory'.trans hmemory), endsWith_of_written ?_⟩
  rw [hconn, hmemory', hmemory, hsame]
  exact hafter

/-- `SendInLoop` as a whole is what its steps come to when no other thread takes one in between. -/
theorem sendInLoop_refines {queue : List QueuedSend} {result : WriteResult} {conn : TcpConnection}
    (hidle : s.loop = .idle) (hqueue : s.queue = call :: queue)
    (hresult : ∀ count, result = .accepted count → count ≤ call.len.toNat)
    (hsend : s.conn.sendInLoop (s.memory.read call.data call.len.toNat) result = some conn) :
    ∃ next, s.step (.run result) = some next ∧ next.queue = queue ∧ next.memory = s.memory ∧
      next.EndsWith conn := by
  have hrun : s.step (.run result) = sendInLoop { s with queue } call result := by
    simp only [step, hidle, hqueue]
  unfold sendInLoop at hrun
  by_cases hstate : s.conn.state = .established
  · rw [if_neg (not_not.mpr hstate)] at hrun
    by_cases hreadable : s.conn.sendBuffer.readableBytes > 0
    · rw [if_pos hreadable] at hrun
      rw [TcpConnection.sendInLoop, if_neg (not_not.mpr hstate), if_pos hreadable] at hsend
      obtain ⟨sendBuffer, happend, hconn⟩ := Option.map_eq_some_iff.mp hsend
      exact ⟨_, hrun, rfl, rfl, endsWith_of_append rfl happend hconn⟩
    · rw [if_neg hreadable] at hrun
      rw [sendInLoop_eq_afterWrite hstate hreadable] at hsend
      cases result with
      | failed errno =>
          exact ⟨_, hrun, rfl, rfl, endsWith_of_idle hidle (Option.some.inj hsend)⟩
      | accepted count =>
          have hle := hresult count rfl
          simp only [if_pos hle] at hrun
          rw [TcpConnection.write, Memory.take_read _ _ hle] at hsend
          exact ⟨_, hrun, rfl, rfl, endsWith_of_write rfl hsend⟩
  · rw [if_pos hstate] at hrun
    rw [TcpConnection.sendInLoop, if_pos hstate] at hsend
    exact ⟨_, hrun, rfl, rfl, endsWith_of_idle hidle (Option.some.inj hsend)⟩

/-! ### A store in between -/

end Sending

end EasyLib.Reactors
