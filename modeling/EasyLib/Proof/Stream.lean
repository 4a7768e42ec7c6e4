import EasyLib.Proof.BufferFifo
import EasyLib.Reactors.Connection

/-!
# No outgoing byte is lost, repeated or reordered

`Intact` splits the sent bytes into what the kernel has accepted and what is still buffered. A call
that meets `Lossless` moves bytes from the second part to the first or adds new ones at the end. Any
other call breaks the split for good: the buffer refuses the data, the refused data of a direct
`write(2)` is dropped, or an amount the `int` cannot hold is taken for another one.
-/

namespace EasyLib.Reactors.TcpConnection.Stream

open MachineInt

structure Inv (s : Stream) : Prop where
  established : s.conn.state = .established
  writeable : s.conn.writeable = true
  wf : s.conn.sendBuffer.Wf
  intact : s.Intact

theorem start_inv (fd : Int) (events : BitVec 32) : (start fd events).Inv := by
  have hnew : Buffer.new Buffer.kInitialSize = some (start fd events).conn.sendBuffer :=
    if_pos (by decide)
  obtain ⟨hwf, hempty, -⟩ := Buffer.new_wf (by decide) hnew
  refine ⟨rfl, rfl, hwf, ?_⟩
  rw [Intact, hempty]
  rfl

variable {s : Stream} {data : List Byte} {result : WriteResult} {count : Nat} {errno : Errno}

theorem readable_eq_nil (h : s.Inv) (hempty : ¬ s.conn.sendBuffer.readableBytes > 0) :
    s.conn.sendBuffer.readable = [] := by
  have hlen := Buffer.length_readable h.wf
  exact List.eq_nil_of_length_eq_zero (by omega)

theorem kernel_eq_sent (h : s.Inv) (hempty : ¬ s.conn.sendBuffer.readableBytes > 0) :
    s.conn.kernel = s.sent := by
  have hintact : s.conn.kernel ++ s.conn.sendBuffer.readable = s.sent := h.intact
  rwa [readable_eq_nil h hempty, List.append_nil] at hintact

/-! ### `SendInLoop`, by the branch it takes -/

theorem step_buffered (h : s.Inv) (hbuffered : s.conn.sendBuffer.readableBytes > 0)
    (data : List Byte) (result : WriteResult) :
    s.step (.sendInLoop data result) =
      (s.conn.sendBuffer.append data).map fun sendBuffer =>
        { conn := { s.conn with sendBuffer }, sent := s.sent ++ data } := by
  simp only [step, sendInLoop, h.established, ne_eq, not_true_eq_false, if_false, hbuffered, if_true,
    Option.map_map]
  rfl

theorem step_refused (h : s.Inv) (hempty : ¬ s.conn.sendBuffer.readableBytes > 0) :
    s.step (.sendInLoop data (.failed errno)) = some { s with sent := s.sent ++ data } := by
  simp [step, sendInLoop, h.established, hempty, write]

theorem step_direct (h : s.Inv) (hempty : ¬ s.conn.sendBuffer.readableBytes > 0)
    (hcount : count < 2 ^ 31) (hlt : count < data.length) :
    s.step (.sendInLoop data (.accepted count)) =
      (s.conn.sendBuffer.append (data.drop count)).map fun sendBuffer =>
        { conn := { s.conn with
            sendBuffer
            kernel := s.conn.kernel ++ data.take count
            channel := s.conn.channel.enableWriting }
          sent := s.sent ++ data } := by
  simp only [step, sendInLoop, h.established, ne_eq, not_true_eq_false, if_false, hempty, write,
    toInt32_of_lt hcount, Int.natCast_nonneg, if_true, Int.toNat_natCast, hlt, Option.map_map]
  rfl

theorem step_complete (h : s.Inv) (hempty : ¬ s.conn.sendBuffer.readableBytes > 0)
    (hcount : data.length < 2 ^ 31) :
    s.step (.sendInLoop data (.accepted data.length)) =
      some { conn := { s.conn with
               kernel := s.conn.kernel ++ data
               callbacks := s.conn.callbacks ++ [.writeComplete] }
             sent := s.sent ++ data } := by
  simp [step, sendInLoop, h.established, hempty, write, toInt32_of_lt hcount]

/-- A result from `2 ^ 31` on is negative as an `int` and taken for a failure. -/
theorem step_overflow (h : s.Inv) (hempty : ¬ s.conn.sendBuffer.readableBytes > 0)
    (hge : 2 ^ 31 ≤ count) (hlt : count < 2 ^ 32) :
    s.step (.sendInLoop data (.accepted count)) =
      some { conn := { s.conn with kernel := s.conn.kernel ++ data.take count }
             sent := s.sent ++ data } := by
  have hneg : ¬ 0 ≤ toInt32 count := by
    have := toInt32_of_ge hge hlt
    omega
  simp [step, sendInLoop, h.established, hempty, write, hneg]

/-! ### `HandleWrite`, by what the `int` makes of the result -/

theorem step_handleWrite_failed (h : s.Inv) : s.step (.handleWrite (.failed errno)) = some s := by
  simp [step, handleWrite, h.writeable, Buffer.begin_eq h.wf, write]

theorem step_handleWrite_negative (h : s.Inv) (hneg : ¬ 0 ≤ toInt32 count) :
    s.step (.handleWrite (.accepted count)) =
      some { s with conn := { s.conn with
        kernel := s.conn.kernel ++ s.conn.sendBuffer.readable.take count } } := by
  simp [step, handleWrite, h.writeable, Buffer.begin_eq h.wf, write, hneg]

theorem step_handleWrite_retrieve (h : s.Inv) (hnonneg : 0 ≤ toInt32 count) :
    ∃ next, s.step (.handleWrite (.accepted count)) = some next ∧
      next.sent = s.sent ∧ next.conn.state = s.conn.state ∧
      next.conn.writeable = s.conn.writeable ∧
      next.conn.kernel = s.conn.kernel ++ s.conn.sendBuffer.readable.take count ∧
      next.conn.sendBuffer = s.conn.sendBuffer.retrieve (toInt32 count).toNat := by
  simp only [step, handleWrite, h.writeable, Bool.not_true, Bool.false_eq_true, if_false,
    Buffer.begin_eq h.wf, Option.bind_some, write, hnonneg, if_true]
  split <;> exact ⟨_, rfl, rfl, rfl, rfl, rfl, rfl⟩

/-! ### Calls that keep the stream -/

theorem buffered_inv (h : s.Inv) (hbuffered : s.conn.sendBuffer.readableBytes > 0)
    (hfits : s.conn.sendBuffer.Fits data.length) :
    ∃ next ∈ s.step (.sendInLoop data result), next.Inv := by
  obtain ⟨buffer, happend, hwf, hqueue, -⟩ := Buffer.append_spec h.wf hfits
  have hstep := step_buffered h hbuffered data result
  rw [happend, Option.map_some] at hstep
  refine ⟨_, hstep, h.established, h.writeable, hwf, ?_⟩
  rw [Intact, hqueue, ← List.append_assoc]
  exact congrArg (· ++ data) h.intact

theorem direct_inv (h : s.Inv) (hempty : ¬ s.conn.sendBuffer.readableBytes > 0)
    (hcount : count < 2 ^ 31) (hlt : count < data.length)
    (hfits : s.conn.sendBuffer.Fits (data.length - count)) :
    ∃ next ∈ s.step (.sendInLoop data (.accepted count)), next.Inv := by
  rw [← List.length_drop] at hfits
  obtain ⟨buffer, happend, hwf, hqueue, -⟩ := Buffer.append_spec h.wf hfits
  have hstep := step_direct h hempty hcount hlt
  rw [happend, Option.map_some] at hstep
  refine ⟨_, hstep, h.established, h.writeable, hwf, ?_⟩
  rw [Intact, hqueue, readable_eq_nil h hempty, kernel_eq_sent h hempty, List.nil_append,
    List.append_assoc, List.take_append_drop]

theorem complete_inv (h : s.Inv) (hempty : ¬ s.conn.sendBuffer.readableBytes > 0)
    (hlen : data.length < 2 ^ 32) :
    ∃ next ∈ s.step (.sendInLoop data (.accepted data.length)), next.Inv := by
  have hqueue := readable_eq_nil h hempty
  have hkernel := kernel_eq_sent h hempty
  by_cases hcount : data.length < 2 ^ 31
  · refine ⟨_, step_complete h hempty hcount, h.established, h.writeable, h.wf, ?_⟩
    rw [Intact, hqueue, hkernel, List.append_nil]
  · refine ⟨_, step_overflow h hempty (not_lt.mp hcount) hlen, h.established, h.writeable, h.wf, ?_⟩
    rw [Intact, hqueue, hkernel, List.append_nil, List.take_length]

theorem handleWrite_inv (h : s.Inv) (hcount : count < 2 ^ 31) :
    ∃ next ∈ s.step (.handleWrite (.accepted count)), next.Inv := by
  have hint := toInt32_of_lt hcount
  obtain ⟨next, hnext, hsent, hstate, hwriteable, hkernel, hbuffer⟩ :=
    step_handleWrite_retrieve h (hint ▸ Int.natCast_nonneg count)
  obtain ⟨hwf, hqueue, -⟩ := Buffer.retrieve_spec h.wf (toInt32 count).toNat
  refine ⟨next, hnext, hstate.trans h.established, hwriteable.trans h.writeable, hbuffer ▸ hwf, ?_⟩
  rw [Intact, hsent, hkernel, hbuffer, hqueue, hint, Int.toNat_natCast, List.append_assoc,
    List.take_append_drop]
  exact h.intact

theorem step_of_lossless (s : Stream) (call : Call) (h : s.Inv) (hadmissible : s.Admissible call)
    (hok : s.Lossless call) : ∃ next ∈ s.step call, next.Inv := by
  cases call with
  | sendInLoop data result =>
      by_cases hbuffered : s.conn.sendBuffer.readableBytes > 0
      · apply buffered_inv h hbuffered
        cases result <;> simpa only [Lossless, if_pos hbuffered] using hok
      · cases result with
        | failed errno =>
            have hnil : data = [] := by simpa only [Lossless, if_neg hbuffered] using hok
            refine ⟨_, step_refused h hbuffered, h.established, h.writeable, h.wf, ?_⟩
            rw [Intact, hnil, List.append_nil]
            exact h.intact
        | accepted count =>
            obtain ⟨hlen, hle⟩ := hadmissible
            simp only [Lossless, if_neg hbuffered] at hok
            rcases Nat.lt_or_eq_of_le hle with hlt | rfl
            · by_cases hcount : count < 2 ^ 31
              · rw [if_pos hcount] at hok
                exact direct_inv h hbuffered hcount hlt hok
              · rw [if_neg hcount] at hok
                exact absurd hok (Nat.ne_of_lt hlt)
            · exact complete_inv h hbuffered hlen
  | handleWrite result =>
      cases result with
      | failed errno => exact ⟨s, step_handleWrite_failed h, h⟩
      | accepted count => exact handleWrite_inv h hok

/-! ### Calls that return -/

variable {next : Stream}

theorem fits_of_buffered (h : s.Inv) (hbuffered : s.conn.sendBuffer.readableBytes > 0)
    (hlen : data.length < 2 ^ 32) (hnext : next ∈ s.step (.sendInLoop data result)) :
    s.conn.sendBuffer.Fits data.length := by
  rw [step_buffered h hbuffered, Option.mem_def, Option.map_eq_some_iff] at hnext
  obtain ⟨buffer, happend, -⟩ := hnext
  exact Buffer.fits_of_append_eq_some h.wf hlen happend

theorem fits_of_direct (h : s.Inv) (hempty : ¬ s.conn.sendBuffer.readableBytes > 0)
    (hcount : count < 2 ^ 31) (hlen : data.length < 2 ^ 32)
    (hnext : next ∈ s.step (.sendInLoop data (.accepted count))) :
    s.conn.sendBuffer.Fits (data.length - count) := by
  by_cases hlt : count < data.length
  · rw [step_direct h hempty hcount hlt, Option.mem_def, Option.map_eq_some_iff] at hnext
    obtain ⟨buffer, happend, -⟩ := hnext
    rw [← List.length_drop]
    apply Buffer.fits_of_append_eq_some h.wf _ happend
    rw [List.length_drop]
    omega
  · exact Or.inl (by omega)

/-! ### Calls that break it -/

theorem refused_not_intact (h : s.Inv) (hempty : ¬ s.conn.sendBuffer.readableBytes > 0)
    (hne : data ≠ []) (hnext : next ∈ s.step (.sendInLoop data (.failed errno))) :
    ¬ next.Intact := by
  rw [step_refused h hempty] at hnext
  rw [← Option.some.inj hnext, Intact, readable_eq_nil h hempty, List.append_nil,
    kernel_eq_sent h hempty]
  intro heq
  exact hne (List.self_eq_append_right.mp heq)

theorem overflow_not_intact (h : s.Inv) (hempty : ¬ s.conn.sendBuffer.readableBytes > 0)
    (hge : 2 ^ 31 ≤ count) (hlt : count < data.length) (hlen : data.length < 2 ^ 32)
    (hnext : next ∈ s.step (.sendInLoop data (.accepted count))) : ¬ next.Intact := by
  rw [step_overflow h hempty hge (by omega)] at hnext
  rw [← Option.some.inj hnext, Intact, readable_eq_nil h hempty, List.append_nil,
    kernel_eq_sent h hempty]
  intro heq
  have hlength := congrArg List.length (List.append_cancel_left heq)
  rw [List.length_take] at hlength
  omega

/-- The kernel has taken bytes that are not taken out of the buffer, so there are too many. -/
theorem handleWrite_not_intact (h : s.Inv) (hcount : 2 ^ 31 ≤ count)
    (hle : count ≤ s.conn.sendBuffer.readable.length)
    (hnext : next ∈ s.step (.handleWrite (.accepted count))) : ¬ next.Intact := by
  intro hintact
  have hlength := congrArg List.length h.intact
  have hlength' := congrArg List.length hintact
  rw [List.length_append] at hlength hlength'
  by_cases hnonneg : 0 ≤ toInt32 count
  · obtain ⟨next', hnext', hsent, -, -, hkernel, hbuffer⟩ := step_handleWrite_retrieve h hnonneg
    obtain rfl : next' = next := Option.some.inj (hnext'.symm.trans hnext)
    have hqueue := (Buffer.retrieve_spec h.wf (toInt32 count).toNat).2.1
    have hshort : (toInt32 count).toNat < count := by
      have := toInt32_lt count
      omega
    rw [hsent, hkernel, hbuffer, hqueue, List.length_append, List.length_take,
      List.length_drop] at hlength'
    omega
  · rw [step_handleWrite_negative h hnonneg] at hnext
    obtain rfl := Option.some.inj hnext
    simp only [List.length_append, List.length_take] at hlength'
    omega

/-- **Any other call** does not return, or leaves a stream that is not intact. -/
theorem step_of_not_lossless (s : Stream) (call : Call) (h : s.Inv)
    (hadmissible : s.Admissible call) (hnot : ¬ s.Lossless call) :
    ∀ next ∈ s.step call, ¬ next.Intact := by
  intro next hnext
  cases call with
  | sendInLoop data result =>
      by_cases hbuffered : s.conn.sendBuffer.readableBytes > 0
      · replace hnot : ¬ s.conn.sendBuffer.Fits data.length := by
          cases result <;> simpa only [Lossless, if_pos hbuffered] using hnot
        exact absurd (fits_of_buffered h hbuffered hadmissible.1 hnext) hnot
      · cases result with
        | failed errno =>
            have hne : data ≠ [] := by simpa only [Lossless, if_neg hbuffered] using hnot
            exact refused_not_intact h hbuffered hne hnext
        | accepted count =>
            obtain ⟨hlen, hle⟩ := hadmissible
            simp only [Lossless, if_neg hbuffered] at hnot
            by_cases hcount : count < 2 ^ 31
            · rw [if_pos hcount] at hnot
              exact absurd (fits_of_direct h hbuffered hcount hlen hnext) hnot
            · rw [if_neg hcount] at hnot
              exact overflow_not_intact h hbuffered (not_lt.mp hcount) (lt_of_le_of_ne hle hnot) hlen
                hnext
  | handleWrite result =>
      cases result with
      | failed errno => exact absurd trivial hnot
      | accepted count => exact handleWrite_not_intact h (not_lt.mp hnot) hadmissible hnext

/-! ### Whole sequences of calls -/

/-- **The stream stays intact exactly through the lossless calls.** -/
theorem stream_intact_iff {fd : Int} {events : BitVec 32} {calls : List Call}
    (hadmissible : Machine.AllSteps step Admissible (start fd events) calls) :
    Machine.Safe step Intact (start fd events) calls ↔
      Machine.AllSteps step Lossless (start fd events) calls :=
  Machine.safe_iff_allSteps Inv (fun _ h => h.intact) step_of_lossless step_of_not_lossless calls _
    (start_inv fd events) hadmissible

theorem stream_intact_three :
    Machine.Safe step Intact (start 5 0) [.sendInLoop [1, 2, 3] (.accepted 1),
      .handleWrite (.failed .ewouldblock), .handleWrite (.accepted 2)] :=
  (stream_intact_iff (by decide +kernel)).mpr (by decide +kernel)

/-- A direct write that is refused drops its byte: nothing is buffered and nothing is on the way. -/
theorem stream_not_intact_of_refused :
    Machine.AllSteps step Admissible (start 5 0) [.sendInLoop [65] (.failed .ewouldblock)] ∧
      ¬ Machine.Safe step Intact (start 5 0) [.sendInLoop [65] (.failed .ewouldblock)] := by
  decide +kernel

end EasyLib.Reactors.TcpConnection.Stream
