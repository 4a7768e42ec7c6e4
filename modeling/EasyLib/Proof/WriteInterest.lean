import EasyLib.Proof.BufferFifo
import EasyLib.Reactors.Connection

/-!
# Interest in writing

The channel of a connection is writing exactly while something is buffered. Each function settles this
before it calls the write-complete callback, and the callback is the last thing that it does, so that a
callback that sends finds the connection as another call would.
-/

namespace EasyLib.Reactors

open MachineInt

namespace Channel

variable (channel : Channel)

theorem isWriting_enableReading : channel.enableReading.isWriting = channel.isWriting := by
  have hzero : kReadEvent &&& kWriteEvent = 0#32 := by decide
  have hbits : (channel.events ||| kReadEvent) &&& kWriteEvent = channel.events &&& kWriteEvent := by
    rw [BitVec.and_or_distrib_right, hzero, BitVec.or_zero]
  simp only [isWriting, enableReading, hbits]

theorem isWriting_enableWriting : channel.enableWriting.isWriting = true := by
  have hbits : (channel.events ||| kWriteEvent) &&& kWriteEvent ≠ 0#32 := by
    rw [BitVec.and_or_distrib_right, Ne, BitVec.or_eq_zero_iff]
    rintro ⟨-, hzero⟩
    exact absurd hzero (by decide)
  exact decide_eq_true hbits

theorem isWriting_disableWriting : channel.disableWriting.isWriting = false := by
  have hzero : ~~~kWriteEvent &&& kWriteEvent = 0#32 := by decide
  have hbits : channel.events &&& ~~~kWriteEvent &&& kWriteEvent = 0#32 := by
    rw [BitVec.and_assoc, hzero, BitVec.and_zero]
  simp only [isWriting, disableWriting, hbits]
  rfl

end Channel

namespace TcpConnection

variable {c next : TcpConnection} {data : List Byte} {result : WriteResult}

structure Interest (c : TcpConnection) : Prop where
  wf : c.sendBuffer.Wf
  writing : c.channel.isWriting = true ↔ 0 < c.sendBuffer.readableBytes

theorem new_interest (fd : Int) : (new fd 0).Interest := by
  have hnew : Buffer.new Buffer.kInitialSize = some (new fd 0).sendBuffer := if_pos (by decide)
  have hwriting : ¬ (Channel.mk 0).isWriting = true := by decide
  obtain ⟨hwf, hempty, -⟩ := Buffer.new_wf (by decide) hnew
  refine ⟨hwf, iff_of_false hwriting ?_⟩
  rw [← Buffer.length_readable hwf, hempty]
  exact Nat.lt_irrefl 0

theorem connectionEstablished_interest (h : c.Interest) : c.connectionEstablished.Interest := by
  refine ⟨h.wf, ?_⟩
  simp only [connectionEstablished, Channel.isWriting_enableReading]
  exact h.writing

/-- A buffer that has taken some bytes has something to be read. -/
theorem readableBytes_pos_of_append {b b' : Buffer} (h : b.Wf) (hlen : data.length < 2 ^ 32)
    (hpos : 0 < b.readableBytes + data.length) (happend : b.append data = some b') :
    b'.Wf ∧ 0 < b'.readableBytes := by
  have hfits := Buffer.fits_of_append_eq_some h hlen happend
  obtain ⟨appended, hsome, hwf, hqueue, -⟩ := Buffer.append_spec h hfits
  obtain rfl : appended = b' := Option.some.inj (hsome.symm.trans happend)
  refine ⟨hwf, ?_⟩
  rw [← Buffer.length_readable hwf, hqueue, List.length_append, Buffer.length_readable h]
  exact hpos

theorem write_frame (c : TcpConnection) (data : List Byte) (result : WriteResult) :
    ∃ kernel, (c.write data result).1 = { c with kernel } := by
  cases result with
  | accepted count => exact ⟨_, rfl⟩
  | failed errno => exact ⟨c.kernel, rfl⟩

/-! ### What the two functions can do -/

theorem sendInLoop_cases (hsend : c.sendInLoop data result = some next) :
    (next.state = c.state ∧ next.writeable = c.writeable) ∧
      (next.sendBuffer = c.sendBuffer ∧ next.channel = c.channel ∨
        0 < c.sendBuffer.readableBytes ∧ c.sendBuffer.append data = some next.sendBuffer ∧
          next.channel = c.channel ∨
        ∃ count < data.length, c.sendBuffer.append (data.drop count) = some next.sendBuffer ∧
          next.channel = c.channel.enableWriting) := by
  obtain ⟨kernel, hwrite⟩ := write_frame c data result
  simp only [sendInLoop] at hsend
  rw [hwrite] at hsend
  split at hsend
  · rw [← Option.some.inj hsend]
    exact ⟨⟨rfl, rfl⟩, .inl ⟨rfl, rfl⟩⟩
  split at hsend
  · rename_i hbuffered
    obtain ⟨buffer, happend, rfl⟩ := Option.map_eq_some_iff.mp hsend
    exact ⟨⟨rfl, rfl⟩, .inr (.inl ⟨hbuffered, happend, rfl⟩)⟩
  split at hsend
  · split at hsend
    · rename_i hshort
      obtain ⟨buffer, happend, rfl⟩ := Option.map_eq_some_iff.mp hsend
      exact ⟨⟨rfl, rfl⟩, .inr (.inr ⟨_, hshort, happend, rfl⟩)⟩
    · rw [← Option.some.inj hsend]
      exact ⟨⟨rfl, rfl⟩, .inl ⟨rfl, rfl⟩⟩
  · rw [← Option.some.inj hsend]
    exact ⟨⟨rfl, rfl⟩, .inl ⟨rfl, rfl⟩⟩

theorem handleWrite_cases (hwf : c.sendBuffer.Wf) (hhandle : c.handleWrite result = some next) :
    (next.state = c.state ∧ next.writeable = c.writeable) ∧
      (next.sendBuffer = c.sendBuffer ∧ next.channel = c.channel ∨
        ∃ len, next.sendBuffer = c.sendBuffer.retrieve len ∧
          next.channel =
            if next.sendBuffer.readableBytes = 0 then c.channel.disableWriting else c.channel) := by
  obtain ⟨kernel, hwrite⟩ := write_frame c c.sendBuffer.readable result
  simp only [handleWrite] at hhandle
  split at hhandle
  · rw [← Option.some.inj hhandle]
    exact ⟨⟨rfl, rfl⟩, .inl ⟨rfl, rfl⟩⟩
  rw [Buffer.begin_eq hwf, Option.bind_some, hwrite] at hhandle
  split at hhandle
  · split at hhandle
    · rename_i hempty
      rw [← Option.some.inj hhandle]
      exact ⟨⟨rfl, rfl⟩, .inr ⟨_, rfl, (if_pos hempty).symm⟩⟩
    · rename_i hleft
      rw [← Option.some.inj hhandle]
      exact ⟨⟨rfl, rfl⟩, .inr ⟨_, rfl, (if_neg hleft).symm⟩⟩
  · rw [← Option.some.inj hhandle]
    exact ⟨⟨rfl, rfl⟩, .inl ⟨rfl, rfl⟩⟩

/-! ### What they keep -/

theorem Interest.of_eq (h : c.Interest) (hbuffer : next.sendBuffer = c.sendBuffer)
    (hchannel : next.channel = c.channel) : next.Interest := by
  refine ⟨hbuffer ▸ h.wf, ?_⟩
  rw [hbuffer, hchannel]
  exact h.writing

theorem sendInLoop_interest (h : c.Interest) (hlen : data.length < 2 ^ 32)
    (hsend : c.sendInLoop data result = some next) : next.Interest := by
  obtain ⟨-, ⟨hbuffer, hchannel⟩ | ⟨hbuffered, happend, hchannel⟩ |
    ⟨count, hshort, happend, hchannel⟩⟩ := sendInLoop_cases hsend
  · exact h.of_eq hbuffer hchannel
  · -- Something is buffered already, and the channel is writing for it.
    obtain ⟨hwf, hpos⟩ := readableBytes_pos_of_append h.wf hlen (by omega) happend
    refine ⟨hwf, iff_of_true ?_ hpos⟩
    rw [hchannel]
    exact h.writing.mpr hbuffered
  · have hdrop := List.length_drop (i := count) (l := data)
    obtain ⟨hwf, hpos⟩ := readableBytes_pos_of_append h.wf (by omega) (by omega) happend
    refine ⟨hwf, iff_of_true ?_ hpos⟩
    rw [hchannel]
    exact Channel.isWriting_enableWriting _

theorem handleWrite_interest (h : c.Interest) (hwriting : c.channel.isWriting = true)
    (hhandle : c.handleWrite result = some next) : next.Interest := by
  obtain ⟨-, ⟨hbuffer, hchannel⟩ | ⟨len, hbuffer, hchannel⟩⟩ := handleWrite_cases h.wf hhandle
  · exact h.of_eq hbuffer hchannel
  · have hwf := (Buffer.retrieve_spec h.wf len).1
    refine ⟨hbuffer ▸ hwf, ?_⟩
    rw [hchannel]
    split_ifs with hempty
    · rw [Channel.isWriting_disableWriting, hempty]
      simp
    · exact iff_of_true hwriting (Nat.pos_of_ne_zero hempty)

mutual

theorem send_interest {c next : TcpConnection} (h : c.Interest) :
    ∀ call : Send, c.send call = some next → next.Interest
  | .mk data result nested, hsend => by
      rw [send, Option.bind_eq_some_iff] at hsend
      obtain ⟨sent, hloop, hcallback⟩ := hsend
      have hsent := sendInLoop_interest h data.2 hloop
      split at hcallback
      · rwa [← Option.some.inj hcallback]
      · exact sendAll_interest hsent nested hcallback

theorem sendAll_interest {c next : TcpConnection} (h : c.Interest) :
    ∀ calls : List Send, c.sendAll calls = some next → next.Interest
  | [], hsend => by
      rw [sendAll] at hsend
      rwa [← Option.some.inj hsend]
  | call :: calls, hsend => by
      rw [sendAll, Option.bind_eq_some_iff] at hsend
      obtain ⟨sent, hfirst, hrest⟩ := hsend
      exact sendAll_interest (send_interest h call hfirst) calls hrest

end

theorem handle_interest {event : Event} (h : c.Interest) (hhandle : c.handle event = some next) :
    next.Interest := by
  cases event with
  | connectionEstablished =>
      rw [← Option.some.inj hhandle]
      exact connectionEstablished_interest h
  | sendInLoop call => exact send_interest h call hhandle
  | handleWrite result nested =>
      obtain ⟨hwriting, hhandle⟩ := Option.ite_none_right_eq_some.mp hhandle
      obtain ⟨written, hwrite, hcallback⟩ := Option.bind_eq_some_iff.mp hhandle
      have hwritten := handleWrite_interest h hwriting hwrite
      split at hcallback
      · rwa [← Option.some.inj hcallback]
      · exact sendAll_interest hwritten nested hcallback

/-- **An established connection is writing exactly while something is buffered.** -/
theorem writing_iff_buffered (fd : Int) (events : List Event) :
    Machine.Throughout handle
      (fun c => c.state = .established →
        (c.channel.isWriting = true ↔ 0 < c.sendBuffer.readableBytes))
      (new fd 0) events := by
  apply Machine.throughout_of_forall Interest _ _ events (new_interest fd)
  · intro c h _
    exact h.writing
  · intro c event next h hhandle
    exact handle_interest h hhandle

end TcpConnection

end EasyLib.Reactors
