import EasyLib.Proof.BufferRoom

/-!
# How large a buffer gets

`MakeSpace` lets the vector grow only when the readable bytes and the new ones do not fit into it
together, and then by the new ones behind the write index. What lies in front of the read index at that
moment is less than what has to be stored, so that the vector is never more than twice as large as the
largest queue it has held, or as large as it was at first. Bytes whose number is no `int` are never stored
in a vector that has grown for them, since the copy behind `MakeSpace` would leave that vector.
-/

namespace EasyLib.Reactors.Buffer

open MachineInt

variable {b b' : Buffer} {data : List Byte}

theorem Sound.writeIndex_le (h : b.Sound) : b.writeIndex ≤ b.buffer.length := by
  rcases h with rfl | h
  · exact le_rfl
  · exact h.writeIndex_le

theorem Sound.length_readable (h : b.Sound) : b.readable.length = b.writeIndex - b.readIndex := by
  simp [readable, h.writeIndex_le]

/-- The size that `MakeSpace` asks for leaves room for all bytes only if their number is an `int`. -/
theorem lt_of_addSize {write len : ℕ} (hwrite : write ≤ maxSize)
    (hsize : addSize write (toUInt64 (toInt32 len)) ≤ maxSize)
    (hroom : write + len ≤ addSize write (toUInt64 (toInt32 len))) : len < 2 ^ 31 := by
  have hlt := toInt32_lt len
  unfold addSize maxSize at *
  rcases lt_or_ge (toInt32 len) 0 with hneg | hnonneg
  · -- the sum falls behind the write index, or no vector is that large
    have hge := neg_le_toInt32 len
    have hconv := toUInt64_of_neg hneg (by omega)
    omega
  · have hle := toInt32_le len
    have hconv := toUInt64_of_nonneg hnonneg (by omega)
    omega

theorem makeSpace_length {len : ℕ} (h : b.Sound) (hspace : b.makeSpace (toInt32 len) = some b')
    (hroom : b'.writeIndex + len ≤ b'.buffer.length) :
    b'.buffer.length ≤ max b.buffer.length (2 * (b'.writeIndex + len - b'.readIndex)) := by
  have hread := h.ordered.readIndex_le
  have hwrite := h.writeIndex_le
  have hmax := h.ordered.size_le
  rw [makeSpace] at hspace
  split at hspace
  · rename_i hgrow
    obtain ⟨hsize, hlength, hwrite', hread'⟩ := resize_eq_some hspace
    rw [hlength, hwrite'] at hroom
    have hlen := lt_of_addSize (hwrite.trans hmax) hsize hroom
    have hwriteable : b.writeableBytes = b.buffer.length - b.writeIndex :=
      subSize_of_le hwrite (by unfold maxSize at hmax; omega)
    unfold maxSize at hmax
    rw [toUInt64_toInt32 hlen, addSize_of_lt (by omega)] at hgrow hlength
    rw [hlength, hwrite', hread']
    omega
  · simp only [Option.bind_eq_bind, Option.bind_eq_some_iff] at hspace
    obtain ⟨vector, hbegin, moved, hmoved, hsome⟩ := hspace
    have hlength := length_of_copyTo hmoved
    rw [begin_eq_some hbegin] at hlength
    rw [← Option.some.inj hsome]
    exact hlength.le.trans (le_max_left _ _)

theorem append_length (h : b.Sound) (happend : b.append data = some b') :
    b'.buffer.length ≤ max b.buffer.length (2 * b'.readable.length) := by
  rw [(append_sound h.ordered happend).length_readable]
  simp only [append, Option.bind_eq_bind, Option.bind_eq_some_iff] at happend
  obtain ⟨room, hensure, vector, hbegin, copied, hcopy, hsome⟩ := happend
  obtain rfl := begin_eq_some hbegin
  have hroom := copyTo_eq_some hcopy
  have hsize := (ensureWritableBytes_ordered h.ordered hensure).size_le
  obtain rfl := Option.some.inj hsome
  dsimp only
  rw [length_of_copyTo hcopy, addSize_of_lt (by unfold maxSize at hsize; omega)]
  rw [ensureWritableBytes] at hensure
  split at hensure
  · exact makeSpace_length h hensure hroom
  · rw [← Option.some.inj hensure]
    exact le_max_left _ _

theorem retrieve_length (b : Buffer) (len : ℕ) : (b.retrieve len).buffer.length = b.buffer.length := by
  unfold retrieve
  split <;> rfl

theorem readFromSocket_length {n : ℤ} (h : b.Sound)
    (hread : b.readFromSocket (.bytes data) = some (b', n)) :
    b'.buffer.length ≤ max b.buffer.length (2 * b'.readable.length) := by
  have hordered := h.ordered
  simp only [readFromSocket, Option.bind_eq_bind, Option.bind_eq_some_iff] at hread
  obtain ⟨_, hbegin, vector, hcopy, hrest⟩ := hread
  obtain rfl := begin_eq_some hbegin
  have hlength := length_of_copyTo hcopy
  split at hrest
  · rw [← (Prod.mk.inj (Option.some.inj hrest)).1]
    exact hlength.le.trans (le_max_left _ _)
  · -- the vector is full, and what is in the side buffer is appended
    obtain ⟨appended, happend, hpair⟩ := Option.map_eq_some_iff.mp hrest
    obtain ⟨rfl, -⟩ := Prod.mk.inj hpair
    have hfull : Sound { b with buffer := vector, writeIndex := vector.length } :=
      sound_of_ordered (hordered.readIndex_le.trans (hlength ▸ h.writeIndex_le)) le_rfl
        (hlength ▸ hordered.size_le)
    exact hlength ▸ append_length hfull happend

/-- One call makes the vector at most twice as large as the queue that it leaves. -/
theorem step_length {call : Call} (h : b.Sound) (hstep : b.step call = some b') :
    b'.buffer.length ≤ max b.buffer.length (2 * b'.readable.length) := by
  cases call with
  | append data => exact append_length h hstep
  | retrieve len =>
      rw [← Option.some.inj hstep, retrieve_length]
      exact le_max_left _ _
  | readFromSocket result =>
      obtain ⟨⟨next, n⟩, hread, rfl⟩ := Option.map_eq_some_iff.mp hstep
      cases result with
      | error errno =>
          obtain ⟨_, -, hsome⟩ := Option.bind_eq_some_iff.mp hread
          rw [← (Prod.mk.inj (Option.some.inj hsome)).1]
          exact le_max_left _ _
      | bytes data => exact readFromSocket_length h hread

/-- The queue that the call leaves has at most `bound` bytes. -/
def Holds (bound : ℕ) (b : Buffer) (call : Call) : Prop :=
  ∀ next ∈ b.step call, next.readable.length ≤ bound

instance (bound : ℕ) (b : Buffer) (call : Call) : Decidable (Holds bound b call) :=
  inferInstanceAs (Decidable (∀ next ∈ b.step call, _))

/-- **The vector is at most twice as large as the largest queue**, or as large as it was made. -/
theorem buffer_length_le {initialSize bound : ℕ} {calls : List Call} (hnew : new initialSize = some b)
    (hcalls : Machine.AllSteps step (Holds bound) b calls) (hrun : Machine.run step b calls = some b') :
    b'.buffer.length ≤ max initialSize (2 * bound) := by
  have hinit : b.buffer.length = initialSize := by
    obtain ⟨-, hsome⟩ := Option.ite_none_right_eq_some.mp hnew
    rw [← Option.some.inj hsome]
    exact List.length_replicate
  have hinv := Machine.run_invariant
    (fun b => b.Sound ∧ b.buffer.length ≤ max initialSize (2 * bound)) ?_ calls b b'
    ⟨new_sound hnew, hinit.le.trans (le_max_left _ _)⟩ hcalls hrun
  · exact hinv.2
  · rintro b call next ⟨h, hlength⟩ hholds hstep
    refine ⟨step_sound b call next h hstep, ?_⟩
    have hnext := step_length h hstep
    have hbound := hholds next hstep
    omega

/-- Three bytes that are appended behind two that were retrieved and one that was not. -/
theorem buffer_length_le_three :
    ∃ b b', new 3 = some b ∧
      Machine.run step b [.append [1, 2, 3], .retrieve 2, .append [4, 5, 6]] = some b' ∧
      b'.buffer.length = 6 ∧ b'.buffer.length ≤ max 3 (2 * 4) := by
  have hcalls : Machine.AllSteps step (Holds 4)
      ⟨[0, 0, 0], 0, 0⟩ [.append [1, 2, 3], .retrieve 2, .append [4, 5, 6]] := by decide
  have hrun : Machine.run step ⟨[0, 0, 0], 0, 0⟩ [.append [1, 2, 3], .retrieve 2, .append [4, 5, 6]] =
      some ⟨[1, 2, 3, 4, 5, 6], 2, 6⟩ := by decide
  exact ⟨_, _, by decide, hrun, rfl, buffer_length_le (by decide : new 3 = _) hcalls hrun⟩

end EasyLib.Reactors.Buffer
