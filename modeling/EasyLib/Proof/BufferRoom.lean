import EasyLib.Proof.BufferFifo

/-!
# Room in the buffer

What `EnsureWritableBytes` promises to a caller with a `uint32_t`: room for that many bytes behind the
write index, and the readable bytes as they were. `MakeSpace` takes an `int`. From `2 ^ 31` on it is
asked for a negative length, and no vector has the size that this comes to.
-/

namespace EasyLib.Reactors.Buffer

open Machine MachineInt

/-- `EnsureWritableBytes(len)` returns with room for `len` bytes, the write index inside the vector and
the same bytes readable. -/
def MakesRoom (b : Buffer) (len : ℕ) : Prop :=
  ∃ b', b.ensureWritableBytes len = some b' ∧ len ≤ b'.writeableBytes ∧
    b'.writeIndex ≤ b'.buffer.length ∧ b'.readable = b.readable

variable {b b' : Buffer} {len : ℕ}

/-! ### The buffers there can be -/

/-- A buffer built with size 0 that nothing has been put into. `begin()` cannot be called on it. -/
def unused : Buffer := { buffer := [], readIndex := 0, writeIndex := 0 }

/-- Every buffer that the calls lead to. -/
def Sound (b : Buffer) : Prop := b = unused ∨ b.Wf

theorem sound_of_ordered (hread : b.readIndex ≤ b.writeIndex) (hwrite : b.writeIndex ≤ b.buffer.length)
    (hsize : b.buffer.length ≤ maxSize) : b.Sound := by
  rcases Nat.eq_zero_or_pos b.buffer.length with hzero | hpos
  · left
    obtain ⟨buffer, readIndex, writeIndex⟩ := b
    obtain rfl : buffer = [] := List.length_eq_zero_iff.mp hzero
    obtain rfl : writeIndex = 0 := Nat.le_zero.mp hwrite
    obtain rfl : readIndex = 0 := Nat.le_zero.mp hread
    rfl
  · exact Or.inr ⟨hread, hwrite, hpos, hsize⟩

theorem new_sound {initialSize : ℕ} (hnew : new initialSize = some b) : b.Sound := by
  unfold new at hnew
  split at hnew
  · cases hnew
    exact sound_of_ordered le_rfl (Nat.zero_le _) (by simpa)
  · cases hnew

/-- What room is made out of, an `int` of any sign included: the read index stays in front of the write
index, and the vector has a size that a vector can have. -/
structure Ordered (b : Buffer) : Prop where
  readIndex_le : b.readIndex ≤ b.writeIndex
  size_le : b.buffer.length ≤ maxSize

theorem Wf.ordered (h : b.Wf) : b.Ordered := ⟨h.readIndex_le, h.size_le⟩

theorem Sound.ordered (h : b.Sound) : b.Ordered := by
  rcases h with rfl | h
  · exact ⟨le_rfl, Nat.zero_le _⟩
  · exact h.ordered

theorem length_of_copyTo {buffer vector data : List Byte} {pos : ℕ}
    (hcopy : copyTo buffer pos data = some vector) : vector.length = buffer.length := by
  have hle := copyTo_eq_some hcopy
  rw [copyTo, if_pos hle] at hcopy
  obtain rfl := Option.some.inj hcopy
  simp only [List.length_append, List.length_take, List.length_drop]
  omega

theorem makeSpace_ordered {value : Int} (h : b.Ordered) (hspace : b.makeSpace value = some b') :
    b'.Ordered := by
  rw [makeSpace] at hspace
  split at hspace
  · rw [resize] at hspace
    split at hspace
    · cases hspace
      refine ⟨h.readIndex_le, ?_⟩
      simp only [List.length_append, List.length_take, List.length_replicate]
      omega
    · cases hspace
  · simp only [Option.bind_eq_bind, Option.bind_eq_some_iff] at hspace
    obtain ⟨vector, hbegin, copied, hcopy, hspace⟩ := hspace
    cases hspace
    refine ⟨Nat.zero_le _, ?_⟩
    rw [length_of_copyTo hcopy, begin_eq_some hbegin]
    exact h.size_le

theorem ensureWritableBytes_ordered (h : b.Ordered) (hensure : b.ensureWritableBytes len = some b') :
    b'.Ordered := by
  rw [ensureWritableBytes] at hensure
  split at hensure
  · exact makeSpace_ordered h hensure
  · cases hensure
    exact h

/-- A copy that stays inside the vector puts the write index back into it. -/
theorem append_sound {data : List Byte} (h : b.Ordered) (happend : b.append data = some b') :
    b'.Sound := by
  simp only [append, Option.bind_eq_bind, Option.bind_eq_some_iff] at happend
  obtain ⟨room, hensure, vector, hbegin, copied, hcopy, happend⟩ := happend
  cases happend
  have hroom := ensureWritableBytes_ordered h hensure
  obtain rfl := begin_eq_some hbegin
  have hle := copyTo_eq_some hcopy
  have hlen := length_of_copyTo hcopy
  have hread := hroom.readIndex_le
  have hsize := hroom.size_le
  have hsum : addSize room.writeIndex data.length = room.writeIndex + data.length :=
    addSize_of_lt (by unfold maxSize at *; omega)
  refine sound_of_ordered ?_ ?_ ?_ <;> simp only [hsum] <;> omega

theorem retrieve_sound (h : b.Sound) (len : ℕ) : (b.retrieve len).Sound := by
  rcases h with rfl | h
  · exact Or.inl (by simp [retrieve, readableBytes, unused, subSize, toUInt64])
  · exact Or.inr (retrieve_spec h len).1

theorem readFromSocket_sound {result : ReadvResult} (h : b.Sound)
    (hread : (b.readFromSocket result).map Prod.fst = some b') : b'.Sound := by
  rcases h with rfl | h
  · cases result <;> simp [readFromSocket, begin, unused] at hread
  · cases result with
    | error errno =>
        obtain rfl : b = b' := by simpa [readFromSocket, begin_eq h] using hread
        exact Or.inr h
    | bytes data =>
        by_cases hroom : data.length ≤ b.writeableBytes
        · obtain ⟨b'', heq, hwf, -⟩ := readFromSocket_of_le h hroom
          obtain rfl : b'' = b' := by simpa [heq] using hread
          exact Or.inr hwf
        · obtain ⟨full, hwf, -, -, heq⟩ := readFromSocket_of_gt h (not_le.mp hroom)
          have happend : full.append (data.drop b.writeableBytes) = some b' := by
            simpa [heq] using hread
          exact append_sound hwf.ordered happend

theorem step_sound (b : Buffer) (call : Call) (b' : Buffer) (h : b.Sound)
    (hstep : b.step call = some b') : b'.Sound := by
  cases call with
  | append data => exact append_sound h.ordered hstep
  | retrieve len =>
      obtain rfl := Option.some.inj hstep
      exact retrieve_sound h len
  | readFromSocket result => exact readFromSocket_sound h hstep

/-! ### The lengths there is room for -/

theorem makesRoom_of_fits (h : b.Wf) (hfits : b.Fits len) : b.MakesRoom len := by
  obtain ⟨b', hensure, hwf, hqueue, hroom, -⟩ := ensureWritableBytes_spec h hfits
  refine ⟨b', hensure, ?_, hwf.writeIndex_le, hqueue⟩
  rw [writeableBytes_eq hwf]
  omega

theorem fits_of_makesRoom (h : b.Wf) (hlen : len < 2 ^ 32) (hroom : b.MakesRoom len) : b.Fits len := by
  obtain ⟨b', hensure, hle, hindex, -⟩ := hroom
  by_contra hfits
  simp only [Fits, not_or, not_and, not_le] at hfits
  obtain ⟨hfull, hspace⟩ := hfits
  rw [ensureWritableBytes, if_pos hfull] at hensure
  by_cases hint : len < 2 ^ 31
  · obtain ⟨hgrow, hmax⟩ := hspace hint
    rw [makeSpace_of_lt h hint, if_pos hgrow] at hensure
    exact absurd (resize_eq_some hensure).1 (not_le.mpr hmax)
  · have hshort := makeSpace_of_ge h (not_lt.mp hint) hlen hensure
    have hsize := (makeSpace_ordered h.ordered hensure).size_le
    rw [writeableBytes, subSize_of_le hindex (by unfold maxSize at *; omega)] at hle
    omega

theorem writeableBytes_unused : unused.writeableBytes = 0 := by
  decide

theorem ensureWritableBytes_unused (hpos : 0 < len) (hne : 0 < toUInt64 (toInt32 len)) :
    unused.ensureWritableBytes len = unused.resize (toUInt64 (toInt32 len)) := by
  have hlt := toUInt64_lt (toInt32 len)
  have hroom : addSize unused.readIndex unused.writeableBytes = 0 := by decide
  have hsum : addSize unused.writeIndex (toUInt64 (toInt32 len)) = toUInt64 (toInt32 len) := by
    rw [addSize, unused, Nat.zero_add, Nat.mod_eq_of_lt hlt]
  rw [ensureWritableBytes, writeableBytes_unused, if_pos hpos, makeSpace, hroom, if_pos hne, hsum]

theorem makesRoom_unused (hpos : 0 < len) (hint : len < 2 ^ 31) : unused.MakesRoom len := by
  have hvalue : toUInt64 (toInt32 len) = len := by
    rw [toInt32_of_lt hint, toUInt64_natCast (by omega)]
  have hroom : subSize len 0 = len := subSize_of_le (Nat.zero_le len) (by omega)
  refine ⟨⟨List.replicate len 0, 0, 0⟩, ?_, ?_, Nat.zero_le _, ?_⟩
  · rw [ensureWritableBytes_unused hpos (by omega), hvalue, resize, if_pos (by unfold maxSize; omega)]
    simp [unused]
  · simp [writeableBytes, hroom]
  · simp [readable, unused]

theorem not_makesRoom_unused (hge : 2 ^ 31 ≤ len) (hlt : len < 2 ^ 32) : ¬ unused.MakesRoom len := by
  rintro ⟨b', hensure, -⟩
  have hneg := toInt32_of_ge hge hlt
  have hconv : (toUInt64 (toInt32 len) : Int) = toInt32 len + 2 ^ 64 :=
    toUInt64_of_neg (by omega) (by omega)
  rw [ensureWritableBytes_unused (by omega) (by omega)] at hensure
  have hmax := (resize_eq_some hensure).1
  unfold maxSize at hmax
  omega

theorem makesRoom_unused_iff (hlen : len < 2 ^ 32) : unused.MakesRoom len ↔ unused.Fits len := by
  have hfits : unused.Fits len ↔ len < 2 ^ 31 := by
    rw [Fits, writeableBytes_unused]
    unfold maxSize
    simp only [unused]
    omega
  rw [hfits]
  refine ⟨fun hroom => ?_, fun hint => ?_⟩
  · by_contra hge
    exact not_makesRoom_unused (not_lt.mp hge) hlen hroom
  · rcases Nat.eq_zero_or_pos len with rfl | hpos
    · exact ⟨unused, if_neg (by decide), Nat.zero_le _, le_rfl, rfl⟩
    · exact makesRoom_unused hpos hint

theorem makesRoom_iff_of_sound (h : b.Sound) (hlen : len < 2 ^ 32) : b.MakesRoom len ↔ b.Fits len := by
  rcases h with rfl | h
  · exact makesRoom_unused_iff hlen
  · exact ⟨fits_of_makesRoom h hlen, makesRoom_of_fits h⟩

/-- With the memory there is, `EnsureWritableBytes` makes room for exactly the lengths that need none or
that are an `int`. -/
theorem makesRoom_iff_fits {initialSize : ℕ} {fresh : Buffer} {calls : List Call}
    (hnew : new initialSize = some fresh) (hrun : run step fresh calls = some b)
    (hlen : len < 2 ^ 32) :
    (b.MakesRoom len ↔ b.Fits len) ∧
    (b.writeIndex + len ≤ maxSize → (b.MakesRoom len ↔ len ≤ b.writeableBytes ∨ len < 2 ^ 31)) := by
  have hsound : b.Sound := run_invariant_of_forall step_sound (new_sound hnew) hrun
  have hiff := makesRoom_iff_of_sound hsound hlen
  refine ⟨hiff, fun hmax => hiff.trans ?_⟩
  simp only [Fits, hmax, or_true, and_true]

theorem makesRoom_iff_fits_grows :
    ((⟨[7, 8, 9], 1, 3⟩ : Buffer).MakesRoom 4 ↔ Fits ⟨[7, 8, 9], 1, 3⟩ 4) ∧
    ((⟨[7, 8, 9], 1, 3⟩ : Buffer).writeIndex + 4 ≤ maxSize →
      ((⟨[7, 8, 9], 1, 3⟩ : Buffer).MakesRoom 4 ↔
        4 ≤ (⟨[7, 8, 9], 1, 3⟩ : Buffer).writeableBytes ∨ 4 < 2 ^ 31)) :=
  @makesRoom_iff_fits _ 4 0 unused [.append [7, 8, 9], .retrieve 1] rfl (by decide) (by decide)

theorem not_fits_new {initialSize : ℕ} (hpos : 1 ≤ initialSize) (hlt : initialSize < 2 ^ 31)
    (hnew : new initialSize = some b) : ¬ b.Fits (2 ^ 31) := by
  have hwf := (new_wf hpos hnew).1
  rw [new, if_pos (by unfold maxSize; omega)] at hnew
  obtain rfl := Option.some.inj hnew
  rw [Fits, writeableBytes_eq hwf, List.length_replicate]
  omega

/-- A fresh buffer, asked for `2 ^ 31` bytes: the size it asks for is none that a vector can have. -/
theorem new_not_makesRoom : ∃ b, new kInitialSize = some b ∧ ¬ b.MakesRoom (2 ^ 31) := by
  have hnew : new kInitialSize = some ⟨List.replicate kInitialSize 0, 0, 0⟩ := if_pos (by decide)
  refine ⟨_, hnew, fun hroom => ?_⟩
  have hwf := (new_wf (by decide) hnew).1
  exact not_fits_new (by decide) (by decide) hnew (fits_of_makesRoom hwf (by decide) hroom)

end EasyLib.Reactors.Buffer
