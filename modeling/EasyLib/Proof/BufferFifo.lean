import EasyLib.Reactors.Buffer

/-!
# The buffer is a queue of bytes

`readable` is the abstraction function: the queue a `Buffer` stands for. Appending adds at the back,
retrieving drops from the front, and reading from the socket adds what the kernel has delivered,
however the indices move underneath. Growth and the move to the front differ only in where the bytes
lie, so both are summed up in what `EnsureWritableBytes` gives: the same queue with room behind it.
-/

namespace EasyLib.Reactors.Buffer

open MachineInt

/-- The indices lie in order inside a vector that is neither empty nor above its maximal size. -/
structure Wf (b : Buffer) : Prop where
  readIndex_le : b.readIndex ≤ b.writeIndex
  writeIndex_le : b.writeIndex ≤ b.buffer.length
  size_pos : 0 < b.buffer.length
  size_le : b.buffer.length ≤ maxSize

variable {b : Buffer} {data : List Byte}

theorem readableBytes_eq (h : b.Wf) : b.readableBytes = b.writeIndex - b.readIndex := by
  have := h.writeIndex_le
  have := h.size_le
  exact subSize_of_le h.readIndex_le (by unfold maxSize at *; omega)

theorem writeableBytes_eq (h : b.Wf) : b.writeableBytes = b.buffer.length - b.writeIndex := by
  have := h.size_le
  exact subSize_of_le h.writeIndex_le (by unfold maxSize at *; omega)

theorem length_readable (h : b.Wf) : b.readable.length = b.readableBytes := by
  rw [readableBytes_eq h]
  simp [readable, h.writeIndex_le]

theorem begin_eq (h : b.Wf) : b.begin = some b.buffer := by
  have := h.size_pos
  simp [begin, Nat.ne_of_gt this]

theorem new_wf {initialSize : Nat} (hpos : 1 ≤ initialSize) (hnew : new initialSize = some b) :
    b.Wf ∧ b.readable = [] ∧ b.writeIndex = 0 := by
  unfold new at hnew
  split at hnew
  · rename_i hle
    cases hnew
    exact ⟨⟨le_rfl, by simp, by simp; omega, by simpa using hle⟩, by simp [readable], rfl⟩
  · cases hnew

/-! ### Making room -/

theorem copyTo_spec (h : b.Wf) (data : List Byte)
    (hfits : b.writeIndex + data.length ≤ b.buffer.length) :
    ∃ vector, copyTo b.buffer b.writeIndex data = some vector ∧
      vector.length = b.buffer.length ∧
      Wf { b with buffer := vector, writeIndex := b.writeIndex + data.length } ∧
      readable { b with buffer := vector, writeIndex := b.writeIndex + data.length } =
        b.readable ++ data := by
  refine ⟨_, if_pos hfits, ?_, ?_, ?_⟩
  · have := h.writeIndex_le
    simp only [List.length_append, List.length_take, List.length_drop]
    omega
  · have := h.readIndex_le
    have := h.size_pos
    have := h.size_le
    constructor <;>
      simp only [List.length_append, List.length_take, List.length_drop] <;> omega
  · have hlen : (b.buffer.take b.writeIndex ++ data).length = b.writeIndex + data.length := by
      simp [h.writeIndex_le]
    have htake : b.readIndex ≤ (b.buffer.take b.writeIndex).length := by
      simpa [h.writeIndex_le] using h.readIndex_le
    simp only [readable]
    rw [List.take_left' hlen, List.drop_append_of_le_length htake]

theorem resize_spec (h : b.Wf) {size : Nat} (hge : b.buffer.length ≤ size) (hle : size ≤ maxSize) :
    ∃ b', b.resize size = some b' ∧ b'.Wf ∧ b'.readable = b.readable ∧
      b'.buffer.length = size ∧ b'.writeIndex = b.writeIndex := by
  refine ⟨_, if_pos hle, ?_, ?_, ?_, rfl⟩
  · have := h.readIndex_le
    have := h.writeIndex_le
    have := h.size_pos
    constructor <;> simp only [List.length_append, List.length_take, List.length_replicate] <;> omega
  · simp only [readable, List.take_of_length_le hge]
    rw [List.take_append_of_le_length h.writeIndex_le]
  · simp only [List.length_append, List.length_take, List.length_replicate]
    omega

theorem copyTo_front_spec (h : b.Wf) :
    ∃ vector, copyTo b.buffer 0 b.readable = some vector ∧
      vector.length = b.buffer.length ∧
      Wf { buffer := vector, readIndex := 0, writeIndex := b.readableBytes } ∧
      readable { buffer := vector, readIndex := 0, writeIndex := b.readableBytes } =
        b.readable := by
  have hlen := length_readable h
  have heq := readableBytes_eq h
  have hread := h.readIndex_le
  have hwrite := h.writeIndex_le
  refine ⟨_, if_pos (by omega), ?_, ?_, ?_⟩
  · simp only [List.length_append, List.length_take, List.length_drop]
    omega
  · have := h.size_pos
    have := h.size_le
    constructor <;>
      simp only [List.length_append, List.length_take, List.length_drop] <;> omega
  · simp only [readable, List.take_zero, List.nil_append, List.drop_zero]
    exact List.take_left' hlen

/-- A length that is an `int` reaches `MakeSpace` as it is, and no sum wraps around. -/
theorem makeSpace_of_lt (h : b.Wf) {len : Nat} (hint : len < 2 ^ 31) :
    b.makeSpace (toInt32 len) =
      if b.readIndex + b.writeableBytes < len then b.resize (b.writeIndex + len)
      else b.begin.bind fun buffer => (copyTo buffer 0 b.readable).bind fun buffer =>
        some { buffer, readIndex := 0, writeIndex := b.readableBytes } := by
  have hwriteable := writeableBytes_eq h
  have hread := h.readIndex_le
  have hwrite := h.writeIndex_le
  have hsize := h.size_le
  rw [makeSpace, toInt32_of_lt hint, toUInt64_natCast (by omega),
    addSize_of_lt (by unfold maxSize at *; omega), addSize_of_lt (by unfold maxSize at *; omega)]
  rfl

theorem ensureWritableBytes_spec (h : b.Wf) {len : Nat} (hfits : b.Fits len) :
    ∃ b', b.ensureWritableBytes len = some b' ∧ b'.Wf ∧ b'.readable = b.readable ∧
      b'.writeIndex + len ≤ b'.buffer.length ∧ b'.writeIndex ≤ b.writeIndex := by
  have hwriteable := writeableBytes_eq h
  have hread := h.readIndex_le
  have hwrite := h.writeIndex_le
  unfold ensureWritableBytes
  by_cases hroom : len > b.writeableBytes
  · obtain ⟨hint, hspace⟩ := hfits.resolve_left (by omega)
    rw [if_pos hroom, makeSpace_of_lt h hint]
    by_cases hgrow : b.readIndex + b.writeableBytes < len
    · have hmax : b.writeIndex + len ≤ maxSize := hspace.resolve_left (by omega)
      rw [if_pos hgrow]
      obtain ⟨b', hresize, hwf, hqueue, hlen, hindex⟩ := resize_spec h (by omega) hmax
      exact ⟨b', hresize, hwf, hqueue, by omega, by omega⟩
    · obtain ⟨vector, hcopy, hlen, hwf, hqueue⟩ := copyTo_front_spec h
      have hreads := readableBytes_eq h
      refine ⟨_, ?_, hwf, hqueue, ?_, ?_⟩
      · rw [if_neg hgrow, begin_eq h]
        simp [hcopy]
      · simp only [hlen]
        omega
      · simp only
        omega
  · exact ⟨b, if_neg hroom, h, rfl, by omega, le_rfl⟩

/-! ### The operations on the queue -/

theorem append_spec (h : b.Wf) (hfits : b.Fits data.length) :
    ∃ b', b.append data = some b' ∧ b'.Wf ∧ b'.readable = b.readable ++ data ∧
      b'.writeIndex ≤ b.writeIndex + data.length := by
  obtain ⟨room, hroom, hwf, hqueue, hfree, hindex⟩ := ensureWritableBytes_spec h hfits
  obtain ⟨vector, hcopy, -, hwf', hqueue'⟩ := copyTo_spec hwf data hfree
  have hsum : addSize room.writeIndex data.length = room.writeIndex + data.length := by
    have := hwf.size_le
    exact addSize_of_lt (by unfold maxSize at *; omega)
  refine ⟨_, ?_, hwf', by rw [hqueue', hqueue], ?_⟩
  · simp [append, hroom, begin_eq hwf, hcopy, hsum]
  · simp only
    omega

theorem retrieve_spec (h : b.Wf) (len : Nat) :
    (b.retrieve len).Wf ∧ (b.retrieve len).readable = b.readable.drop len ∧
      (b.retrieve len).writeIndex ≤ b.writeIndex := by
  have hread := h.readIndex_le
  have hwrite := h.writeIndex_le
  have hsize := h.size_le
  have hreads := readableBytes_eq h
  unfold retrieve
  by_cases hlt : len < b.readableBytes
  · rw [if_pos hlt, addSize_of_lt (by unfold maxSize at *; omega)]
    refine ⟨⟨?_, hwrite, h.size_pos, hsize⟩, ?_, le_rfl⟩
    · simp only
      omega
    · simp only [readable, List.drop_drop]
  · rw [if_neg hlt]
    refine ⟨⟨le_rfl, Nat.zero_le _, h.size_pos, hsize⟩, ?_, Nat.zero_le _⟩
    have hlen : b.readable.length ≤ len := by
      rw [length_readable h]
      omega
    rw [List.drop_of_length_le hlen]
    simp [readable]

theorem resize_eq_some {b' : Buffer} {size : Nat} (hresize : b.resize size = some b') :
    size ≤ maxSize ∧ b'.buffer.length = size ∧ b'.writeIndex = b.writeIndex ∧
      b'.readIndex = b.readIndex := by
  unfold resize at hresize
  split at hresize
  · rename_i hle
    obtain rfl := Option.some.inj hresize
    refine ⟨hle, ?_, rfl, rfl⟩
    simp only [List.length_append, List.length_take, List.length_replicate]
    omega
  · cases hresize

theorem copyTo_eq_some {buffer vector : List Byte} {pos : Nat}
    (hcopy : copyTo buffer pos data = some vector) : pos + data.length ≤ buffer.length := by
  unfold copyTo at hcopy
  split at hcopy
  · assumption
  · cases hcopy

theorem begin_eq_some {vector : List Byte} (hbegin : b.begin = some vector) : vector = b.buffer := by
  unfold begin at hbegin
  split at hbegin
  · cases hbegin
  · exact (Option.some.inj hbegin).symm

/-- A length from `2 ^ 31` on turns negative in `MakeSpace`, which then asks either for more than the
maximal size or for less than the write index. -/
theorem makeSpace_of_ge {b' : Buffer} {len : Nat} (h : b.Wf) (hge : 2 ^ 31 ≤ len)
    (hlt : len < 2 ^ 32) (hspace : b.makeSpace (toInt32 len) = some b') :
    b'.buffer.length < b'.writeIndex + len := by
  have hwriteable := writeableBytes_eq h
  have hread := h.readIndex_le
  have hwrite := h.writeIndex_le
  have hsize := h.size_le
  have hneg := toInt32_of_ge hge hlt
  have hconv : (toUInt64 (toInt32 len) : Int) = toInt32 len + 2 ^ 64 :=
    toUInt64_of_neg (by omega) (by omega)
  have hsum : addSize b.readIndex b.writeableBytes = b.readIndex + b.writeableBytes :=
    addSize_of_lt (by unfold maxSize at *; omega)
  rw [makeSpace, hsum, if_pos (by unfold maxSize at *; omega)] at hspace
  obtain ⟨hmax, hlen, hindex⟩ := resize_eq_some hspace
  have hshrink : addSize b.writeIndex (toUInt64 (toInt32 len)) + 2 ^ 32 = b.writeIndex + len := by
    unfold addSize maxSize at *
    omega
  omega

theorem fits_of_append_eq_some {b' : Buffer} (h : b.Wf) (hlen : data.length < 2 ^ 32)
    (happend : b.append data = some b') : b.Fits data.length := by
  by_contra hfits
  simp only [Fits, not_or, not_and, not_le] at hfits
  obtain ⟨hroom, hspace⟩ := hfits
  simp only [append, ensureWritableBytes, gt_iff_lt, if_pos hroom,
    Option.bind_eq_bind, Option.bind_eq_some_iff] at happend
  obtain ⟨room, hmake, vector, hbegin, copied, hcopy, -⟩ := happend
  have hfree := copyTo_eq_some (begin_eq_some hbegin ▸ hcopy)
  by_cases hint : data.length < 2 ^ 31
  · obtain ⟨hgrow, hmax⟩ := hspace hint
    rw [makeSpace_of_lt h hint, if_pos hgrow] at hmake
    have hle := (resize_eq_some hmake).1
    omega
  · have := makeSpace_of_ge h (not_lt.mp hint) hlen hmake
    omega

theorem fits_of_le_maxSize {len : Nat} (hint : len < 2 ^ 31) (hmax : b.writeIndex + len ≤ maxSize) :
    b.Fits len := Or.inr ⟨hint, Or.inr hmax⟩

theorem readFromSocket_of_le (h : b.Wf) (hroom : data.length ≤ b.writeableBytes) :
    ∃ b' : Buffer, b.readFromSocket (.bytes data) = some (b', (data.length : Int)) ∧ b'.Wf ∧
      b'.readable = b.readable ++ data ∧ b'.writeIndex = b.writeIndex + data.length := by
  have hwriteable := writeableBytes_eq h
  have hwrite := h.writeIndex_le
  have hsize := h.size_le
  obtain ⟨vector, hcopy, -, hwf, hqueue⟩ := copyTo_spec h data (by omega)
  have hsum : addSize b.writeIndex data.length = b.writeIndex + data.length :=
    addSize_of_lt (by unfold maxSize at *; omega)
  refine ⟨_, ?_, hwf, hqueue, rfl⟩
  simp [readFromSocket, begin_eq h, List.take_of_length_le hroom, hcopy, hroom, hsum]

theorem readFromSocket_of_gt (h : b.Wf) (hover : b.writeableBytes < data.length) :
    ∃ full : Buffer, full.Wf ∧ full.writeIndex = b.writeIndex + b.writeableBytes ∧
      full.readable = b.readable ++ data.take b.writeableBytes ∧
      b.readFromSocket (.bytes data) =
        (full.append (data.drop b.writeableBytes)).map fun b' => (b', (data.length : Int)) := by
  have hwriteable := writeableBytes_eq h
  have hwrite := h.writeIndex_le
  have htake : (data.take b.writeableBytes).length = b.writeableBytes := by
    simp only [List.length_take]
    omega
  obtain ⟨vector, hcopy, hlen, hwf, hqueue⟩ :=
    copyTo_spec h (data.take b.writeableBytes) (by omega)
  rw [htake] at hwf hqueue
  have hend : vector.length = b.writeIndex + b.writeableBytes := by omega
  refine ⟨_, hwf, rfl, hqueue, ?_⟩
  rw [readFromSocket, begin_eq h, Option.bind_eq_bind, Option.bind_some, hcopy, Option.bind_some,
    if_neg (not_le.mpr hover), hend]

/-! ### Whole sequences of calls -/

def Call.added : Call → List Byte
  | .append data => data
  | .retrieve _ => []
  | .readFromSocket (.error _) => []
  | .readFromSocket (.bytes data) => data

/-- The abstract queue: what is appended or read goes to the back, `Retrieve` takes from the front. -/
def fifo (queue : List Byte) : Call → List Byte
  | .retrieve len => queue.drop len
  | call => queue ++ call.added

theorem extrabuf_lt {b : Buffer} (hover : b.writeableBytes < data.length)
    (hle : data.length ≤ b.iovecLength) : (data.drop b.writeableBytes).length < 2 ^ 31 := by
  unfold iovecLength extrabufSize at hle
  rw [List.length_drop]
  split at hle <;> omega

theorem step_refines (b : Buffer) (call : Call) (b' : Buffer) (h : b.Wf)
    (hadmissible : b.Admissible call) (hstep : b.step call = some b') :
    b'.Wf ∧ b'.readable = fifo b.readable call := by
  cases call with
  | append data =>
      have hint : data.length < 2 ^ 31 := hadmissible
      have hfits := fits_of_append_eq_some h (by omega) hstep
      obtain ⟨b'', happend, hwf, hqueue, -⟩ := append_spec h hfits
      obtain rfl : b'' = b' := Option.some.inj (happend.symm.trans hstep)
      exact ⟨hwf, hqueue⟩
  | retrieve len =>
      obtain rfl : b.retrieve len = b' := Option.some.inj hstep
      exact ⟨(retrieve_spec h len).1, (retrieve_spec h len).2.1⟩
  | readFromSocket result =>
      cases result with
      | error errno =>
          obtain rfl : b = b' := by simpa [step, readFromSocket, begin_eq h] using hstep
          exact ⟨h, by simp [fifo, Call.added]⟩
      | bytes data =>
          have hle : data.length ≤ b.iovecLength := hadmissible
          by_cases hroom : data.length ≤ b.writeableBytes
          · obtain ⟨b'', hread, hwf, hqueue, -⟩ := readFromSocket_of_le h hroom
            obtain rfl : b'' = b' := by simpa [step, hread] using hstep
            exact ⟨hwf, hqueue⟩
          · obtain ⟨full, hwf, -, hqueue, hread⟩ := readFromSocket_of_gt h (not_le.mp hroom)
            have hrest := extrabuf_lt (not_le.mp hroom) hle
            have happend : full.append (data.drop b.writeableBytes) = some b' := by
              simpa [step, hread] using hstep
            have hfits := fits_of_append_eq_some hwf (by omega) happend
            obtain ⟨b'', happend', hwf', hqueue', -⟩ := append_spec hwf hfits
            obtain rfl : b'' = b' := Option.some.inj (happend'.symm.trans happend)
            refine ⟨hwf', ?_⟩
            rw [hqueue', hqueue, List.append_assoc, List.take_append_drop]
            rfl

theorem step_returns (b : Buffer) (call : Call) (h : b.Wf) (hadmissible : b.Admissible call)
    (hmax : b.writeIndex + call.added.length ≤ maxSize) :
    ∃ b', b.step call = some b' ∧ b'.writeIndex ≤ b.writeIndex + call.added.length := by
  cases call with
  | append data =>
      obtain ⟨b', happend, -, -, hindex⟩ := append_spec h (fits_of_le_maxSize hadmissible hmax)
      exact ⟨b', happend, hindex⟩
  | retrieve len => exact ⟨_, rfl, Nat.le_add_right_of_le (retrieve_spec h len).2.2⟩
  | readFromSocket result =>
      cases result with
      | error errno =>
          refine ⟨b, ?_, Nat.le_add_right _ _⟩
          simp [step, readFromSocket, begin_eq h]
      | bytes data =>
          have hle : data.length ≤ b.iovecLength := hadmissible
          have hbytes : b.writeIndex + data.length ≤ maxSize := hmax
          by_cases hroom : data.length ≤ b.writeableBytes
          · obtain ⟨b', hread, -, -, hindex⟩ := readFromSocket_of_le h hroom
            exact ⟨b', by simp [step, hread], Nat.le_of_eq hindex⟩
          · obtain ⟨full, hwf, hindex, -, hread⟩ := readFromSocket_of_gt h (not_le.mp hroom)
            have hrest := extrabuf_lt (not_le.mp hroom) hle
            have hlen : (data.drop b.writeableBytes).length = data.length - b.writeableBytes :=
              List.length_drop
            obtain ⟨b', happend, -, -, hindex'⟩ :=
              append_spec hwf (fits_of_le_maxSize hrest (by omega))
            refine ⟨b', by simp [step, hread, happend], ?_⟩
            simp only [Call.added]
            omega

theorem run_returns (calls : List Call) (b : Buffer) (h : b.Wf)
    (hadmissible : Machine.AllSteps step Admissible b calls)
    (hmax : b.writeIndex + (calls.flatMap Call.added).length ≤ maxSize) :
    ∃ b', Machine.run step b calls = some b' := by
  induction calls generalizing b with
  | nil => exact ⟨b, rfl⟩
  | cons call calls ih =>
      simp only [List.flatMap_cons, List.length_append] at hmax
      obtain ⟨next, hnext, hindex⟩ := step_returns b call h hadmissible.1 (by omega)
      have hwf := (step_refines b call next h hadmissible.1 hnext).1
      obtain ⟨last, hlast⟩ := ih next hwf (hadmissible.2 next hnext) (by omega)
      exact ⟨last, by rw [Machine.run_cons, hnext, Option.bind_some, hlast]⟩

/-- **The buffer refines a queue of bytes.** From any initial size and through any mix of calls the
indices stay in order inside the vector and the readable bytes are those of the abstract queue; and
the calls do return, as long as the bytes of the whole sequence fit into a vector. -/
theorem buffer_refines_fifo {initialSize : Nat} {b : Buffer} {calls : List Call}
    (hpos : 1 ≤ initialSize) (hnew : new initialSize = some b)
    (hadmissible : Machine.AllSteps step Admissible b calls) :
    (∀ b', Machine.run step b calls = some b' →
      b'.readIndex ≤ b'.writeIndex ∧ b'.writeIndex ≤ b'.buffer.length ∧
        b'.readable = calls.foldl fifo []) ∧
    ((calls.flatMap Call.added).length ≤ maxSize → ∃ b', Machine.run step b calls = some b') := by
  obtain ⟨hwf, hempty, hindex⟩ := new_wf hpos hnew
  constructor
  · intro b' hrun
    obtain ⟨hwf', hqueue⟩ := Machine.run_refines step_refines calls b b' hwf hadmissible hrun
    exact ⟨hwf'.readIndex_le, hwf'.writeIndex_le, by rw [hqueue, hempty]⟩
  · intro hmax
    exact run_returns calls b hwf hadmissible (by omega)

theorem buffer_refines_fifo_two :
    ∃ b, new 2 = some b ∧
      ∃ b', Machine.run step b [.append [1, 2, 3, 4], .retrieve 3, .append [5, 6],
          .readFromSocket (.bytes [7, 8, 9]), .retrieve 1] = some b' ∧
        b'.readable = [5, 6, 7, 8, 9] := by
  have hadmissible : Machine.AllSteps step Admissible ⟨[0, 0], 0, 0⟩ [.append [1, 2, 3, 4],
      .retrieve 3, .append [5, 6], .readFromSocket (.bytes [7, 8, 9]), .retrieve 1] := by decide
  obtain ⟨hqueue, hreturns⟩ := buffer_refines_fifo (by decide) (by decide : new 2 = _) hadmissible
  obtain ⟨b', hrun⟩ := hreturns (by decide)
  exact ⟨_, by decide, b', hrun, (hqueue b' hrun).2.2⟩

end EasyLib.Reactors.Buffer
