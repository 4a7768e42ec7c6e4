import EasyLib.Lib.MachineInt
import EasyLib.Lib.Run

/-!
# The socket buffer

`Reactors/net/buffer.h`. A `Buffer` is a vector of bytes with two indices into it: the bytes in
`[read_index_, write_index_)` are readable, those behind `write_index_` are free. `none` stands for a
call that does not return normally: `vector::resize` throws `length_error`, `begin()` dereferences
the iterator of an empty vector, or a copy leaves the vector.
-/

namespace EasyLib.Reactors

open MachineInt

abbrev Byte := UInt8

structure Buffer where
  buffer : List Byte
  readIndex : Nat
  writeIndex : Nat
  deriving DecidableEq, Repr

namespace Buffer

def maxSize : Nat := 2 ^ 63 - 1

def kInitialSize : Nat := 1024

def new (initialSize : Nat) : Option Buffer :=
  if initialSize ≤ maxSize then
    some { buffer := List.replicate initialSize 0, readIndex := 0, writeIndex := 0 }
  else
    none

def readableBytes (b : Buffer) : Nat := subSize b.writeIndex b.readIndex

def writeableBytes (b : Buffer) : Nat := subSize b.buffer.length b.writeIndex

def begin (b : Buffer) : Option (List Byte) :=
  if b.buffer.length = 0 then none else some b.buffer

def resize (b : Buffer) (size : Nat) : Option Buffer :=
  if size ≤ maxSize then
    some { b with buffer := b.buffer.take size ++ List.replicate (size - b.buffer.length) 0 }
  else
    none

def copyTo (buffer : List Byte) (pos : Nat) (data : List Byte) : Option (List Byte) :=
  if pos + data.length ≤ buffer.length then
    some (buffer.take pos ++ data ++ buffer.drop (pos + data.length))
  else
    none

def retrieve (b : Buffer) (len : Nat) : Buffer :=
  if len < b.readableBytes then
    { b with readIndex := addSize b.readIndex len }
  else
    { b with readIndex := 0, writeIndex := 0 }

def readable (b : Buffer) : List Byte := (b.buffer.take b.writeIndex).drop b.readIndex

/-- `MakeSpace`. Its parameter is an `int`, which the comparison and the sum convert to `size_t`. -/
def makeSpace (b : Buffer) (len : Int) : Option Buffer :=
  if addSize b.readIndex b.writeableBytes < toUInt64 len then
    b.resize (addSize b.writeIndex (toUInt64 len))
  else do
    let reads := b.readableBytes
    let buffer ← b.begin
    let buffer ← copyTo buffer 0 b.readable
    some { buffer, readIndex := 0, writeIndex := reads }

/-- `EnsureWritableBytes`. The call of `MakeSpace` narrows the length to `int`. -/
def ensureWritableBytes (b : Buffer) (len : Nat) : Option Buffer :=
  if len > b.writeableBytes then b.makeSpace (toInt32 len) else some b

/-- The lengths `EnsureWritableBytes` makes room for: those that fit as it is, and those the
narrowing to `int` keeps, by moving the readable bytes to the front or by growing the vector. -/
def Fits (b : Buffer) (len : Nat) : Prop :=
  len ≤ b.writeableBytes ∨
    len < 2 ^ 31 ∧ (len ≤ b.readIndex + b.writeableBytes ∨ b.writeIndex + len ≤ maxSize)

instance (b : Buffer) (len : Nat) : Decidable (b.Fits len) := by
  unfold Fits
  infer_instance

def append (b : Buffer) (data : List Byte) : Option Buffer := do
  let b ← b.ensureWritableBytes data.length
  let buffer ← b.begin
  let buffer ← copyTo buffer b.writeIndex data
  some { b with buffer, writeIndex := addSize b.writeIndex data.length }

inductive ReadvResult where
  | error (errno : Int)
  | bytes (data : List Byte)
  deriving DecidableEq, Repr

def extrabufSize : Nat := 65536

/-- The total length of the segments given to `readv`. The side buffer is one of them only while the
room in the vector is smaller than it. -/
def iovecLength (b : Buffer) : Nat :=
  if b.writeableBytes < extrabufSize then b.writeableBytes + extrabufSize else b.writeableBytes

/-- `ReadFromSocket`, with the number it returns. `readv` has stored the first `writable` bytes in
the vector itself and the others in the side buffer. -/
def readFromSocket (b : Buffer) : ReadvResult → Option (Buffer × Int)
  | .error _ => do
      let _ ← b.begin
      some (b, -1)
  | .bytes data => do
      let vector ← b.begin
      let vector ← copyTo vector b.writeIndex (data.take b.writeableBytes)
      if data.length ≤ b.writeableBytes then
        some ({ b with buffer := vector, writeIndex := addSize b.writeIndex data.length },
          data.length)
      else
        let full := { b with buffer := vector, writeIndex := vector.length }
        (full.append (data.drop b.writeableBytes)).map fun b' => (b', (data.length : Int))

/-! ### Sequences of calls -/

inductive Call where
  | append (data : List Byte)
  | retrieve (len : Nat)
  | readFromSocket (result : ReadvResult)
  deriving DecidableEq, Repr

def step (b : Buffer) : Call → Option Buffer
  | .append data => b.append data
  | .retrieve len => some (b.retrieve len)
  | .readFromSocket result => (b.readFromSocket result).map Prod.fst

/-- What the caller and the kernel promise: a length in the range of `MakeSpace`'s parameter, and no
more bytes read than there is room for. -/
def Admissible (b : Buffer) : Call → Prop
  | .append data => data.length < 2 ^ 31
  | .retrieve _ => True
  | .readFromSocket (.error _) => True
  | .readFromSocket (.bytes data) => data.length ≤ b.iovecLength

instance (b : Buffer) : ∀ call, Decidable (b.Admissible call)
  | .append data => inferInstanceAs (Decidable (data.length < 2 ^ 31))
  | .retrieve _ => inferInstanceAs (Decidable True)
  | .readFromSocket (.error _) => inferInstanceAs (Decidable True)
  | .readFromSocket (.bytes data) => inferInstanceAs (Decidable (data.length ≤ b.iovecLength))

end Buffer

end EasyLib.Reactors
