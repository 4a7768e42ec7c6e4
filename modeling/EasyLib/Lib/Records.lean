import Mathlib.Data.List.Basic
import Mathlib.Data.Nat.Notation

/-!
# Records of one width in a stream

A pipe whose writers write whole records holds a concatenation of them. As all have the same width, a
reader that asks for this many symbols gets the first record, and leaves the others as they were.
-/

namespace EasyLib

structure Records (Record Symbol : Type*) where
  width : ℕ
  encode : Record → List Symbol
  decode : List Symbol → Option Record
  length_encode : ∀ record, (encode record).length = width
  decode_encode : ∀ record, decode (encode record) = some record

namespace Records

variable {Record Symbol : Type*} (codec : Records Record Symbol)

def stream (records : List Record) : List Symbol := records.flatMap codec.encode

theorem stream_concat (records : List Record) (record : Record) :
    codec.stream (records ++ [record]) = codec.stream records ++ codec.encode record := by
  rw [stream, List.flatMap_append, List.flatMap_singleton]
  rfl

theorem take_stream (record : Record) (records : List Record) :
    (codec.stream (record :: records)).take codec.width = codec.encode record := by
  rw [stream, List.flatMap_cons, ← codec.length_encode record, List.take_left]

theorem drop_stream (record : Record) (records : List Record) :
    (codec.stream (record :: records)).drop codec.width = codec.stream records := by
  rw [stream, List.flatMap_cons, ← codec.length_encode record, List.drop_left]
  rfl

end Records

end EasyLib
