import Protoc.Io.EpsCopyOutputBytes
import Protoc.Wire.ScalarCodec

/-!
# Scalars through streams

What `Write*NoTag` puts into a coded output, over any blocks, `ReadPrimitive` takes out of a coded input, from any
chunks.
-/

namespace Protoc.Wire

open Protoc.Io Protoc.Lib Protoc.Util.Converter CodedOutputStream
open List

/-- `WriteInt32NoTag`, and so on: the call on the coded output. -/
def ScalarType.writeNoTag : (type : ScalarType) → type.Value → WriteOp
  | .double, value => .writeLittleEndian64 value
  | .float, value => .writeLittleEndian32 value
  | .int64, value => .writeVarint64 value.toUInt64
  | .uint64, value => .writeVarint64 value
  | .int32, value => .writeVarint64 value.toInt64.toUInt64
  | .fixed64, value => .writeLittleEndian64 value
  | .fixed32, value => .writeLittleEndian32 value
  | .bool, value => .writeVarint32 (if value then 1 else 0)
  | .uint32, value => .writeVarint32 value
  | .enum, value => .writeVarint64 value.toInt64.toUInt64
  | .sfixed32, value => .writeLittleEndian32 value.toUInt32
  | .sfixed64, value => .writeLittleEndian64 value.toUInt64
  | .sint32, value => .writeVarint32 (zigZagEncode32 value)
  | .sint64, value => .writeVarint64 (zigZagEncode64 value)

/-- The call on the coded input by which a value is read. -/
def ScalarType.readCall : ScalarType → Call
  | .double | .fixed64 | .sfixed64 => .op .readLittleEndian64
  | .float | .fixed32 | .sfixed32 => .op .readLittleEndian32
  | .int64 | .uint64 | .sint64 | .bool => .op .readVarint64
  | .int32 | .uint32 | .sint32 | .enum => .op .readVarint32

/-- A value with its type. -/
abbrev Scalar := (type : ScalarType) × type.Value

/-- `ReadPrimitive` for one type after the other, up to the first that fails. -/
def readScalars : List ScalarType → CodedInputStream → Option (List Scalar × CodedInputStream)
  | [], input => some ([], input)
  | type :: types, input => do
    let r := readPrimitive type input
    guard r.1
    let value ← r.2.1
    let rest ← readScalars types r.2.2
    pure (⟨type, value⟩ :: rest.1, rest.2)

theorem toArray_writeNoTag (x : Scalar) : (x.1.writeNoTag x.2).toArray = writePrimitiveNoTagToArray x.1 x.2 := by
  obtain ⟨type, value⟩ := x
  cases type <;> rfl

theorem callStep_readCall (type : ScalarType) (c : Caller CodedInputStream) :
    callStep c type.readCall = some { c with stream := (readPrimitive type c.stream).2.2 } := by
  cases type <;> rfl

variable {data rest : List UInt8} {s : CodedInputStream}

theorem canRead_readPrimitive (x : Scalar) (h : CanRead data s (writePrimitiveNoTagToArray x.1 x.2 ++ rest)) :
    CanRead data (readPrimitive x.1 s).2.2 rest := by
  obtain ⟨hreadable, s₀, calls, c, hopened, hruns, rfl⟩ := h
  have hfound := found_readPrimitive x.1 x.2 ⟨hreadable, s₀, calls, c, hopened, hruns, rfl⟩
  have hin : InStep c x.1.readCall := by
    rw [InStep]
    cases x.1 <;> exact ⟨trivial, trivial⟩
  exact ⟨hfound.2.2, s₀, _, _, hopened, hruns.append (.cons hin (callStep_readCall x.1 c) (.nil _)), rfl⟩

/-- **Values are read one after the other.** -/
theorem readScalars_spec (xs : List Scalar)
    (h : CanRead data s (xs.flatMap (fun x => writePrimitiveNoTagToArray x.1 x.2) ++ rest)) :
    ∃ s', readScalars (xs.map Sigma.fst) s = some (xs, s') ∧ CanRead data s' rest := by
  induction xs generalizing s with
  | nil => exact ⟨s, rfl, h⟩
  | cons x xs ih =>
    rw [flatMap_cons, append_assoc] at h
    obtain ⟨hok, hvalue, -⟩ := found_readPrimitive x.1 x.2 h
    obtain ⟨s', hread, hrest⟩ := ih (canRead_readPrimitive x h)
    refine ⟨s', ?_, hrest⟩
    rw [map_cons, readScalars]
    simp [hok, hvalue, hread]

theorem readable_ofStream {chunks : List (List UInt8)} (h : ∀ chunk ∈ chunks, chunk.length ≤ INT_MAX) :
    readable chunks.flatten (.ofStream ⟨chunks, 0⟩) = chunks.flatten.take INT_MAX := by
  have hreads : Reads _ [] (CodedInputStream.ofStream ⟨chunks, 0⟩) := .refresh rfl (.done _)
  exact (hreads.stands (unread_stands ⟨chunks, 0⟩ h)).2.2.2.2.symm

end Protoc.Wire
