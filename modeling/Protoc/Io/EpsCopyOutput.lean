import Protoc.Lib.Words
import Protoc.Lib.Ring
import Protoc.Lib.Varint
import Protoc.Io.ZeroCopyStream

/-!
# The coded output stream

`EpsCopyOutputStream` lets its user write 16 bytes behind the current position without a
check.  It writes into the stream's buffer as long as 16 bytes are left behind `end_`, and
else into a patch buffer of 32 bytes, whose first part it copies to the stream's buffer
and whose slop region it carries over.  `CodedOutputStream` keeps the position and writes
through it.

A pointer points into the patch buffer or into the memory of the stream's buffers, which
lie one after the other.
-/

namespace Protoc.Io

open Protoc.Lib

/-- `kSlopBytes`. -/
def kSlopBytes : ℕ := 16

/-- A pointer. -/
inductive Ptr
  | null
  /-- Into the patch buffer. -/
  | patch (i : ℕ)
  /-- Into the buffers of the stream. -/
  | stream (i : ℕ)
  deriving DecidableEq

namespace Ptr

def offset : Ptr → ℕ
  | null => 0
  | patch i => i
  | stream i => i

/-- The pointer `n` bytes on. -/
def add : Ptr → ℕ → Ptr
  | null, _ => null
  | patch i, n => patch (i + n)
  | stream i, n => stream (i + n)

def diff (p q : Ptr) : ℤ := p.offset - q.offset

end Ptr

/-- `EpsCopyOutputStream`. -/
structure EpsCopyOutputStream where
  end_ : Ptr
  bufferEnd : Ptr
  /-- The patch buffer `buffer_`. -/
  buffer : List UInt8
  stream : ZeroCopyOutputStream
  hadError : Bool
  deriving DecidableEq

namespace EpsCopyOutputStream

/-- The constructor from a stream; the patch buffer holds whatever it held. -/
def ofStream (stream : ZeroCopyOutputStream) (buffer : List UInt8) : EpsCopyOutputStream :=
  ⟨.patch 0, .patch 0, buffer, stream, false⟩

/-- The `n` bytes from a pointer on. -/
def load (s : EpsCopyOutputStream) (p : Ptr) (n : ℕ) : List UInt8 :=
  match p with
  | .null => []
  | .patch i => (s.buffer.drop i).take n
  | .stream i => (s.stream.bytes.drop i).take n

/-- The bytes from a pointer on are overwritten. -/
def store (s : EpsCopyOutputStream) (p : Ptr) (data : List UInt8) : EpsCopyOutputStream :=
  match p with
  | .null => s
  | .patch i => { s with buffer := Ring.blit s.buffer i data }
  | .stream i => { s with stream.bytes := Ring.blit s.stream.bytes i data }

/-- `memcpy` and `memmove`. -/
def memcpy (s : EpsCopyOutputStream) (dst src : Ptr) (n : ℕ) : EpsCopyOutputStream :=
  s.store dst (s.load src n)

/-- `Error`. -/
def error (s : EpsCopyOutputStream) : Ptr × EpsCopyOutputStream :=
  (.patch 0, { s with hadError := true, end_ := .patch kSlopBytes })

/-- `GetSize`. -/
def getSize (s : EpsCopyOutputStream) (ptr : Ptr) : ℕ := (s.end_.diff ptr + kSlopBytes).toNat

/-- `ByteCount`. -/
def byteCount (s : EpsCopyOutputStream) (ptr : Ptr) : ℤ :=
  s.stream.byteCount - (s.end_.diff ptr + if s.bufferEnd ≠ .null then 0 else kSlopBytes)

/-- `SetInitialBuffer`. -/
def setInitialBuffer (s : EpsCopyOutputStream) (data : Ptr) (size : ℕ) : Ptr × EpsCopyOutputStream :=
  if kSlopBytes < size then
    (data, { s with end_ := data.add (size - kSlopBytes), bufferEnd := .null })
  else (.patch 0, { s with end_ := .patch size, bufferEnd := data })

section
variable (buffers : Buffers)

/-- `Next`. -/
def next (s : EpsCopyOutputStream) : Ptr × EpsCopyOutputStream :=
  if s.bufferEnd ≠ .null then
    let s := s.memcpy s.bufferEnd (.patch 0) (s.end_.diff (.patch 0)).toNat
    match s.stream.nextNonEmpty buffers with
    | none => s.error
    | some (size, stream) =>
      let ptr := Ptr.stream s.stream.byteCount
      let s := { s with stream }
      if kSlopBytes < size then
        let s := s.memcpy ptr s.end_ kSlopBytes
        (ptr, { s with end_ := ptr.add (size - kSlopBytes), bufferEnd := .null })
      else
        let s := s.memcpy (.patch 0) s.end_ kSlopBytes
        (.patch 0, { s with bufferEnd := ptr, end_ := .patch size })
  else
    let s := s.memcpy (.patch 0) s.end_ kSlopBytes
    (.patch 0, { s with bufferEnd := s.end_, end_ := .patch kSlopBytes })

/-- The loop of `Flush`, at most `fuel` times. -/
def flushLoop : ℕ → Ptr → EpsCopyOutputStream → Ptr × EpsCopyOutputStream
  | 0, ptr, s => (ptr, s)
  | fuel + 1, ptr, s =>
    if s.bufferEnd ≠ .null ∧ 0 < ptr.diff s.end_ then
      let overrun := (ptr.diff s.end_).toNat
      let r := s.next buffers
      if r.2.hadError then (r.1.add overrun, r.2)
      else flushLoop fuel (r.1.add overrun) r.2
    else (ptr, s)

/-- `Flush`: the size of what remains in the buffer, from `buffer_end_` on.  The overrun
gets less with each `Next`. -/
def flush (s : EpsCopyOutputStream) (ptr : Ptr) : ℕ × EpsCopyOutputStream :=
  let r := flushLoop buffers ((ptr.diff s.end_).toNat + 1) ptr s
  let ptr := r.1
  let s := r.2
  if s.hadError then (0, s)
  else if s.bufferEnd ≠ .null then
    let n := (ptr.diff (.patch 0)).toNat
    let s := s.memcpy s.bufferEnd (.patch 0) n
    ((s.end_.diff ptr).toNat, { s with bufferEnd := s.bufferEnd.add n })
  else (s.getSize ptr, { s with bufferEnd := ptr })

/-- `Trim`. -/
def trim (s : EpsCopyOutputStream) (ptr : Ptr) : Ptr × EpsCopyOutputStream :=
  if s.hadError then (ptr, s)
  else
    let r := s.flush buffers ptr
    let s := r.2
    let stream := if r.1 ≠ 0 then s.stream.backUp r.1 else s.stream
    (.patch 0, { s with stream, bufferEnd := .patch 0, end_ := .patch 0 })

/-- `FlushAndResetBuffer`. -/
def flushAndResetBuffer (s : EpsCopyOutputStream) (ptr : Ptr) : Ptr × EpsCopyOutputStream :=
  if s.hadError then (.patch 0, s)
  else
    let r := s.flush buffers ptr
    if r.2.hadError then (.patch 0, r.2) else r.2.setInitialBuffer r.2.bufferEnd r.1

/-- The loop of `Skip`, at most `fuel` times: `size` bytes are left from `data` on.  Empty
buffers are passed over. -/
def skipLoop : ℕ → ℕ → Ptr → ℕ → EpsCopyOutputStream → (Bool × Ptr) × EpsCopyOutputStream
  | 0, _, data, _, s => ((false, data), s)
  | fuel + 1, count, data, size, s =>
    if size < count then
      match s.stream.nextNonEmpty buffers with
      | none => ((false, s.error.1), s.error.2)
      | some (size', stream) =>
        skipLoop fuel (count - size) (.stream s.stream.byteCount) size' { s with stream }
    else
      let r := s.setInitialBuffer (data.add count) (size - count)
      ((true, r.1), r.2)

/-- `Skip`: whether it went well, and the position.  All the buffers but the first have a
byte at least. -/
def skip (s : EpsCopyOutputStream) (count : ℤ) (ptr : Ptr) : (Bool × Ptr) × EpsCopyOutputStream :=
  if count < 0 then ((false, ptr), s)
  else if s.hadError then ((false, .patch 0), s)
  else
    let r := s.flush buffers ptr
    if r.2.hadError then ((false, .patch 0), r.2)
    else skipLoop buffers (count.toNat + 2) count.toNat r.2.bufferEnd r.1 r.2

/-- `GetDirectBufferForNBytesAndAdvance`: the buffer, if the last one has the room, and the
position. -/
def getDirectBufferForNBytesAndAdvance (s : EpsCopyOutputStream) (size : ℕ) (ptr : Ptr) :
    (Option Ptr × Ptr) × EpsCopyOutputStream :=
  if s.hadError then ((none, .patch 0), s)
  else
    let r := s.flush buffers ptr
    let s := r.2
    if s.hadError then ((none, .patch 0), s)
    else if size ≤ r.1 then
      let r' := s.setInitialBuffer (s.bufferEnd.add size) (r.1 - size)
      ((some s.bufferEnd, r'.1), r'.2)
    else
      let r' := s.setInitialBuffer s.bufferEnd r.1
      ((none, r'.1), r'.2)

/-- The loop of `EnsureSpaceFallback`, at most `fuel` times. -/
def ensureSpaceLoop : ℕ → Ptr → EpsCopyOutputStream → Ptr × EpsCopyOutputStream
  | 0, ptr, s => (ptr, s)
  | fuel + 1, ptr, s =>
    if s.hadError then (.patch 0, s)
    else
      let overrun := (ptr.diff s.end_).toNat
      let r := s.next buffers
      let ptr := r.1.add overrun
      if 0 ≤ ptr.diff r.2.end_ then ensureSpaceLoop fuel ptr r.2 else (ptr, r.2)

/-- `EnsureSpaceFallback`; the overrun gets less with each `Next`. -/
def ensureSpaceFallback (s : EpsCopyOutputStream) (ptr : Ptr) : Ptr × EpsCopyOutputStream :=
  ensureSpaceLoop buffers ((ptr.diff s.end_).toNat + 1) ptr s

/-- `EnsureSpace`. -/
def ensureSpace (s : EpsCopyOutputStream) (ptr : Ptr) : Ptr × EpsCopyOutputStream :=
  if 0 ≤ ptr.diff s.end_ then s.ensureSpaceFallback buffers ptr else (ptr, s)

/-- The loop of `WriteRawFallback`, at most `fuel` times. -/
def writeRawLoop : ℕ → List UInt8 → Ptr → EpsCopyOutputStream → Ptr × EpsCopyOutputStream
  | 0, _, ptr, s => (ptr, s)
  | fuel + 1, data, ptr, s =>
    let n := s.getSize ptr
    if n < data.length then
      let s := s.store ptr (data.take n)
      let r := s.ensureSpaceFallback buffers (ptr.add n)
      writeRawLoop fuel (data.drop n) r.1 r.2
    else (ptr.add data.length, s.store ptr data)

/-- `WriteRawFallback`; each time but the first one writes a byte at least. -/
def writeRawFallback (s : EpsCopyOutputStream) (data : List UInt8) (ptr : Ptr) : Ptr × EpsCopyOutputStream :=
  writeRawLoop buffers (data.length + 2) data ptr s

/-- `WriteRaw`. -/
def writeRaw (s : EpsCopyOutputStream) (data : List UInt8) (ptr : Ptr) : Ptr × EpsCopyOutputStream :=
  if s.end_.diff ptr < data.length then s.writeRawFallback buffers data ptr
  else (ptr.add data.length, s.store ptr data)

end

end EpsCopyOutputStream

/-! ## The calls -/

/-- Bytes whose number is an `int`. -/
abbrev IntSized := { data : List UInt8 // data.length < 2 ^ 31 }

/-- A call that writes, or that flushes what was written. -/
inductive WriteOp
  | writeVarint32 (value : UInt32)
  | writeVarint64 (value : UInt64)
  | writeLittleEndian32 (value : UInt32)
  | writeLittleEndian64 (value : UInt64)
  | writeTag (value : UInt32)
  | writeRaw (data : IntSized)
  | writeString (str : IntSized)
  | trim
  | hadError
  deriving DecidableEq

/-- `WriteVarint32ToArray`: the bytes it writes. -/
def writeVarint32ToArray (value : UInt32) : List UInt8 := varintBytes value.toNat

/-- `WriteVarint64ToArray`. -/
def writeVarint64ToArray (value : UInt64) : List UInt8 := varintBytes value.toNat

/-- `WriteLittleEndian32ToArray`. -/
def writeLittleEndian32ToArray (value : UInt32) : List UInt8 := leBytes 4 value.toNat

/-- `WriteLittleEndian64ToArray`. -/
def writeLittleEndian64ToArray (value : UInt64) : List UInt8 := leBytes 8 value.toNat

/-- `WriteTagToArray`. -/
def writeTagToArray (value : UInt32) : List UInt8 := writeVarint32ToArray value

/-- What the call's `ToArray` form writes. -/
def WriteOp.toArray : WriteOp → List UInt8
  | .writeVarint32 value => writeVarint32ToArray value
  | .writeVarint64 value => writeVarint64ToArray value
  | .writeLittleEndian32 value => writeLittleEndian32ToArray value
  | .writeLittleEndian64 value => writeLittleEndian64ToArray value
  | .writeTag value => writeTagToArray value
  | .writeRaw data => data
  | .writeString str => str
  | .trim => []
  | .hadError => []

/-- A conversion to a 32-bit `int`. -/
def toInt32 (n : ℤ) : ℤ := (n + 2 ^ 31) % 2 ^ 32 - 2 ^ 31

/-- `CodedOutputStream`. -/
structure CodedOutputStream where
  impl : EpsCopyOutputStream
  cur : Ptr
  startCount : ℕ
  deriving DecidableEq

namespace CodedOutputStream

section
variable (buffers : Buffers)

/-- The constructor.  An eager first `Next` that fails or is empty changes nothing. -/
def ofStream (stream : ZeroCopyOutputStream) (buffer : List UInt8) (doEagerRefresh : Bool) :
    CodedOutputStream :=
  let impl := EpsCopyOutputStream.ofStream stream buffer
  if doEagerRefresh then
    match stream.next buffers with
    | none => ⟨impl, .patch 0, stream.byteCount⟩
    | some (size, stream') =>
      let impl := { impl with stream := stream' }
      if size = 0 then ⟨impl, .patch 0, stream.byteCount⟩
      else
        let r := impl.setInitialBuffer (.stream stream.byteCount) size
        ⟨r.2, r.1, stream.byteCount⟩
  else ⟨impl, .patch 0, stream.byteCount⟩

/-- The fixed-size writes: space is ensured, and the `ToArray` form writes there. -/
def writeToArray (c : CodedOutputStream) (bytes : List UInt8) : CodedOutputStream :=
  let r := c.impl.ensureSpace buffers c.cur
  { c with impl := r.2.store r.1 bytes, cur := r.1.add bytes.length }

/-- `WriteRaw` and `WriteString`. -/
def writeRaw (c : CodedOutputStream) (data : IntSized) : CodedOutputStream :=
  let r := c.impl.writeRaw buffers data c.cur
  { c with impl := r.2, cur := r.1 }

/-- `Trim`. -/
def trim (c : CodedOutputStream) : CodedOutputStream :=
  let r := c.impl.trim buffers c.cur
  { c with impl := r.2, cur := r.1 }

/-- `HadError`, which flushes first. -/
def hadError (c : CodedOutputStream) : CodedOutputStream :=
  let r := c.impl.flushAndResetBuffer buffers c.cur
  { c with impl := r.2, cur := r.1 }

/-- `Skip`. -/
def skip (c : CodedOutputStream) (count : ℤ) : Bool × CodedOutputStream :=
  let r := c.impl.skip buffers count c.cur
  (r.1.1, { c with impl := r.2, cur := r.1.2 })

/-- `ByteCount`. -/
def byteCount (c : CodedOutputStream) : ℤ := toInt32 (c.impl.byteCount c.cur - c.startCount)

/-- A call. -/
def perform (c : CodedOutputStream) : WriteOp → CodedOutputStream
  | .writeVarint32 value => c.writeToArray buffers (writeVarint32ToArray value)
  | .writeVarint64 value => c.writeToArray buffers (writeVarint64ToArray value)
  | .writeLittleEndian32 value => c.writeToArray buffers (writeLittleEndian32ToArray value)
  | .writeLittleEndian64 value => c.writeToArray buffers (writeLittleEndian64ToArray value)
  | .writeTag value => c.writeToArray buffers (writeTagToArray value)
  | .writeRaw data => c.writeRaw buffers data
  | .writeString str => c.writeRaw buffers str
  | .trim => c.trim buffers
  | .hadError => c.hadError buffers

def performAll (c : CodedOutputStream) (ops : List WriteOp) : CodedOutputStream :=
  ops.foldl (perform buffers) c

end

end CodedOutputStream

end Protoc.Io
