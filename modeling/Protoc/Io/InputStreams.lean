import Mathlib.Data.Int.Init
import Protoc.Io.CopyingOutput

/-!
# The input stream adaptors

The streams of `zero_copy_stream_impl_lite.cc` and `zero_copy_stream_impl.cc`, one inside the
other.  A call whose `GOOGLE_CHECK` fails has no result.
-/

namespace Protoc.Io

/-! ## An array -/

/-- `ArrayInputStream`; the data with its size. -/
structure ArrayInputStream where
  data : List UInt8
  blockSize : ℕ
  position : ℕ
  lastReturnedSize : ℕ
  deriving DecidableEq

namespace ArrayInputStream

def new (data : List UInt8) (blockSize : ℤ) : ArrayInputStream :=
  ⟨data, if 0 < blockSize then blockSize.toNat else data.length, 0, 0⟩

/-- `Next`. -/
def next (s : ArrayInputStream) : Option (List UInt8) × ArrayInputStream :=
  if s.position < s.data.length then
    let size := min s.blockSize (s.data.length - s.position)
    (some ((s.data.drop s.position).take size),
      { s with lastReturnedSize := size, position := s.position + size })
  else (none, { s with lastReturnedSize := 0 })

/-- `BackUp`. -/
def backUp (s : ArrayInputStream) (count : ℕ) : Option ArrayInputStream :=
  if 0 < s.lastReturnedSize ∧ count ≤ s.lastReturnedSize then
    some { s with position := s.position - count, lastReturnedSize := 0 }
  else none

/-- `Skip`. -/
def skip (s : ArrayInputStream) (count : ℕ) : Bool × ArrayInputStream :=
  if s.data.length - s.position < count then
    (false, { s with lastReturnedSize := 0, position := s.data.length })
  else (true, { s with lastReturnedSize := 0, position := s.position + count })

end ArrayInputStream

/-! ## A source that is read in pieces -/

/-- What `Read` gives: bytes, or 0 at the end, or -1 after an error. -/
inductive ReadResult where
  | bytes (data : List UInt8)
  | eof
  | error
  deriving DecidableEq

/-- A `CopyingInputStream`.  The reads give fewer bytes than asked for as `short` says, and
behind the data they meet the end or a permanent error. -/
structure CopyingInputStream where
  data : List UInt8
  short : ℕ → ℕ
  failing : Bool

namespace CopyingInputStream

/-- `Read`: a byte at least, as long as there is one. -/
def read (s : CopyingInputStream) (size : ℕ) : ReadResult × CopyingInputStream :=
  if s.data = [] then (if s.failing then .error else .eof, s)
  else
    let n := min size (max 1 (s.short 0))
    (.bytes (s.data.take n), { s with data := s.data.drop n, short := fun i => s.short (i + 1) })

theorem read_length {s s' : CopyingInputStream} {size : ℕ} (hsize : 0 < size) {data : List UInt8}
    (h : s.read size = (.bytes data, s')) : s'.data.length < s.data.length := by
  rw [read] at h
  split at h
  · split at h <;> cases h
  · next hne =>
    cases h
    have hpos : 0 < s.data.length := List.length_pos_iff.mpr hne
    simp only [List.length_drop]
    omega

/-- The loop of `Skip`: how many of the bytes were skipped. -/
def skip (s : CopyingInputStream) (count : ℕ) : ℕ × CopyingInputStream :=
  if _hcount : 0 < count then
    match _h : s.read (min count 4096) with
    | (.bytes data, s') =>
      let (skipped, s'') := s'.skip (count - data.length)
      (data.length + skipped, s'')
    | (_, s') => (0, s')
  else (0, s)
termination_by s.data.length
decreasing_by exact read_length (by omega) _h

end CopyingInputStream

/-- `CopyingInputStreamAdaptor`; the buffer is the part of it that is used. -/
structure CopyingInputStreamAdaptor where
  copyingStream : CopyingInputStream
  failed : Bool
  position : ℕ
  buffer : Option (List UInt8)
  bufferSize : ℕ
  backupBytes : ℕ

namespace CopyingInputStreamAdaptor

def new (copyingStream : CopyingInputStream) (blockSize : ℤ) : CopyingInputStreamAdaptor :=
  ⟨copyingStream, false, 0, none, if 0 < blockSize then blockSize.toNat else kDefaultBlockSize, 0⟩

def used (s : CopyingInputStreamAdaptor) : List UInt8 := s.buffer.getD []

/-- `Next`. -/
def next (s : CopyingInputStreamAdaptor) : Option (List UInt8) × CopyingInputStreamAdaptor :=
  if s.failed then (none, s)
  else if 0 < s.backupBytes then
    (some (s.used.drop (s.used.length - s.backupBytes)), { s with backupBytes := 0 })
  else
    match s.copyingStream.read s.bufferSize with
    | (.bytes data, stream) =>
      (some data, { s with copyingStream := stream, buffer := some data, position := s.position + data.length })
    | (.eof, stream) => (none, { s with copyingStream := stream, buffer := none })
    | (.error, stream) => (none, { s with copyingStream := stream, buffer := none, failed := true })

/-- `BackUp`. -/
def backUp (s : CopyingInputStreamAdaptor) (count : ℕ) : Option CopyingInputStreamAdaptor :=
  if s.backupBytes = 0 ∧ s.buffer ≠ none ∧ count ≤ s.used.length then
    some { s with backupBytes := count }
  else none

/-- `Skip`. -/
def skip (s : CopyingInputStreamAdaptor) (count : ℕ) : Bool × CopyingInputStreamAdaptor :=
  if s.failed then (false, s)
  else if count ≤ s.backupBytes then (true, { s with backupBytes := s.backupBytes - count })
  else
    let (skipped, stream) := s.copyingStream.skip (count - s.backupBytes)
    (skipped = count - s.backupBytes,
      { s with copyingStream := stream, position := s.position + skipped, backupBytes := 0 })

end CopyingInputStreamAdaptor

/-! ## The adaptors -/

/-- An input stream, with the streams inside it. -/
inductive InputStream where
  | array (s : ArrayInputStream)
  | copying (s : CopyingInputStreamAdaptor)
  | limiting (input : InputStream) (limit priorBytesRead : ℤ)
  | concatenating (streams : List InputStream) (bytesRetired : ℤ)

namespace InputStream

/-- `ByteCount`. -/
def byteCount : InputStream → ℤ
  | .array s => s.position
  | .copying s => s.position - s.backupBytes
  | .limiting input limit priorBytesRead =>
    if limit < 0 then input.byteCount + limit - priorBytesRead
    else input.byteCount - priorBytesRead
  | .concatenating [] bytesRetired => bytesRetired
  | .concatenating (s :: _) bytesRetired => bytesRetired + s.byteCount

mutual

/-- `Next`. -/
def next : InputStream → Option (List UInt8) × InputStream
  | .array s => (s.next.1, .array s.next.2)
  | .copying s => (s.next.1, .copying s.next.2)
  | .limiting input limit priorBytesRead =>
    if limit ≤ 0 then (none, .limiting input limit priorBytesRead)
    else
      match next input with
      | (none, input) => (none, .limiting input limit priorBytesRead)
      | (some data, input) =>
        let limit := limit - data.length
        -- past the limit, the rest of the buffer is hidden
        if limit < 0 then
          (some (data.take (data.length + limit).toNat), .limiting input limit priorBytesRead)
        else (some data, .limiting input limit priorBytesRead)
  | .concatenating streams bytesRetired =>
    match nextOf streams bytesRetired with
    | (data, streams, bytesRetired) => (data, .concatenating streams bytesRetired)

/-- The loop of `ConcatenatingInputStream::Next`. -/
def nextOf : List InputStream → ℤ → Option (List UInt8) × List InputStream × ℤ
  | [], bytesRetired => (none, [], bytesRetired)
  | s :: streams, bytesRetired =>
    match next s with
    | (some data, s) => (some data, s :: streams, bytesRetired)
    | (none, s) => nextOf streams (bytesRetired + s.byteCount)

end

/-- `BackUp`. -/
def backUp : InputStream → ℕ → Option InputStream
  | .array s, count => (s.backUp count).map .array
  | .copying s, count => (s.backUp count).map .copying
  | .limiting input limit priorBytesRead, count =>
    if limit < 0 then
      (input.backUp (count - limit).toNat).map fun input => .limiting input count priorBytesRead
    else (input.backUp count).map fun input => .limiting input (limit + count) priorBytesRead
  | .concatenating [] _, _ => none
  | .concatenating (s :: streams) bytesRetired, count =>
    (s.backUp count).map fun s => .concatenating (s :: streams) bytesRetired

mutual

/-- `Skip`. -/
def skip : InputStream → ℕ → Bool × InputStream
  | .array s, count => ((s.skip count).1, .array (s.skip count).2)
  | .copying s, count => ((s.skip count).1, .copying (s.skip count).2)
  | .limiting input limit priorBytesRead, count =>
    if limit < count then
      if limit < 0 then (false, .limiting input limit priorBytesRead)
      else
        match skip input limit.toNat with
        | (_, input) => (false, .limiting input 0 priorBytesRead)
    else
      match skip input count with
      | (false, input) => (false, .limiting input limit priorBytesRead)
      | (true, input) => (true, .limiting input (limit - count) priorBytesRead)
  | .concatenating streams bytesRetired, count =>
    match skipOf streams bytesRetired count with
    | (skipped, streams, bytesRetired) => (skipped, .concatenating streams bytesRetired)

/-- The loop of `ConcatenatingInputStream::Skip`. -/
def skipOf : List InputStream → ℤ → ℕ → Bool × List InputStream × ℤ
  | [], bytesRetired, _ => (false, [], bytesRetired)
  | s :: streams, bytesRetired, count =>
    let targetByteCount := s.byteCount + count
    match skip s count with
    | (true, s) => (true, s :: streams, bytesRetired)
    | (false, s) =>
      let finalByteCount := s.byteCount
      skipOf streams (bytesRetired + finalByteCount) (targetByteCount - finalByteCount).toNat

end

/-- `LimitingInputStream`, over a stream as it stands. -/
def newLimiting (input : InputStream) (limit : ℤ) : InputStream :=
  .limiting input limit input.byteCount

/-- The destructor of `LimitingInputStream`, which leaves the stream inside. -/
def destroy : InputStream → Option InputStream
  | .limiting input limit _ => if limit < 0 then input.backUp (-limit).toNat else some input
  | s => some s

end InputStream

end Protoc.Io
