import Protoc.Lib.Words
import Protoc.Lib.Varint
import Protoc.Io.ZeroCopyStream

/-!
# The coded input stream

`CodedInputStream` reads varints, fixed-width numbers and strings from a buffer and
refills the buffer from a `ZeroCopyInputStream`.  Limits end the visible part of the
buffer early.  Over a flat array there is no stream, and the limit pushed by the
constructor keeps the refill from asking for one.

A pointer into the buffer is the list of bytes from there on: `buffer` runs from
`buffer_` to the end of the chunk, and its last `buffer_size_after_limit_` bytes lie
behind `buffer_end_`.
-/

namespace Protoc.Io

open Protoc.Lib

/-- `kMaxVarintBytes`. -/
def kMaxVarintBytes : ℕ := 10

/-- `CodedInputStream`. -/
structure CodedInputStream where
  /-- The bytes from `buffer_` to the end of the chunk. -/
  buffer : List UInt8
  bufferSizeAfterLimit : ℕ
  /-- `input_`; none over a flat array. -/
  input : Option ZeroCopyInputStream
  totalBytesRead : ℕ
  overflowBytes : ℕ
  lastTag : ℕ
  legitimateMessageEnd : Bool
  currentLimit : ℕ
  totalBytesLimit : ℕ
  deriving DecidableEq

namespace CodedInputStream

/-- `BufferSize`. -/
def bufferSize (s : CodedInputStream) : ℕ := s.buffer.length - s.bufferSizeAfterLimit

/-- The bytes from `buffer_` to `buffer_end_`. -/
def visible (s : CodedInputStream) : List UInt8 := s.buffer.take s.bufferSize

/-- `Advance`. -/
def advance (s : CodedInputStream) (amount : ℕ) : CodedInputStream :=
  { s with buffer := s.buffer.drop amount }

/-- `CurrentPosition`. -/
def currentPosition (s : CodedInputStream) : ℕ :=
  s.totalBytesRead - (s.bufferSize + s.bufferSizeAfterLimit)

def closestLimit (s : CodedInputStream) : ℕ := min s.currentLimit s.totalBytesLimit

/-- `RecomputeBufferLimits`. -/
def recomputeBufferLimits (s : CodedInputStream) : CodedInputStream :=
  if s.closestLimit < s.totalBytesRead then
    { s with bufferSizeAfterLimit := s.totalBytesRead - s.closestLimit }
  else { s with bufferSizeAfterLimit := 0 }

/-- `PushLimit`; it returns the old limit. -/
def pushLimit (s : CodedInputStream) (byteLimit : ℤ) : ℕ × CodedInputStream :=
  let currentPosition : ℤ := s.currentPosition
  if 0 ≤ byteLimit ∧ byteLimit ≤ INT_MAX - currentPosition ∧
      byteLimit < s.currentLimit - currentPosition then
    (s.currentLimit, { s with currentLimit := (currentPosition + byteLimit).toNat }.recomputeBufferLimits)
  else (s.currentLimit, s)

/-- `PopLimit`. -/
def popLimit (s : CodedInputStream) (limit : ℕ) : CodedInputStream :=
  { { s with currentLimit := limit }.recomputeBufferLimits with legitimateMessageEnd := false }

/-- `SetTotalBytesLimit`. -/
def setTotalBytesLimit (s : CodedInputStream) (totalBytesLimit : ℤ) : CodedInputStream :=
  { s with totalBytesLimit := max s.currentPosition totalBytesLimit.toNat }.recomputeBufferLimits

/-- What `Refresh` does with a new buffer. -/
def setBuffer (s : CodedInputStream) (data : List UInt8) : CodedInputStream :=
  if s.totalBytesRead + data.length ≤ INT_MAX then
    { s with
      buffer := data
      totalBytesRead := s.totalBytesRead + data.length }.recomputeBufferLimits
  else
    let overflowBytes := s.totalBytesRead + data.length - INT_MAX
    { s with
      buffer := data.take (data.length - overflowBytes)
      overflowBytes
      totalBytesRead := INT_MAX }.recomputeBufferLimits

/-- `Refresh`.  Without a stream the test for a limit always succeeds. -/
def refresh (s : CodedInputStream) : Bool × CodedInputStream :=
  if 0 < s.bufferSizeAfterLimit ∨ 0 < s.overflowBytes ∨ s.totalBytesRead = s.currentLimit then
    (false, s)
  else
    match s.input with
    | none => (false, s)
    | some input =>
      match input.nextNonEmpty with
      | (some data, input) => (true, { s with input := some input }.setBuffer data)
      | (none, input) => (false, { s with buffer := [], input := some input })

def ofStream (input : ZeroCopyInputStream) : CodedInputStream :=
  (CodedInputStream.mk [] 0 (some input) 0 0 0 false INT_MAX INT_MAX).refresh.2

def ofArray (buffer : List UInt8) : CodedInputStream :=
  ⟨buffer, 0, none, buffer.length, 0, 0, false, buffer.length, INT_MAX⟩

def chunksLeft (s : CodedInputStream) : ℕ := s.input.elim 0 fun input => input.chunks.length

@[simp] theorem recomputeBufferLimits_input (s : CodedInputStream) :
    s.recomputeBufferLimits.input = s.input := by
  simp only [recomputeBufferLimits]
  split <;> rfl

@[simp] theorem setBuffer_input (s : CodedInputStream) (data : List UInt8) :
    (s.setBuffer data).input = s.input := by
  simp only [setBuffer]
  split <;> rw [recomputeBufferLimits_input]

theorem refresh_chunksLeft {s s' : CodedInputStream} (h : s.refresh = (true, s')) :
    s'.chunksLeft < s.chunksLeft := by
  simp only [refresh] at h
  split at h
  · cases h
  · cases hinput : s.input with
    | none => simp [hinput] at h
    | some input =>
      simp only [hinput] at h
      rcases input.nextNonEmpty_spec with ⟨hnone, -, -⟩ | ⟨data, hsome, -, -, hlt⟩
      · rw [show input.nextNonEmpty = (none, input.nextNonEmpty.2) from Prod.ext hnone rfl] at h
        cases h
      · rw [show input.nextNonEmpty = (some data, input.nextNonEmpty.2) from
          Prod.ext hsome rfl] at h
        cases h
        simpa [chunksLeft, hinput] using hlt

/-! ## Copies -/

/-- The loop of `ReadRaw` and `ReadStringFallback`: whether it got `size` bytes, and the
bytes it copied. -/
def copyLoop (s : CodedInputStream) (size : ℕ) : Bool × List UInt8 × CodedInputStream :=
  if s.bufferSize < size then
    match _h : (s.advance s.bufferSize).refresh with
    | (false, s') => (false, s.visible, s')
    | (true, s') =>
      let r := copyLoop s' (size - s.bufferSize)
      (r.1, s.visible ++ r.2.1, r.2.2)
  else (true, s.buffer.take size, s.advance size)
termination_by s.chunksLeft
decreasing_by exact refresh_chunksLeft (s := s.advance s.bufferSize) _h

/-- `ReadRaw`, and the bytes it wrote to the caller's buffer. -/
def readRaw (s : CodedInputStream) (size : ℕ) : Bool × List UInt8 × CodedInputStream :=
  s.copyLoop size

/-- `ReadStringFallback`: the string is cleared first, and the copies are appended. -/
def readStringFallback (s : CodedInputStream) (size : ℕ) : Bool × List UInt8 × CodedInputStream :=
  s.copyLoop size

/-- `ReadString`; the string stays as it is when the size is negative. -/
def readString (s : CodedInputStream) (size : ℤ) : Bool × Option (List UInt8) × CodedInputStream :=
  if size < 0 then (false, none, s)
  else if size ≤ s.bufferSize then
    (true, some (s.buffer.take size.toNat), s.advance size.toNat)
  else
    let r := s.readStringFallback size.toNat
    (r.1, some r.2.1, r.2.2)

/-- `SkipFallback`. -/
def skipFallback (s : CodedInputStream) (count originalBufferSize : ℕ) : Bool × CodedInputStream :=
  if 0 < s.bufferSizeAfterLimit then (false, s.advance originalBufferSize)
  else
    let count := count - originalBufferSize
    let s := { s with buffer := [] }
    let bytesUntilLimit : ℤ := s.closestLimit - s.totalBytesRead
    if bytesUntilLimit < count then
      if 0 < bytesUntilLimit then
        (false, { s with
          totalBytesRead := s.closestLimit
          input := s.input.map fun input => (input.skip bytesUntilLimit.toNat).2 })
      else (false, s)
    else
      match s.input with
      | none => (false, s)
      | some input =>
        match input.skip count with
        | (false, input) => (false, { s with totalBytesRead := input.byteCount, input := some input })
        | (true, input) => (true, { s with totalBytesRead := s.totalBytesRead + count, input := some input })

/-- `Skip`. -/
def skip (s : CodedInputStream) (count : ℤ) : Bool × CodedInputStream :=
  if count < 0 then (false, s)
  else if count ≤ s.bufferSize then (true, s.advance count.toNat)
  else s.skipFallback count.toNat s.bufferSize

/-! ## Fixed-width numbers -/

/-- `ReadLittleEndian32Fallback` and its 64-bit form; the value is not written on
failure. -/
def readLittleEndianFallback (width : ℕ) (s : CodedInputStream) : Bool × Option ℕ × CodedInputStream :=
  if width ≤ s.bufferSize then (true, some (leValue (s.buffer.take width)), s.advance width)
  else
    match s.readRaw width with
    | (false, _, s) => (false, none, s)
    | (true, bytes, s) => (true, some (leValue bytes), s)

/-- `ReadLittleEndian32` and its 64-bit form. -/
def readLittleEndian (width : ℕ) (s : CodedInputStream) : Bool × Option ℕ × CodedInputStream :=
  if width ≤ s.bufferSize then (true, some (leValue (s.buffer.take width)), s.advance width)
  else s.readLittleEndianFallback width

/-- `ReadLittleEndian32`. -/
def readLittleEndian32 (s : CodedInputStream) : Bool × Option ℕ × CodedInputStream :=
  s.readLittleEndian 4

/-- `ReadLittleEndian64`. -/
def readLittleEndian64 (s : CodedInputStream) : Bool × Option ℕ × CodedInputStream :=
  s.readLittleEndian 8

/-! ## Varints -/

def byteAt (buffer : List UInt8) (i : ℕ) : ℕ := (buffer[i]?.elim 0 UInt8.toNat)

/-- `DecodeVarint64KnownSize`; the subtraction wraps around at a byte that does not continue. -/
def decodeVarint64KnownSize (n : ℕ) (buffer : List UInt8) : ℕ := (List.range (n - 1)).foldl
    (fun result i => result + (byteAt buffer i + (2 ^ 64 - 0x80)) <<< (7 * i))
    (byteAt buffer (n - 1) <<< (7 * (n - 1))) % 2 ^ 64

/-- `ReadVarint64FromArray`: the value, and how many bytes it has. -/
def readVarint64FromArray (buffer : List UInt8) : Option (ℕ × ℕ) :=
  ((List.range' 1 (kMaxVarintBytes - 1)).find? fun i => byteAt buffer i < 128).map fun i =>
    (decodeVarint64KnownSize (i + 1) buffer, i + 1)

/-- The bytes of `ReadVarint32FromArray` from index `i` on.  Up to the fifth byte they
are added, and the continuation bits of the first four taken off again; the rest is read
and discarded. -/
def varint32Bytes (i result : ℕ) : List UInt8 → Option (ℕ × ℕ)
  | [] => none
  | b :: rest =>
    if i < kMaxVarintBytes then
      let result := if i < 5 then result + b.toNat <<< (7 * i) else result
      if b.toNat &&& 0x80 = 0 then some (result % 2 ^ 32, i + 1)
      else varint32Bytes (i + 1) (if i < 4 then result - 0x80 <<< (7 * i) else result) rest
    else none

/-- `ReadVarint32FromArray`: the value, and how many bytes were read. -/
def readVarint32FromArray (firstByte : ℕ) (buffer : List UInt8) : Option (ℕ × ℕ) :=
  varint32Bytes 1 (firstByte + (2 ^ 32 - 0x80)) (buffer.drop 1)

/-- The buffer surely holds a whole varint: it is long enough, or ends with a byte that
would terminate one. -/
def holdsVarint (s : CodedInputStream) : Prop := kMaxVarintBytes ≤ s.bufferSize ∨
    0 < s.bufferSize ∧ byteAt s.buffer (s.bufferSize - 1) &&& 0x80 = 0

instance (s : CodedInputStream) : Decidable s.holdsVarint :=
  inferInstanceAs (Decidable (_ ∨ _))

/-- The loop of `ReadVarint64Slow` that refills an empty buffer. -/
def refill (s : CodedInputStream) : Bool × CodedInputStream :=
  if s.bufferSize = 0 then
    match _h : s.refresh with
    | (false, s') => (false, s')
    | (true, s') => refill s'
  else (true, s)
termination_by s.chunksLeft
decreasing_by exact refresh_chunksLeft _h

/-- The loop of `ReadVarint64Slow`, with `left` bytes to go to `kMaxVarintBytes`. -/
def readVarint64Loop (s : CodedInputStream) : (left result : ℕ) → Bool × ℕ × CodedInputStream
  | 0, _ => (false, 0, s)
  | left + 1, result =>
    match s.refill with
    | (false, s) => (false, 0, s)
    | (true, s) =>
      let b := byteAt s.buffer 0
      let count := kMaxVarintBytes - (left + 1)
      let result := result ||| ((b &&& 0x7F) <<< (7 * count)) % 2 ^ 64
      let s := s.advance 1
      if b &&& 0x80 = 0 then (true, result, s) else readVarint64Loop s left result

/-- `ReadVarint64Slow`. -/
def readVarint64Slow (s : CodedInputStream) : Bool × ℕ × CodedInputStream :=
  s.readVarint64Loop kMaxVarintBytes 0

/-- `ReadVarint64Fallback`. -/
def readVarint64Fallback (s : CodedInputStream) : Bool × ℕ × CodedInputStream :=
  if s.holdsVarint then
    match readVarint64FromArray s.buffer with
    | none => (false, 0, s)
    | some (temp, n) => (true, temp, s.advance n)
  else s.readVarint64Slow

/-- `ReadVarint64`. -/
def readVarint64 (s : CodedInputStream) : Bool × ℕ × CodedInputStream :=
  if 0 < s.bufferSize ∧ byteAt s.buffer 0 < 0x80 then (true, byteAt s.buffer 0, s.advance 1)
  else s.readVarint64Fallback

/-- `ReadVarint32Slow`. -/
def readVarint32Slow (s : CodedInputStream) : Bool × ℕ × CodedInputStream :=
  let p := s.readVarint64Fallback
  (p.1, p.2.1 % 2 ^ 32, p.2.2)

def firstByteOrZero (s : CodedInputStream) : ℕ := if 0 < s.bufferSize then byteAt s.buffer 0 else 0

/-- `ReadVarint32Fallback`; -1 stands for failure. -/
def readVarint32Fallback (s : CodedInputStream) (firstByteOrZero : ℕ) : ℤ × CodedInputStream :=
  if s.holdsVarint then
    match readVarint32FromArray firstByteOrZero s.buffer with
    | none => (-1, s)
    | some (temp, n) => (temp, s.advance n)
  else
    match s.readVarint32Slow with
    | (true, temp, s) => (temp, s)
    | (false, _, s) => (-1, s)

/-- `ReadVarint32`. -/
def readVarint32 (s : CodedInputStream) : Bool × ℕ × CodedInputStream :=
  if 0 < s.bufferSize ∧ byteAt s.buffer 0 < 0x80 then (true, byteAt s.buffer 0, s.advance 1)
  else
    let r := s.readVarint32Fallback s.firstByteOrZero
    (decide (0 ≤ r.1), (r.1 % 2 ^ 32).toNat, r.2)

/-- `ReadVarintSizeAsIntSlow`. -/
def readVarintSizeAsIntSlow (s : CodedInputStream) : ℤ × CodedInputStream :=
  match s.readVarint64Fallback with
  | (true, temp, s) => if INT_MAX < temp then (-1, s) else (temp, s)
  | (false, _, s) => (-1, s)

/-- `ReadVarintSizeAsIntFallback`. -/
def readVarintSizeAsIntFallback (s : CodedInputStream) : ℤ × CodedInputStream :=
  if s.holdsVarint then
    match readVarint64FromArray s.buffer with
    | none => (-1, s)
    | some (temp, n) => if INT_MAX < temp then (-1, s) else (temp, s.advance n)
  else s.readVarintSizeAsIntSlow

/-- `ReadVarintSizeAsInt`. -/
def readVarintSizeAsInt (s : CodedInputStream) : Bool × ℤ × CodedInputStream :=
  if 0 < s.bufferSize ∧ byteAt s.buffer 0 < 0x80 then (true, byteAt s.buffer 0, s.advance 1)
  else
    let r := s.readVarintSizeAsIntFallback
    (decide (0 ≤ r.1), r.1, r.2)

/-! ## Tags

The flag of these functions is not returned by the source: it says that a tag was
decoded, or that the message may end here. -/

/-- What `ReadTagSlow` does once the buffer is not empty or cannot be filled. -/
def readTagSlow (s : CodedInputStream) : Bool × ℕ × CodedInputStream :=
  let refilled := if s.bufferSize = 0 then s.refresh else (true, s)
  let s := refilled.2
  if refilled.1 then
    match s.readVarint64 with
    | (true, result, s) => (true, result % 2 ^ 32, s)
    | (false, _, s) => (false, 0, s)
  else
    let currentPosition := s.totalBytesRead - s.bufferSizeAfterLimit
    let legitimateMessageEnd :=
      if s.totalBytesLimit ≤ currentPosition then decide (s.currentLimit = s.totalBytesLimit)
      else true
    (legitimateMessageEnd, 0, { s with legitimateMessageEnd })

/-- `ReadTagFallback`. -/
def readTagFallback (s : CodedInputStream) (firstByteOrZero : ℕ) : Bool × ℕ × CodedInputStream :=
  if s.holdsVarint then
    if firstByteOrZero = 0 then (true, 0, s.advance 1)
    else
      match readVarint32FromArray firstByteOrZero s.buffer with
      | none => (false, 0, s)
      | some (tag, n) => (true, tag, s.advance n)
  else if s.bufferSize = 0 ∧ (0 < s.bufferSizeAfterLimit ∨ s.totalBytesRead = s.currentLimit) ∧
      s.totalBytesRead - s.bufferSizeAfterLimit < s.totalBytesLimit then
    (true, 0, { s with legitimateMessageEnd := true })
  else s.readTagSlow

/-- `ReadTagNoLastTag`. -/
def readTagNoLastTag (s : CodedInputStream) : Bool × ℕ × CodedInputStream :=
  if 0 < s.bufferSize ∧ byteAt s.buffer 0 < 0x80 then (true, byteAt s.buffer 0, s.advance 1)
  else s.readTagFallback s.firstByteOrZero

/-- `ReadTag`. -/
def readTag (s : CodedInputStream) : Bool × ℕ × CodedInputStream :=
  let r := s.readTagNoLastTag
  (r.1, r.2.1, { r.2.2 with lastTag := r.2.1 })

/-- `ConsumedEntireMessage`. -/
def consumedEntireMessage (s : CodedInputStream) : Bool := s.legitimateMessageEnd

end CodedInputStream

end Protoc.Io
