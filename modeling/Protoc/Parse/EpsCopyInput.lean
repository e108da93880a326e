import Protoc.Lib.Ring
import Protoc.Parse.Primitive

/-!
# The input stream with a slop region

`EpsCopyInputStream` presents its input as buffers behind whose end 16 more bytes may be
read, the first ones of the next buffer or, at the end of the stream, anything.  The patch
buffer of 32 bytes joins the end of a chunk with the start of the next one; a chunk of more
than 16 bytes is read in place after that.

Pointers point into the patch buffer or into the array that is read in place.  Limits are
relative to the end of the buffer.
-/

namespace Protoc.Parse

open Protoc.Lib Protoc.Io

/-- The arrays that are read. -/
inductive Memory
  /-- `buffer_`. -/
  | patch
  /-- The flat array, or the last chunk of more than 16 bytes. -/
  | chunk
  deriving DecidableEq

/-- A pointer. -/
structure Ptr where
  array : Memory
  offset : ℤ
  deriving DecidableEq

namespace Ptr

/-- The pointer `n` bytes on. -/
def add (p : Ptr) (n : ℤ) : Ptr := { p with offset := p.offset + n }

def diff (p q : Ptr) : ℤ := p.offset - q.offset

end Ptr

/-- What `next_chunk_` points to. -/
inductive NextChunk
  | null
  /-- `buffer_`: the next buffer is the patch buffer. -/
  | patch
  /-- The last chunk, of more than 16 bytes. -/
  | chunk
  deriving DecidableEq

/-- `EpsCopyInputStream`. -/
structure EpsCopyInputStream where
  limitEnd : Ptr
  bufferEnd : Ptr
  nextChunk : NextChunk
  size : ℤ
  /-- `limit_`, relative to `buffer_end_`. -/
  limit : ℤ
  /-- `zcis_`; a stream without chunks stands for the null pointer, which is not used. -/
  zcis : ZeroCopyInputStream
  buffer : List UInt8
  chunk : List UInt8
  lastTagMinus1 : BitVec 32
  overallLimit : ℤ
  deriving DecidableEq

/-- `ParseEndsInSlopRegion`; each time round the pointer moves on. -/
def parseEndsInSlopRegionLoop (region : List UInt8) : ℕ → ℕ → ℤ → Bool
  | 0, _, _ => false
  | fuel + 1, ptr, depth =>
    if ptr < kSlopBytes then
      match readTag (region.drop ptr) with
      | none => false
      | some (n, tag) =>
        let ptr := ptr + n
        if kSlopBytes < ptr then false
        else if tag = 0 then true
        else
          match (tag &&& 7).toNat with
          | 0 =>
            match varintParse (region.drop ptr) with
            | none => false
            | some (n, _) => parseEndsInSlopRegionLoop region fuel (ptr + n) depth
          | 1 => parseEndsInSlopRegionLoop region fuel (ptr + 8) depth
          | 2 =>
            match readSize (region.drop ptr) with
            | none => false
            | some (n, size) =>
              let ptr := ptr + n
              if (kSlopBytes : ℤ) - ptr < size.toNat then false
              else parseEndsInSlopRegionLoop region fuel (ptr + size.toNat) depth
          | 3 => parseEndsInSlopRegionLoop region fuel ptr (depth + 1)
          | 4 =>
            if depth - 1 < 0 then true
            else parseEndsInSlopRegionLoop region fuel ptr (depth - 1)
          | 5 => parseEndsInSlopRegionLoop region fuel (ptr + 4) depth
          | _ => false
    else false

/-- `ParseEndsInSlopRegion`. -/
def parseEndsInSlopRegion (region : List UInt8) (overrun depth : ℤ) : Bool :=
  parseEndsInSlopRegionLoop region (kSlopBytes + 1) overrun.toNat depth

namespace EpsCopyInputStream

def memory (s : EpsCopyInputStream) : Memory → List UInt8
  | .patch => s.buffer
  | .chunk => s.chunk

def bytes (s : EpsCopyInputStream) (p : Ptr) : List UInt8 := (s.memory p.array).drop p.offset.toNat

/-- The `n` bytes from a pointer on. -/
def load (s : EpsCopyInputStream) (p : Ptr) (n : ℤ) : List UInt8 := (s.bytes p).take n.toNat

/-! ## The limits -/

/-- `limit_end_ = buffer_end_ + min(0, limit_)`. -/
def setLimitEnd (s : EpsCopyInputStream) : EpsCopyInputStream :=
  { s with limitEnd := s.bufferEnd.add (min 0 s.limit) }

/-- `EndedAtLimit`. -/
def endedAtLimit (s : EpsCopyInputStream) : Bool := s.lastTagMinus1 == 0

/-- `EndedAtEndOfStream`. -/
def endedAtEndOfStream (s : EpsCopyInputStream) : Bool := s.lastTagMinus1 == 1

/-- `SetLastTag`. -/
def setLastTag (s : EpsCopyInputStream) (tag : BitVec 32) : EpsCopyInputStream :=
  { s with lastTagMinus1 := tag - 1 }

/-- `SetEndOfStream`. -/
def setEndOfStream (s : EpsCopyInputStream) : EpsCopyInputStream := { s with lastTagMinus1 := 1 }

/-- `ConsumeEndGroup`. -/
def consumeEndGroup (s : EpsCopyInputStream) (startTag : BitVec 32) : Bool × EpsCopyInputStream :=
  (s.lastTagMinus1 == startTag, { s with lastTagMinus1 := 0 })

/-! ## From buffer to buffer -/

/-- `NextBuffer` at the end of the stream or array. -/
def endOfStream (s : EpsCopyInputStream) : Ptr × EpsCopyInputStream :=
  (⟨.patch, 0⟩, { s with nextChunk := .null, bufferEnd := ⟨.patch, kSlopBytes⟩, size := 0 })

/-- `NextBuffer` with the chunk that `StreamNext` found; it passes over the empty ones. -/
def nextChunkFound (s : EpsCopyInputStream) (data : List UInt8) : Ptr × EpsCopyInputStream :=
  let s := { s with size := data.length, overallLimit := s.overallLimit - data.length }
  if kSlopBytes < data.length then
    (⟨.patch, 0⟩, { s with
      buffer := Ring.blit s.buffer kSlopBytes (data.take kSlopBytes)
      chunk := data
      nextChunk := .chunk
      bufferEnd := ⟨.patch, kSlopBytes⟩ })
  else
    (⟨.patch, 0⟩, { s with
      buffer := Ring.blit s.buffer kSlopBytes data
      nextChunk := .patch
      bufferEnd := ⟨.patch, data.length⟩ })

/-- `NextBuffer`. -/
def nextBuffer (s : EpsCopyInputStream) (overrun depth : ℤ) : Option (Ptr × EpsCopyInputStream) :=
  match s.nextChunk with
  | .null => none
  | .chunk => some (⟨.chunk, 0⟩, { s with bufferEnd := ⟨.chunk, s.size - kSlopBytes⟩, nextChunk := .patch })
  | .patch =>
    let s := { s with buffer := Ring.blit s.buffer 0 (s.load s.bufferEnd kSlopBytes) }
    if (0 : ℤ) < s.overallLimit ∧ (depth < 0 ∨ parseEndsInSlopRegion s.buffer overrun depth = false) then
      match s.zcis.nextNonEmpty with
      | (some data, zcis) => some ({ s with zcis }.nextChunkFound data)
      | (none, zcis) => some { s with zcis, overallLimit := 0 }.endOfStream
    else some s.endOfStream

/-- `Next`. -/
def next (s : EpsCopyInputStream) : Option Ptr × EpsCopyInputStream :=
  match s.nextBuffer 0 (-1) with
  | none => (none, { s with limitEnd := s.bufferEnd }.setEndOfStream)
  | some (p, s) => (some p, { s with limit := s.limit - s.bufferEnd.diff p }.setLimitEnd)

/-- The loop of `DoneFallback`, at most `fuel` times. -/
def doneFallbackLoop (depth : ℤ) : ℕ → ℤ → EpsCopyInputStream →
    Option Ptr × Bool × EpsCopyInputStream
  | 0, _, s => (none, true, s)
  | fuel + 1, overrun, s =>
    match s.nextBuffer overrun depth with
    | none =>
      if overrun ≠ 0 then (none, true, s)
      else (some s.bufferEnd, true, { s with limitEnd := s.bufferEnd }.setEndOfStream)
    | some (p, s) =>
      let s := { s with limit := s.limit - s.bufferEnd.diff p }
      let p := p.add overrun
      let overrun := p.diff s.bufferEnd
      if 0 ≤ overrun then doneFallbackLoop depth fuel overrun s
      else (some p, false, s.setLimitEnd)

/-- `DoneFallback`; the overrun gets less with each buffer. -/
def doneFallback (s : EpsCopyInputStream) (overrun depth : ℤ) : Option Ptr × Bool × EpsCopyInputStream :=
  if s.limit < overrun then (none, true, s)
  else doneFallbackLoop depth (overrun.toNat + 1) overrun s

/-- `DoneWithCheck`. -/
def doneWithCheck (s : EpsCopyInputStream) (ptr : Ptr) (depth : ℤ) : Option Ptr × Bool × EpsCopyInputStream :=
  if ptr.diff s.limitEnd < 0 then (some ptr, false, s)
  else
    let overrun := ptr.diff s.bufferEnd
    if overrun = s.limit then
      (if 0 < overrun ∧ s.nextChunk = .null then none else some ptr, true, s)
    else s.doneFallback overrun depth

/-! ## The start -/

/-- A stream before its first buffer, with the patch buffer zeroed. -/
def start (zcis : ZeroCopyInputStream) : EpsCopyInputStream :=
  ⟨⟨.patch, 0⟩, ⟨.patch, 0⟩, .null, 0, INT_MAX, zcis, List.replicate (2 * kSlopBytes) 0, [], 0, INT_MAX⟩

/-- `InitFrom` of a flat array. -/
def initFromFlat (flat : List UInt8) : Ptr × EpsCopyInputStream :=
  let s := { start ⟨[], 0⟩ with overallLimit := 0 }
  if kSlopBytes < flat.length then
    (⟨.chunk, 0⟩, { s with
      limit := kSlopBytes
      chunk := flat
      limitEnd := ⟨.chunk, flat.length - kSlopBytes⟩
      bufferEnd := ⟨.chunk, flat.length - kSlopBytes⟩
      nextChunk := .patch })
  else
    (⟨.patch, 0⟩, { s with
      buffer := Ring.blit s.buffer 0 flat
      limit := 0
      limitEnd := ⟨.patch, flat.length⟩
      bufferEnd := ⟨.patch, flat.length⟩
      nextChunk := .null })

/-- `InitFrom` of a stream. -/
def initFrom (zcis : ZeroCopyInputStream) : Ptr × EpsCopyInputStream :=
  match zcis.next with
  | (some data, zcis) =>
    let s := start zcis
    let s := { s with overallLimit := s.overallLimit - data.length }
    if kSlopBytes < data.length then
      (⟨.chunk, 0⟩, { s with
        limit := s.limit - (data.length - kSlopBytes)
        chunk := data
        limitEnd := ⟨.chunk, data.length - kSlopBytes⟩
        bufferEnd := ⟨.chunk, data.length - kSlopBytes⟩
        nextChunk := .patch })
    else
      (⟨.patch, 2 * kSlopBytes - data.length⟩, { s with
        buffer := Ring.blit s.buffer (2 * kSlopBytes - data.length) data
        limitEnd := ⟨.patch, kSlopBytes⟩
        bufferEnd := ⟨.patch, kSlopBytes⟩
        nextChunk := .patch })
  | (none, zcis) => (⟨.patch, 0⟩, { start zcis with overallLimit := 0 })

/-! ## Reads that span buffers -/

/-- The loop of `AppendSize`, at most `fuel` times: the bytes appended. -/
def appendSizeLoop : ℕ → EpsCopyInputStream → Ptr → ℤ →
    Option (List UInt8 × Ptr × EpsCopyInputStream)
  | 0, _, _, _ => none
  | fuel + 1, s, ptr, size =>
    let chunkSize := (s.bufferEnd.add kSlopBytes).diff ptr
    if s.nextChunk = .null then none
    else
      let appended := s.load ptr chunkSize
      let size := size - chunkSize
      if s.limit ≤ kSlopBytes then none
      else
        match s.next with
        | (none, _) => none
        | (some p, s) =>
          let ptr := p.add kSlopBytes
          let chunkSize := (s.bufferEnd.add kSlopBytes).diff ptr
          if chunkSize < size then
            (appendSizeLoop fuel s ptr size).map fun r => (appended ++ r.1, r.2)
          else some (appended ++ s.load ptr size, ptr.add size, s)

/-- `AppendSize`; with each buffer less is left behind its end. -/
def appendSize (s : EpsCopyInputStream) (ptr : Ptr) (size : ℤ) :
    Option (List UInt8 × Ptr × EpsCopyInputStream) :=
  appendSizeLoop (size - (s.bufferEnd.add kSlopBytes).diff ptr).toNat s ptr size

/-- `AppendString` and its fallback: the bytes appended. -/
def appendString (s : EpsCopyInputStream) (ptr : Ptr) (size : ℤ) :
    Option (List UInt8 × Ptr × EpsCopyInputStream) :=
  if size ≤ (s.bufferEnd.add kSlopBytes).diff ptr then some (s.load ptr size, ptr.add size, s)
  else s.appendSize ptr size

/-- `Skip` and its fallback. -/
def skip (s : EpsCopyInputStream) (ptr : Ptr) (size : ℤ) : Option (Ptr × EpsCopyInputStream) :=
  if size ≤ (s.bufferEnd.add kSlopBytes).diff ptr then some (ptr.add size, s)
  else (s.appendSize ptr size).map fun r => r.2

end EpsCopyInputStream

/-- The loop of `ReadPackedVarintArray`, at most `fuel` times, with `left` bytes from the
pointer to the end. -/
def readPackedVarintArrayLoop : ℕ → List UInt8 → ℤ → Option (List (BitVec 64) × ℕ)
  | 0, _, _ => none
  | fuel + 1, ptr, left =>
    if 0 < left then
      match varintParse ptr with
      | none => none
      | some (n, varint) => (readPackedVarintArrayLoop fuel (ptr.drop n) (left - n)).map fun r =>
          (varint :: r.1, n + r.2)
    else some ([], 0)

/-- `ReadPackedVarintArray`: the varints added, and how far the pointer moves. -/
def readPackedVarintArray (ptr : List UInt8) (left : ℤ) : Option (List (BitVec 64) × ℕ) :=
  readPackedVarintArrayLoop (left.toNat + 1) ptr left

/-- The numbers of `n` bytes each that a block consists of. -/
def loadBlock (n : ℕ) : ℕ → List UInt8 → List ℕ
  | 0, _ => []
  | num + 1, p => leValue (p.take n) :: loadBlock n num (p.drop n)

namespace EpsCopyInputStream

/-- The loop of `ReadPackedVarint`, at most `fuel` times. -/
def readPackedVarintLoop : ℕ → EpsCopyInputStream → Ptr → ℤ →
    Option (List (BitVec 64) × Ptr × EpsCopyInputStream)
  | 0, _, _, _ => none
  | fuel + 1, s, ptr, size =>
    let chunkSize := s.bufferEnd.diff ptr
    if chunkSize < size then
      match readPackedVarintArray (s.bytes ptr) chunkSize with
      | none => none
      | some (added, n) =>
        let overrun := (ptr.add n).diff s.bufferEnd
        if size - chunkSize ≤ kSlopBytes then
          -- the rest is in the slop region, and is read from a copy
          let buf := s.load s.bufferEnd kSlopBytes ++ List.replicate 10 0
          let stop := size - chunkSize
          match readPackedVarintArray (buf.drop overrun.toNat) (stop - overrun) with
          | none => none
          | some (more, n) =>
            let res := overrun + n
            if res ≠ stop then none else some (added ++ more, s.bufferEnd.add res, s)
        else
          let size := size - (overrun + chunkSize)
          if s.limit ≤ kSlopBytes then none
          else
            match s.next with
            | (none, _) => none
            | (some p, s) => (readPackedVarintLoop fuel s (p.add overrun) size).map fun r =>
                (added ++ r.1, r.2)
    else
      match readPackedVarintArray (s.bytes ptr) size with
      | none => none
      | some (added, n) => if (n : ℤ) = size then some (added, ptr.add n, s) else none

/-- `ReadPackedVarint`: the varints added; with each buffer less is left behind its end. -/
def readPackedVarint (s : EpsCopyInputStream) (ptr : Ptr) :
    Option (List (BitVec 64) × Ptr × EpsCopyInputStream) :=
  match readSize (s.bytes ptr) with
  | none => none
  | some (n, size) =>
    let ptr := ptr.add n
    s.readPackedVarintLoop ((size.toNat - s.bufferEnd.diff ptr).toNat + 1) ptr size.toNat

/-- The loop of `ReadPackedFixed`, at most `fuel` times, for numbers of `width` bytes. -/
def readPackedFixedLoop (width : ℕ) : ℕ → EpsCopyInputStream → Ptr → ℤ →
    Option (List ℕ × Ptr × EpsCopyInputStream)
  | 0, _, _, _ => none
  | fuel + 1, s, ptr, size =>
    let nbytes := (s.bufferEnd.add kSlopBytes).diff ptr
    if nbytes < size then
      let num := nbytes / width
      let blockSize := num * width
      let dst := loadBlock width num.toNat (s.bytes ptr)
      let size := size - blockSize
      if s.limit ≤ kSlopBytes then none
      else
        match s.next with
        | (none, _) => none
        | (some p, s) =>
          (readPackedFixedLoop width fuel s (p.add (kSlopBytes - (nbytes - blockSize))) size).map
            fun r => (dst ++ r.1, r.2)
    else
      let num := size / width
      let blockSize := num * width
      let dst := loadBlock width num.toNat (s.bytes ptr)
      if size ≠ blockSize then none else some (dst, ptr.add blockSize, s)

/-- `ReadPackedFixed`: the numbers added; with each buffer less is left behind its end. -/
def readPackedFixed (width : ℕ) (s : EpsCopyInputStream) (ptr : Ptr) (size : ℤ) :
    Option (List ℕ × Ptr × EpsCopyInputStream) :=
  s.readPackedFixedLoop width ((size - (s.bufferEnd.add kSlopBytes).diff ptr).toNat + 1) ptr size

end EpsCopyInputStream

end Protoc.Parse
