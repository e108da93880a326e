import Protoc.Io.EpsCopyOutput

/-!
# The coded output stream with its checks

The functions of the coded output stream once more, with the debug checks that the source
makes and with a check of every access to memory.  An access has to stay inside the patch
buffer or inside the buffer that the stream returned last, pointers are compared within one
array only, and no more is backed up over than that buffer.  A check that fails ends the
run, and so does a loop whose bound is not enough.
-/

namespace Protoc.Io

open Protoc.Lib

namespace Ptr

def sameArray : Ptr → Ptr → Bool
  | patch _, patch _ => true
  | stream _, stream _ => true
  | _, _ => false

/-- The difference of two pointers, which have to be into one array. -/
def diffChecked (p q : Ptr) : Option ℤ := if p.sameArray q then some (p.diff q) else none

def sizeChecked (p q : Ptr) : Option ℕ :=
  if p.sameArray q ∧ 0 ≤ p.diff q then some (p.diff q).toNat else none

end Ptr

namespace EpsCopyOutputStream

/-- The `n` bytes from a pointer on are in the patch buffer, or in the buffer that the stream
returned last. -/
def Inside (s : EpsCopyOutputStream) (p : Ptr) (n : ℕ) : Prop :=
  match p with
  | .null => False
  | .patch i => i + n ≤ s.buffer.length
  | .stream i => s.stream.byteCount ≤ i + s.stream.last ∧ i + n ≤ s.stream.byteCount

instance (s : EpsCopyOutputStream) (p : Ptr) (n : ℕ) : Decidable (s.Inside p n) :=
  match p with
  | .null => inferInstanceAs (Decidable False)
  | .patch i => inferInstanceAs (Decidable (i + n ≤ s.buffer.length))
  | .stream i => inferInstanceAs
      (Decidable (s.stream.byteCount ≤ i + s.stream.last ∧ i + n ≤ s.stream.byteCount))

def storeChecked (s : EpsCopyOutputStream) (p : Ptr) (data : List UInt8) : Option EpsCopyOutputStream :=
  if s.Inside p data.length then some (s.store p data) else none

def memcpyChecked (s : EpsCopyOutputStream) (dst src : Ptr) (n : ℕ) : Option EpsCopyOutputStream :=
  if s.Inside dst n ∧ s.Inside src n then some (s.memcpy dst src n) else none

/-- `GetSize`, of a position that is not behind the slop region. -/
def getSizeChecked (s : EpsCopyOutputStream) (ptr : Ptr) : Option ℕ :=
  (s.end_.add kSlopBytes).sizeChecked ptr

section
variable (buffers : Buffers)

/-- `Next`, of a stream without an error. -/
def nextChecked (s : EpsCopyOutputStream) : Option (Ptr × EpsCopyOutputStream) := do
  guard (s.hadError = false)
  if s.bufferEnd ≠ .null then
    let n ← s.end_.sizeChecked (.patch 0)
    let s ← s.memcpyChecked s.bufferEnd (.patch 0) n
    match s.stream.nextNonEmpty buffers with
    | none => some s.error
    | some (size, stream) =>
      let ptr := Ptr.stream s.stream.byteCount
      let s := { s with stream }
      if kSlopBytes < size then
        let s ← s.memcpyChecked ptr s.end_ kSlopBytes
        some (ptr, { s with end_ := ptr.add (size - kSlopBytes), bufferEnd := .null })
      else
        guard (0 < size)
        let s ← s.memcpyChecked (.patch 0) s.end_ kSlopBytes
        some (.patch 0, { s with bufferEnd := ptr, end_ := .patch size })
  else
    let s ← s.memcpyChecked (.patch 0) s.end_ kSlopBytes
    some (.patch 0, { s with bufferEnd := s.end_, end_ := .patch kSlopBytes })

/-- The loop of `Flush`; an overrun is at most the slop region. -/
def flushLoopChecked : ℕ → Ptr → EpsCopyOutputStream → Option (Ptr × EpsCopyOutputStream)
  | 0, _, _ => none
  | fuel + 1, ptr, s =>
    if s.bufferEnd ≠ .null then do
      let delta ← ptr.diffChecked s.end_
      if 0 < delta then
        let overrun ← ptr.sizeChecked s.end_
        guard (s.hadError = false ∧ overrun ≤ kSlopBytes)
        let r ← s.nextChecked buffers
        if r.2.hadError then some (r.1.add overrun, r.2)
        else flushLoopChecked fuel (r.1.add overrun) r.2
      else some (ptr, s)
    else some (ptr, s)

/-- `Flush`; what remains in the buffer is not negative. -/
def flushChecked (s : EpsCopyOutputStream) (ptr : Ptr) : Option (ℕ × EpsCopyOutputStream) := do
  let r ← flushLoopChecked buffers ((ptr.diff s.end_).toNat + 1) ptr s
  let ptr := r.1
  let s := r.2
  if s.hadError then some (0, s)
  else if s.bufferEnd ≠ .null then
    let n ← ptr.sizeChecked (.patch 0)
    let s ← s.memcpyChecked s.bufferEnd (.patch 0) n
    let size ← s.end_.sizeChecked ptr
    some (size, { s with bufferEnd := s.bufferEnd.add n })
  else
    let size ← s.getSizeChecked ptr
    some (size, { s with bufferEnd := ptr })

/-- `Trim`, which backs up over the last buffer at most. -/
def trimChecked (s : EpsCopyOutputStream) (ptr : Ptr) : Option (Ptr × EpsCopyOutputStream) :=
  if s.hadError then some (ptr, s)
  else do
    let r ← s.flushChecked buffers ptr
    let s := r.2
    guard (r.1 ≤ s.stream.last)
    let stream := if r.1 ≠ 0 then s.stream.backUp r.1 else s.stream
    some (.patch 0, { s with stream, bufferEnd := .patch 0, end_ := .patch 0 })

def flushAndResetBufferChecked (s : EpsCopyOutputStream) (ptr : Ptr) : Option (Ptr × EpsCopyOutputStream) :=
  if s.hadError then some (.patch 0, s)
  else do
    let r ← s.flushChecked buffers ptr
    if r.2.hadError then some (.patch 0, r.2) else some (r.2.setInitialBuffer r.2.bufferEnd r.1)

def skipLoopChecked :
    ℕ → ℕ → Ptr → ℕ → EpsCopyOutputStream → Option ((Bool × Ptr) × EpsCopyOutputStream)
  | 0, _, _, _, _ => none
  | fuel + 1, count, data, size, s =>
    if size < count then
      match s.stream.nextNonEmpty buffers with
      | none => some ((false, s.error.1), s.error.2)
      | some (size', stream) =>
        skipLoopChecked fuel (count - size) (.stream s.stream.byteCount) size'
          { s with stream }
    else
      let r := s.setInitialBuffer (data.add count) (size - count)
      some ((true, r.1), r.2)

def skipChecked (s : EpsCopyOutputStream) (count : ℤ) (ptr : Ptr) :
    Option ((Bool × Ptr) × EpsCopyOutputStream) :=
  if count < 0 then some ((false, ptr), s)
  else if s.hadError then some ((false, .patch 0), s)
  else do
    let r ← s.flushChecked buffers ptr
    if r.2.hadError then some ((false, .patch 0), r.2)
    else skipLoopChecked buffers (count.toNat + 2) count.toNat r.2.bufferEnd r.1 r.2

/-- The loop of `EnsureSpaceFallback`; the overrun is at most the slop region. -/
def ensureSpaceLoopChecked : ℕ → Ptr → EpsCopyOutputStream → Option (Ptr × EpsCopyOutputStream)
  | 0, _, _ => none
  | fuel + 1, ptr, s =>
    if s.hadError then some (.patch 0, s)
    else do
      let overrun ← ptr.sizeChecked s.end_
      guard (overrun ≤ kSlopBytes)
      let r ← s.nextChecked buffers
      let ptr := r.1.add overrun
      let delta ← ptr.diffChecked r.2.end_
      if 0 ≤ delta then ensureSpaceLoopChecked fuel ptr r.2 else some (ptr, r.2)

def ensureSpaceFallbackChecked (s : EpsCopyOutputStream) (ptr : Ptr) : Option (Ptr × EpsCopyOutputStream) :=
  ensureSpaceLoopChecked buffers ((ptr.diff s.end_).toNat + 1) ptr s

def ensureSpaceChecked (s : EpsCopyOutputStream) (ptr : Ptr) :
    Option (Ptr × EpsCopyOutputStream) := do
  let delta ← ptr.diffChecked s.end_
  if 0 ≤ delta then s.ensureSpaceFallbackChecked buffers ptr else some (ptr, s)

def writeRawLoopChecked :
    ℕ → List UInt8 → Ptr → EpsCopyOutputStream → Option (Ptr × EpsCopyOutputStream)
  | 0, _, _, _ => none
  | fuel + 1, data, ptr, s => do
      let n ← s.getSizeChecked ptr
      if n < data.length then
        let s ← s.storeChecked ptr (data.take n)
        let r ← s.ensureSpaceFallbackChecked buffers (ptr.add n)
        writeRawLoopChecked fuel (data.drop n) r.1 r.2
      else
        let s ← s.storeChecked ptr data
        some (ptr.add data.length, s)

def writeRawFallbackChecked (s : EpsCopyOutputStream) (data : List UInt8) (ptr : Ptr) :
    Option (Ptr × EpsCopyOutputStream) :=
  writeRawLoopChecked buffers (data.length + 2) data ptr s

def writeRawChecked (s : EpsCopyOutputStream) (data : List UInt8) (ptr : Ptr) :
    Option (Ptr × EpsCopyOutputStream) := do
  let room ← s.end_.diffChecked ptr
  if room < data.length then s.writeRawFallbackChecked buffers data ptr
  else
    let s ← s.storeChecked ptr data
    some (ptr.add data.length, s)

end

end EpsCopyOutputStream

/-! ## The calls -/

/-- A call that writes, flushes or skips, or only ensures the space. -/
inductive OutputCall
  | ensureSpace
  | skip (count : ℤ)
  | perform (op : WriteOp)
  deriving DecidableEq

namespace CodedOutputStream

section
variable (buffers : Buffers)

/-- A call. -/
def call (c : CodedOutputStream) : OutputCall → CodedOutputStream
  | .ensureSpace =>
    let r := c.impl.ensureSpace buffers c.cur
    { c with impl := r.2, cur := r.1 }
  | .skip count => (c.skip buffers count).2
  | .perform op => c.perform buffers op

def callAll (c : CodedOutputStream) (calls : List OutputCall) : CodedOutputStream :=
  calls.foldl (call buffers) c

/-- What goes on with the result of a checked function. -/
def withResult (c : CodedOutputStream) (r : Ptr × EpsCopyOutputStream) : CodedOutputStream :=
  { c with impl := r.2, cur := r.1 }

def writeToArrayChecked (c : CodedOutputStream) (bytes : List UInt8) :
    Option CodedOutputStream := do
  let r ← c.impl.ensureSpaceChecked buffers c.cur
  let s ← r.2.storeChecked r.1 bytes
  some (c.withResult (r.1.add bytes.length, s))

def performChecked (c : CodedOutputStream) : WriteOp → Option CodedOutputStream
  | .writeVarint32 value => c.writeToArrayChecked buffers (writeVarint32ToArray value)
  | .writeVarint64 value => c.writeToArrayChecked buffers (writeVarint64ToArray value)
  | .writeLittleEndian32 value => c.writeToArrayChecked buffers (writeLittleEndian32ToArray value)
  | .writeLittleEndian64 value => c.writeToArrayChecked buffers (writeLittleEndian64ToArray value)
  | .writeTag value => c.writeToArrayChecked buffers (writeTagToArray value)
  | .writeRaw data => (c.impl.writeRawChecked buffers data c.cur).map c.withResult
  | .writeString str => (c.impl.writeRawChecked buffers str c.cur).map c.withResult
  | .trim => (c.impl.trimChecked buffers c.cur).map c.withResult
  | .hadError => (c.impl.flushAndResetBufferChecked buffers c.cur).map c.withResult

def callChecked (c : CodedOutputStream) : OutputCall → Option CodedOutputStream
  | .ensureSpace => (c.impl.ensureSpaceChecked buffers c.cur).map c.withResult
  | .skip count => (c.impl.skipChecked buffers count c.cur).map fun r => c.withResult (r.1.2, r.2)
  | .perform op => c.performChecked buffers op

/-- A sequence of calls, as long as the checks pass. -/
def callAllChecked (c : CodedOutputStream) : List OutputCall → Option CodedOutputStream
  | [] => some c
  | call :: calls => do
      let c ← c.callChecked buffers call
      c.callAllChecked calls

end

end CodedOutputStream

end Protoc.Io
