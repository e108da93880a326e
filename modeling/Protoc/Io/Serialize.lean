import Protoc.Io.CopyingOutput
import Protoc.Io.EpsCopyOutput

/-!
# Serializing to a file descriptor or an ostream

Generated code serializes a message by a sequence of writes to the coded output.  The
functions of `MessageLite` and of `delimited_message_util` build the stack of streams over a
file descriptor or an ostream, run the writes, and take the stack down again; what the
destructors still write comes after the result.
-/

namespace Protoc.Io

open Protoc.Lib

/-- `INT_MAX`. -/
def kIntMax : ℕ := 2 ^ 31 - 1

/-- A step of `_InternalSerialize`. -/
inductive MessageWrite
  /-- Space is ensured, and at most 16 bytes are written there: a tag and a number, the head
  of a sub-message, an element of a packed field. -/
  | scalar (bytes : { bytes : List UInt8 // bytes ≠ [] ∧ bytes.length ≤ kSlopBytes })
  /-- `WriteRaw`. -/
  | raw (data : List UInt8)
  /-- `WriteString`. -/
  | string (num : UInt32) (str : List UInt8)

def lengthDelimitedTag (num : UInt32) : UInt32 := num <<< 3 ||| 2

/-- `WriteLengthDelim`: the bytes it writes. -/
def writeLengthDelim (num : UInt32) (size : ℕ) : List UInt8 :=
  writeTagToArray (lengthDelimitedTag num) ++ writeVarint32ToArray (.ofNat size)

def MessageWrite.encode : MessageWrite → List UInt8
  | .scalar bytes => bytes
  | .raw data => data
  | .string num str => writeLengthDelim num str.length ++ str

/-- The encoding of a message, given by the steps of its serialization. -/
def encode (message : List MessageWrite) : List UInt8 := message.flatMap MessageWrite.encode

/-- `ByteSizeLong`. -/
def byteSizeLong (message : List MessageWrite) : ℕ := (encode message).length

def encodeDelimited (message : List MessageWrite) : List UInt8 :=
  writeVarint32ToArray (.ofNat (byteSizeLong message)) ++ encode message

/-- `TagSize`. -/
def tagSize (tag : UInt32) : ℕ :=
  if tag.toNat < 2 ^ 7 then 1
  else if tag.toNat < 2 ^ 14 then 2
  else if tag.toNat < 2 ^ 21 then 3
  else if tag.toNat < 2 ^ 28 then 4
  else 5

namespace EpsCopyOutputStream

variable (buffers : Buffers)

def storeAt (data : List UInt8) (r : Ptr × EpsCopyOutputStream) : Ptr × EpsCopyOutputStream :=
  (r.1.add data.length, r.2.store r.1 data)

/-- `WriteStringOutline`. -/
def writeStringOutline (num : UInt32) (str : List UInt8) (r : Ptr × EpsCopyOutputStream) :
    Ptr × EpsCopyOutputStream :=
  let r := r.2.ensureSpace buffers r.1
  let r := storeAt (writeLengthDelim num str.length) r
  r.2.writeRaw buffers str r.1

/-- `WriteString`: a short string that fits goes behind its head at once. -/
def writeString (num : UInt32) (str : List UInt8) (r : Ptr × EpsCopyOutputStream) : Ptr × EpsCopyOutputStream :=
  if 128 ≤ str.length ∨ r.2.end_.diff r.1 + 16 - tagSize (num <<< 3) - 1 < str.length then
    writeStringOutline buffers num str r
  else
    let r := storeAt (writeTagToArray (lengthDelimitedTag num)) r
    let r := storeAt [.ofNat str.length] r
    storeAt str r

/-- A step of `_InternalSerialize`. -/
def performWrite (r : Ptr × EpsCopyOutputStream) : MessageWrite → Ptr × EpsCopyOutputStream
  | .scalar bytes => storeAt bytes (r.2.ensureSpace buffers r.1)
  | .raw data => r.2.writeRaw buffers data r.1
  | .string num str => writeString buffers num str r

/-- `_InternalSerialize`. -/
def internalSerialize (message : List MessageWrite) (r : Ptr × EpsCopyOutputStream) :
    Ptr × EpsCopyOutputStream :=
  message.foldl (performWrite buffers) r

/-- `SerializePartialToZeroCopyStream`: the result, and the coded output at the end.  Its
patch buffer holds at first whatever it held. -/
def serializePartialToZeroCopyStream (patch : List UInt8) (message : List MessageWrite) :
    Bool × EpsCopyOutputStream :=
  let stream := EpsCopyOutputStream.ofStream ⟨[], 0, 0⟩ patch
  if kIntMax < byteSizeLong message then (false, stream)
  else
    let r := internalSerialize buffers message (.patch 0, stream)
    let r := r.2.trim buffers r.1
    (!r.2.hadError, r.2)

/-- `SerializeToZeroCopyStream`, which checks in debug builds that the message is
initialized. -/
def serializeToZeroCopyStream (patch : List UInt8) (message : List MessageWrite) : Bool × EpsCopyOutputStream :=
  serializePartialToZeroCopyStream buffers patch message

end EpsCopyOutputStream

namespace CodedOutputStream

variable (buffers : Buffers)

/-- `SerializeWithCachedSizes`. -/
def serializeWithCachedSizes (message : List MessageWrite) (c : CodedOutputStream) : CodedOutputStream :=
  let r := EpsCopyOutputStream.internalSerialize buffers message (c.cur, c.impl)
  { c with impl := r.2, cur := r.1 }

/-- `SerializeDelimitedToCodedStream`. -/
def serializeDelimitedToCodedStream (message : List MessageWrite) (c : CodedOutputStream) :
    Bool × CodedOutputStream :=
  if kIntMax < byteSizeLong message then (false, c)
  else
    let c := c.writeToArray buffers (writeVarint32ToArray (.ofNat (byteSizeLong message)))
    let r := c.impl.getDirectBufferForNBytesAndAdvance buffers (byteSizeLong message) c.cur
    let c := { c with impl := r.2, cur := r.1.2 }
    match r.1.1 with
    -- `SerializeWithCachedSizesToArray`
    | some buffer => (true, { c with impl := c.impl.store buffer (encode message) })
    | none =>
      let c := c.serializeWithCachedSizes buffers message
      let c := c.hadError buffers
      (!c.impl.hadError, c)

/-- `SerializeDelimitedToZeroCopyStream`; the coded stream trims when it goes. -/
def serializeDelimitedToZeroCopyStream (patch : List UInt8) (message : List MessageWrite) :
    Bool × EpsCopyOutputStream :=
  let r := serializeDelimitedToCodedStream buffers message (ofStream buffers ⟨[], 0, 0⟩ patch true)
  (r.1, (r.2.trim buffers).impl)

end CodedOutputStream

/-! ## The stack of streams -/

/-- What a function returns, the adaptor when its destructors are through, and the memory of
its blocks, one after the other. -/
structure SerializeOutcome (σ : Type) where
  returned : Bool
  adaptor : CopyingOutputStreamAdaptor σ
  memory : List UInt8

/-- The bytes that the calls of `Write` accepted.  What a block holds when it is written is
what the memory holds at its place at the end: `EpsCopyOutputStream.Holds.take_eq`. -/
def SerializeOutcome.acceptedBytes {σ : Type} (outcome : SerializeOutcome σ) : List UInt8 :=
  outcome.memory.take outcome.adaptor.accepted

/-- What is in memory when a function is called: in the patch buffer, and in the adaptor's
block at each call of `Next`. -/
structure Uninitialized where
  patch : { buffer : List UInt8 // buffer.length = 32 }
  block : ℕ → ℕ → UInt8

namespace CopyingOutputStreamAdaptor

variable {σ : Type} (copying : CopyingOutputStream σ) (sink : σ)

/-- The adaptor under a coded output at its end.  A call of `Next` that failed is the last
one; otherwise the stream was backed up over what the coded output did not use. -/
def under (stream : EpsCopyOutputStream) : CopyingOutputStreamAdaptor σ :=
  if stream.hadError then adaptorAfter copying sink (stream.stream.calls + 1)
  else
    let a := adaptorAfter copying sink stream.stream.calls
    a.backUp (a.byteCount - stream.stream.byteCount)

/-- A serialization to the adaptor as a zero-copy stream, and the adaptor after it. -/
def serialized (memory : Uninitialized)
    (serialize : Buffers → List UInt8 → Bool × EpsCopyOutputStream) : SerializeOutcome σ :=
  let r := serialize (buffers copying sink memory.block) memory.patch
  ⟨r.1, under copying sink r.2, r.2.stream.bytes⟩

end CopyingOutputStreamAdaptor

/-- `&& output.Flush()`, before the destructors. -/
def SerializeOutcome.andFlush {σ : Type} (copying : CopyingOutputStream σ) (outcome : SerializeOutcome σ) :
    SerializeOutcome σ :=
  if outcome.returned then
    let r := outcome.adaptor.flush copying
    { outcome with returned := r.1, adaptor := r.2 }
  else outcome

def SerializeOutcome.destroy {σ : Type} (copying : CopyingOutputStream σ) (outcome : SerializeOutcome σ) :
    SerializeOutcome σ :=
  { outcome with adaptor := outcome.adaptor.destroy copying }

/-- `return output->good()`, where the result was not false before. -/
def SerializeOutcome.andGood (outcome : SerializeOutcome Ostream.State) : SerializeOutcome Ostream.State :=
  { outcome with returned := outcome.returned && outcome.adaptor.copyingStream.good }

section
open EpsCopyOutputStream CodedOutputStream CopyingOutputStreamAdaptor
open FileDescriptor (copyingFileOutputStream)
open Ostream (copyingOstreamOutputStream)

variable (memory : Uninitialized) (message : List MessageWrite)

/-- `SerializeToFileDescriptor`. -/
def serializeToFileDescriptor (fd : FileDescriptor) (calls : ℕ) : SerializeOutcome ℕ :=
  ((serialized fd.copyingFileOutputStream calls memory fun buffers patch =>
    serializeToZeroCopyStream buffers patch message).andFlush
      fd.copyingFileOutputStream).destroy fd.copyingFileOutputStream

/-- `SerializePartialToFileDescriptor`. -/
def serializePartialToFileDescriptor (fd : FileDescriptor) (calls : ℕ) : SerializeOutcome ℕ :=
  ((serialized fd.copyingFileOutputStream calls memory fun buffers patch =>
    serializePartialToZeroCopyStream buffers patch message).andFlush
      fd.copyingFileOutputStream).destroy fd.copyingFileOutputStream

/-- `SerializeToOstream`: the zero-copy stream goes before the result is taken. -/
def serializeToOstream (output : Ostream) (state : Ostream.State) : SerializeOutcome Ostream.State :=
  ((serialized output.copyingOstreamOutputStream state memory fun buffers patch =>
    serializeToZeroCopyStream buffers patch message).destroy
      output.copyingOstreamOutputStream).andGood

/-- `SerializePartialToOstream`: the result is taken before the zero-copy stream goes. -/
def serializePartialToOstream (output : Ostream) (state : Ostream.State) : SerializeOutcome Ostream.State :=
  (serialized output.copyingOstreamOutputStream state memory fun buffers patch =>
    serializePartialToZeroCopyStream buffers patch message).destroy
      output.copyingOstreamOutputStream

/-- `SerializeDelimitedToFileDescriptor`: the result is taken before the zero-copy stream
goes. -/
def serializeDelimitedToFileDescriptor (fd : FileDescriptor) (calls : ℕ) : SerializeOutcome ℕ :=
  (serialized fd.copyingFileOutputStream calls memory fun buffers patch =>
    serializeDelimitedToZeroCopyStream buffers patch message).destroy fd.copyingFileOutputStream

/-- `SerializeDelimitedToOstream`: the zero-copy stream goes before the result is taken. -/
def serializeDelimitedToOstream (output : Ostream) (state : Ostream.State) : SerializeOutcome Ostream.State :=
  ((serialized output.copyingOstreamOutputStream state memory fun buffers patch =>
    serializeDelimitedToZeroCopyStream buffers patch message).destroy
      output.copyingOstreamOutputStream).andGood

end

end Protoc.Io
