import Protoc.Io.CodedInput

/-!
# What a coded input stream reads

`Reader` is the coded input stream without its buffers: a position in the whole data
and the current limit.  Every read looks at the bytes from the position to the end, the
closest of the limit, the total bytes limit and the length of the data.

A caller holds the limits that its `PushLimit` calls returned and hands them back to
`PopLimit`, last one first.
-/

namespace Protoc.Io

open Protoc.Lib

/-- A call. -/
inductive Op
  | readVarint32
  | readVarint64
  | readVarintSizeAsInt
  | readLittleEndian32
  | readLittleEndian64
  | readRaw (size : ℕ)
  | readString (size : ℤ)
  | skip (count : ℤ)
  | readTag
  | pushLimit (byteLimit : ℤ)
  | popLimit
  | consumedEntireMessage
  deriving DecidableEq

/-- A value returned or written. -/
inductive Value
  | nothing
  | number (n : ℤ)
  | bytes (l : List UInt8)
  | flag (b : Bool)
  deriving DecidableEq

/-- What a caller sees of a call: whether it succeeded, the value, and after a success
`CurrentPosition`. -/
structure Outcome where
  ok : Bool
  value : Value
  position : Option ℕ
  deriving DecidableEq

/-- A stream, and the limits still to be popped. -/
structure Caller (σ : Type) where
  stream : σ
  limits : List ℕ

section Run
variable {σ : Type} (perform : Caller σ → Op → Option (Bool × Value × Caller σ)) (position : σ → ℕ)

/-- The outcomes of the calls, up to and including the first one that fails.  A `PopLimit`
with no limit to pop ends the sequence. -/
def run : Caller σ → List Op → List Outcome
  | _, [] => []
  | c, op :: ops =>
    match perform c op with
    | none => []
    | some (true, value, c) => ⟨true, value, some (position c.stream)⟩ :: run c ops
    | some (false, value, _) => [⟨false, value, none⟩]

end Run

def Value.ofOption : Option ℕ → Value
  | some n => .number n
  | none => .nothing

def Value.ofBytes : Option (List UInt8) → Value
  | some l => .bytes l
  | none => .nothing

/-- A call on the coded input stream. -/
def CodedInputStream.perform (c : Caller CodedInputStream) :
    Op → Option (Bool × Value × Caller CodedInputStream)
  | .readVarint32 =>
    let r := c.stream.readVarint32
    some (r.1, .number r.2.1, { c with stream := r.2.2 })
  | .readVarint64 =>
    let r := c.stream.readVarint64
    some (r.1, .number r.2.1, { c with stream := r.2.2 })
  | .readVarintSizeAsInt =>
    let r := c.stream.readVarintSizeAsInt
    some (r.1, .number r.2.1, { c with stream := r.2.2 })
  | .readLittleEndian32 =>
    let r := c.stream.readLittleEndian32
    some (r.1, .ofOption r.2.1, { c with stream := r.2.2 })
  | .readLittleEndian64 =>
    let r := c.stream.readLittleEndian64
    some (r.1, .ofOption r.2.1, { c with stream := r.2.2 })
  | .readRaw size =>
    let r := c.stream.readRaw size
    some (r.1, .bytes r.2.1, { c with stream := r.2.2 })
  | .readString size =>
    let r := c.stream.readString size
    some (r.1, .ofBytes r.2.1, { c with stream := r.2.2 })
  | .skip count =>
    let r := c.stream.skip count
    some (r.1, .nothing, { c with stream := r.2 })
  | .readTag =>
    let r := c.stream.readTag
    some (r.1, .number r.2.1, { c with stream := r.2.2 })
  | .pushLimit byteLimit =>
    let r := c.stream.pushLimit byteLimit
    some (true, .nothing, ⟨r.2, r.1 :: c.limits⟩)
  | .popLimit =>
    match c.limits with
    | [] => none
    | limit :: limits => some (true, .nothing, ⟨c.stream.popLimit limit, limits⟩)
  | .consumedEntireMessage => some (true, .flag c.stream.consumedEntireMessage, c)

/-! ## The reader -/

/-- A position in the data, the current limit, and whether the last tag read was the end
of the message. -/
structure Reader where
  pos : ℕ
  limit : ℕ
  legitimateMessageEnd : Bool
  deriving DecidableEq

namespace Reader

/-- The reader `n` bytes on. -/
def move (r : Reader) (n : ℕ) : Reader := { r with pos := r.pos + n }

section
variable (data : List UInt8) (total : ℕ)

def stop (r : Reader) : ℕ := min (min r.limit total) data.length

def readable (r : Reader) : List UInt8 := (data.drop r.pos).take (r.stop data total - r.pos)

def varint (r : Reader) : Option (ℕ × Reader) :=
  (readVarint kMaxVarintBytes (r.readable data total)).map fun v => (v.1, r.move v.2)

/-- The next `size` bytes, or all there are. -/
def bytes (r : Reader) (size : ℕ) : Bool × List UInt8 × Reader :=
  (decide (size ≤ (r.readable data total).length), (r.readable data total).take size, r.move size)

/-- A number of `width` bytes. -/
def littleEndian (r : Reader) (width : ℕ) : Bool × Option ℕ × Reader :=
  if width ≤ (r.readable data total).length then
    (true, some (leValue ((r.readable data total).take width)), r.move width)
  else (false, none, r)

/-- The end of the data and of a pushed limit end a message; the total bytes limit alone
does not. -/
def atMessageEnd (r : Reader) : Bool := decide (r.pos < total ∨ r.limit = total)

/-- A tag, or the end of the message. -/
def tag (r : Reader) : Bool × ℕ × Reader :=
  if r.readable data total = [] then
    (r.atMessageEnd total, 0, { r with legitimateMessageEnd := r.atMessageEnd total })
  else
    match r.varint data total with
    | some (value, r) => (true, value % 2 ^ 32, r)
    | none => (false, 0, r)

def push (r : Reader) (byteLimit : ℤ) : Reader :=
  if 0 ≤ byteLimit ∧ byteLimit ≤ INT_MAX - (r.pos : ℤ) ∧ byteLimit < r.limit - (r.pos : ℤ) then
    { r with limit := (r.pos + byteLimit).toNat }
  else r

/-- A call on the reader. -/
def perform (c : Caller Reader) : Op → Option (Bool × Value × Caller Reader)
  | .readVarint32 =>
    match c.stream.varint data total with
    | some (value, r) => some (true, .number (value % 2 ^ 32 : ℕ), { c with stream := r })
    | none => some (false, .number (2 ^ 32 - 1), c)
  | .readVarint64 =>
    match c.stream.varint data total with
    | some (value, r) => some (true, .number (value % 2 ^ 64 : ℕ), { c with stream := r })
    | none => some (false, .number 0, c)
  | .readVarintSizeAsInt =>
    match c.stream.varint data total with
    | some (value, r) =>
      if value % 2 ^ 64 ≤ INT_MAX then
        some (true, .number (value % 2 ^ 64 : ℕ), { c with stream := r })
      else some (false, .number (-1), c)
    | none => some (false, .number (-1), c)
  | .readLittleEndian32 =>
    let r := c.stream.littleEndian data total 4
    some (r.1, .ofOption r.2.1, { c with stream := r.2.2 })
  | .readLittleEndian64 =>
    let r := c.stream.littleEndian data total 8
    some (r.1, .ofOption r.2.1, { c with stream := r.2.2 })
  | .readRaw size =>
    let r := c.stream.bytes data total size
    some (r.1, .bytes r.2.1, { c with stream := r.2.2 })
  | .readString size =>
    if size < 0 then some (false, .nothing, c)
    else
      let r := c.stream.bytes data total size.toNat
      some (r.1, .bytes r.2.1, { c with stream := r.2.2 })
  | .skip count =>
    if count < 0 then some (false, .nothing, c)
    else
      let r := c.stream.bytes data total count.toNat
      some (r.1, .nothing, { c with stream := r.2.2 })
  | .readTag =>
    let r := c.stream.tag data total
    some (r.1, .number r.2.1, { c with stream := r.2.2 })
  | .pushLimit byteLimit =>
    some (true, .nothing, ⟨c.stream.push byteLimit, c.stream.limit :: c.limits⟩)
  | .popLimit =>
    match c.limits with
    | [] => none
    | limit :: limits =>
      some (true, .nothing, ⟨{ c.stream with limit, legitimateMessageEnd := false }, limits⟩)
  | .consumedEntireMessage => some (true, .flag c.stream.legitimateMessageEnd, c)

end

end Reader

end Protoc.Io
