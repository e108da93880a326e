import Protoc.Parse.EpsCopyInput

/-!
# The wire-format parser

`WireFormatParser` reads field after field until the input or a group ends.  The helper
`UnknownFieldLiteParserHelper` keeps what it reads as an unknown field, encoded again; a
generated parser reads the packed fields that it knows with `ReadPackedVarint` or
`ReadPackedFixed` into a repeated field, and leaves the others to the helper.
-/

namespace Protoc.Parse

open Protoc.Lib Protoc.Io

/-- `ParseContext`. -/
structure ParseContext where
  input : EpsCopyInputStream
  depth : ℤ
  groupDepth : ℤ
  deriving DecidableEq

namespace ParseContext

/-- A context before its first byte: `depth_` is the recursion limit, `group_depth_` is
`INT_MIN`. -/
def ofInput (input : EpsCopyInputStream) (depth : Int32) : ParseContext :=
  ⟨input, depth.toInt, -INT_MAX - 1⟩

/-- `Done`. -/
def done (ctx : ParseContext) (ptr : Ptr) : Option Ptr × Bool × ParseContext :=
  let r := ctx.input.doneWithCheck ptr ctx.groupDepth
  (r.1, r.2.1, { ctx with input := r.2.2 })

end ParseContext

/-- What is done with the payload of a length-delimited field. -/
inductive Payload
  /-- `ParseLengthDelimited` of the helper for unknown fields. -/
  | unknown
  /-- A packed field of varints. -/
  | packedVarint
  /-- A packed field of 4-byte numbers. -/
  | packedFixed32
  /-- A packed field of 8-byte numbers. -/
  | packedFixed64
  deriving DecidableEq

/-- What was read: the unknown-field string, if there is one, and the numbers added to
repeated fields, with their field numbers. -/
structure Parsed where
  unknown : Option (List UInt8)
  added : List (BitVec 32 × ℕ)
  deriving DecidableEq

namespace Parsed

/-- The unknown-field string is appended to, if there is one. -/
def append (out : Parsed) (bytes : List UInt8) : Parsed :=
  { out with unknown := out.unknown.map (· ++ bytes) }

/-- `WriteVarint` to the unknown-field string. -/
def writeVarint (out : Parsed) (val : ℕ) : Parsed := out.append (varintBytes val)

/-- `AddVarint`. -/
def addVarint (out : Parsed) (num : BitVec 32) (value : BitVec 64) : Parsed :=
  (out.writeVarint (num * 8).toNat).writeVarint value.toNat

/-- `AddFixed64`. -/
def addFixed64 (out : Parsed) (num : BitVec 32) (value : ℕ) : Parsed :=
  (out.writeVarint (num * 8 + 1).toNat).append (leBytes 8 value)

/-- `AddFixed32`. -/
def addFixed32 (out : Parsed) (num : BitVec 32) (value : ℕ) : Parsed :=
  (out.writeVarint (num * 8 + 5).toNat).append (leBytes 4 value)

def add (out : Parsed) (num : BitVec 32) (values : List ℕ) : Parsed :=
  { out with added := out.added ++ values.map fun value => (num, value) }

end Parsed

/-- The end of a parse or of a field: the pointer, the context and what was read. -/
abbrev Result := Option (Ptr × ParseContext × Parsed)

/-- `ParseLengthDelimited` of the helper. -/
def parseLengthDelimited (num : BitVec 32) (ptr : Ptr) (ctx : ParseContext) (out : Parsed) :
    Result := do
  let (n, size) ← readSize (ctx.input.bytes ptr)
  let ptr := ptr.add n
  match out.unknown with
  | none =>
    let (ptr, input) ← ctx.input.skip ptr size.toNat
    some (ptr, { ctx with input }, out)
  | some _ =>
    let out := (out.writeVarint (num * 8 + 2).toNat).writeVarint size.toNat
    let (bytes, ptr, input) ← ctx.input.appendString ptr size.toNat
    some (ptr, { ctx with input }, out.append bytes)

/-- `VarintParser`: a packed field of varints. -/
def varintParser (num : BitVec 32) (ptr : Ptr) (ctx : ParseContext) (out : Parsed) : Result := do
  let (values, ptr, input) ← ctx.input.readPackedVarint ptr
  some (ptr, { ctx with input }, out.add num (values.map BitVec.toNat))

/-- `FixedParser`: a packed field of numbers of `width` bytes. -/
def fixedParser (width : ℕ) (num : BitVec 32) (ptr : Ptr) (ctx : ParseContext) (out : Parsed) :
    Result := do
  let (n, size) ← readSize (ctx.input.bytes ptr)
  let (values, ptr, input) ← ctx.input.readPackedFixed width (ptr.add n) size.toNat
  some (ptr, { ctx with input }, out.add num values)

/-- `ParseGroup` of the helper and of the context, with the parser of the group's fields. -/
def parseGroup (internalParse : Ptr → ParseContext → Parsed → Result) (num : BitVec 32)
    (ptr : Ptr) (ctx : ParseContext) (out : Parsed) : Result :=
  let out := out.writeVarint (num * 8 + 3).toNat
  let depth := ctx.depth - 1
  if depth < 0 then none
  else
    match internalParse ptr { ctx with depth, groupDepth := ctx.groupDepth + 1 } out with
    | none => none
    | some (ptr, ctx, out) =>
      let ctx := { ctx with groupDepth := ctx.groupDepth - 1, depth := ctx.depth + 1 }
      let r := ctx.input.consumeEndGroup (num * 8 + 3)
      if r.1 = false then none
      else some (ptr, { ctx with input := r.2 }, out.writeVarint (num * 8 + 4).toNat)

section
variable (payload : BitVec 32 → Payload)

/-- `FieldParser`, with the parser of a group's fields. -/
def fieldParser (internalParse : Ptr → ParseContext → Parsed → Result) (tag : BitVec 32)
    (ptr : Ptr) (ctx : ParseContext) (out : Parsed) : Result :=
  let number := tag >>> 3
  if number = 0 then none
  else
    match (tag &&& 7).toNat with
    | 0 =>
      match varintParse (ctx.input.bytes ptr) with
      | none => none
      | some (n, value) => some (ptr.add n, ctx, out.addVarint number value)
    | 1 =>
      match unalignedLoad 8 (ctx.input.bytes ptr) with
      | none => none
      | some (n, value) => some (ptr.add n, ctx, out.addFixed64 number value)
    | 2 =>
      match payload number with
      | .unknown => parseLengthDelimited number ptr ctx out
      | .packedVarint => varintParser number ptr ctx out
      | .packedFixed32 => fixedParser 4 number ptr ctx out
      | .packedFixed64 => fixedParser 8 number ptr ctx out
    | 3 => parseGroup internalParse number ptr ctx out
    -- an end-group tag has left the loop of `wireFormatParser`
    | 5 =>
      match unalignedLoad 4 (ctx.input.bytes ptr) with
      | none => none
      | some (n, value) => some (ptr.add n, ctx, out.addFixed32 number value)
    | _ => none

/-- `WireFormatParser`, at most `fuel` fields and nested groups; each takes a byte at
least. -/
def wireFormatParser : ℕ → Ptr → ParseContext → Parsed → Result
  | 0, _, _, _ => none
  | fuel + 1, ptr, ctx, out =>
    match ctx.done ptr with
    | (none, _, _) => none
    | (some ptr, true, ctx) => some (ptr, ctx, out)
    | (some ptr, false, ctx) =>
      match readTag (ctx.input.bytes ptr) with
      | none => none
      | some (n, tag) =>
        let ptr := ptr.add n
        if tag = 0 ∨ tag &&& 7 = 4 then
          some (ptr, { ctx with input := ctx.input.setLastTag tag }, out)
        else
          match fieldParser payload (wireFormatParser fuel) tag ptr ctx out with
          | none => none
          | some (ptr, ctx, out) => wireFormatParser fuel ptr ctx out

/-- `MergeFromImpl` of a flat array: it is to end at the limit. -/
def mergeFromFlat (fuel : ℕ) (depth : Int32) (flat : List UInt8) (out : Parsed) : Option Parsed :=
  let r := EpsCopyInputStream.initFromFlat flat
  match wireFormatParser payload fuel r.1 (.ofInput r.2 depth) out with
  | none => none
  | some (_, ctx, out) => if ctx.input.endedAtLimit then some out else none

/-- `MergeFromImpl` of a stream: it is to end at the end of the stream. -/
def mergeFromStream (fuel : ℕ) (depth : Int32) (zcis : ZeroCopyInputStream) (out : Parsed) : Option Parsed :=
  let r := EpsCopyInputStream.initFrom zcis
  match wireFormatParser payload fuel r.1 (.ofInput r.2 depth) out with
  | none => none
  | some (_, ctx, out) => if ctx.input.endedAtEndOfStream then some out else none

end

end Protoc.Parse
