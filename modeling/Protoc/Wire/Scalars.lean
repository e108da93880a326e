import Protoc.Io.VarintCodec
import Protoc.Util.ProtoWriter

/-!
# The scalar types of the wire format

`WireFormatLite` reads the value of a scalar field from a coded input, writes it to an array
and counts its bytes.  Each of the fourteen types has its own reader, writer and size.
-/

namespace Protoc.Wire

open Protoc.Io Protoc.Util.Converter

/-- The types of a field that is no string and no message. -/
inductive ScalarType
  | double | float | int64 | uint64 | int32 | fixed64 | fixed32 | bool | uint32 | enum
  | sfixed32 | sfixed64 | sint32 | sint64
  deriving DecidableEq

/-- The C++ type of a value.  A `double` and a `float` are given by their bits, so that
`EncodeDouble`, `DecodeDouble` and their kin keep them as they are. -/
abbrev ScalarType.Value : ScalarType → Type
  | .double => UInt64
  | .float => UInt32
  | .int64 => Int64
  | .uint64 => UInt64
  | .int32 => Int32
  | .fixed64 => UInt64
  | .fixed32 => UInt32
  | .bool => Bool
  | .uint32 => UInt32
  | .enum => Int32
  | .sfixed32 => Int32
  | .sfixed64 => Int64
  | .sint32 => Int32
  | .sint64 => Int64

/-- `ZigZagDecode32`. -/
def zigZagDecode32 (n : UInt32) : Int32 := (n >>> 1 ^^^ (~~~(n &&& 1) + 1)).toInt32

/-- `ZigZagDecode64`. -/
def zigZagDecode64 (n : UInt64) : Int64 := (n >>> 1 ^^^ (~~~(n &&& 1) + 1)).toInt64

/-! ## Reading -/

/-- A varint is read to a temporary; when that fails the value is not written. -/
def readVarintVia {α : Type} (r : Bool × ℕ × CodedInputStream) (convert : ℕ → α) :
    Bool × Option α × CodedInputStream :=
  (r.1, if r.1 then some (convert r.2.1) else none, r.2.2)

/-- A varint is read to the value itself, which is written whether or not that fails. -/
def readVarintTo {α : Type} (r : Bool × ℕ × CodedInputStream) (convert : ℕ → α) :
    Bool × Option α × CodedInputStream :=
  (r.1, some (convert r.2.1), r.2.2)

/-- A number of fixed width is read; when that fails the value is not written. -/
def readFixed {α : Type} (r : Bool × Option ℕ × CodedInputStream) (convert : ℕ → α) :
    Bool × Option α × CodedInputStream :=
  (r.1, r.2.1.map convert, r.2.2)

/-- `ReadPrimitive`: whether it succeeded, and the value if it was written. -/
def readPrimitive : (type : ScalarType) → CodedInputStream → Bool × Option type.Value × CodedInputStream
  | .int32, input => readVarintVia input.readVarint32 fun temp => (UInt32.ofNat temp).toInt32
  | .int64, input => readVarintVia input.readVarint64 fun temp => (UInt64.ofNat temp).toInt64
  | .uint32, input => readVarintTo input.readVarint32 UInt32.ofNat
  | .uint64, input => readVarintTo input.readVarint64 UInt64.ofNat
  | .sint32, input => readVarintVia input.readVarint32 fun temp => zigZagDecode32 (.ofNat temp)
  | .sint64, input => readVarintVia input.readVarint64 fun temp => zigZagDecode64 (.ofNat temp)
  | .fixed32, input => readFixed input.readLittleEndian32 UInt32.ofNat
  | .fixed64, input => readFixed input.readLittleEndian64 UInt64.ofNat
  | .sfixed32, input => readFixed input.readLittleEndian32 fun temp => (UInt32.ofNat temp).toInt32
  | .sfixed64, input => readFixed input.readLittleEndian64 fun temp => (UInt64.ofNat temp).toInt64
  | .float, input => readFixed input.readLittleEndian32 UInt32.ofNat
  | .double, input => readFixed input.readLittleEndian64 UInt64.ofNat
  | .bool, input => readVarintVia input.readVarint64 fun temp => decide (temp ≠ 0)
  | .enum, input => readVarintVia input.readVarint32 fun temp => (UInt32.ofNat temp).toInt32

/-! ## Writing -/

/-- `WriteVarint32SignExtendedToArray`. -/
def writeVarint32SignExtendedToArray (value : Int32) : List UInt8 :=
  writeVarint64ToArray value.toInt64.toUInt64

def writeInt32NoTagToArray (value : Int32) : List UInt8 := writeVarint32SignExtendedToArray value

def writeInt64NoTagToArray (value : Int64) : List UInt8 := writeVarint64ToArray value.toUInt64

def writeUInt32NoTagToArray (value : UInt32) : List UInt8 := writeVarint32ToArray value

def writeUInt64NoTagToArray (value : UInt64) : List UInt8 := writeVarint64ToArray value

def writeSInt32NoTagToArray (value : Int32) : List UInt8 := writeVarint32ToArray (zigZagEncode32 value)

def writeSInt64NoTagToArray (value : Int64) : List UInt8 := writeVarint64ToArray (zigZagEncode64 value)

def writeFixed32NoTagToArray (value : UInt32) : List UInt8 := writeLittleEndian32ToArray value

def writeFixed64NoTagToArray (value : UInt64) : List UInt8 := writeLittleEndian64ToArray value

def writeSFixed32NoTagToArray (value : Int32) : List UInt8 := writeLittleEndian32ToArray value.toUInt32

def writeSFixed64NoTagToArray (value : Int64) : List UInt8 := writeLittleEndian64ToArray value.toUInt64

def writeFloatNoTagToArray (value : UInt32) : List UInt8 := writeLittleEndian32ToArray value

def writeDoubleNoTagToArray (value : UInt64) : List UInt8 := writeLittleEndian64ToArray value

def writeBoolNoTagToArray (value : Bool) : List UInt8 := writeVarint32ToArray (if value then 1 else 0)

def writeEnumNoTagToArray (value : Int32) : List UInt8 := writeVarint32SignExtendedToArray value

/-- The writer that goes with a type. -/
def writePrimitiveNoTagToArray : (type : ScalarType) → type.Value → List UInt8
  | .double => writeDoubleNoTagToArray
  | .float => writeFloatNoTagToArray
  | .int64 => writeInt64NoTagToArray
  | .uint64 => writeUInt64NoTagToArray
  | .int32 => writeInt32NoTagToArray
  | .fixed64 => writeFixed64NoTagToArray
  | .fixed32 => writeFixed32NoTagToArray
  | .bool => writeBoolNoTagToArray
  | .uint32 => writeUInt32NoTagToArray
  | .enum => writeEnumNoTagToArray
  | .sfixed32 => writeSFixed32NoTagToArray
  | .sfixed64 => writeSFixed64NoTagToArray
  | .sint32 => writeSInt32NoTagToArray
  | .sint64 => writeSInt64NoTagToArray

/-! ## Sizes -/

def kFixed32Size : ℕ := 4
def kFixed64Size : ℕ := 8
def kSFixed32Size : ℕ := 4
def kSFixed64Size : ℕ := 8
def kFloatSize : ℕ := 4
def kDoubleSize : ℕ := 8
def kBoolSize : ℕ := 1

/-- `VarintSize32SignExtended`. -/
def varintSize32SignExtended (value : Int32) : ℕ := if value < 0 then 10 else varintSize32 value.toUInt32

def int32Size (value : Int32) : ℕ := varintSize32SignExtended value

def int64Size (value : Int64) : ℕ := Io.varintSize64 value.toUInt64

def uInt32Size (value : UInt32) : ℕ := varintSize32 value

def uInt64Size (value : UInt64) : ℕ := Io.varintSize64 value

def sInt32Size (value : Int32) : ℕ := varintSize32 (zigZagEncode32 value)

def sInt64Size (value : Int64) : ℕ := Io.varintSize64 (zigZagEncode64 value)

def enumSize (value : Int32) : ℕ := varintSize32SignExtended value

/-- The size that goes with a type. -/
def primitiveSize : (type : ScalarType) → type.Value → ℕ
  | .double, _ => kDoubleSize
  | .float, _ => kFloatSize
  | .int64, value => int64Size value
  | .uint64, value => uInt64Size value
  | .int32, value => int32Size value
  | .fixed64, _ => kFixed64Size
  | .fixed32, _ => kFixed32Size
  | .bool, _ => kBoolSize
  | .uint32, value => uInt32Size value
  | .enum, value => enumSize value
  | .sfixed32, _ => kSFixed32Size
  | .sfixed64, _ => kSFixed64Size
  | .sint32, value => sInt32Size value
  | .sint64, value => sInt64Size value

/-! ## The sizes of an array -/

/-- The body of the loop of `VarintSize`, on `sum` and `msb_sum`. -/
def varintSizeStep (zigZag signExtended : Bool) (sums : UInt32 × UInt32) (x : UInt32) : UInt32 × UInt32 :=
  let msbSum := if !zigZag && signExtended then sums.2 + x >>> 31 else sums.2
  let x := if zigZag then zigZagEncode32 x.toInt32 else x
  let sum := if 0x7F < x then sums.1 + 1 else sums.1
  let sum := if 0x3FFF < x then sum + 1 else sum
  let sum := if 0x1FFFFF < x then sum + 1 else sum
  let sum := if 0xFFFFFFF < x then sum + 1 else sum
  (sum, msbSum)

/-- `VarintSize`.  The elements of the array are converted to `uint32`. -/
def varintSize {T : Type} (toUInt32 : T → UInt32) (zigZag signExtended : Bool) (data : List T) : ℕ :=
  let sums := (data.map toUInt32).foldl (varintSizeStep zigZag signExtended) (.ofNat data.length, 0)
  (if signExtended then sums.1 + sums.2 * 5 else sums.1).toNat

/-- The body of the loop of `VarintSize64`. -/
def varintSize64Step (zigZag : Bool) (sum x : UInt64) : UInt64 :=
  let x := if zigZag then zigZagEncode64 x.toInt64 else x
  let tmp : UInt64 := if (1 : UInt64) <<< 35 ≤ x then -1 else 0
  let sum := sum + (5 &&& tmp)
  let x := x >>> (35 &&& tmp)
  let sum := if 0x7F < x then sum + 1 else sum
  let sum := if 0x3FFF < x then sum + 1 else sum
  let sum := if 0x1FFFFF < x then sum + 1 else sum
  if 0xFFFFFFF < x then sum + 1 else sum

/-- `VarintSize64`.  The elements of the array are converted to `uint64`. -/
def varintSize64 {T : Type} (toUInt64 : T → UInt64) (zigZag : Bool) (data : List T) : ℕ :=
  ((data.map toUInt64).foldl (varintSize64Step zigZag) (.ofNat data.length)).toNat

end Protoc.Wire
