import Protoc.Io.EpsCopyOutput
import Protoc.Io.InputStreams
import Protoc.Lib.LengthPrefixed

/-!
# Writing a message from events

`ProtoWriter` takes an object as a sequence of events, and writes the message.  The
sub-messages are written without their lengths at first; when the root object ends,
`WriteRootMessage` puts the lengths in.

The types of the message come from a `TypeInfo`.  What is wrong with the events is told to a
listener, with the element where it happened.
-/

namespace Protoc.Util.Converter

open Protoc.Io Protoc.Lib

abbrev Text := List UInt8

def text (s : String) : Text := s.toUTF8.toList

/-! ## The types of a message -/

/-- `Field::Kind`, of a field whose kind is known. -/
inductive Kind
  | double | float | int64 | uint64 | int32 | fixed64 | fixed32 | bool | string
  | group | message | bytes | uint32 | enum | sfixed32 | sfixed64 | sint32 | sint64
  deriving DecidableEq

/-- `Field_Kind_Name`. -/
def Kind.name : Kind → Text
  | .double => text "TYPE_DOUBLE"
  | .float => text "TYPE_FLOAT"
  | .int64 => text "TYPE_INT64"
  | .uint64 => text "TYPE_UINT64"
  | .int32 => text "TYPE_INT32"
  | .fixed64 => text "TYPE_FIXED64"
  | .fixed32 => text "TYPE_FIXED32"
  | .bool => text "TYPE_BOOL"
  | .string => text "TYPE_STRING"
  | .group => text "TYPE_GROUP"
  | .message => text "TYPE_MESSAGE"
  | .bytes => text "TYPE_BYTES"
  | .uint32 => text "TYPE_UINT32"
  | .enum => text "TYPE_ENUM"
  | .sfixed32 => text "TYPE_SFIXED32"
  | .sfixed64 => text "TYPE_SFIXED64"
  | .sint32 => text "TYPE_SINT32"
  | .sint64 => text "TYPE_SINT64"

/-- `Field::Cardinality`. -/
inductive Cardinality
  | unknown | optional | required | repeated
  deriving DecidableEq

/-- `google::protobuf::Syntax`. -/
inductive TypeSyntax
  | proto2 | proto3
  deriving DecidableEq

/-- `google::protobuf::Field`.  The index of a oneof counts from 1. -/
structure Field where
  kind : Kind
  cardinality : Cardinality
  number : Int32
  name : Text
  typeUrl : Text
  oneofIndex : ℤ
  jsonName : Text
  deriving DecidableEq

/-- `google::protobuf::Type`. -/
structure MessageType where
  name : Text
  fields : List Field
  oneofs : List Text
  typeSyntax : TypeSyntax
  deriving DecidableEq

/-- `google::protobuf::Enum`. -/
structure EnumType where
  name : Text
  values : List (Text × Int32)
  deriving DecidableEq

/-- `TypeInfo`. -/
structure TypeInfo where
  getTypeByTypeUrl : Text → Option MessageType
  getEnumByTypeUrl : Text → Option EnumType
  findField : MessageType → Text → Option Field

/-- A `DataPiece`, by what it is converted to; a conversion that fails gives the message of its
status.  A `double` and a `float` are given by their bits.  `toEnum` also tells whether the
value is unknown. -/
structure DataPiece where
  toInt32 : Except Text Int32
  toUint32 : Except Text UInt32
  toInt64 : Except Text Int64
  toUint64 : Except Text UInt64
  toDouble : Except Text UInt64
  toFloat : Except Text UInt32
  toBool : Except Text Bool
  toBytes : Except Text (List UInt8)
  toString : Except Text (List UInt8)
  toEnum : Option EnumType → (useLowerCamelForEnums caseInsensitiveEnumParsing
    ignoreUnknownEnumValues : Bool) → Except Text Int32 × Bool
  valueAsStringOrDefault : Text → Text

/-! ## The wire format -/

/-- `WireFormatLite::WireType`. -/
inductive WireType
  | varint | fixed64 | lengthDelimited | startGroup | endGroup | fixed32
  deriving DecidableEq

def WireType.toUInt32 : WireType → UInt32
  | .varint => 0
  | .fixed64 => 1
  | .lengthDelimited => 2
  | .startGroup => 3
  | .endGroup => 4
  | .fixed32 => 5

/-- `WireTypeForFieldType`. -/
def wireTypeForFieldType : Kind → WireType
  | .double => .fixed64
  | .float => .fixed32
  | .int64 => .varint
  | .uint64 => .varint
  | .int32 => .varint
  | .fixed64 => .fixed64
  | .fixed32 => .fixed32
  | .bool => .varint
  | .string => .lengthDelimited
  | .group => .startGroup
  | .message => .lengthDelimited
  | .bytes => .lengthDelimited
  | .uint32 => .varint
  | .enum => .varint
  | .sfixed32 => .fixed32
  | .sfixed64 => .fixed64
  | .sint32 => .varint
  | .sint64 => .varint

/-- `MakeTag`. -/
def makeTag (fieldNumber : Int32) (wireType : WireType) : UInt32 :=
  fieldNumber.toUInt32 <<< 3 ||| wireType.toUInt32

/-- `WriteTag`: the bytes it writes. -/
def tagBytes (fieldNumber : Int32) (wireType : WireType) : List UInt8 :=
  writeTagToArray (makeTag fieldNumber wireType)

/-- `ZigZagEncode32`. -/
def zigZagEncode32 (n : Int32) : UInt32 := n.toUInt32 <<< 1 ^^^ (n >>> 31).toUInt32

/-- `ZigZagEncode64`. -/
def zigZagEncode64 (n : Int64) : UInt64 := n.toUInt64 <<< 1 ^^^ (n >>> 63).toUInt64

namespace WireFormatLite

def writeInt32 (fieldNumber value : Int32) : List UInt8 :=
  tagBytes fieldNumber .varint ++ writeVarint64ToArray value.toInt64.toUInt64

def writeInt64 (fieldNumber : Int32) (value : Int64) : List UInt8 :=
  tagBytes fieldNumber .varint ++ writeVarint64ToArray value.toUInt64

def writeUInt32 (fieldNumber : Int32) (value : UInt32) : List UInt8 :=
  tagBytes fieldNumber .varint ++ writeVarint32ToArray value

def writeUInt64 (fieldNumber : Int32) (value : UInt64) : List UInt8 :=
  tagBytes fieldNumber .varint ++ writeVarint64ToArray value

def writeSInt32 (fieldNumber value : Int32) : List UInt8 :=
  tagBytes fieldNumber .varint ++ writeVarint32ToArray (zigZagEncode32 value)

def writeSInt64 (fieldNumber : Int32) (value : Int64) : List UInt8 :=
  tagBytes fieldNumber .varint ++ writeVarint64ToArray (zigZagEncode64 value)

def writeFixed32 (fieldNumber : Int32) (value : UInt32) : List UInt8 :=
  tagBytes fieldNumber .fixed32 ++ writeLittleEndian32ToArray value

def writeFixed64 (fieldNumber : Int32) (value : UInt64) : List UInt8 :=
  tagBytes fieldNumber .fixed64 ++ writeLittleEndian64ToArray value

def writeSFixed32 (fieldNumber value : Int32) : List UInt8 :=
  tagBytes fieldNumber .fixed32 ++ writeLittleEndian32ToArray value.toUInt32

def writeSFixed64 (fieldNumber : Int32) (value : Int64) : List UInt8 :=
  tagBytes fieldNumber .fixed64 ++ writeLittleEndian64ToArray value.toUInt64

def writeFloat (fieldNumber : Int32) (value : UInt32) : List UInt8 :=
  tagBytes fieldNumber .fixed32 ++ writeLittleEndian32ToArray value

def writeDouble (fieldNumber : Int32) (value : UInt64) : List UInt8 :=
  tagBytes fieldNumber .fixed64 ++ writeLittleEndian64ToArray value

def writeBool (fieldNumber : Int32) (value : Bool) : List UInt8 :=
  tagBytes fieldNumber .varint ++ writeVarint32ToArray (if value then 1 else 0)

def writeEnum (fieldNumber value : Int32) : List UInt8 :=
  tagBytes fieldNumber .varint ++ writeVarint64ToArray value.toInt64.toUInt64

def writeString (fieldNumber : Int32) (value : List UInt8) : List UInt8 :=
  tagBytes fieldNumber .lengthDelimited ++ (writeVarint32ToArray (.ofNat value.length) ++ value)

def writeBytes (fieldNumber : Int32) (value : List UInt8) : List UInt8 :=
  tagBytes fieldNumber .lengthDelimited ++ (writeVarint32ToArray (.ofNat value.length) ++ value)

end WireFormatLite

/-! ## The state -/

/-- The options of a `ProtoWriter`. -/
structure Options where
  ignoreUnknownFields : Bool
  ignoreUnknownEnumValues : Bool
  useLowerCamelForEnums : Bool
  caseInsensitiveEnumParsing : Bool
  useJsonNameInMissingFields : Bool
  deriving DecidableEq

/-- `ProtoElement`.  A set of pointers to fields is a list of them. -/
structure ProtoElement where
  parentField : Option Field
  type : MessageType
  requiredFields : List Field
  sizeIndex : Option ℕ
  arrayIndex : ℤ
  oneofIndices : List Bool
  deriving DecidableEq

/-- A call of the `ErrorListener`.  The location is an element with those around it, or none. -/
inductive ErrorCall
  | invalidName (location : List ProtoElement) (unknownName message : Text)
  | invalidValue (location : List ProtoElement) (typeName value : Text)
  | missingField (location : List ProtoElement) (missingName : Text)
  deriving DecidableEq

structure SizeInfo where
  pos : ℤ
  size : ℤ
  deriving DecidableEq

/-- `ProtoWriter`.  The elements are those around the current one, which is first; `buffer`
holds what was written to the stream, which began at `startCount`; `errors` is what the
listener was told. -/
structure ProtoWriter where
  masterType : MessageType
  typeinfo : TypeInfo
  options : Options
  done : Bool
  element : List ProtoElement
  sizeInsert : List SizeInfo
  output : List UInt8
  buffer : List UInt8
  startCount : ℕ
  errors : List ErrorCall
  invalidDepth : ℕ

/-- A conversion to `uint32`. -/
def toUInt32 (n : ℤ) : UInt32 := .ofNat (n % 2 ^ 32).toNat

/-- `VarintSize32`. -/
def varintSize32 (value : UInt32) : ℕ := ((value ||| 1).toNat.log2 * 9 + 73) / 64

/-- `GetRequiredFields`. -/
def getRequiredFields (type : MessageType) : List Field :=
  type.fields.filter (·.cardinality = .required)

def isRepeated (field : Field) : Bool := field.cardinality = .repeated

namespace ProtoElement

def proto3 (e : ProtoElement) : Bool := e.type.typeSyntax = .proto3

/-- The constructor for the root element. -/
def root (type : MessageType) : ProtoElement where
  parentField := none
  type := type
  requiredFields := if type.typeSyntax = .proto3 then [] else getRequiredFields type
  sizeIndex := none
  arrayIndex := -1
  oneofIndices := List.replicate (type.oneofs.length + 1) false

def registerField (e : ProtoElement) (field : Field) : ProtoElement :=
  if e.requiredFields ≠ [] ∧ field.cardinality = .required then
    { e with requiredFields := e.requiredFields.filter (· ≠ field) }
  else e

def isOneofIndexTaken (e : ProtoElement) (index : ℤ) : Bool := e.oneofIndices.getD index.toNat false

def takeOneofIndex (e : ProtoElement) (index : ℤ) : ProtoElement :=
  { e with oneofIndices := e.oneofIndices.set index.toNat true }

end ProtoElement

def SizeInfo.grow (n : ℤ) (info : SizeInfo) : SizeInfo := { info with size := info.size + n }

def openSizes (elements : List ProtoElement) : List ℕ := elements.filterMap ProtoElement.sizeIndex

namespace ProtoWriter

/-- The constructor. -/
def new (typeinfo : TypeInfo) (masterType : MessageType) (options : Options) : ProtoWriter where
  masterType := masterType
  typeinfo := typeinfo
  options := options
  done := false
  element := []
  sizeInsert := []
  output := []
  buffer := []
  startCount := 0
  errors := []
  invalidDepth := 0

/-- `stream_->ByteCount()`. -/
def byteCount (w : ProtoWriter) : ℤ := toInt32 (w.buffer.length - w.startCount)

def write (w : ProtoWriter) (bytes : List UInt8) : ProtoWriter :=
  { w with buffer := w.buffer ++ bytes }

def invalidName (w : ProtoWriter) (unknownName message : Text) : ProtoWriter :=
  { w with errors := w.errors ++ [.invalidName w.element unknownName message] }

def invalidValue (w : ProtoWriter) (typeName value : Text) : ProtoWriter :=
  { w with errors := w.errors ++ [.invalidValue w.element typeName value] }

def missingField (w : ProtoWriter) (missingName : Text) : ProtoWriter :=
  { w with errors := w.errors ++ [.missingField w.element missingName] }

def incrementInvalidDepth (w : ProtoWriter) : ProtoWriter :=
  { w with invalidDepth := w.invalidDepth + 1 }

def decrementInvalidDepth (w : ProtoWriter) : ProtoWriter :=
  { w with invalidDepth := w.invalidDepth - 1 }

/-! ## The elements -/

/-- What the constructor of an element changes in the parent. -/
def updateParent (parent : ProtoElement) (field : Field) (type : MessageType) (isList : Bool) : ProtoElement :=
  if isList then parent
  else if isRepeated field then
    if 0 ≤ parent.arrayIndex then { parent with arrayIndex := parent.arrayIndex + 1 } else parent
  else if type.typeSyntax = .proto3 then parent
  else parent.registerField field

/-- The constructor for a field of the current element.  A message has its size noted. -/
def pushElement (w : ProtoWriter) (field : Field) (type : MessageType) (isList : Bool) : ProtoWriter :=
  match w.element with
  | [] => w
  | parent :: rest =>
    let parent := updateParent parent field type isList
    let e : ProtoElement :=
      { parentField := some field
        type := type
        requiredFields := []
        sizeIndex := none
        arrayIndex := if isList then 0 else -1
        oneofIndices := List.replicate (type.oneofs.length + 1) false }
    if isList = false ∧ field.kind = .message then
      let e := { e with
        requiredFields := if type.typeSyntax = .proto3 then [] else getRequiredFields type
        sizeIndex := some w.sizeInsert.length }
      { w with
        element := e :: parent :: rest
        sizeInsert := w.sizeInsert ++ [⟨w.byteCount, -w.byteCount⟩] }
    else { w with element := e :: parent :: rest }

def missingFields (w : ProtoWriter) (fields : List Field) : ProtoWriter :=
  fields.foldl (fun w field =>
    w.missingField (if w.options.useJsonNameInMissingFields then field.jsonName else field.name)) w

/-- The size of the message that ends is known, and its length adds to those around it. -/
def closeSize (w : ProtoWriter) (index : ℕ) (around : List ProtoElement) : List SizeInfo :=
  let sizeInsert := w.sizeInsert.modify index (.grow w.byteCount)
  let size := (sizeInsert[index]?.map SizeInfo.size).getD 0
  modifyAll (.grow (varintSize32 (toUInt32 size))) (openSizes around) sizeInsert

/-- `pop`, of the current element. -/
def pop (w : ProtoWriter) : ProtoWriter :=
  match w.element with
  | [] => w
  | e :: rest =>
    let w := if e.proto3 then w else w.missingFields e.requiredFields
    match e.sizeIndex with
    | none => { w with element := rest }
    | some index => { w with element := rest, sizeInsert := w.closeSize index rest }

/-! ## The fields -/

/-- `Lookup`. -/
def lookup (w : ProtoWriter) (unnormalizedName : Text) : Option Field × ProtoWriter :=
  match w.element with
  | [] => (none, w.invalidName unnormalizedName (text "Root element must be a message."))
  | e :: _ =>
    if unnormalizedName = [] then
      match e.parentField with
      | none => (none, w.invalidName unnormalizedName (text "Proto fields must have a name."))
      | some field =>
        if isRepeated field then (some field, w)
        else (none, w.invalidName unnormalizedName (text "Proto fields must have a name."))
    else
      match w.typeinfo.findField e.type unnormalizedName with
      | none =>
        if w.options.ignoreUnknownFields then (none, w)
        else (none, w.invalidName unnormalizedName (text "Cannot find field."))
      | some field => (some field, w)

/-- `LookupType`, for a field of a message of the type. -/
def lookupType (typeinfo : TypeInfo) (type : MessageType) (field : Field) : Option MessageType :=
  if field.kind = .message ∨ field.kind = .group then typeinfo.getTypeByTypeUrl field.typeUrl
  else some type

/-- `ValidOneof`. -/
def validOneof (w : ProtoWriter) (field : Field) (unnormalizedName : Text) : Bool × ProtoWriter :=
  match w.element with
  | [] => (true, w)
  | e :: rest =>
    if 0 < field.oneofIndex then
      if e.isOneofIndexTaken field.oneofIndex then
        (false, w.invalidValue (text "oneof")
          (text "oneof field '" ++ e.type.oneofs.getD (field.oneofIndex - 1).toNat [] ++
            text "' is already set. Cannot set '" ++ unnormalizedName ++ text "'"))
      else (true, { w with element := e.takeOneofIndex field.oneofIndex :: rest })
    else (true, w)

/-- `BeginNamed`. -/
def beginNamed (w : ProtoWriter) (name : Text) (isList : Bool) : Option Field × ProtoWriter :=
  if 0 < w.invalidDepth then (none, w.incrementInvalidDepth)
  else
    match w.lookup name with
    | (none, w) => (none, w.incrementInvalidDepth)
    | (some field, w) =>
      if isList ∧ isRepeated field = false then
        (none, w.incrementInvalidDepth.invalidName name
          (text "Proto field is not repeating, cannot start list."))
      else (some field, w)

def missingDescriptor (field : Field) : Text :=
  text "Missing descriptor for field: " ++ field.typeUrl

/-- `StartObjectField` and `StartListField`. -/
def startField (w : ProtoWriter) (field : Field) (type : MessageType) (isList : Bool) : ProtoWriter :=
  if isList then w.pushElement field type true
  else
    (w.write (tagBytes field.number (wireTypeForFieldType field.kind))).pushElement field type false

/-- What `StartObject` and `StartList` do inside the root. -/
def start (w : ProtoWriter) (name : Text) (isList : Bool) : ProtoWriter :=
  match w.beginNamed name isList with
  | (none, w) => w
  | (some field, w) =>
    match w.validOneof field name with
    | (false, w) => w.incrementInvalidDepth
    | (true, w) =>
      match w.element.head?.bind fun e => lookupType w.typeinfo e.type field with
      | none => w.incrementInvalidDepth.invalidName name (missingDescriptor field)
      | some type => w.startField field type isList

/-! ## The values -/

section
variable (typeinfo : TypeInfo) (options : Options) (field : Field) (data : DataPiece)

/-- `WriteEnum`: the bytes it writes, or the message of the status. -/
def writeEnum : Except Text (List UInt8) :=
  let e := data.toEnum (typeinfo.getEnumByTypeUrl field.typeUrl) options.useLowerCamelForEnums
    options.caseInsensitiveEnumParsing options.ignoreUnknownEnumValues
  e.1.map fun value => if e.2 then [] else WireFormatLite.writeEnum field.number value

/-- The `switch` of `RenderPrimitiveField`, with `WriteInt32` and the like: the value is
converted, and written if that went well. -/
def writeValue : Except Text (List UInt8) :=
  match field.kind with
  | .int32 => data.toInt32.map (WireFormatLite.writeInt32 field.number)
  | .sfixed32 => data.toInt32.map (WireFormatLite.writeSFixed32 field.number)
  | .sint32 => data.toInt32.map (WireFormatLite.writeSInt32 field.number)
  | .fixed32 => data.toUint32.map (WireFormatLite.writeFixed32 field.number)
  | .uint32 => data.toUint32.map (WireFormatLite.writeUInt32 field.number)
  | .int64 => data.toInt64.map (WireFormatLite.writeInt64 field.number)
  | .sfixed64 => data.toInt64.map (WireFormatLite.writeSFixed64 field.number)
  | .sint64 => data.toInt64.map (WireFormatLite.writeSInt64 field.number)
  | .fixed64 => data.toUint64.map (WireFormatLite.writeFixed64 field.number)
  | .uint64 => data.toUint64.map (WireFormatLite.writeUInt64 field.number)
  | .double => data.toDouble.map (WireFormatLite.writeDouble field.number)
  | .float => data.toFloat.map (WireFormatLite.writeFloat field.number)
  | .bool => data.toBool.map (WireFormatLite.writeBool field.number)
  | .bytes => data.toBytes.map (WireFormatLite.writeBytes field.number)
  | .string => data.toString.map (WireFormatLite.writeString field.number)
  | .enum => writeEnum typeinfo options field data
  | .group | .message => .error (data.valueAsStringOrDefault [])

end

/-- `element_->proto3()`. -/
def proto3 (w : ProtoWriter) : Bool := w.element.head?.all ProtoElement.proto3

/-- `RenderPrimitiveField`.  An element is pushed for the required fields and for the location
of an error. -/
def renderPrimitiveField (w : ProtoWriter) (field : Field) (type : MessageType)
    (data : DataPiece) : ProtoWriter :=
  let w := if w.proto3 then w else w.pushElement field type false
  match writeValue w.typeinfo w.options field data with
  | .ok bytes =>
    let w := w.write bytes
    if w.proto3 then w else w.pop
  | .error message =>
    let w := if w.proto3 then w.pushElement field type false else w
    (w.invalidValue (if field.typeUrl = [] then field.kind.name else field.typeUrl) message).pop

/-- `RenderDataPiece`. -/
def renderDataPiece (w : ProtoWriter) (name : Text) (data : DataPiece) : ProtoWriter :=
  if 0 < w.invalidDepth then w
  else
    match w.lookup name with
    | (none, w) => w
    | (some field, w) =>
      match w.validOneof field name with
      | (false, w) => w
      | (true, w) =>
        match w.element.head?.bind fun e => lookupType w.typeinfo e.type field with
        | none => w.invalidName name (missingDescriptor field)
        | some type => w.renderPrimitiveField field type data

/-! ## The end of the root -/

/-- The loop of `WriteRootMessage`, at most `fuel` times: the sizes that are left, and the
output. -/
def writeLoop : (fuel : ℕ) → ArrayInputStream → (currPos : ℤ) → List SizeInfo → List UInt8 →
    List SizeInfo × List UInt8
  | 0, _, _, sizeInsert, output => (sizeInsert, output)
  | fuel + 1, inputStream, currPos, sizeInsert, output =>
    match inputStream.next with
    | (none, _) => (sizeInsert, output)
    | (some data, inputStream) =>
      if data.length = 0 then writeLoop fuel inputStream currPos sizeInsert output
      else
        let numBytes : ℤ :=
          match sizeInsert with
          | [] => data.length
          | info :: _ => min (info.pos - currPos) data.length
        let output := output ++ data.take numBytes.toNat
        let backedUp :=
          if numBytes < data.length then inputStream.backUp (data.length - numBytes).toNat
          else some inputStream
        match backedUp, sizeInsert with
        | none, _ => (sizeInsert, output)
        | some inputStream, [] => writeLoop fuel inputStream (currPos + numBytes) [] output
        | some inputStream, info :: rest =>
          if currPos + numBytes = info.pos then
            writeLoop fuel inputStream (currPos + numBytes) rest
              (output ++ writeVarint32ToArray (toUInt32 info.size))
          else writeLoop fuel inputStream (currPos + numBytes) sizeInsert output

/-- `WriteRootMessage`.  Each turn of the loop but the last two puts in a length. -/
def writeRootMessage (w : ProtoWriter) : ProtoWriter :=
  let r := writeLoop (w.sizeInsert.length + 2) (.new w.buffer (-1)) 0 w.sizeInsert w.output
  { w with
    sizeInsert := r.1
    output := r.2
    startCount := w.buffer.length
    done := true }

/-! ## The events -/

/-- `StartObject`; the first one starts the root. -/
def startObject (w : ProtoWriter) (name : Text) : ProtoWriter :=
  if w.element = [] then
    let w := if name = [] then w
      else w.invalidName name (text "Root element should not be named.")
    { w with element := [.root w.masterType] }
  else w.start name false

/-- `EndObject`. -/
def endObject (w : ProtoWriter) : ProtoWriter :=
  if 0 < w.invalidDepth then w.decrementInvalidDepth
  else if w.pop.element = [] then w.pop.writeRootMessage
  else w.pop

/-- `StartList`. -/
def startList (w : ProtoWriter) (name : Text) : ProtoWriter := w.start name true

/-- `EndList`. -/
def endList (w : ProtoWriter) : ProtoWriter :=
  if 0 < w.invalidDepth then w.decrementInvalidDepth else w.pop

end ProtoWriter

/-- An event. -/
inductive Event
  | startObject (name : Text)
  | endObject
  | startList (name : Text)
  | endList
  | renderDataPiece (name : Text) (data : DataPiece)

namespace ProtoWriter

def perform (w : ProtoWriter) : Event → ProtoWriter
  | .startObject name => w.startObject name
  | .endObject => w.endObject
  | .startList name => w.startList name
  | .endList => w.endList
  | .renderDataPiece name data => w.renderDataPiece name data

def performAll (w : ProtoWriter) (events : List Event) : ProtoWriter := events.foldl perform w

end ProtoWriter

/-- A sequence of events that is well nested, of values, objects and lists. -/
inductive Nested
  | nil
  | renderDataPiece (name : Text) (data : DataPiece) (rest : Nested)
  | object (name : Text) (inside rest : Nested)
  | list (name : Text) (inside rest : Nested)

/-- The events, in their order. -/
def Nested.events : Nested → List Event
  | nil => []
  | renderDataPiece name data rest => .renderDataPiece name data :: rest.events
  | object name inside rest => .startObject name :: (inside.events ++ .endObject :: rest.events)
  | list name inside rest => .startList name :: (inside.events ++ .endList :: rest.events)

end Protoc.Util.Converter
