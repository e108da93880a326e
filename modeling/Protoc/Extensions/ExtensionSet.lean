import Protoc.Lib.Recursion
import Protoc.Lib.Ring
import Protoc.Lib.SortedMap

/-!
# Extension sets

An `ExtensionSet` keeps its extensions in an array that is sorted by number, and in a map from
the time on when the array would have to be larger than 256.  Size and capacity are 16 bits
wide.  The sets all live on the heap, or on one arena.

No extension is lazy: nothing under this name is implemented.
-/

namespace Protoc.Extensions

open Protoc.Lib
open Protoc.Lib.Ring (blit)
open Protoc.Lib.Sorted Prod

abbrev Str : Type := List UInt8

/-- What messages provide. -/
class MessageLite (Message : Type) where
  /-- `New`: an empty message of the same type. -/
  new : Message → Message
  /-- `Clear`. -/
  clear : Message → Message
  /-- `CheckTypeAndMergeFrom`, the message that is merged into first. -/
  mergeFrom : Message → Message → Message

/-! ## One extension -/

/-- The member of the union that the type of an extension selects.  The eight scalar types hold
their bits. -/
inductive Value (Message : Type) where
  | scalar (bits : UInt64)
  | string (value : Str)
  | message (value : Message)
  | repeatedScalar (values : List UInt64)
  | repeatedString (values : List Str)
  | repeatedMessage (values : List Message)

/-- `Extension`. -/
structure Extension (Message : Type) where
  /-- The union. -/
  value : Value Message
  /-- `type`. -/
  type : UInt8
  /-- `is_repeated`. -/
  isRepeated : Bool
  /-- `is_cleared`. -/
  isCleared : Bool
  /-- `is_packed`. -/
  isPacked : Bool
  /-- `descriptor`. -/
  descriptor : Option ℕ

variable {Message : Type}

/-- `Extension()`. -/
def Extension.zero : Extension Message := ⟨.scalar 0, 0, false, false, false, none⟩

namespace Value

/-- `Clear` of a repeated field. -/
def clearRepeated : Value Message → Value Message
  | .repeatedScalar _ => .repeatedScalar []
  | .repeatedString _ => .repeatedString []
  | .repeatedMessage _ => .repeatedMessage []
  | value => value

variable [MessageLite Message]

/-- What clearing a singular extension does to its value. -/
def clearSingular : Value Message → Value Message
  | .string _ => .string []
  | .message value => .message (MessageLite.clear value)
  | value => value

/-- `MergeFrom` of a repeated field.  The messages are merged into new or cleared ones. -/
def mergeRepeated : Value Message → Value Message → Value Message
  | .repeatedScalar values, .repeatedScalar others => .repeatedScalar (values ++ others)
  | .repeatedString values, .repeatedString others => .repeatedString (values ++ others)
  | .repeatedMessage values, .repeatedMessage others =>
    .repeatedMessage (values ++ others.map fun other =>
      MessageLite.mergeFrom (MessageLite.new other) other)
  | value, _ => value

end Value

/-- `Extension::Clear`. -/
def Extension.clear [MessageLite Message] (extension : Extension Message) : Extension Message :=
  if extension.isRepeated then { extension with value := extension.value.clearRepeated }
  else if extension.isCleared then extension
  else { extension with value := extension.value.clearSingular, isCleared := true }

/-- What a setter writes into the extension that `MaybeNewExtension` gives it. -/
inductive Write (Message : Type) where
  /-- `SetInt32` to `SetBool`, and `SetEnum`. -/
  | setScalar (type : UInt8) (value : UInt64)
  /-- `AddInt32` to `AddBool`, and `AddEnum`. -/
  | addScalar (type : UInt8) (packed : Bool) (value : UInt64)
  /-- `SetString`. -/
  | setString (type : UInt8) (value : Str)
  /-- `AddString`. -/
  | addString (type : UInt8) (value : Str)
  /-- `MutableMessage`, and what the caller does to the message. -/
  | mutableMessage (type : UInt8) (prototype : Message) (edit : Message → Message)
  /-- `AddMessage`, and what the caller does to the message. -/
  | addMessage (type : UInt8) (prototype : Message) (edit : Message → Message)

namespace Write
variable [MessageLite Message]

/-- What the setters do to an extension.  Where it is not new, its type is the one of the setter
(`GOOGLE_DCHECK_TYPE`). -/
def apply (isNew : Bool) (extension : Extension Message) : Write Message → Extension Message
  | .setScalar type value =>
    let extension := if isNew then { extension with type, isRepeated := false } else extension
    { extension with isCleared := false, value := .scalar value }
  | .addScalar type packed value =>
    let extension := if isNew then
        { extension with type, isRepeated := true, isPacked := packed, value := .repeatedScalar [] }
      else extension
    { extension with value := extension.value.mergeRepeated (.repeatedScalar [value]) }
  | .setString type value =>
    let extension := if isNew then { extension with type, isRepeated := false } else extension
    { extension with isCleared := false, value := .string value }
  | .addString type value =>
    let extension := if isNew then
        { extension with type, isRepeated := true, isPacked := false, value := .repeatedString [] }
      else extension
    { extension with value := extension.value.mergeRepeated (.repeatedString [value]) }
  | .mutableMessage type prototype edit =>
    let extension := if isNew then
        { extension with type, isRepeated := false, value := .message (MessageLite.new prototype) }
      else extension
    let value := match extension.value with
      | .message message => .message (edit message)
      | value => value
    { extension with isCleared := false, value := value }
  | .addMessage type prototype edit =>
    let extension := if isNew then
        { extension with type, isRepeated := true, value := .repeatedMessage [] }
      else extension
    let value := match extension.value with
      | .repeatedMessage messages => .repeatedMessage (messages ++ [edit (MessageLite.new prototype)])
      | value => value
    { extension with value := value }

end Write

/-- What `InternalExtensionMergeFrom` writes for a repeated extension. -/
def mergeRepeatedExtension [MessageLite Message] (other : Extension Message) (isNew : Bool)
    (extension : Extension Message) : Extension Message :=
  let extension := if isNew then
      { extension with
        type := other.type, isPacked := other.isPacked, isRepeated := true,
        value := other.value.clearRepeated }
    else extension
  { extension with value := extension.value.mergeRepeated other.value }

/-- What `InternalExtensionMergeFrom` writes for a message. -/
def mergeMessageExtension [MessageLite Message] (other : Extension Message) (message : Message)
    (isNew : Bool) (extension : Extension Message) : Extension Message :=
  let extension := if isNew then
      { extension with
        type := other.type, isPacked := other.isPacked, isRepeated := false,
        value := .message (MessageLite.mergeFrom (MessageLite.new message) message) }
    else
      let value := match extension.value with
        | .message target => .message (MessageLite.mergeFrom target message)
        | value => value
      { extension with value := value }
  { extension with isCleared := false }

/-! ## The set -/

/-- `KeyValue`: a number and its extension. -/
abbrev KeyValue (Message : Type) : Type := ℤ × Extension Message

/-- `AllocatedData`: the array of `KeyValue`, or the `LargeMap`, a `std::map`. -/
inductive AllocatedData (Message : Type) where
  | flat (array : List (KeyValue Message))
  | large (map : List (KeyValue Message))

/-- `ExtensionSet`. -/
structure ExtensionSet (Message : Type) where
  /-- `flat_capacity_`. -/
  flatCapacity : ℕ
  /-- `flat_size_`. -/
  flatSize : ℕ
  /-- `map_`. -/
  map : AllocatedData Message

/-- `kMaximumFlatCapacity`. -/
def kMaximumFlatCapacity : ℕ := 256

/-- What a `uint16` holds. -/
def uint16 (n : ℕ) : ℕ := n % 65536

/-- An array whose elements from `first` to `last` are moved to `dest` on, `std::copy` or
`std::copy_backward`, whichever is right for the direction. -/
def moveRange {α : Type} (array : List α) (first last dest : ℕ) : List α :=
  blit array dest ((array.take last).drop first)

namespace ExtensionSet

/-- `ExtensionSet()`. -/
def new : ExtensionSet Message := ⟨0, 0, .flat []⟩

/-- `is_large`. -/
def isLarge (s : ExtensionSet Message) : Bool := decide (s.flatCapacity > kMaximumFlatCapacity)

/-- The array, where `map_` is one. -/
def flatArray (s : ExtensionSet Message) : List (KeyValue Message) :=
  match s.map with
  | .flat array => array
  | .large _ => []

/-- The map, where `map_` is one. -/
def largeMap (s : ExtensionSet Message) : List (KeyValue Message) :=
  match s.map with
  | .flat _ => []
  | .large map => map

/-- The elements from `flat_begin` to `flat_end`. -/
def flatEntries (s : ExtensionSet Message) : List (KeyValue Message) := s.flatArray.take s.flatSize

/-- What `ForEach` goes through, in order. -/
def forEach (s : ExtensionSet Message) : List (KeyValue Message) :=
  if s.isLarge then s.largeMap else s.flatEntries

/-- `FindOrNull`. -/
def findOrNull (s : ExtensionSet Message) (key : ℤ) : Option (Extension Message) :=
  if s.isLarge then (find fst s.largeMap key).map snd
  else
    let it := lowerBound fst s.flatEntries key
    match s.flatEntries[it]? with
    | some element => if element.1 = key then some element.2 else none
    | none => none

/-- The extension behind a pointer into the set is changed; the pointer is the position. -/
def modify (s : ExtensionSet Message) (position : ℕ) (change : Extension Message → Extension Message) :
    ExtensionSet Message :=
  let changed (l : List (KeyValue Message)) : List (KeyValue Message) :=
    l.modify position fun element => (element.1, change element.2)
  match s.map with
  | .flat array => { s with map := .flat (changed array) }
  | .large map => { s with map := .large (changed map) }

/-- `new_flat_capacity` in the next round of the loop. -/
def nextCapacity (capacity : ℕ) : ℕ := uint16 (if capacity = 0 then 1 else capacity * 4)

/-- The loop of `GrowCapacity`: the new capacity, where the loop ends. -/
def newFlatCapacity (capacity minimumNewCapacity : ℕ) : Option ℕ :=
  doWhile nextCapacity (fun c => decide (c < minimumNewCapacity)) 65536 capacity

/-- `GrowCapacity`. -/
def growCapacity (s : ExtensionSet Message) (minimumNewCapacity : ℕ) : Option (ExtensionSet Message) :=
  if s.isLarge then some s
  else if s.flatCapacity ≥ minimumNewCapacity then some s
  else
    (newFlatCapacity s.flatCapacity minimumNewCapacity).map fun capacity =>
      let newMap :=
        if capacity > kMaximumFlatCapacity then
          .large (s.flatEntries.foldl (fun m e => (insertIfNotPresent fst e m).2) [])
        else .flat (blit (List.replicate capacity (0, Extension.zero)) 0 s.flatEntries)
      { s with flatCapacity := capacity, map := newMap }

/-- What `Insert` returns: a pointer, whether it is new, and the set. -/
structure Inserted (Message : Type) where
  /-- The pointer. -/
  position : ℕ
  /-- Whether the key was inserted. -/
  isNew : Bool
  /-- The set. -/
  set : ExtensionSet Message

/-- `Insert`, up to the call of `GrowCapacity`. -/
def insertInPlace (s : ExtensionSet Message) (key : ℤ) : Option (Inserted Message) :=
  if s.isLarge then
    let it := lowerBound fst s.largeMap key
    if (find fst s.largeMap key).isSome then some ⟨it, false, s⟩
    else some ⟨it, true, { s with map := .large (insertAt it (key, Extension.zero) s.largeMap) }⟩
  else
    let it := lowerBound fst s.flatEntries key
    if (find fst s.flatEntries key).isSome then some ⟨it, false, s⟩
    else if s.flatSize < s.flatCapacity then
      let array := moveRange s.flatArray it s.flatSize (it + 1)
      some ⟨it, true,
        { s with flatSize := uint16 (s.flatSize + 1), map := .flat (array.set it (key, Extension.zero)) }⟩
    else none

/-- `Insert`: after `GrowCapacity` the call of itself finds a place. -/
def insert (s : ExtensionSet Message) (key : ℤ) : Option (Inserted Message) :=
  match s.insertInPlace key with
  | some inserted => some inserted
  | none => (s.growCapacity (s.flatSize + 1)).bind fun grown => grown.insertInPlace key

/-- `MaybeNewExtension`. -/
def maybeNewExtension (s : ExtensionSet Message) (number : ℤ) (descriptor : Option ℕ) :
    Option (Inserted Message) :=
  (s.insert number).map fun inserted =>
    { inserted with set := inserted.set.modify inserted.position fun e => { e with descriptor } }

/-- A function that gets its extension from `MaybeNewExtension` and writes into it. -/
def edit (s : ExtensionSet Message) (number : ℤ) (descriptor : Option ℕ)
    (write : Bool → Extension Message → Extension Message) : Option (ExtensionSet Message) :=
  (s.maybeNewExtension number descriptor).map fun inserted =>
    inserted.set.modify inserted.position (write inserted.isNew)

/-- `Erase`. -/
def erase (s : ExtensionSet Message) (key : ℤ) : ExtensionSet Message :=
  if s.isLarge then
    if (find fst s.largeMap key).isSome then
      { s with map := .large (s.largeMap.eraseIdx (lowerBound fst s.largeMap key)) }
    else s
  else
    let it := lowerBound fst s.flatEntries key
    if (find fst s.flatEntries key).isSome then
      { s with
        flatSize := uint16 (s.flatSize + 65535),
        map := .flat (moveRange s.flatArray (it + 1) s.flatSize it) }
    else s

section Contents
variable [MessageLite Message]

def set (s : ExtensionSet Message) (number : ℤ) (descriptor : Option ℕ) (write : Write Message) :
    Option (ExtensionSet Message) :=
  s.edit number descriptor fun isNew extension => write.apply isNew extension

/-- `Clear`. -/
def clear (s : ExtensionSet Message) : ExtensionSet Message :=
  let cleared (l : List (KeyValue Message)) : List (KeyValue Message) := l.map fun e => (e.1, e.2.clear)
  if s.isLarge then { s with map := .large (cleared s.largeMap) }
  else { s with map := .flat (cleared s.flatEntries ++ s.flatArray.drop s.flatSize) }

/-- `InternalExtensionMergeFrom`. -/
def internalExtensionMergeFrom (s : ExtensionSet Message) (number : ℤ) (other : Extension Message) :
    Option (ExtensionSet Message) :=
  if other.isRepeated then s.edit number other.descriptor (mergeRepeatedExtension other)
  else if other.isCleared then some s
  else
    match other.value with
    | .scalar value => s.set number other.descriptor (.setScalar other.type value)
    | .string value => s.set number other.descriptor (.setString other.type value)
    | .message message => s.edit number other.descriptor (mergeMessageExtension other message)
    | _ => some s

/-- `SizeOfUnion`. -/
def sizeOfUnion : List (KeyValue Message) → List (KeyValue Message) → ℕ
  | [], ys => ys.length
  | xs, [] => xs.length
  | x :: xs, y :: ys =>
    if x.1 < y.1 then sizeOfUnion xs (y :: ys) + 1
    else if x.1 = y.1 then sizeOfUnion xs ys + 1
    else sizeOfUnion (x :: xs) ys + 1
termination_by xs ys => xs.length + ys.length

/-- The functor of `MergeFrom` for all the extensions of the other set. -/
def mergeExtensions (s : ExtensionSet Message) : List (KeyValue Message) → Option (ExtensionSet Message)
  | [] => some s
  | e :: others => (s.internalExtensionMergeFrom e.1 e.2).bind fun s => mergeExtensions s others

/-- `MergeFrom`. -/
def mergeFrom (s other : ExtensionSet Message) : Option (ExtensionSet Message) :=
  let grown :=
    if s.isLarge then some s
    else if other.isLarge then s.growCapacity (sizeOfUnion s.flatEntries other.largeMap)
    else s.growCapacity (sizeOfUnion s.flatEntries other.flatEntries)
  grown.bind fun s => s.mergeExtensions other.forEach

end Contents

/-- `SwapExtension`, for sets on one arena: the two sets. -/
def swapExtension (s other : ExtensionSet Message) (number : ℤ) :
    Option (ExtensionSet Message × ExtensionSet Message) :=
  match s.findOrNull number, other.findOrNull number with
  | none, none => some (s, other)
  | some thisExt, some otherExt =>
    some (s.modify (lowerBound fst s.forEach number) fun _ => otherExt,
      other.modify (lowerBound fst other.forEach number) fun _ => thisExt)
  | none, some otherExt => (s.insert number).map fun inserted =>
      (inserted.set.modify inserted.position fun _ => otherExt, other.erase number)
  | some thisExt, none => (other.insert number).map fun inserted =>
      (s.erase number, inserted.set.modify inserted.position fun _ => thisExt)

end ExtensionSet

/-! ## A family of sets -/

/-- The calls on the sets of a family. -/
inductive Op (ι Message : Type) where
  /-- A setter. -/
  | set (i : ι) (number : ℤ) (descriptor : Option ℕ) (write : Write Message)
  /-- `Erase`. -/
  | erase (i : ι) (number : ℤ)
  /-- `GrowCapacity`. -/
  | growCapacity (i : ι) (minimumNewCapacity : ℕ)
  /-- `MergeFrom`: a message is not merged into itself (`GOOGLE_DCHECK_NE(&from, this)`). -/
  | mergeFrom (i other : ι) (hne : i ≠ other)
  /-- `Clear`. -/
  | clear (i : ι)
  /-- `InternalSwap`. -/
  | internalSwap (i other : ι)
  /-- `SwapExtension`, which does nothing where both are one set. -/
  | swapExtension (i other : ι) (number : ℤ)

variable {ι : Type} [DecidableEq ι]

def exchange {α : Type} (w : ι → α) (i other : ι) : ι → α :=
  Function.update (Function.update w i (w other)) other (w i)

/-- One call. -/
def step [MessageLite Message] (w : ι → ExtensionSet Message) :
    Op ι Message → Option (ι → ExtensionSet Message)
  | .set i number descriptor write => ((w i).set number descriptor write).map (Function.update w i)
  | .erase i number => some (Function.update w i ((w i).erase number))
  | .growCapacity i minimumNewCapacity =>
    ((w i).growCapacity minimumNewCapacity).map (Function.update w i)
  | .mergeFrom i other _ => ((w i).mergeFrom (w other)).map (Function.update w i)
  | .clear i => some (Function.update w i (w i).clear)
  | .internalSwap i other => some (exchange w i other)
  | .swapExtension i other number =>
    if i = other then some w
    else ((w i).swapExtension (w other) number).map fun sets =>
      Function.update (Function.update w i sets.1) other sets.2

end Protoc.Extensions
