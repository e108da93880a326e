import Mathlib.Algebra.Group.Nat.Defs
import Protoc.Lib.Ownership
import Protoc.Lib.Slots

/-!
# Repeated fields of pointers

`RepeatedPtrFieldBase` on the heap.  A field is its array of pointers with two sizes; the
objects are in a heap that all fields share.  A result is `none` where the C++ has undefined
behaviour: a slot outside the array or not written yet, an object that is not live, an `int` that
overflows.
-/

namespace Protoc.Repeated

open Protoc.Lib
open Function (update)

/-! ## Elements -/

/-- What a field does with the content of its elements. -/
class TypeHandler (Element : Type) where
  newFromPrototype : Option Element → Element
  clear : Element → Element
  /-- The content after `Merge(from, to)`. -/
  merge : Element → Element → Element

/-- `StringTypeHandler`. -/
instance StringTypeHandler : TypeHandler String where
  newFromPrototype _ := ""
  clear _ := ""
  merge fromElement _ := fromElement

/-- Elements start out in the cleared state and return to it, and merging into it copies. -/
class LawfulTypeHandler (Element : Type) [TypeHandler Element] : Prop where
  newFromPrototype_eq (prototype : Option Element) :
    TypeHandler.newFromPrototype prototype = TypeHandler.newFromPrototype (none : Option Element)
  clear_eq (x : Element) : TypeHandler.clear x = TypeHandler.newFromPrototype none
  merge_new (x : Element) : TypeHandler.merge x (TypeHandler.newFromPrototype none) = x

instance : LawfulTypeHandler String where
  newFromPrototype_eq _ := rfl
  clear_eq _ := rfl
  merge_new _ := rfl

def cleared (Element : Type) [TypeHandler Element] : Element := TypeHandler.newFromPrototype none

/-! ## Sizes -/

/-- `std::numeric_limits<int>::max()` -/
def intMax : ℕ := 2 ^ 31 - 1

/-- `std::numeric_limits<size_t>::max()` -/
def sizeMax : ℕ := 2 ^ 64 - 1

/-- A sum or a product of sizes, which must be an `int`. -/
def toInt (n : ℕ) : Option ℕ := if n ≤ intMax then some n else none

def kRepeatedFieldLowerClampLimit : ℕ := 4

/-- The lowest size that overflows when multiplied by 2. -/
def kRepeatedFieldUpperClampLimit : ℕ := intMax / 2 + 1

/-- `offsetof(Rep, elements)` -/
def kRepHeaderSize : ℕ := 8

/-- `sizeof(old_rep->elements[0])` -/
def kElementSize : ℕ := 8

/-! ## The field -/

/-- The array of pointers, and how many of them are in use or kept for reuse. -/
structure Rep where
  allocatedSize : ℕ
  elements : ℕ → Option ℕ

/-- The members of the field, with `arena_` null. -/
structure RepeatedPtrFieldBase where
  currentSize : ℕ
  totalSize : ℕ
  rep : Option Rep

namespace RepeatedPtrFieldBase

/-- `RepeatedPtrFieldBase()` -/
def init : RepeatedPtrFieldBase := ⟨0, 0, none⟩

/-- `rep_->allocated_size`, or 0 where there is no array. -/
def allocatedSize (s : RepeatedPtrFieldBase) : ℕ := s.rep.elim 0 Rep.allocatedSize

/-- `rep_->elements[index]`, read. -/
def slot (s : RepeatedPtrFieldBase) (index : ℕ) : Option ℕ := s.rep.bind fun r => r.elements index

/-- `rep_->elements[index] = value` -/
def setSlot (s : RepeatedPtrFieldBase) (index value : ℕ) : Option RepeatedPtrFieldBase :=
  s.rep.bind fun r =>
    if index < s.totalSize then
      some { s with rep := some { r with elements := update r.elements index (some value) } }
    else none

/-- `rep_->allocated_size = n` -/
def setAllocated (s : RepeatedPtrFieldBase) (n : ℕ) : Option RepeatedPtrFieldBase :=
  s.rep.map fun r => { s with rep := some { r with allocatedSize := n } }

/-- `size()` -/
def size (s : RepeatedPtrFieldBase) : ℕ := s.currentSize

/-! ## Growth -/

/-- A new array with the allocated slots of the old one. -/
def replaceRep (s : RepeatedPtrFieldBase) (newSize : ℕ) : RepeatedPtrFieldBase :=
  { s with
    totalSize := newSize
    rep := some ⟨s.allocatedSize, fun i => if i < s.allocatedSize then s.slot i else none⟩ }

/-- `InternalExtend` -/
def internalExtend (s : RepeatedPtrFieldBase) (extendAmount : ℕ) : Option RepeatedPtrFieldBase := do
  let newSize ← toInt (s.currentSize + extendAmount)
  if newSize ≤ s.totalSize then some s
  else
    let doubled ← toInt (s.totalSize * 2)
    let newSize := max kRepeatedFieldLowerClampLimit (max doubled newSize)
    if newSize ≤ (sizeMax - kRepHeaderSize) / kElementSize then some (s.replaceRep newSize) else none

/-- `Reserve` -/
def reserve (s : RepeatedPtrFieldBase) (newSize : ℤ) : Option RepeatedPtrFieldBase :=
  if (s.currentSize : ℤ) < newSize then s.internalExtend (newSize - s.currentSize).toNat
  else some s

/-- `Reserve(total_size_ + 1)` -/
def reserveOneMore (s : RepeatedPtrFieldBase) : Option RepeatedPtrFieldBase := do
  let newSize ← toInt (s.totalSize + 1)
  s.reserve newSize

/-- `!rep_ || rep_->allocated_size == total_size_` -/
def isFull (s : RepeatedPtrFieldBase) : Bool := s.rep.isNone || s.allocatedSize == s.totalSize

/-- `if (!rep_ || rep_->allocated_size == total_size_) Reserve(total_size_ + 1);` -/
def makeRoom (s : RepeatedPtrFieldBase) : Option RepeatedPtrFieldBase :=
  if s.isFull then s.reserveOneMore else some s

/-- `rep_ != NULL && current_size_ < rep_->allocated_size` -/
def hasCleared (s : RepeatedPtrFieldBase) : Bool :=
  s.rep.isSome && decide (s.currentSize < s.allocatedSize)

/-- `rep_->elements[current_size_++] = value` -/
def append (s : RepeatedPtrFieldBase) (value : ℕ) : Option RepeatedPtrFieldBase := do
  let s ← s.setSlot s.currentSize value
  some { s with currentSize := s.currentSize + 1 }

/-- `AddOutOfLineHelper` -/
def addOutOfLineHelper (s : RepeatedPtrFieldBase) (obj : ℕ) : Option RepeatedPtrFieldBase := do
  let s ← (if s.isFull then s.internalExtend 1 else some s)
  let s ← s.setAllocated (s.allocatedSize + 1)
  s.append obj

/-! ## Operations -/

variable {Element : Type} [TypeHandler Element]

/-- `Add(prototype)`, with the pointer it returns. -/
def add (h : Heap Element) (s : RepeatedPtrFieldBase) (prototype : Option Element) :
    Option (ℕ × Heap Element × RepeatedPtrFieldBase) :=
  if s.hasCleared then do
    let p ← s.slot s.currentSize
    some (p, h, { s with currentSize := s.currentSize + 1 })
  else do
    let result := h.next
    let h := h.new (TypeHandler.newFromPrototype prototype)
    let s ← s.addOutOfLineHelper result
    some (result, h, s)

omit [TypeHandler Element] in
/-- `Add(Type&& value)` -/
def addValue (h : Heap Element) (s : RepeatedPtrFieldBase) (value : Element) :
    Option (Heap Element × RepeatedPtrFieldBase) :=
  if s.hasCleared then do
    let p ← s.slot s.currentSize
    let h ← h.modify p fun _ => value
    some (h, { s with currentSize := s.currentSize + 1 })
  else do
    let s ← s.makeRoom
    let s ← s.setAllocated (s.allocatedSize + 1)
    let result := h.next
    let h := h.new value
    let s ← s.append result
    some (h, s)

/-- `RemoveLast` -/
def removeLast (h : Heap Element) (s : RepeatedPtrFieldBase) :
    Option (Heap Element × RepeatedPtrFieldBase) := do
  let s := { s with currentSize := s.currentSize - 1 }
  let p ← s.slot s.currentSize
  let h ← h.modify p TypeHandler.clear
  some (h, s)

/-- `TypeHandler::Clear` on `count` elements from `i` on. -/
def clearElements (s : RepeatedPtrFieldBase) : ℕ → ℕ → Heap Element → Option (Heap Element)
  | _, 0, h => some h
  | i, count + 1, h => do
      let p ← s.slot i
      let h ← h.modify p TypeHandler.clear
      s.clearElements (i + 1) count h

/-- `Clear` -/
def clear (h : Heap Element) (s : RepeatedPtrFieldBase) : Option (Heap Element × RepeatedPtrFieldBase) :=
  if 0 < s.currentSize then do
    let h ← s.clearElements 0 s.currentSize h
    some (h, { s with currentSize := 0 })
  else some (h, s)

/-- The loop of `MergeFromInnerLoop` that allocates new elements. -/
def newElements (prototype : Element) :
    ℕ → ℕ → Heap Element × RepeatedPtrFieldBase → Option (Heap Element × RepeatedPtrFieldBase)
  | _, 0, hs => some hs
  | i, count + 1, (h, s) => do
      let s ← s.setSlot i h.next
      newElements prototype (i + 1) count (h.new (TypeHandler.newFromPrototype (some prototype)), s)

/-- The loop of `MergeFromInnerLoop` that does the actual merging. -/
def mergeElements (s other : RepeatedPtrFieldBase) (first : ℕ) :
    ℕ → ℕ → Heap Element → Option (Heap Element)
  | _, 0, h => some h
  | i, count + 1, h => do
      let otherElem ← other.slot i
      let newElem ← s.slot (first + i)
      let content ← h.read otherElem
      let h ← h.modify newElem (TypeHandler.merge content)
      s.mergeElements other first (i + 1) count h

/-- `if (already_allocated < length)` of `MergeFromInnerLoop`, with `our_elems` the slots from
`first` on. -/
def allocateMissing (h : Heap Element) (s other : RepeatedPtrFieldBase)
    (first length alreadyAllocated : ℕ) : Option (Heap Element × RepeatedPtrFieldBase) :=
  if alreadyAllocated < length then do
    let p ← other.slot 0
    let elemPrototype ← h.read p
    newElements elemPrototype (first + alreadyAllocated) (length - alreadyAllocated) (h, s)
  else some (h, s)

/-- `MergeFromInnerLoop` -/
def mergeFromInnerLoop (h : Heap Element) (s other : RepeatedPtrFieldBase)
    (first length alreadyAllocated : ℕ) : Option (Heap Element × RepeatedPtrFieldBase) := do
  let (h, s) ← allocateMissing h s other first length alreadyAllocated
  let h ← s.mergeElements other first 0 length h
  some (h, s)

/-- `MergeFrom` and `MergeFromInternal` -/
def mergeFrom (h : Heap Element) (s other : RepeatedPtrFieldBase) :
    Option (Heap Element × RepeatedPtrFieldBase) :=
  if other.currentSize = 0 then some (h, s)
  else do
    let otherSize := other.currentSize
    let s ← s.internalExtend otherSize
    let allocatedElems := s.allocatedSize - s.currentSize
    let (h, s) ← mergeFromInnerLoop h s other s.currentSize otherSize allocatedElems
    let s := { s with currentSize := s.currentSize + otherSize }
    let s ← (if s.allocatedSize < s.currentSize then s.setAllocated s.currentSize else some s)
    some (h, s)

/-- `SwapElements` -/
def swapElements (s : RepeatedPtrFieldBase) (index1 index2 : ℕ) : Option RepeatedPtrFieldBase := do
  let p ← s.slot index1
  let q ← s.slot index2
  let s ← s.setSlot index1 q
  s.setSlot index2 p

/-- `AddFromCleared`, with the pointer it returns if that is not null. -/
def addFromCleared (s : RepeatedPtrFieldBase) : Option (Option ℕ × RepeatedPtrFieldBase) :=
  if s.hasCleared then do
    let p ← s.slot s.currentSize
    some (some p, { s with currentSize := s.currentSize + 1 })
  else some (none, s)

omit [TypeHandler Element] in
/-- `UnsafeArenaAddAllocated` -/
def unsafeArenaAddAllocated (h : Heap Element) (s : RepeatedPtrFieldBase) (value : ℕ) :
    Option (Heap Element × RepeatedPtrFieldBase) := do
  let (h, s) ←
    (if s.rep.isNone || s.currentSize == s.totalSize then do
      let s ← s.reserveOneMore
      let s ← s.setAllocated (s.allocatedSize + 1)
      some (h, s)
    else if s.allocatedSize = s.totalSize then do
      -- no room, and cleared elements: the first one is deleted
      let p ← s.slot s.currentSize
      let h ← h.delete p
      some (h, s)
    else if s.currentSize < s.allocatedSize then do
      let p ← s.slot s.currentSize
      let s ← s.setSlot s.allocatedSize p
      let s ← s.setAllocated (s.allocatedSize + 1)
      some (h, s)
    else do
      let s ← s.setAllocated (s.allocatedSize + 1)
      some (h, s))
  let s ← s.append value
  some (h, s)

omit [TypeHandler Element] in
/-- `AddAllocatedInternal` for a value on the heap. -/
def addAllocated (h : Heap Element) (s : RepeatedPtrFieldBase) (value : ℕ) :
    Option (Heap Element × RepeatedPtrFieldBase) :=
  if s.rep.isSome && decide (s.allocatedSize < s.totalSize) then do
    let s ←
      (if s.currentSize < s.allocatedSize then do
        let p ← s.slot s.currentSize
        s.setSlot s.allocatedSize p
      else some s)
    let s ← s.setSlot s.currentSize value
    let s := { s with currentSize := s.currentSize + 1 }
    let s ← s.setAllocated (s.allocatedSize + 1)
    some (h, s)
  else unsafeArenaAddAllocated h s value

/-- `UnsafeArenaReleaseLast`, with the pointer it returns. -/
def releaseLast (s : RepeatedPtrFieldBase) : Option (ℕ × RepeatedPtrFieldBase) := do
  let s := { s with currentSize := s.currentSize - 1 }
  let result ← s.slot s.currentSize
  let s ← s.setAllocated (s.allocatedSize - 1)
  if s.currentSize < s.allocatedSize then do
    let p ← s.slot s.allocatedSize
    let s ← s.setSlot s.currentSize p
    some (result, s)
  else some (result, s)

/-- `AddCleared` -/
def addCleared (s : RepeatedPtrFieldBase) (value : ℕ) : Option RepeatedPtrFieldBase := do
  let s ← s.makeRoom
  let s ← s.setSlot s.allocatedSize value
  s.setAllocated (s.allocatedSize + 1)

/-- `ReleaseCleared`, with the pointer it returns. -/
def releaseCleared (s : RepeatedPtrFieldBase) : Option (ℕ × RepeatedPtrFieldBase) := do
  let s ← s.setAllocated (s.allocatedSize - 1)
  let p ← s.slot s.allocatedSize
  some (p, s)

/-- `CloseGap` -/
def closeGap (s : RepeatedPtrFieldBase) (start num : ℕ) : Option RepeatedPtrFieldBase :=
  match s.rep with
  | none => some s
  | some r => do
      let elements ← Slots.shiftDown num (start + num) (r.allocatedSize - (start + num)) r.elements
      some
        { s with
          currentSize := s.currentSize - num
          rep := some ⟨r.allocatedSize - num, elements⟩ }

/-- The pointers in `num` slots from `start` on. -/
def pointers (s : RepeatedPtrFieldBase) : ℕ → ℕ → Option (List ℕ)
  | _, 0 => some []
  | start, num + 1 => do
      let p ← s.slot start
      let rest ← s.pointers (start + 1) num
      some (p :: rest)

/-- `ExtractSubrange`, with the pointers it takes out. -/
def extractSubrange (s : RepeatedPtrFieldBase) (start num : ℕ) : Option (List ℕ × RepeatedPtrFieldBase) :=
  if 0 < num then do
    let elements ← s.pointers start num
    let s ← s.closeGap start num
    some (elements, s)
  else some ([], s)

omit [TypeHandler Element] in
/-- `TypeHandler::Delete` on `count` elements from `i` on. -/
def deleteElements (s : RepeatedPtrFieldBase) : ℕ → ℕ → Heap Element → Option (Heap Element)
  | _, 0, h => some h
  | i, count + 1, h => do
      let p ← s.slot i
      let h ← h.delete p
      s.deleteElements (i + 1) count h

omit [TypeHandler Element] in
/-- `DeleteSubrange`, which calls `ExtractSubrange` without room for the pointers. -/
def deleteSubrange (h : Heap Element) (s : RepeatedPtrFieldBase) (start num : ℕ) :
    Option (Heap Element × RepeatedPtrFieldBase) := do
  let h ← s.deleteElements start num h
  let s ← (if 0 < num then s.closeGap start num else some s)
  some (h, s)

omit [TypeHandler Element] in
/-- `Destroy` -/
def destroy (h : Heap Element) (s : RepeatedPtrFieldBase) :
    Option (Heap Element × RepeatedPtrFieldBase) := do
  let h ← s.deleteElements 0 s.allocatedSize h
  some (h, { s with rep := none })

omit [TypeHandler Element] in
/-- `Get`: the content of an element. -/
def get (h : Heap Element) (s : RepeatedPtrFieldBase) (index : ℕ) : Option Element := do
  let p ← s.slot index
  h.read p

/-- `*Mutable(index) = value` -/
def setElement (h : Heap Element) (s : RepeatedPtrFieldBase) (index : ℕ) (value : Element) :
    Option (Heap Element) := do
  let p ← s.slot index
  h.modify p fun _ => value

end RepeatedPtrFieldBase

end Protoc.Repeated
