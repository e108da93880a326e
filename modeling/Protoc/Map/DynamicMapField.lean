import Protoc.Lib.OwnedMap
import Protoc.Map.MapField

/-!
# Map fields of dynamic messages

The map of a dynamic map field points to its values, which are on the heap and which it deletes by
hand.  Deleting or reading what is not there is undefined and has no result.  The fields are not on an
arena.
-/

namespace Protoc.Map

open Protoc.Lib
open Function (update)

universe u v
variable {K : Type u} {V : Type v}

/-- `DynamicMapField`; the repeated field may be null. -/
structure DynamicMapField (K : Type u) (V : Type v) where
  state : State
  /-- `map_`, with pointers to the values. -/
  map : Table K ℕ
  repeatedField : Option (List (Entry K V))

def DynamicMapField.empty : DynamicMapField K V := ⟨.modifiedMap, ∅, none⟩

/-- `IsMapValid`. -/
def DynamicMapField.isMapValid (field : DynamicMapField K V) : Bool := field.state ≠ .modifiedRepeated

/-- A field with the heap. -/
structure Dynamic (K : Type u) (V : Type v) where
  heap : Heap V
  field : DynamicMapField K V

variable [DecidableEq K]

namespace Dynamic

/-- `SetMapDirty`. -/
def setMapDirty (d : Dynamic K V) : Dynamic K V := { d with field.state := .modifiedMap }

/-- `SetRepeatedDirty`. -/
def setRepeatedDirty (d : Dynamic K V) : Dynamic K V := { d with field.state := .modifiedRepeated }

/-- An entry message of a key and the value that its slot points to. -/
def readEntry (heap : Heap V) (slot : Entry K ℕ) : Option (Entry K V) :=
  (heap.read slot.2).map fun value => ⟨slot.1, value⟩

/-- `SyncRepeatedFieldWithMapNoLock`. -/
def syncRepeatedFieldWithMapNoLock (order : Order K ℕ) (d : Dynamic K V) : Option (Dynamic K V) :=
  ((order.list d.field.map.entries).mapM (readEntry d.heap)).map fun l =>
    { d with field.repeatedField := some l }

/-- `DeleteData` for each value, and `map->clear()`. -/
def clearMap (order : Order K ℕ) (d : Dynamic K V) : Option (Dynamic K V) :=
  (((order.list d.field.map.entries).map Sigma.snd).foldlM Heap.delete d.heap).map fun heap =>
    { d with heap, field.map := ∅ }

/-- The value of an entry message, on the heap; the old value of its key is deleted. -/
def addEntry (d : Dynamic K V) (e : Entry K V) : Option (Dynamic K V) :=
  let deleted := match d.field.map.lookup e.1 with
    | none => some d.heap
    | some p => d.heap.delete p
  deleted.map fun heap => { d with heap := heap.new e.2, field.map := d.field.map.insert e.1 heap.next }

/-- `SyncMapWithRepeatedFieldNoLock`. -/
def syncMapWithRepeatedFieldNoLock (order : Order K ℕ) (d : Dynamic K V) : Option (Dynamic K V) :=
  (d.clearMap order).bind fun d => d.field.repeatedField.bind fun l => l.foldlM addEntry d

/-- `SyncRepeatedFieldWithMap`. -/
def syncRepeatedFieldWithMap (order : Order K ℕ) (d : Dynamic K V) : Option (Dynamic K V) :=
  match d.field.state with
  | .modifiedMap => (d.syncRepeatedFieldWithMapNoLock order).map fun d => { d with field.state := .clean }
  | .clean => some { d with field.repeatedField := some (d.field.repeatedField.getD []) }
  | .modifiedRepeated => some d

/-- `SyncMapWithRepeatedField`. -/
def syncMapWithRepeatedField (order : Order K ℕ) (d : Dynamic K V) : Option (Dynamic K V) :=
  if d.field.state = .modifiedRepeated then
    (d.syncMapWithRepeatedFieldNoLock order).map fun d => { d with field.state := .clean }
  else some d

/-- `GetRepeatedField`. -/
def getRepeatedField (order : Order K ℕ) (d : Dynamic K V) : Option (List (Entry K V) × Dynamic K V) :=
  (d.syncRepeatedFieldWithMap order).bind fun d => d.field.repeatedField.map fun l => (l, d)

/-- `MutableRepeatedField`, and what its caller makes of the entries. -/
def mutableRepeatedField (order : Order K ℕ) (edit : List (Entry K V) → List (Entry K V)) (d : Dynamic K V) :
    Option (List (Entry K V) × Dynamic K V) :=
  (d.syncRepeatedFieldWithMap order).bind fun d =>
    d.setRepeatedDirty.field.repeatedField.map fun l =>
      (l, { d.setRepeatedDirty with field.repeatedField := some (edit l) })

/-- `MutableMap`. -/
def mutableMap (order : Order K ℕ) (d : Dynamic K V) : Option (Dynamic K V) :=
  (d.syncMapWithRepeatedField order).map setMapDirty

/-- A value that a caller writes through the reference to the value of a key, if there is one. -/
def writeValue (d : Dynamic K V) (e : Entry K V) : Option (Dynamic K V) :=
  match d.field.map.lookup e.1 with
  | none => some d
  | some p => (d.heap.modify p fun _ => e.2).map fun heap => { d with heap }

def readValue (d : Dynamic K V) (key : K) : Option V := deref d.heap d.field.map key

/-- `size`. -/
def size (order : Order K ℕ) (d : Dynamic K V) : Option (ℤ × Dynamic K V) :=
  (d.syncMapWithRepeatedField order).map fun d => (MapField.toInt d.field.map.entries.length, d)

/-- `Clear`. -/
def clear (order : Order K ℕ) (d : Dynamic K V) : Option (Dynamic K V) :=
  (d.clearMap order).map fun d =>
    { d with field.repeatedField := d.field.repeatedField.map fun _ => [] }.setMapDirty

/-- `ContainsMapKey`. -/
def containsMapKey (order : Order K ℕ) (key : K) (d : Dynamic K V) : Option (Bool × Dynamic K V) :=
  (d.syncMapWithRepeatedField order).map fun d => ((d.field.map.lookup key).isSome, d)

/-- `LookupMapValue`: whether there is a value, and the value. -/
def lookupMapValue (order : Order K ℕ) (key : K) (d : Dynamic K V) : Option (Option V × Dynamic K V) :=
  (d.syncMapWithRepeatedField order).bind fun d =>
    match d.field.map.lookup key with
    | none => some (none, d)
    | some p => (d.heap.read p).map fun value => (some value, d)

def allocateMapValue [Inhabited V] (d : Dynamic K V) (key : K) : Dynamic K V :=
  { d with heap := d.heap.new default, field.map := d.field.map.insert key d.heap.next }

/-- `InsertOrLookupMapValue`: whether the key is new, and the value. -/
def insertOrLookupMapValue [Inhabited V] (order : Order K ℕ) (key : K) (d : Dynamic K V) :
    Option ((Bool × V) × Dynamic K V) :=
  (d.mutableMap order).bind fun d =>
    match d.field.map.lookup key with
    | none => ((d.allocateMapValue key).readValue key).map fun value => ((true, value), d.allocateMapValue key)
    | some _ => (d.readValue key).map fun value => ((false, value), d)

/-- `DeleteMapValue`. -/
def deleteMapValue (order : Order K ℕ) (key : K) (d : Dynamic K V) : Option (Bool × Dynamic K V) :=
  (d.syncMapWithRepeatedField order).bind fun d =>
    match d.field.map.lookup key with
    | none => some (false, d)
    | some p => (d.heap.delete p).map fun heap =>
      (true, { d.setMapDirty with heap, field.map := d.field.map.erase key })

/-- The loop of `MergeFrom`: a slot of the other map. -/
def mergeSlot [Inhabited V] (d : Dynamic K V) (slot : Entry K ℕ) : Option (Dynamic K V) :=
  let d := if (d.field.map.lookup slot.1).isSome then d else d.allocateMapValue slot.1
  -- copy map value
  (d.heap.read slot.2).bind fun value => d.writeValue ⟨slot.1, value⟩

def destroy (order : Order K ℕ) (d : Dynamic K V) : Option (Dynamic K V) :=
  (d.clearMap order).map fun d => { d with field := .empty }

end Dynamic

/-! ## Calls -/

/-- A call on a field. -/
inductive DynamicOp (K : Type u) (V : Type v)
  | mutableMap (writes : List (Entry K V))
  | insertOrLookupMapValue (key : K) (write : Option V)
  | deleteMapValue (key : K)
  | lookupMapValue (key : K)
  | containsMapKey (key : K)
  | size
  | getRepeatedField
  | mutableRepeatedField (edit : List (Entry K V) → List (Entry K V))
  | clear
  | destroy

/-- A call on one of several fields, or on two of them. -/
inductive WorldOp (K : Type u) (V : Type v)
  | on (i : ℕ) (op : DynamicOp K V)
  | mergeFrom (i j : ℕ)
  | swap (i j : ℕ)

variable [Inhabited V]

/-- A call on a field, and what its caller writes through the references that it gets. -/
def Dynamic.perform (order : Order K ℕ) (d : Dynamic K V) : DynamicOp K V → Option (Result K V × Dynamic K V)
  | .mutableMap writes => (d.mutableMap order).bind fun d => (writes.foldlM writeValue d).map fun d => (.done, d)
  | .insertOrLookupMapValue key write => (d.insertOrLookupMapValue order key).bind fun r =>
    match write with
    | none => some (.inserted r.1.1 r.1.2, r.2)
    | some value => (r.2.writeValue ⟨key, value⟩).map fun d => (.inserted r.1.1 r.1.2, d)
  | .deleteMapValue key => (d.deleteMapValue order key).map fun r => (.bool r.1, r.2)
  | .lookupMapValue key => (d.lookupMapValue order key).map fun r => (.value r.1, r.2)
  | .containsMapKey key => (d.containsMapKey order key).map fun r => (.bool r.1, r.2)
  | .size => (d.size order).map fun r => (.int r.1, r.2)
  | .getRepeatedField => (d.getRepeatedField order).map fun r => (.entries r.1, r.2)
  | .mutableRepeatedField edit => (d.mutableRepeatedField order edit).map fun r => (.entries r.1, r.2)
  | .clear => (d.clear order).map fun d => (.done, d)
  | .destroy => (d.destroy order).map fun d => (.done, d)

/-- Several fields on one heap. -/
structure World (K : Type u) (V : Type v) where
  heap : Heap V
  fields : ℕ → DynamicMapField K V

namespace World

def at_ (w : World K V) (i : ℕ) : Dynamic K V := ⟨w.heap, w.fields i⟩

def put (w : World K V) (i : ℕ) (d : Dynamic K V) : World K V := ⟨d.heap, update w.fields i d.field⟩

/-- `MergeFrom`, which reads the other map as it is; a debug build checks `IsMapValid` of it. -/
def mergeFrom (order : Order K ℕ) (w : World K V) (i j : ℕ) : Option (World K V) :=
  ((w.at_ i).mutableMap order).bind fun d =>
    let w := w.put i d
    ((order.list (w.fields j).map.entries).foldlM Dynamic.mergeSlot (w.at_ i)).map (w.put i)

/-- `Swap`: of the repeated fields, the maps and the states. -/
def swap (w : World K V) (i j : ℕ) : World K V :=
  { w with fields := update (update w.fields i (w.fields j)) j (w.fields i) }

def perform (order : Order K ℕ) (w : World K V) : WorldOp K V → Option (Result K V × World K V)
  | .on i op => ((w.at_ i).perform order op).map fun r => (r.1, w.put i r.2)
  | .mergeFrom i j => (w.mergeFrom order i j).map fun w => (.done, w)
  | .swap i j => some (.done, w.swap i j)

end World

end Protoc.Map
