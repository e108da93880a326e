import Mathlib.Algebra.Group.Int.Defs
import Mathlib.Algebra.Group.Nat.Defs
import Protoc.Lib.LastWins

/-!
# Map fields

A map field keeps a map and a list of entries, and a flag that says which of the two is current.  The
generated class reads and writes both; each function makes the one that it needs current first.

In which order a map lists its entries is not promised: each call gets an order.
-/

namespace Protoc.Map

open Protoc.Lib
open Function (update)

universe u v
variable {K : Type u} {V : Type v}

/-- `State`. -/
inductive State
  /-- The map has data that is not in the repeated field. -/
  | modifiedMap
  /-- The repeated field has data that is not in the map. -/
  | modifiedRepeated
  /-- The data in both is the same. -/
  | clean
  deriving DecidableEq

abbrev Entry (K : Type u) (V : Type v) := Σ _ : K, V

/-- `Map<Key, T>`. -/
abbrev Table (K : Type u) (V : Type v) := AList fun _ : K => V

/-- An order in which a map lists its entries. -/
structure Order (K : Type u) (V : Type v) where
  list : List (Entry K V) → List (Entry K V)
  perm : ∀ l, (list l).Perm l

/-- `MapField`; the repeated field may be null. -/
structure MapField (K : Type u) (V : Type v) where
  state : State
  map : Table K V
  repeatedField : Option (List (Entry K V))

/-- A change that a caller makes to the map that `MutableMap` returns. -/
inductive MapEdit (K : Type u) (V : Type v)
  | set (key : K) (value : V)
  | erase (key : K)
  | clear

variable [DecidableEq K]

def MapEdit.apply (map : Table K V) : MapEdit K V → Table K V
  | .set key value => map.insert key value
  | .erase key => map.erase key
  | .clear => ∅

namespace MapField

def empty : MapField K V := ⟨.modifiedMap, ∅, none⟩

/-- `SetMapDirty`. -/
def setMapDirty (s : MapField K V) : MapField K V := { s with state := .modifiedMap }

/-- `SetRepeatedDirty`. -/
def setRepeatedDirty (s : MapField K V) : MapField K V := { s with state := .modifiedRepeated }

/-- `SyncRepeatedFieldWithMapNoLock`. -/
def syncRepeatedFieldWithMapNoLock (order : Order K V) (s : MapField K V) : MapField K V :=
  { s with repeatedField := some (order.list s.map.entries) }

/-- `SyncMapWithRepeatedFieldNoLock`, which checks that there is a repeated field. -/
def syncMapWithRepeatedFieldNoLock (s : MapField K V) : Option (MapField K V) :=
  s.repeatedField.map fun l => { s with map := insertAll ∅ l }

/-- `SyncRepeatedFieldWithMap`. -/
def syncRepeatedFieldWithMap (order : Order K V) (s : MapField K V) : MapField K V :=
  match s.state with
  | .modifiedMap => { s.syncRepeatedFieldWithMapNoLock order with state := .clean }
  | .clean => { s with repeatedField := some (s.repeatedField.getD []) }
  | .modifiedRepeated => s

/-- `SyncMapWithRepeatedField`. -/
def syncMapWithRepeatedField (s : MapField K V) : Option (MapField K V) :=
  if s.state = .modifiedRepeated then
    s.syncMapWithRepeatedFieldNoLock.map fun s => { s with state := .clean }
  else some s

/-- `GetRepeatedField`, whose result is not null. -/
def getRepeatedField (order : Order K V) (s : MapField K V) : Option (List (Entry K V) × MapField K V) :=
  let s := s.syncRepeatedFieldWithMap order
  s.repeatedField.map fun l => (l, s)

/-- `MutableRepeatedField`, and what its caller makes of the entries. -/
def mutableRepeatedField (order : Order K V) (edit : List (Entry K V) → List (Entry K V)) (s : MapField K V) :
    Option (List (Entry K V) × MapField K V) :=
  let s := (s.syncRepeatedFieldWithMap order).setRepeatedDirty
  s.repeatedField.map fun l => (l, { s with repeatedField := some (edit l) })

/-- `GetMap`. -/
def getMap (s : MapField K V) : Option (Table K V × MapField K V) :=
  s.syncMapWithRepeatedField.map fun s => (s.map, s)

/-- `MutableMap`. -/
def mutableMap (s : MapField K V) : Option (MapField K V) :=
  s.syncMapWithRepeatedField.map setMapDirty

/-- A conversion to `int`. -/
def toInt (n : ℕ) : ℤ := (n + 2 ^ 31) % 2 ^ 32 - 2 ^ 31

/-- `size`. -/
def size (s : MapField K V) : Option (ℤ × MapField K V) :=
  s.syncMapWithRepeatedField.map fun s => (toInt s.map.entries.length, s)

/-- `Clear`. -/
def clear (s : MapField K V) : MapField K V :=
  ({ s with repeatedField := s.repeatedField.map fun _ => [], map := ∅ } : MapField K V).setMapDirty

/-- `MapBegin`, and the iterator up to `MapEnd`. -/
def iterate (order : Order K V) (s : MapField K V) : Option (List (Entry K V) × MapField K V) :=
  s.getMap.map fun r => (order.list r.1.entries, r.2)

/-- `ContainsMapKey`, which reads the map as it is. -/
def containsMapKey (key : K) (s : MapField K V) : Bool := (s.map.lookup key).isSome

/-- `LookupMapValue`. -/
def lookupMapValue (key : K) (s : MapField K V) : Option (Option V × MapField K V) :=
  s.getMap.map fun r => (r.1.lookup key, r.2)

/-- `InsertOrLookupMapValue`: whether the key is new and the value, and what the caller writes through
the reference. -/
def insertOrLookupMapValue [Inhabited V] (key : K) (write : Option V) (s : MapField K V) :
    Option ((Bool × V) × MapField K V) :=
  s.mutableMap.map fun s =>
    match s.map.lookup key with
    | none => ((true, default), { s with map := s.map.insert key (write.getD default) })
    | some value => ((false, value), { s with map := s.map.insert key (write.getD value) })

/-- `DeleteMapValue`. -/
def deleteMapValue (key : K) (s : MapField K V) : Option (Bool × MapField K V) :=
  s.mutableMap.map fun s => ((s.map.lookup key).isSome, { s with map := s.map.erase key })

/-- `impl_.MergeFrom`. -/
def mergeMap (order : Order K V) (s other : MapField K V) : MapField K V :=
  { s with map := insertAll s.map (order.list other.map.entries) }

end MapField

/-! ## Calls -/

/-- A call on a field. -/
inductive FieldOp (K : Type u) (V : Type v)
  | mutableMap (edits : List (MapEdit K V))
  | insertOrLookupMapValue (key : K) (write : Option V)
  | deleteMapValue (key : K)
  | lookupMapValue (key : K)
  | containsMapKey (key : K)
  | size
  | iterate
  | getRepeatedField
  | mutableRepeatedField (edit : List (Entry K V) → List (Entry K V))
  | clear

/-- A call on one of several fields, or on two of them. -/
inductive Op (K : Type u) (V : Type v)
  | on (i : ℕ) (op : FieldOp K V)
  | mergeFrom (i j : ℕ)
  | swap (i j : ℕ)

/-- What a call returns. -/
inductive Result (K : Type u) (V : Type v)
  | done
  | bool (b : Bool)
  | int (n : ℤ)
  | value (value : Option V)
  | inserted (new : Bool) (value : V)
  | entries (l : List (Entry K V))

variable [Inhabited V]

/-- A call on a field. -/
def MapField.perform (order : Order K V) (s : MapField K V) : FieldOp K V → Option (Result K V × MapField K V)
  | .mutableMap edits => s.mutableMap.map fun s => (.done, { s with map := edits.foldl MapEdit.apply s.map })
  | .insertOrLookupMapValue key write => (s.insertOrLookupMapValue key write).map fun r =>
    (.inserted r.1.1 r.1.2, r.2)
  | .deleteMapValue key => (s.deleteMapValue key).map fun r => (.bool r.1, r.2)
  | .lookupMapValue key => (s.lookupMapValue key).map fun r => (.value r.1, r.2)
  | .containsMapKey key => some (.bool (s.containsMapKey key), s)
  | .size => s.size.map fun r => (.int r.1, r.2)
  | .iterate => (s.iterate order).map fun r => (.entries r.1, r.2)
  | .getRepeatedField => (s.getRepeatedField order).map fun r => (.entries r.1, r.2)
  | .mutableRepeatedField edit => (s.mutableRepeatedField order edit).map fun r => (.entries r.1, r.2)
  | .clear => some (.done, s.clear)

abbrev Fields (K : Type u) (V : Type v) := ℕ → MapField K V

/-- `MergeFrom`; the two fields may be one. -/
def Fields.mergeFrom (order : Order K V) (fields : Fields K V) (i j : ℕ) : Option (Fields K V) :=
  (fields i).syncMapWithRepeatedField.bind fun s =>
    let fields := update fields i s
    (fields j).syncMapWithRepeatedField.map fun other =>
      let fields := update fields j other
      update fields i ((fields i).mergeMap order (fields j)).setMapDirty

/-- `Swap`: of the repeated fields, the states and the maps. -/
def Fields.swap (fields : Fields K V) (i j : ℕ) : Fields K V :=
  update (update fields i (fields j)) j (fields i)

def Fields.perform (order : Order K V) (fields : Fields K V) : Op K V → Option (Result K V × Fields K V)
  | .on i op => ((fields i).perform order op).map fun r => (r.1, update fields i r.2)
  | .mergeFrom i j => (fields.mergeFrom order i j).map fun fields => (.done, fields)
  | .swap i j => some (.done, fields.swap i j)

end Protoc.Map
