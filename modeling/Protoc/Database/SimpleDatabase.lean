import Mathlib.Data.Prod.Lex
import Protoc.Database.Descriptors

/-!
# The simple descriptor database

The index maps file names, symbols and extensions to a value that stands for a file.  A
symbol is looked up through its neighbours in the map, so no indexed symbol may lie inside
another.
-/

namespace Protoc.Database

open Protoc.Lib
open Protoc.Util (Str dot)

/-- The key of an extension: the extended message and the number, in the order of pairs. -/
abbrev ExtensionKey := Lex (Str × Int)

/-- `SimpleDescriptorDatabase::DescriptorIndex`.  The entries of each map are in order. -/
structure DescriptorIndex (Value : Type) where
  /-- `by_name_`. -/
  byName : List (Str × Value)
  /-- `by_symbol_`. -/
  bySymbol : List (Str × Value)
  /-- `by_extension_`. -/
  byExtension : List (ExtensionKey × Value)

namespace DescriptorIndex
variable {Value : Type}

def empty : DescriptorIndex Value := ⟨[], [], []⟩

/-- `AddSymbol`. -/
def addSymbol (value : Value) (name : Str) (index : DescriptorIndex Value) : Attempt (DescriptorIndex Value) :=
  let inserted := { index with
    bySymbol := (Sorted.insertIfNotPresent Prod.fst (name, value) index.bySymbol).2 }
  if validateSymbolName name = false then (false, index)
  else
    let iter := findLastLessOrEqual (Sorted.upperBound Prod.fst index.bySymbol name)
    match index.bySymbol[iter]? with
    | none => (true, inserted)
    | some found =>
      if isSubSymbol found.1 name then (false, index)
      else
        match index.bySymbol[iter + 1]? with
        | none => (true, inserted)
        | some next => if isSubSymbol name next.1 then (false, index) else (true, inserted)

/-- `AddExtension`.  An extendee that is not fully qualified is passed over. -/
def addExtension (value : Value) (field : FieldDescriptorProto) (index : DescriptorIndex Value) :
    Attempt (DescriptorIndex Value) :=
  if field.extendee.head? = some dot then
    let added := Sorted.insertIfNotPresent Prod.fst
      (toLex (field.extendee.drop 1, field.number), value) index.byExtension
    (added.1, { index with byExtension := added.2 })
  else (true, index)

def packagePath (file : FileDescriptorProto) : Str :=
  if file.packageName ≠ [] then file.packageName ++ [dot] else []

/-- `AddFile`. -/
def addFile (file : FileDescriptorProto) (value : Value) (index : DescriptorIndex Value) :
    Attempt (DescriptorIndex Value) :=
  let added := Sorted.insertIfNotPresent Prod.fst (file.name, value) index.byName
  if added.1 = false then (false, index)
  else
    addContents (fun name => addSymbol value (packagePath file ++ name)) (addExtension value) file
      { index with byName := added.2 }

variable [Inhabited Value]

/-- `FindFile`. -/
def findFile (index : DescriptorIndex Value) (filename : Str) : Value :=
  ((Sorted.find Prod.fst index.byName filename).map Prod.snd).getD default

/-- `FindSymbol`. -/
def findSymbol (index : DescriptorIndex Value) (name : Str) : Value :=
  match index.bySymbol[findLastLessOrEqual (Sorted.upperBound Prod.fst index.bySymbol name)]? with
  | none => default
  | some found => if isSubSymbol found.1 name then found.2 else default

/-- `FindExtension`. -/
def findExtension (index : DescriptorIndex Value) (containingType : Str) (fieldNumber : Int) : Value :=
  ((Sorted.find Prod.fst index.byExtension (toLex (containingType, fieldNumber))).map Prod.snd).getD
    default

omit [Inhabited Value] in
/-- `FindAllExtensionNumbers`: the numbers from 0 on, and whether there are any. -/
def findAllExtensionNumbers (index : DescriptorIndex Value) (containingType : Str) : Bool × List Int :=
  let it := Sorted.lowerBound Prod.fst index.byExtension (toLex (containingType, 0))
  let found := (index.byExtension.drop it).takeWhile fun e => (ofLex e.1).1 == containingType
  (!found.isEmpty, found.map fun e => (ofLex e.1).2)

end DescriptorIndex

/-- `SimpleDescriptorDatabase`.  A value is a pointer to a file the database owns, and null
where there is none. -/
structure SimpleDescriptorDatabase where
  /-- `index_`. -/
  index : DescriptorIndex (Option FileDescriptorProto)

namespace SimpleDescriptorDatabase

def empty : SimpleDescriptorDatabase := ⟨.empty⟩

/-- `Add`: the database keeps a copy of the file. -/
def add (file : FileDescriptorProto) (db : SimpleDescriptorDatabase) : Attempt SimpleDescriptorDatabase :=
  let added := db.index.addFile file (some file)
  (added.1, ⟨added.2⟩)

/-- `FindFileByName`: the file copied to the output, if there is one. -/
def findFileByName (db : SimpleDescriptorDatabase) (filename : Str) : Option FileDescriptorProto :=
  db.index.findFile filename

/-- `FindFileContainingSymbol`. -/
def findFileContainingSymbol (db : SimpleDescriptorDatabase) (symbolName : Str) : Option FileDescriptorProto :=
  db.index.findSymbol symbolName

/-- `FindFileContainingExtension`. -/
def findFileContainingExtension (db : SimpleDescriptorDatabase) (containingType : Str)
    (fieldNumber : Int) : Option FileDescriptorProto :=
  db.index.findExtension containingType fieldNumber

/-- `FindAllExtensionNumbers`. -/
def findAllExtensionNumbers (db : SimpleDescriptorDatabase) (extendeeType : Str) : Bool × List Int :=
  db.index.findAllExtensionNumbers extendeeType

end SimpleDescriptorDatabase

end Protoc.Database
