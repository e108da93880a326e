import Protoc.Database.SimpleDatabase
import Protoc.Lib.Tiers

/-!
# The encoded descriptor database

The database keeps the bytes of a file and parses them again when the file is asked for.  Its
index inserts entries into sets, and every lookup first merges the sets into sorted vectors.
An entry names the file by its position among the added ones; the package of a symbol is kept
there.
-/

namespace Protoc.Database

open Protoc.Lib
open Protoc.Util (Str dot)

abbrev Encoded := List UInt8

/-- `EncodedEntry`: the bytes of an added file, and its package. -/
structure EncodedEntry where
  /-- The bytes. -/
  data : Encoded
  /-- `encoded_package`. -/
  encodedPackage : Str
  deriving DecidableEq

/-- `FileEntry`. -/
structure FileEntry where
  /-- The position of the file. -/
  dataOffset : ℕ
  /-- Its name. -/
  encodedName : Str
  deriving DecidableEq

/-- `SymbolEntry`: the symbol without its package. -/
structure SymbolEntry where
  /-- The position of the file. -/
  dataOffset : ℕ
  /-- The name within the package. -/
  encodedSymbol : Str
  deriving DecidableEq

/-- `ExtensionEntry`: the extendee with the dot in front of it. -/
structure ExtensionEntry where
  /-- The position of the file. -/
  dataOffset : ℕ
  /-- The fully qualified extendee. -/
  encodedExtendee : Str
  /-- The number. -/
  extensionNumber : Int
  deriving DecidableEq

/-- What `ExtensionCompare` compares: the extendee without the dot, and the number. -/
def ExtensionEntry.key (entry : ExtensionEntry) : ExtensionKey :=
  toLex (entry.encodedExtendee.drop 1, entry.extensionNumber)

/-! ## Comparing symbols -/

/-- An operand of `SymbolCompare`: what `GetParts` gives, and `AsString`. -/
structure SymbolParts where
  /-- The package, or the whole symbol where there is none. -/
  first : Str
  /-- The symbol within the package. -/
  second : Str
  /-- The whole name. -/
  string : Str

/-- `SymbolCompare::operator()`. -/
def symbolLess (lhs rhs : SymbolParts) : Bool :=
  let lhsFirst := lhs.first.take rhs.first.length
  let rhsFirst := rhs.first.take lhs.first.length
  if lhsFirst ≠ rhsFirst then
    -- the packages already differ
    decide (lhsFirst < rhsFirst)
  else if lhs.first.length = rhs.first.length then decide (lhs.second < rhs.second)
  else decide (lhs.string < rhs.string)

def stringParts (str : Str) : SymbolParts := ⟨str, [], str⟩

/-- `AsString` of a package and a symbol. -/
def asString (package symbol : Str) : Str :=
  package ++ (if package = [] then [] else [dot]) ++ symbol

def symbolParts (package symbol : Str) : SymbolParts :=
  if package = [] then ⟨symbol, [], asString package symbol⟩
  else ⟨package, symbol, asString package symbol⟩

/-! ## The index -/

/-- `EncodedDescriptorDatabase::DescriptorIndex`. -/
structure EncodedIndex where
  /-- `all_values_`. -/
  allValues : List EncodedEntry
  /-- `by_name_`. -/
  byName : List FileEntry
  /-- `by_name_flat_`. -/
  byNameFlat : List FileEntry
  /-- `by_symbol_`. -/
  bySymbol : List SymbolEntry
  /-- `by_symbol_flat_`. -/
  bySymbolFlat : List SymbolEntry
  /-- `by_extension_`. -/
  byExtension : List ExtensionEntry
  /-- `by_extension_flat_`. -/
  byExtensionFlat : List ExtensionEntry
  deriving DecidableEq

namespace EncodedIndex

def empty : EncodedIndex := ⟨[], [], [], [], [], [], []⟩

def package (index : EncodedIndex) (dataOffset : ℕ) : Str :=
  ((index.allValues[dataOffset]?).map EncodedEntry.encodedPackage).getD []

def value (index : EncodedIndex) (dataOffset : ℕ) : Option Encoded :=
  (index.allValues[dataOffset]?).map EncodedEntry.data

/-- `SymbolEntry::AsString`. -/
def symbolName (index : EncodedIndex) (entry : SymbolEntry) : Str :=
  asString (index.package entry.dataOffset) entry.encodedSymbol

def getParts (index : EncodedIndex) (entry : SymbolEntry) : SymbolParts :=
  symbolParts (index.package entry.dataOffset) entry.encodedSymbol

def entryLess (index : EncodedIndex) (lhs rhs : SymbolEntry) : Bool :=
  symbolLess (index.getParts lhs) (index.getParts rhs)

/-- `AddSymbol`. -/
def addSymbol (symbol : Str) (index : EncodedIndex) : Attempt EncodedIndex :=
  let entry : SymbolEntry := ⟨index.allValues.length - 1, symbol⟩
  let entryAsString := index.symbolName entry
  if validateSymbolName symbol = false then (false, index)
  else
    let iter := findLastLessOrEqual (setUpperBound index.entryLess entry index.bySymbol)
    if checkForMutualSubsymbols index.symbolName index.bySymbol entryAsString iter = false then
      (false, index)
    else
      let flatIter := findLastLessOrEqual (setUpperBound index.entryLess entry index.bySymbolFlat)
      if checkForMutualSubsymbols index.symbolName index.bySymbolFlat entryAsString flatIter = false then
        (false, index)
      else (true, { index with bySymbol := setInsert index.entryLess entry index.bySymbol })

/-- `AddExtension`: the entry is in the set before the vector is searched for it. -/
def addExtension (field : FieldDescriptorProto) (index : EncodedIndex) : Attempt EncodedIndex :=
  if field.extendee.head? = some dot then
    let entry : ExtensionEntry := ⟨index.allValues.length - 1, field.extendee, field.number⟩
    let inserted := Sorted.insertIfNotPresent ExtensionEntry.key entry index.byExtension
    let index' := { index with byExtension := inserted.2 }
    if inserted.1 = false ∨
        (Sorted.find ExtensionEntry.key index.byExtensionFlat entry.key).isSome then (false, index')
    else (true, index')
  else (true, index)

/-- `AddFile`: the name is in the set before the vector is searched for it. -/
def addFile (file : FileDescriptorProto) (data : Encoded) (index : EncodedIndex) : Attempt EncodedIndex :=
  if validateSymbolName file.packageName = false then
    (false, { index with allValues := index.allValues ++ [EncodedEntry.mk data []] })
  else
    let pushed := { index with allValues := index.allValues ++ [EncodedEntry.mk data file.packageName] }
    let entry : FileEntry := ⟨pushed.allValues.length - 1, file.name⟩
    let inserted := Sorted.insertIfNotPresent FileEntry.encodedName entry index.byName
    let named := { pushed with byName := inserted.2 }
    if inserted.1 = false ∨
        (Sorted.find FileEntry.encodedName index.byNameFlat file.name).isSome then (false, named)
    else addContents addSymbol addExtension file named

/-- `EnsureFlat`: each of the sets is merged into its flat counterpart. -/
def ensureFlat (index : EncodedIndex) : EncodedIndex :=
  { allValues := index.allValues
    byName := []
    byNameFlat := mergeIntoFlat (fun a b => decide (a.encodedName < b.encodedName))
      index.byName index.byNameFlat
    bySymbol := []
    bySymbolFlat := mergeIntoFlat index.entryLess index.bySymbol index.bySymbolFlat
    byExtension := []
    byExtensionFlat := mergeIntoFlat (fun a b => decide (a.key < b.key))
      index.byExtension index.byExtensionFlat }

/-- `FindFile`, once flat. -/
def findFile (index : EncodedIndex) (filename : Str) : Option Encoded :=
  (Sorted.find FileEntry.encodedName index.byNameFlat filename).bind fun e => index.value e.dataOffset

/-- `FindSymbolOnlyFlat`. -/
def findSymbolOnlyFlat (index : EncodedIndex) (name : Str) : Option Encoded :=
  let iter := findLastLessOrEqual
    (index.bySymbolFlat.findIdx fun e => symbolLess (stringParts name) (index.getParts e))
  match index.bySymbolFlat[iter]? with
  | none => none
  | some found =>
    if isSubSymbol (index.symbolName found) name then index.value found.dataOffset else none

/-- `FindExtension`, once flat. -/
def findExtension (index : EncodedIndex) (containingType : Str) (fieldNumber : Int) : Option Encoded :=
  (Sorted.find ExtensionEntry.key index.byExtensionFlat (toLex (containingType, fieldNumber))).bind
    fun e => index.value e.dataOffset

/-- `FindAllExtensionNumbers`, once flat. -/
def findAllExtensionNumbers (index : EncodedIndex) (containingType : Str) : Bool × List Int :=
  let it := Sorted.lowerBound ExtensionEntry.key index.byExtensionFlat (toLex (containingType, 0))
  let found := (index.byExtensionFlat.drop it).takeWhile
    fun e => e.encodedExtendee.drop 1 == containingType
  (!found.isEmpty, found.map ExtensionEntry.extensionNumber)

end EncodedIndex

/-! ## The database -/

/-- The lookups of a descriptor database. -/
inductive Lookup where
  /-- `FindFileByName`. -/
  | fileByName (filename : Str)
  /-- `FindFileContainingSymbol`. -/
  | fileContainingSymbol (symbolName : Str)
  /-- `FindFileContainingExtension`. -/
  | fileContainingExtension (containingType : Str) (fieldNumber : Int)
  /-- `FindAllExtensionNumbers`. -/
  | allExtensionNumbers (extendeeType : Str)

/-- A call of the encoded database. -/
inductive Call where
  /-- `Add`. -/
  | add (encoded : Encoded)
  /-- A lookup. -/
  | lookup (lookup : Lookup)

/-- What a call answers. -/
inductive Answer where
  /-- Whether the file was added. -/
  | added (success : Bool)
  /-- The file that was found. -/
  | file (found : Option FileDescriptorProto)
  /-- Whether there are numbers, and which. -/
  | numbers (found : Bool × List Int)

/-- What the simple database answers to a lookup. -/
def SimpleDescriptorDatabase.answer (db : SimpleDescriptorDatabase) : Lookup → Answer
  | .fileByName filename => .file (db.findFileByName filename)
  | .fileContainingSymbol symbolName => .file (db.findFileContainingSymbol symbolName)
  | .fileContainingExtension containingType fieldNumber =>
    .file (db.findFileContainingExtension containingType fieldNumber)
  | .allExtensionNumbers extendeeType => .numbers (db.findAllExtensionNumbers extendeeType)

namespace EncodedIndex
variable (parse : Encoded → Option FileDescriptorProto)

/-- `MaybeParse`. -/
def maybeParse (encodedFile : Option Encoded) : Option FileDescriptorProto := encodedFile.bind parse

/-- The answer of a lookup in the flat vectors. -/
def answer (index : EncodedIndex) : Lookup → Answer
  | .fileByName filename => .file (maybeParse parse (index.findFile filename))
  | .fileContainingSymbol symbolName => .file (maybeParse parse (index.findSymbolOnlyFlat symbolName))
  | .fileContainingExtension containingType fieldNumber =>
    .file (maybeParse parse (index.findExtension containingType fieldNumber))
  | .allExtensionNumbers extendeeType => .numbers (index.findAllExtensionNumbers extendeeType)

/-- `EncodedDescriptorDatabase::Add`. -/
def add (encoded : Encoded) (index : EncodedIndex) : Attempt EncodedIndex :=
  match parse encoded with
  | some file => addFile file encoded index
  | none => (false, index)

/-- A call of the database; a lookup makes the index flat. -/
def call (index : EncodedIndex) : Call → Answer × EncodedIndex
  | .add encoded => let added := add parse encoded index; (.added added.1, added.2)
  | .lookup lookup => (answer parse index.ensureFlat lookup, index.ensureFlat)

def after (calls : List Call) : EncodedIndex :=
  calls.foldl (fun index c => (call parse index c).2) empty

end EncodedIndex

end Protoc.Database
