import Protoc.Lib.Attempt
import Protoc.Lib.Dotted
import Protoc.Util.FieldMask

/-!
# What a descriptor database indexes

A file declares symbols, and extensions of messages.  The two databases go through a file in
the same order and differ in what they do for each of them.
-/

namespace Protoc.Database

open Protoc.Lib Attempt
open Protoc.Util (Str dot)

/-- `FieldDescriptorProto`, for an extension. -/
structure FieldDescriptorProto where
  /-- The name of the extension. -/
  name : Str
  /-- The message it extends. -/
  extendee : Str
  /-- Its number. -/
  number : Int
  deriving DecidableEq

/-- `DescriptorProto`: the name, the nested types and the extensions declared inside. -/
inductive DescriptorProto where
  | mk (name : Str) (nestedType : List DescriptorProto) (extension : List FieldDescriptorProto)

def DescriptorProto.name : DescriptorProto → Str
  | .mk name _ _ => name

/-- `FileDescriptorProto`. -/
structure FileDescriptorProto where
  /-- The name of the file. -/
  name : Str
  /-- The package, if the file has one. -/
  package : Option Str
  /-- The messages at the top level. -/
  messageType : List DescriptorProto
  /-- The names of the enums at the top level. -/
  enumType : List Str
  /-- The extensions declared at the top level. -/
  extension : List FieldDescriptorProto
  /-- The names of the services. -/
  service : List Str

/-- `file.package()`: empty where there is none. -/
def FileDescriptorProto.packageName (file : FileDescriptorProto) : Str := file.package.getD []

/-! ## Tests on names -/

/-- `ValidateSymbolName`: letters, digits, underscores and dots. -/
def validateSymbolName (name : Str) : Bool := name.all fun c =>
    c == 46 || c == 95 || (48 ≤ c && c ≤ 57) || (65 ≤ c && c ≤ 90) || (97 ≤ c && c ≤ 122)

/-- `IsSubSymbol`: the arguments are equal, or the second goes on with a dot. -/
def isSubSymbol (subSymbol superSymbol : Str) : Bool := subSymbol == superSymbol ||
    (subSymbol.isPrefixOf superSymbol && superSymbol[subSymbol.length]? == some dot)

/-- `FindLastLessOrEqual`: the entry before the upper bound, and the first one where there is
none. -/
def findLastLessOrEqual (upperBound : ℕ) : ℕ := if upperBound ≠ 0 then upperBound - 1 else upperBound

/-- `CheckForMutualSubsymbols` at an entry and the one after it. -/
def checkForMutualSubsymbols {ε : Type} (asString : ε → Str) (container : List ε) (symbolName : Str)
    (iter : ℕ) : Bool :=
  match container[iter]? with
  | none => true
  | some found =>
    if isSubSymbol (asString found) symbolName then false
    else
      match container[iter + 1]? with
      | none => true
      | some next => !isSubSymbol symbolName (asString next)

/-! ## Going through a file -/

section Contents
variable {σ : Type} (addSymbol : Str → σ → Attempt σ) (addExtension : FieldDescriptorProto → σ → Attempt σ)

mutual

/-- `AddNestedExtensions`. -/
def addNestedExtensions : DescriptorProto → σ → Attempt σ
  | .mk _ nestedType extension, s =>
    andThen (addNestedTypes nestedType s) (forAll addExtension extension)

/-- The loop of `AddNestedExtensions` over the nested types. -/
def addNestedTypes : List DescriptorProto → σ → Attempt σ
  | [], s => (true, s)
  | messageType :: rest, s =>
    andThen (addNestedExtensions messageType s) (addNestedTypes rest)

end

/-- The loops of `AddFile`. -/
def addContents (file : FileDescriptorProto) (s : σ) : Attempt σ :=
  let messages := forAll
    (fun messageType s => andThen (addSymbol messageType.name s)
      (addNestedExtensions addExtension messageType)) file.messageType s
  let enums := andThen messages (forAll addSymbol file.enumType)
  let extensions := andThen enums (forAll
    (fun field s => andThen (addSymbol field.name s) (addExtension field)) file.extension)
  andThen extensions (forAll addSymbol file.service)

end Contents

/-- What a file adds to an index. -/
inductive Entry where
  /-- A symbol at the top level. -/
  | symbol (name : Str)
  /-- An extension. -/
  | extension (field : FieldDescriptorProto)

mutual

/-- The extensions in a message, in the order they are added. -/
def nestedExtensions : DescriptorProto → List FieldDescriptorProto
  | .mk _ nestedType extension => nestedTypes nestedType ++ extension

def nestedTypes : List DescriptorProto → List FieldDescriptorProto
  | [] => []
  | messageType :: rest => nestedExtensions messageType ++ nestedTypes rest

end

/-- What a file adds, in order. -/
def FileDescriptorProto.entries (file : FileDescriptorProto) : List Entry :=
  file.messageType.flatMap (fun messageType =>
      .symbol messageType.name :: (nestedExtensions messageType).map .extension) ++
    file.enumType.map .symbol ++
    file.extension.flatMap (fun field => [.symbol field.name, .extension field]) ++
    file.service.map .symbol

section Contents
variable {σ : Type} (addSymbol : Str → σ → Attempt σ) (addExtension : FieldDescriptorProto → σ → Attempt σ)

def addEntry : Entry → σ → Attempt σ
  | .symbol name => addSymbol name
  | .extension field => addExtension field

mutual

theorem addNestedExtensions_eq : ∀ (messageType : DescriptorProto) (s : σ),
    addNestedExtensions addExtension messageType s =
      forAll addExtension (nestedExtensions messageType) s
  | .mk _ nestedType extension, s => by
      rw [addNestedExtensions, nestedExtensions, forAll_append, addNestedTypes_eq nestedType]

theorem addNestedTypes_eq : ∀ (types : List DescriptorProto) (s : σ),
    addNestedTypes addExtension types s = forAll addExtension (nestedTypes types) s
  | [], s => by rw [addNestedTypes, nestedTypes, forAll_nil]
  | messageType :: rest, s => by
      rw [addNestedTypes, nestedTypes, forAll_append, addNestedExtensions_eq messageType]
      congr 1
      exact funext (addNestedTypes_eq rest)

end

/-- **The loops of `AddFile` are one loop over the entries.** -/
theorem addContents_eq (file : FileDescriptorProto) (s : σ) : addContents addSymbol addExtension file s =
      forAll (addEntry addSymbol addExtension) file.entries s := by
  have hmessage : (fun messageType s => andThen (addSymbol messageType.name s)
      (addNestedExtensions addExtension messageType)) =
      fun messageType => forAll (addEntry addSymbol addExtension)
        (.symbol messageType.name :: (nestedExtensions messageType).map .extension) := by
    funext messageType s
    rw [forAll_cons]
    congr 1
    funext t
    rw [addNestedExtensions_eq, forAll_map]
    rfl
  have hfield : (fun field s => andThen (addSymbol field.name s) (addExtension field)) =
      fun field : FieldDescriptorProto => forAll (addEntry addSymbol addExtension)
        [.symbol field.name, .extension field] := by
    funext field s
    rw [forAll_cons]
    congr 1
    funext t
    rw [forAll_singleton]
    rfl
  have hnames : ∀ names : List Str, forAll addSymbol names =
      forAll (addEntry addSymbol addExtension) (names.map .symbol) := by
    intro names
    funext t
    rw [forAll_map]
    rfl
  rw [addContents, FileDescriptorProto.entries, forAll_append, forAll_append,
    forAll_append, forAll_flatMap, hmessage, hfield, hnames, hnames]
  congr 2
  funext t
  rw [forAll_flatMap]

end Contents

end Protoc.Database
