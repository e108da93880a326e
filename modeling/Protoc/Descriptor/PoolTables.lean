import Mathlib.Data.Int.Notation
import Protoc.Lib.Undo

/-!
# The tables of a descriptor pool

`DescriptorPool::Tables` of the generated pool: the maps from names to symbols and files, the
extensions, and what was allocated for them.  A checkpoint saves the lengths of the vectors,
and a rollback erases what was added behind them.  In these tables the descriptors of unknown
enum values are allocated too, whatever the file of their enum, and by any thread.

An allocation is known by a number, which is not used again after the allocation is removed.
-/

namespace Protoc.Descriptor

open Function (update)
open Protoc.Lib

abbrev Name := List UInt8

/-- What is left of a string that is passed on as `c_str()`. -/
def cStr (s : Name) : Name := s.takeWhile (· ≠ 0)

/-- A pointer to a descriptor: into an allocation of the tables, or into another pool. -/
inductive DescriptorPtr
  | own (allocation index : ℕ)
  | foreign (descriptor : ℕ)
  deriving DecidableEq

/-- A pointer to the tables of a file: of the pool, or of another one. -/
inductive FileTablesPtr
  | own (allocation : ℕ)
  | foreign (tables : ℕ)
  deriving DecidableEq

/-- `Symbol::Type`. -/
inductive SymbolType
  | nullSymbol | message | field | oneof | enum | enumValue | service | method | package
  deriving DecidableEq

structure Symbol where
  type : SymbolType
  descriptor : DescriptorPtr
  deriving DecidableEq

/-- What is read of an `EnumDescriptor`. -/
structure EnumDescriptor where
  self : DescriptorPtr
  name : Name
  fullName : Name

/-- An `EnumValueDescriptor` that was created; its names are strings of the tables. -/
structure EnumValueDescriptor where
  name : ℕ
  fullName : ℕ
  number : ℤ
  type : DescriptorPtr
  deriving DecidableEq

/-- The maps of `FileDescriptorTables` from an enum and a number to its value. -/
structure FileDescriptorTables where
  enumValuesByNumber : DescriptorPtr × ℤ → Option DescriptorPtr
  unknownEnumValuesByNumber : DescriptorPtr × ℤ → Option DescriptorPtr

/-- `Tables::CheckPoint`. -/
structure CheckPoint where
  stringsBeforeCheckpoint : ℕ
  messagesBeforeCheckpoint : ℕ
  onceDynamicsBeforeCheckpoint : ℕ
  fileTablesBeforeCheckpoint : ℕ
  allocationsBeforeCheckpoint : ℕ
  pendingSymbolsBeforeCheckpoint : ℕ
  pendingFilesBeforeCheckpoint : ℕ
  pendingExtensionsBeforeCheckpoint : ℕ
  deriving DecidableEq

/-- `Tables`.  The keys of the first two maps are strings of the tables. -/
structure Tables where
  allocations : List ℕ
  strings : List ℕ
  messages : List ℕ
  onceDynamics : List ℕ
  fileTables : List ℕ
  symbolsByName : Name → Option (ℕ × Symbol)
  filesByName : Name → Option (ℕ × DescriptorPtr)
  extensions : DescriptorPtr × ℤ → Option DescriptorPtr
  checkpoints : List CheckPoint
  symbolsAfterCheckpoint : List ℕ
  filesAfterCheckpoint : List ℕ
  extensionsAfterCheckpoint : List (DescriptorPtr × ℤ)

/-- The number of the next allocation, and what the allocations hold. -/
structure Memory where
  next : ℕ
  text : ℕ → Name
  enumValue : ℕ → Option EnumValueDescriptor
  fileTables : FileTablesPtr → FileDescriptorTables

def Memory.setFileTables (m : Memory) (tables : FileTablesPtr) (t : FileDescriptorTables) : Memory :=
  { m with fileTables := update m.fileTables tables t }

def Memory.setEnumValue (m : Memory) (allocation : ℕ) (value : EnumValueDescriptor) : Memory :=
  { m with enumValue := update m.enumValue allocation (some value) }

structure Pool where
  tables : Tables
  memory : Memory

/-- The constructor of `CheckPoint`. -/
def CheckPoint.of (tables : Tables) : CheckPoint where
  stringsBeforeCheckpoint := tables.strings.length
  messagesBeforeCheckpoint := tables.messages.length
  onceDynamicsBeforeCheckpoint := tables.onceDynamics.length
  fileTablesBeforeCheckpoint := tables.fileTables.length
  allocationsBeforeCheckpoint := tables.allocations.length
  pendingSymbolsBeforeCheckpoint := tables.symbolsAfterCheckpoint.length
  pendingFilesBeforeCheckpoint := tables.filesAfterCheckpoint.length
  pendingExtensionsBeforeCheckpoint := tables.extensionsAfterCheckpoint.length

namespace Pool

/-- The tables at first.  The files of other pools know their own enum values. -/
def start (known : ℕ → ℕ × ℤ → Option ℕ) : Pool where
  tables := ⟨[], [], [], [], [], fun _ => none, fun _ => none, fun _ => none, [], [], [], []⟩
  memory :=
    { next := 0
      text := fun _ => []
      enumValue := fun _ => none
      fileTables := fun
        | .own _ => ⟨fun _ => none, fun _ => none⟩
        | .foreign n =>
          ⟨fun
            | (.foreign parent, number) => (known n (parent, number)).map .foreign
            | (.own _ _, _) => none,
          fun _ => none⟩ }

/-! ## Checkpoints -/

def addCheckpoint (p : Pool) : Pool :=
  { p with tables.checkpoints := p.tables.checkpoints ++ [.of p.tables] }

/-- `ClearLastCheckpoint`; when the last one is cleared, all is committed. -/
def clearLastCheckpoint (p : Pool) : Pool :=
  let checkpoints := p.tables.checkpoints.dropLast
  if checkpoints = [] then
    { p with
      tables.checkpoints := checkpoints
      tables.symbolsAfterCheckpoint := []
      tables.filesAfterCheckpoint := []
      tables.extensionsAfterCheckpoint := [] }
  else { p with tables.checkpoints := checkpoints }

/-- `RollbackToLastCheckpoint`: the names are read before the strings are removed. -/
def rollbackToLastCheckpoint (p : Pool) : Pool :=
  match p.tables.checkpoints.getLast? with
  | none => p
  | some checkpoint =>
    let t := p.tables
    { p with tables :=
      { allocations := t.allocations.take checkpoint.allocationsBeforeCheckpoint
        strings := t.strings.take checkpoint.stringsBeforeCheckpoint
        messages := t.messages.take checkpoint.messagesBeforeCheckpoint
        onceDynamics := t.onceDynamics.take checkpoint.onceDynamicsBeforeCheckpoint
        fileTables := t.fileTables.take checkpoint.fileTablesBeforeCheckpoint
        symbolsByName := eraseAll t.symbolsByName
          ((t.symbolsAfterCheckpoint.drop checkpoint.pendingSymbolsBeforeCheckpoint).map
            fun s => cStr (p.memory.text s))
        filesByName := eraseAll t.filesByName
          ((t.filesAfterCheckpoint.drop checkpoint.pendingFilesBeforeCheckpoint).map
            fun s => cStr (p.memory.text s))
        extensions := eraseAll t.extensions
          (t.extensionsAfterCheckpoint.drop checkpoint.pendingExtensionsBeforeCheckpoint)
        checkpoints := t.checkpoints.dropLast
        symbolsAfterCheckpoint :=
          t.symbolsAfterCheckpoint.take checkpoint.pendingSymbolsBeforeCheckpoint
        filesAfterCheckpoint := t.filesAfterCheckpoint.take checkpoint.pendingFilesBeforeCheckpoint
        extensionsAfterCheckpoint :=
          t.extensionsAfterCheckpoint.take checkpoint.pendingExtensionsBeforeCheckpoint } }

/-! ## Adding items -/

/-- `AddSymbol`, of a string of the tables. -/
def addSymbol (p : Pool) (fullName : ℕ) (symbol : Symbol) : Bool × Pool :=
  let name := p.memory.text fullName
  if p.tables.symbolsByName name = none then
    (true, { p with
      tables.symbolsByName := update p.tables.symbolsByName name (some (fullName, symbol))
      tables.symbolsAfterCheckpoint := p.tables.symbolsAfterCheckpoint ++ [fullName] })
  else (false, p)

/-- `AddFile`, of a file with its name. -/
def addFile (p : Pool) (name : ℕ) (file : DescriptorPtr) : Bool × Pool :=
  let key := p.memory.text name
  if p.tables.filesByName key = none then
    (true, { p with
      tables.filesByName := update p.tables.filesByName key (some (name, file))
      tables.filesAfterCheckpoint := p.tables.filesAfterCheckpoint ++ [name] })
  else (false, p)

/-- `AddExtension`, of a field with its containing type and its number. -/
def addExtension (p : Pool) (containingType : DescriptorPtr) (number : ℤ)
    (field : DescriptorPtr) : Bool × Pool :=
  let key := (containingType, number)
  if p.tables.extensions key = none then
    (true, { p with
      tables.extensions := update p.tables.extensions key (some field)
      tables.extensionsAfterCheckpoint := p.tables.extensionsAfterCheckpoint ++ [key] })
  else (false, p)

/-- `FileDescriptorTables::AddEnumValueByNumber`, of tables of the pool. -/
def addEnumValueByNumber (p : Pool) (tables : ℕ) (type : DescriptorPtr) (number : ℤ)
    (value : DescriptorPtr) : Bool × Pool :=
  let t := p.memory.fileTables (.own tables)
  if t.enumValuesByNumber (type, number) = none then
    let t := { t with
      enumValuesByNumber := update t.enumValuesByNumber (type, number) (some value) }
    (true, { p with memory := p.memory.setFileTables (.own tables) t })
  else (false, p)

/-! ## Allocating -/

/-- `Allocate`, of an object, which has a size. -/
def allocate (p : Pool) : ℕ × Pool :=
  (p.memory.next, { p with
    tables.allocations := p.tables.allocations ++ [p.memory.next]
    memory.next := p.memory.next + 1
    memory.enumValue := update p.memory.enumValue p.memory.next none })

/-- `AllocateBytes`, and `AllocateArray`, whose count may be 0. -/
def allocateBytes (p : Pool) (size : ℕ) : Option ℕ × Pool :=
  if size = 0 then (none, p) else (some p.allocate.1, p.allocate.2)

/-- `AllocateString`, and `AllocateEmptyString` with what is assigned to it at once. -/
def allocateString (p : Pool) (value : Name) : ℕ × Pool :=
  (p.memory.next, { p with
    tables.strings := p.tables.strings ++ [p.memory.next]
    memory.next := p.memory.next + 1
    memory.text := update p.memory.text p.memory.next value })

def allocateOnceDynamic (p : Pool) : ℕ × Pool :=
  (p.memory.next, { p with
    tables.onceDynamics := p.tables.onceDynamics ++ [p.memory.next]
    memory.next := p.memory.next + 1 })

def allocateMessage (p : Pool) : ℕ × Pool :=
  (p.memory.next, { p with
    tables.messages := p.tables.messages ++ [p.memory.next]
    memory.next := p.memory.next + 1 })

def allocateFileTables (p : Pool) : ℕ × Pool :=
  (p.memory.next, { p with
    tables.fileTables := p.tables.fileTables ++ [p.memory.next]
    memory.next := p.memory.next + 1
    memory.fileTables := update p.memory.fileTables (.own p.memory.next)
      ⟨fun _ => none, fun _ => none⟩ })

/-! ## Unknown enum values -/

/-- `StringPrintf("UNKNOWN_ENUM_VALUE_%s_%d", name, number)`. -/
def unknownValueName (name : Name) (number : ℤ) : Name :=
  "UNKNOWN_ENUM_VALUE_".toUTF8.toList ++ cStr name ++ "_".toUTF8.toList ++
    (toString number).toUTF8.toList

def createsValue (p : Pool) (tables : FileTablesPtr) (parent : EnumDescriptor) (number : ℤ) : Bool :=
  ((p.memory.fileTables tables).enumValuesByNumber (parent.self, number)).isNone &&
    ((p.memory.fileTables tables).unknownEnumValuesByNumber (parent.self, number)).isNone

/-- A new value, of the tables of the generated pool. -/
def createValue (p : Pool) (tables : FileTablesPtr) (parent : EnumDescriptor) (number : ℤ) :
    DescriptorPtr × Pool :=
  let enumValueName := unknownValueName parent.name number
  let result := p.allocate
  let name := result.2.allocateString enumValueName
  let fullName := name.2.allocateString (parent.fullName ++ ".".toUTF8.toList ++ enumValueName)
  let memory := fullName.2.memory.setEnumValue result.1
    ⟨name.1, fullName.1, number, parent.self⟩
  let t := memory.fileTables tables
  let t := { t with
    unknownEnumValuesByNumber :=
      update t.unknownEnumValuesByNumber (parent.self, number) (some (.own result.1 0)) }
  (.own result.1 0, { fullName.2 with memory := memory.setFileTables tables t })

/-- `FindEnumValueByNumberCreatingIfUnknown`, of the tables of the enum's file.  The lookup with
the reader lock and the one with the writer lock are one where the call is one step. -/
def findEnumValueByNumberCreatingIfUnknown (p : Pool) (tables : FileTablesPtr)
    (parent : EnumDescriptor) (number : ℤ) : DescriptorPtr × Pool :=
  match (p.memory.fileTables tables).enumValuesByNumber (parent.self, number) with
  | some desc => (desc, p)
  | none =>
    match (p.memory.fileTables tables).unknownEnumValuesByNumber (parent.self, number) with
    | some desc => (desc, p)
    | none => p.createValue tables parent number

end Pool

/-! ## The calls -/

/-- A call, each one a step. -/
inductive Step
  | addCheckpoint
  | clearLastCheckpoint
  | rollbackToLastCheckpoint
  | addSymbol (fullName : ℕ) (symbol : Symbol)
  | addFile (name : ℕ) (file : DescriptorPtr)
  | addExtension (containingType : DescriptorPtr) (number : ℤ) (field : DescriptorPtr)
  | addEnumValueByNumber (tables : ℕ) (type : DescriptorPtr) (number : ℤ) (value : DescriptorPtr)
  | allocateBytes (size : ℕ)
  | allocateString (value : Name)
  | allocateOnceDynamic
  | allocateMessage
  | allocateFileTables
  | findEnumValueByNumberCreatingIfUnknown (tables : FileTablesPtr) (parent : EnumDescriptor)
      (number : ℤ)

/-- What a call leaves. -/
def Pool.step (p : Pool) : Step → Pool
  | .addCheckpoint => p.addCheckpoint
  | .clearLastCheckpoint => p.clearLastCheckpoint
  | .rollbackToLastCheckpoint => p.rollbackToLastCheckpoint
  | .addSymbol fullName symbol => (p.addSymbol fullName symbol).2
  | .addFile name file => (p.addFile name file).2
  | .addExtension containingType number field => (p.addExtension containingType number field).2
  | .addEnumValueByNumber tables type number value =>
    (p.addEnumValueByNumber tables type number value).2
  | .allocateBytes size => (p.allocateBytes size).2
  | .allocateString value => (p.allocateString value).2
  | .allocateOnceDynamic => p.allocateOnceDynamic.2
  | .allocateMessage => p.allocateMessage.2
  | .allocateFileTables => p.allocateFileTables.2
  | .findEnumValueByNumberCreatingIfUnknown tables parent number =>
    (p.findEnumValueByNumberCreatingIfUnknown tables parent number).2

def DescriptorPtr.Live (t : Tables) : DescriptorPtr → Prop
  | own allocation _ => allocation ∈ t.allocations
  | foreign _ => True

instance (t : Tables) : (d : DescriptorPtr) → Decidable (d.Live t)
  | .own allocation _ => inferInstanceAs (Decidable (allocation ∈ t.allocations))
  | .foreign _ => inferInstanceAs (Decidable True)

def FileTablesPtr.Live (t : Tables) : FileTablesPtr → Prop
  | own allocation => allocation ∈ t.fileTables
  | foreign _ => True

instance (t : Tables) : (f : FileTablesPtr) → Decidable (f.Live t)
  | .own allocation => inferInstanceAs (Decidable (allocation ∈ t.fileTables))
  | .foreign _ => inferInstanceAs (Decidable True)

/-- Where the vector of file tables stood at the last checkpoint. -/
def Tables.fileTablesBefore (t : Tables) : ℕ :=
  (t.checkpoints.getLast?.map CheckPoint.fileTablesBeforeCheckpoint).getD 0

/-- What the callers see to.  A checkpoint ends once.  What is added is there still, and a name
has no null character, which the builder checks.  Values are added to the tables of a file that
is being built, which are allocated behind the file's checkpoint. -/
def Allowed (p : Pool) : Step → Prop
  | .clearLastCheckpoint | .rollbackToLastCheckpoint => p.tables.checkpoints ≠ []
  | .addSymbol fullName symbol =>
    fullName ∈ p.tables.strings ∧ 0 ∉ p.memory.text fullName ∧ symbol.descriptor.Live p.tables
  | .addFile name file => name ∈ p.tables.strings ∧ 0 ∉ p.memory.text name ∧ file.Live p.tables
  | .addExtension containingType _ field => containingType.Live p.tables ∧ field.Live p.tables
  | .addEnumValueByNumber tables type _ value =>
    tables ∈ p.tables.fileTables.drop p.tables.fileTablesBefore ∧ type.Live p.tables ∧
      value.Live p.tables
  | .findEnumValueByNumberCreatingIfUnknown tables parent _ =>
    tables.Live p.tables ∧ parent.self.Live p.tables
  | _ => True

instance (p : Pool) : (step : Step) → Decidable (Allowed p step)
  | .clearLastCheckpoint | .rollbackToLastCheckpoint =>
    inferInstanceAs (Decidable (p.tables.checkpoints ≠ []))
  | .addSymbol fullName symbol =>
    inferInstanceAs (Decidable (fullName ∈ p.tables.strings ∧ 0 ∉ p.memory.text fullName ∧
      symbol.descriptor.Live p.tables))
  | .addFile name file =>
    inferInstanceAs (Decidable (name ∈ p.tables.strings ∧ 0 ∉ p.memory.text name ∧
      file.Live p.tables))
  | .addExtension containingType _ field =>
    inferInstanceAs (Decidable (containingType.Live p.tables ∧ field.Live p.tables))
  | .addEnumValueByNumber tables type _ value =>
    inferInstanceAs (Decidable (tables ∈ p.tables.fileTables.drop p.tables.fileTablesBefore ∧
      type.Live p.tables ∧ value.Live p.tables))
  | .findEnumValueByNumberCreatingIfUnknown tables parent _ =>
    inferInstanceAs (Decidable (tables.Live p.tables ∧ parent.self.Live p.tables))
  | .addCheckpoint | .allocateBytes _ | .allocateString _ | .allocateOnceDynamic
  | .allocateMessage | .allocateFileTables => inferInstanceAs (Decidable True)

/-- The strings of a value that was created are there still. -/
def HasNames (p : Pool) : DescriptorPtr → Prop
  | .own allocation _ => ∀ value, p.memory.enumValue allocation = some value →
      value.name ∈ p.tables.strings ∧ value.fullName ∈ p.tables.strings
  | .foreign _ => True

/-- No table refers to a string or a descriptor whose allocation was removed. -/
structure NoDangling (p : Pool) : Prop where
  symbols : ∀ name s symbol, p.tables.symbolsByName name = some (s, symbol) →
    s ∈ p.tables.strings ∧ symbol.descriptor.Live p.tables
  files : ∀ name s file, p.tables.filesByName name = some (s, file) →
    s ∈ p.tables.strings ∧ file.Live p.tables
  extensions : ∀ key field, p.tables.extensions key = some field →
    key.1.Live p.tables ∧ field.Live p.tables
  pendingSymbols : ∀ s ∈ p.tables.symbolsAfterCheckpoint, s ∈ p.tables.strings
  pendingFiles : ∀ s ∈ p.tables.filesAfterCheckpoint, s ∈ p.tables.strings
  enumValues : ∀ tables : FileTablesPtr, tables.Live p.tables → ∀ key value,
    (p.memory.fileTables tables).enumValuesByNumber key = some value →
      key.1.Live p.tables ∧ value.Live p.tables
  unknownEnumValues : ∀ tables : FileTablesPtr, tables.Live p.tables → ∀ key value,
    (p.memory.fileTables tables).unknownEnumValuesByNumber key = some value →
      key.1.Live p.tables ∧ value.Live p.tables ∧ HasNames p value

end Protoc.Descriptor
