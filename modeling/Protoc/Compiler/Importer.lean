import Protoc.Util.FieldMask

/-!
# The disk source tree

Virtual file names are mapped to files on disk through a list of mappings, and back.  This is
the POSIX build; a file name is a string of bytes.  The system calls answer from a file system
that does not change, and set `errno` where they fail.
-/

namespace Protoc.Compiler

open Protoc.Lib
open Protoc.Util (Str)

def slash : UInt8 := 47

/-- The part `.`, which names the same directory. -/
def currentDirectory : Str := [46]

/-- The part `..`, which names the parent directory. -/
def parentDirectory : Str := [46, 46]

def text (s : String) : Str := s.toList.map fun c => c.toNat.toUInt8

/-! ## Paths -/

/-- `CanonicalizePath`: without `.` and without empty parts. -/
def canonicalizePath (path : Str) : Str :=
  let parts := split slash path
  let canonicalParts := parts.filter (· ≠ currentDirectory)
  let result := [slash].intercalate canonicalParts
  -- restore leading slash
  let result := if path.head? = some slash then slash :: result else result
  -- restore trailing slash
  if path.getLast? = some slash ∧ result ≠ [] ∧ result.getLast? ≠ some slash then result ++ [slash]
  else result

/-- `ContainsParentReference`. -/
def containsParentReference (path : Str) : Prop :=
  path = parentDirectory ∨ parentDirectory ++ [slash] <+: path ∨ slash :: parentDirectory <:+ path ∨
    slash :: parentDirectory ++ [slash] <:+: path

instance decidableContainsParentReference (path : Str) : Decidable (containsParentReference path) := by
  unfold containsParentReference
  infer_instance

/-- A file name after a prefix that is not empty gets a slash in between. -/
def underPrefix (newPrefix rest : Str) : Str :=
  (if newPrefix ≠ [] then newPrefix ++ [slash] else newPrefix) ++ rest

/-- `ApplyMapping`: the result, or `none` where the file name does not start with the old prefix. -/
def applyMapping (filename oldPrefix newPrefix : Str) : Option Str :=
  if oldPrefix = [] then
    -- the empty prefix matches any relative path
    if containsParentReference filename then none
    else if [slash] <+: filename then none
    else some (underPrefix newPrefix filename)
  else if oldPrefix <+: filename then
    if filename.length = oldPrefix.length then some newPrefix
    else
      let afterPrefixStart : Int :=
        if filename[oldPrefix.length]? = some slash then oldPrefix.length + 1
        else if filename[oldPrefix.length - 1]? = some slash then oldPrefix.length
        else -1
      if afterPrefixStart ≠ -1 then
        let afterPrefix := filename.drop afterPrefixStart.toNat
        if containsParentReference afterPrefix then none
        else some (underPrefix newPrefix afterPrefix)
      else none
  else none

/-! ## The file system -/

/-- `EACCES`. -/
def eacces : Int := 13

/-- What the system calls answer for a file name, given as a C string.  Calls that are interrupted
are repeated, so the answer is the last one. -/
structure FileSystem where
  /-- `access(filename, F_OK)`: the file exists, or `errno`. -/
  access : Str → Except Int Unit
  /-- `stat`: whether it is a directory, or `errno`. -/
  stat : Str → Except Int Bool
  /-- `open(filename, O_RDONLY)`: a file descriptor, or `errno`. -/
  openFile : Str → Except Int ℕ

/-- What the functions change, and the file names handed to `OpenDiskFile` so far. -/
structure State where
  /-- `errno`. -/
  errno : Int
  /-- `last_error_message_`. -/
  lastErrorMessage : Str
  /-- The file names, in order. -/
  opened : List Str

/-- `Mapping`. -/
structure Mapping where
  /-- `virtual_path`. -/
  virtualPath : Str
  /-- `disk_path`. -/
  diskPath : Str
  deriving DecidableEq

/-- `MapPath`. -/
def mapPath (virtualPath diskPath : Str) (mappings : List Mapping) : List Mapping :=
  mappings ++ [⟨virtualPath, canonicalizePath diskPath⟩]

section Calls
variable (fs : FileSystem)

/-- `OpenDiskFile`: whether a stream is returned. -/
def openDiskFile (filename : Str) (st : State) : Bool × State :=
  let st := { st with opened := st.opened ++ [filename] }
  match fs.stat filename with
  | .ok true => (false, { st with lastErrorMessage := text "Input file is a directory." })
  | statResult =>
    -- a failed call has left its error number
    let st := match statResult with
      | .error errno => { st with errno := errno }
      | .ok _ => st
    match fs.openFile filename with
    | .ok _ => (true, st)
    | .error errno => (false, { st with errno := errno })

/-- The message of `OpenVirtualFile` for a file name that is not allowed. -/
def invalidVirtualPath : Str :=
  text "Backslashes, consecutive slashes, \".\", or \"..\" are not allowed in the virtual path"

/-- The loop of `OpenVirtualFile` over the mappings. -/
def openMappings (virtualFile : Str) : List Mapping → State → Option Str × State
  | [], st => (none, { st with lastErrorMessage := text "File not found." })
  | mapping :: mappings, st =>
    match applyMapping virtualFile mapping.virtualPath mapping.diskPath with
    | none => openMappings virtualFile mappings st
    | some tempDiskFile =>
      let result := openDiskFile fs tempDiskFile st
      if result.1 then (some tempDiskFile, result.2)
      else if result.2.errno = eacces then
        -- the file exists but is not readable
        (none, { result.2 with
          lastErrorMessage := text "Read access is denied for file: " ++ tempDiskFile })
      else openMappings virtualFile mappings result.2

/-- `OpenVirtualFile`: the file on disk whose stream is returned. -/
def openVirtualFile (mappings : List Mapping) (virtualFile : Str) (st : State) : Option Str × State :=
  if virtualFile ≠ canonicalizePath virtualFile ∨ containsParentReference virtualFile then
    (none, { st with lastErrorMessage := invalidVirtualPath })
  else openMappings fs virtualFile mappings st

/-- `VirtualFileToDiskFile`. -/
def virtualFileToDiskFile (mappings : List Mapping) (virtualFile : Str) (st : State) : Option Str × State :=
  openVirtualFile fs mappings virtualFile st

/-- `DiskFileToVirtualFileResult`. -/
inductive DiskFileToVirtualFileResult where
  | success
  | shadowed
  | cannotOpen
  | noMapping
  deriving DecidableEq

/-- The first mapping that applies in reverse: its position and the virtual file. -/
def reverseMapping (canonicalDiskFile : Str) : List Mapping → Option (ℕ × Str)
  | [] => none
  | mapping :: mappings =>
    match applyMapping canonicalDiskFile mapping.diskPath mapping.virtualPath with
    | some virtualFile => some (0, virtualFile)
    | none => (reverseMapping canonicalDiskFile mappings).map fun found => (found.1 + 1, found.2)

/-- The first existing file to which one of the mappings takes the virtual file. -/
def shadowingFile (virtualFile : Str) : List Mapping → State → Option Str × State
  | [], st => (none, st)
  | mapping :: mappings, st =>
    match applyMapping virtualFile mapping.virtualPath mapping.diskPath with
    | some shadowingDiskFile =>
      match fs.access shadowingDiskFile with
      | .ok _ => (some shadowingDiskFile, st)
      | .error errno => shadowingFile virtualFile mappings { st with errno := errno }
    | none => shadowingFile virtualFile mappings st

/-- What `DiskFileToVirtualFile` returns and fills in. -/
structure VirtualFile where
  /-- The result. -/
  result : DiskFileToVirtualFileResult
  /-- `*virtual_file`. -/
  virtualFile : Str
  /-- `*shadowing_disk_file`. -/
  shadowingDiskFile : Str

/-- `DiskFileToVirtualFile`. -/
def diskFileToVirtualFile (mappings : List Mapping) (diskFile : Str) (st : State) : VirtualFile × State :=
  match reverseMapping (canonicalizePath diskFile) mappings with
  | none => (⟨.noMapping, [], []⟩, st)
  | some (mappingIndex, virtualFile) =>
    -- mappings with higher precedence must not map this file to some other existing file
    let shadowing := shadowingFile fs virtualFile (mappings.take mappingIndex) st
    match shadowing.1 with
    | some shadowingDiskFile => (⟨.shadowed, virtualFile, shadowingDiskFile⟩, shadowing.2)
    | none =>
      let stream := openDiskFile fs diskFile shadowing.2
      if stream.1 then (⟨.success, virtualFile, []⟩, stream.2)
      else (⟨.cannotOpen, virtualFile, []⟩, stream.2)

end Calls

end Protoc.Compiler
