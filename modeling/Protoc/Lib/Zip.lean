import Protoc.Lib.Words
import Protoc.Lib.Crc

/-!
# ZIP files

Reading an archive of stored members: the end record at the end of the file, the central directory
where it says, and the local headers where the directory says.
-/

namespace Protoc.Lib.Zip

open List Option

/-! ## Fields -/

def writeFields : List (ℕ × ℕ) → List UInt8
  | [] => []
  | (width, value) :: fields => leBytes width value ++ writeFields fields

def readBytes (n : ℕ) (bytes : List UInt8) : Option (List UInt8 × List UInt8) :=
  if n ≤ bytes.length then some (bytes.take n, bytes.drop n) else none

/-- Numbers of so many bytes each, and the rest. -/
def readFields : List ℕ → List UInt8 → Option (List ℕ × List UInt8)
  | [], bytes => some ([], bytes)
  | width :: widths, bytes => do
      let (field, bytes) ← readBytes width bytes
      let (values, bytes) ← readFields widths bytes
      some (leValue field :: values, bytes)

theorem readBytes_append (bytes rest : List UInt8) :
    readBytes bytes.length (bytes ++ rest) = some (bytes, rest) := by
  rw [readBytes, if_pos (by simp), take_left, drop_left]

theorem readFields_append {fields : List (ℕ × ℕ)} (h : ∀ f ∈ fields, f.2 < 256 ^ f.1) (rest : List UInt8) :
    readFields (fields.map Prod.fst) (writeFields fields ++ rest) = some (fields.map Prod.snd, rest) := by
  induction fields with
  | nil => rfl
  | cons f fields ih =>
    obtain ⟨width, value⟩ := f
    obtain ⟨hvalue, hfields⟩ := forall_mem_cons.mp h
    have hread : readBytes width (leBytes width value ++ (writeFields fields ++ rest)) =
        some (leBytes width value, writeFields fields ++ rest) := by
      have hbytes := readBytes_append (leBytes width value) (writeFields fields ++ rest)
      rwa [length_leBytes] at hbytes
    rw [writeFields, map_cons, map_cons, readFields, append_assoc, hread]
    simp only [bind_eq_bind, bind_some, ih hfields, leValue_leBytes hvalue]

theorem length_writeFields (fields : List (ℕ × ℕ)) :
    (writeFields fields).length = (fields.map Prod.fst).sum := by
  induction fields with
  | nil => rfl
  | cons f fields ih => rw [writeFields, length_append, length_leBytes, ih, map_cons, sum_cons]

/-! ## Headers -/

/-- What the headers of a member say of it. -/
structure Header where
  name : List UInt8
  crc : ℕ
  compressedSize : ℕ
  size : ℕ
  method : ℕ
deriving DecidableEq

/-- The fields of a local header: magic, version, flags, method, time, date, CRC-32, compressed and
uncompressed size, and the lengths of the name and of the extra field. -/
def localWidths : List ℕ := [4, 2, 2, 2, 2, 2, 4, 4, 4, 2, 2]

/-- A local header, and what follows it. -/
def readLocal (bytes : List UInt8) : Option (Header × List UInt8) := do
  let (values, bytes) ← readFields localWidths bytes
  if values.getD 0 0 = 0x04034b50 then do
    let (name, bytes) ← readBytes (values.getD 9 0) bytes
    let (_, bytes) ← readBytes (values.getD 10 0) bytes
    some (⟨name, values.getD 6 0, values.getD 7 0, values.getD 8 0, values.getD 3 0⟩, bytes)
  else none

/-- What the headers of an archive have in common. -/
structure Stamp where
  made : UInt16
  version : UInt16
  flags : UInt16
  time : UInt16
  date : UInt16

/-- The numbers of a header fit into their fields. -/
structure Header.Fits (h : Header) : Prop where
  name : h.name.length < 256 ^ 2
  crc : h.crc < 256 ^ 4
  compressedSize : h.compressedSize < 256 ^ 4
  size : h.size < 256 ^ 4
  method : h.method < 256 ^ 2

variable {stamp : Stamp} {h : Header}

/-- The fields of a local header without an extra field. -/
def localFields (stamp : Stamp) (h : Header) : List (ℕ × ℕ) :=
  [(4, 0x04034b50), (2, stamp.version.toNat), (2, stamp.flags.toNat), (2, h.method),
    (2, stamp.time.toNat), (2, stamp.date.toNat), (4, h.crc), (4, h.compressedSize), (4, h.size),
    (2, h.name.length), (2, 0)]

def writeLocal (stamp : Stamp) (h : Header) : List UInt8 := writeFields (localFields stamp h) ++ h.name

theorem UInt16.toNat_fits (n : UInt16) : n.toNat < 256 ^ 2 := n.toNat_lt

theorem Header.Fits.localFields_fit (hfits : h.Fits) (stamp : Stamp) : ∀ f ∈ localFields stamp h, f.2 < 256 ^ f.1 := by
  simp only [localFields, forall_mem_cons, not_mem_nil, false_implies, implies_true, and_true]
  exact ⟨by decide, UInt16.toNat_fits _, UInt16.toNat_fits _, hfits.method, UInt16.toNat_fits _,
    UInt16.toNat_fits _, hfits.crc, hfits.compressedSize, hfits.size, hfits.name, by decide⟩

theorem readBytes_zero (bytes : List UInt8) : readBytes 0 bytes = some ([], bytes) := rfl

/-- **A local header** is read as it was written. -/
theorem Header.Fits.readLocal_append (hfits : h.Fits) (rest : List UInt8) :
    readLocal (writeLocal stamp h ++ rest) = some (h, rest) := by
  have hfields := readFields_append (hfits.localFields_fit stamp) (h.name ++ rest)
  have hwidths : (localFields stamp h).map Prod.fst = localWidths := rfl
  rw [hwidths] at hfields
  rw [readLocal, writeLocal, append_assoc, hfields]
  simp only [bind_eq_bind, bind_some, localFields, map_cons, map_nil,
    getD_cons_zero, getD_cons_succ, if_true, readBytes_append, readBytes_zero]

/-- The fields of a header in the central directory: after the magic and two versions those of a
local header, then the length of the comment, the disk number, the attributes and the offset of
the local header. -/
def centralWidths : List ℕ := [4, 2, 2, 2, 2, 2, 2, 4, 4, 4, 2, 2, 2, 2, 2, 4, 4]

/-- A header of the central directory with the offset of the local one, and what follows it. -/
def readCentral (bytes : List UInt8) : Option ((Header × ℕ) × List UInt8) := do
  let (values, bytes) ← readFields centralWidths bytes
  if values.getD 0 0 = 0x02014b50 ∧ values.getD 13 0 = 0 then do
    let (name, bytes) ← readBytes (values.getD 10 0) bytes
    let (_, bytes) ← readBytes (values.getD 11 0) bytes
    let (_, bytes) ← readBytes (values.getD 12 0) bytes
    some ((⟨name, values.getD 7 0, values.getD 8 0, values.getD 9 0, values.getD 4 0⟩, values.getD 16 0), bytes)
  else none

/-- The fields of a header in the central directory, without an extra field or a comment. -/
def centralFields (stamp : Stamp) (h : Header) (offset : ℕ) : List (ℕ × ℕ) :=
  [(4, 0x02014b50), (2, stamp.made.toNat), (2, stamp.version.toNat), (2, stamp.flags.toNat),
    (2, h.method), (2, stamp.time.toNat), (2, stamp.date.toNat), (4, h.crc), (4, h.compressedSize),
    (4, h.size), (2, h.name.length), (2, 0), (2, 0), (2, 0), (2, 0), (4, 0), (4, offset)]

def writeCentral (stamp : Stamp) (h : Header) (offset : ℕ) : List UInt8 :=
  writeFields (centralFields stamp h offset) ++ h.name

variable {offset : ℕ}

theorem Header.Fits.centralFields_fit (hfits : h.Fits) (stamp : Stamp) (hoffset : offset < 256 ^ 4) :
    ∀ f ∈ centralFields stamp h offset, f.2 < 256 ^ f.1 := by
  simp only [centralFields, forall_mem_cons, not_mem_nil, false_implies, implies_true, and_true]
  exact ⟨by decide, UInt16.toNat_fits _, UInt16.toNat_fits _, UInt16.toNat_fits _, hfits.method,
    UInt16.toNat_fits _, UInt16.toNat_fits _, hfits.crc, hfits.compressedSize, hfits.size, hfits.name,
    by decide, by decide, by decide, by decide, by decide, hoffset⟩

/-- **A header in the central directory** is read as it was written. -/
theorem Header.Fits.readCentral_append (hfits : h.Fits) (hoffset : offset < 256 ^ 4) (rest : List UInt8) :
    readCentral (writeCentral stamp h offset ++ rest) = some ((h, offset), rest) := by
  have hfields := readFields_append (hfits.centralFields_fit stamp hoffset) (h.name ++ rest)
  have hwidths : (centralFields stamp h offset).map Prod.fst = centralWidths := rfl
  rw [hwidths] at hfields
  rw [readCentral, writeCentral, append_assoc, hfields]
  simp only [bind_eq_bind, bind_some, centralFields, map_cons, map_nil,
    getD_cons_zero, getD_cons_succ, and_self, if_true, readBytes_append, readBytes_zero]

/-- A central directory of so many headers and nothing else. -/
def readDirectory : ℕ → List UInt8 → Option (List (Header × ℕ))
  | 0, bytes => if bytes = [] then some [] else none
  | n + 1, bytes => do
      let (header, bytes) ← readCentral bytes
      let headers ← readDirectory n bytes
      some (header :: headers)

/-- The fields of the end record: magic, the disks of the end and of the directory, the members on
this disk and in all, the length and the offset of the directory, and the length of the comment. -/
def endWidths : List ℕ := [4, 2, 2, 2, 2, 4, 4, 2]

def endLength : ℕ := 22

/-- The number of members, and the length and the offset of the directory. -/
def readEnd (bytes : List UInt8) : Option (ℕ × ℕ × ℕ) := do
  let (values, bytes) ← readFields endWidths bytes
  if values.getD 0 0 = 0x06054b50 ∧ values.getD 1 0 = 0 ∧ values.getD 2 0 = 0 ∧
      values.getD 3 0 = values.getD 4 0 ∧ values.getD 7 0 = 0 ∧ bytes = [] then
    some (values.getD 4 0, values.getD 5 0, values.getD 6 0)
  else none

def endFields (members length offset : ℕ) : List (ℕ × ℕ) :=
  [(4, 0x06054b50), (2, 0), (2, 0), (2, members), (2, members), (4, length), (4, offset), (2, 0)]

/-- **The end record** is read as it was written. -/
theorem readEnd_writeFields {members length offset : ℕ} (hmembers : members < 256 ^ 2)
    (hlength : length < 256 ^ 4) (hoffset : offset < 256 ^ 4) :
    readEnd (writeFields (endFields members length offset)) = some (members, length, offset) := by
  have hfit : ∀ f ∈ endFields members length offset, f.2 < 256 ^ f.1 := by
    simp only [endFields, forall_mem_cons, not_mem_nil, false_implies, implies_true, and_true]
    exact ⟨by decide, by decide, by decide, hmembers, hmembers, hlength, hoffset, by decide⟩
  have hfields := readFields_append hfit []
  have hwidths : (endFields members length offset).map Prod.fst = endWidths := rfl
  rw [hwidths, append_nil] at hfields
  rw [readEnd, hfields]
  simp only [bind_eq_bind, bind_some, endFields, map_cons, map_nil,
    getD_cons_zero, getD_cons_succ, and_self, if_true]

/-! ## The archive -/

/-- A stored member: the local header at the offset says what the directory says, and the contents
follow it. -/
def readMember (file : List UInt8) (entry : Header × ℕ) : Option (List UInt8 × List UInt8) := do
  let (header, bytes) ← readLocal (file.drop entry.2)
  let (contents, _) ← readBytes entry.1.size bytes
  if header = entry.1 ∧ header.method = 0 ∧ header.compressedSize = header.size ∧
      (Crc.crc32 contents).toNat = header.crc then
    some (header.name, contents)
  else none

/-- The names and contents of the members. -/
def readArchive (file : List UInt8) : Option (List (List UInt8 × List UInt8)) := do
  let (members, length, offset) ← readEnd (file.drop (file.length - endLength))
  if offset + length + endLength ≤ file.length then do
    let directory ← readDirectory members ((file.drop offset).take length)
    directory.mapM (readMember file)
  else none

def headerOf (member : List UInt8 × List UInt8) : Header :=
  ⟨member.1, (Crc.crc32 member.2).toNat, member.2.length, member.2.length, 0⟩

def writeMembers (stamp : Stamp) : List (List UInt8 × List UInt8) → List UInt8
  | [] => []
  | member :: members => writeLocal stamp (headerOf member) ++ (member.2 ++ writeMembers stamp members)

def placed (stamp : Stamp) : ℕ → List (List UInt8 × List UInt8) → List (Header × ℕ)
  | _, [] => []
  | offset, member :: members => (headerOf member, offset) ::
      placed stamp (offset + (writeLocal stamp (headerOf member) ++ member.2).length) members

def writeDirectory (stamp : Stamp) (entries : List (Header × ℕ)) : List UInt8 :=
  entries.flatMap fun entry => writeCentral stamp entry.1 entry.2

def writeArchive (stamp : Stamp) (members : List (List UInt8 × List UInt8)) : List UInt8 :=
  let body := writeMembers stamp members
  let directory := writeDirectory stamp (placed stamp 0 members)
  body ++ (directory ++ writeFields (endFields members.length directory.length body.length))

theorem length_placed (offset : ℕ) (members : List (List UInt8 × List UInt8)) :
    (placed stamp offset members).length = members.length := by
  induction members generalizing offset with
  | nil => rfl
  | cons member members ih => rw [placed, length_cons, length_cons, ih]

variable {members : List (List UInt8 × List UInt8)}

theorem placed_fits (hnames : ∀ m ∈ members, m.1.length < 256 ^ 2)
    (hlength : offset + (writeMembers stamp members).length < 256 ^ 4) :
    ∀ e ∈ placed stamp offset members, e.1.Fits ∧ e.2 < 256 ^ 4 := by
  induction members generalizing offset with
  | nil => exact nofun
  | cons member members ih =>
    obtain ⟨hname, hnames⟩ := forall_mem_cons.mp hnames
    rw [writeMembers, length_append, length_append] at hlength
    have hhead : (headerOf member).Fits := {
      name := hname
      crc := (Crc.crc32 member.2).isLt
      compressedSize := by
        change member.2.length < 256 ^ 4
        omega
      size := by
        change member.2.length < 256 ^ 4
        omega
      method := by
        change 0 < 256 ^ 2
        omega }
    rw [placed, forall_mem_cons]
    constructor
    · exact ⟨hhead, by omega⟩
    · apply ih hnames
      rw [length_append]
      omega

/-- **The central directory** is read as it was written. -/
theorem readDirectory_writeDirectory (stamp : Stamp) {entries : List (Header × ℕ)}
    (hfits : ∀ e ∈ entries, e.1.Fits ∧ e.2 < 256 ^ 4) :
    readDirectory entries.length (writeDirectory stamp entries) = some entries := by
  induction entries with
  | nil => rfl
  | cons e entries ih =>
    obtain ⟨⟨hhead, hoffset⟩, hrest⟩ := forall_mem_cons.mp hfits
    rw [length_cons, readDirectory, writeDirectory, flatMap_cons, hhead.readCentral_append hoffset]
    simp only [bind_eq_bind, bind_some]
    rw [show entries.flatMap (fun entry => writeCentral stamp entry.1 entry.2) =
      writeDirectory stamp entries from rfl, ih hrest, bind_some]

/-- **A member** is found where the directory says. -/
theorem readMember_append (stamp : Stamp) {member : List UInt8 × List UInt8}
    (hfits : (headerOf member).Fits) (before after : List UInt8) :
    readMember (before ++ (writeLocal stamp (headerOf member) ++ (member.2 ++ after)))
      (headerOf member, before.length) = some member := by
  rw [readMember, drop_left, hfits.readLocal_append]
  change (readBytes member.2.length (member.2 ++ after)).bind _ = _
  rw [readBytes_append]
  exact if_pos ⟨rfl, rfl, rfl, rfl⟩

theorem mapM_readMember (before after : List UInt8)
    (hfits : ∀ e ∈ placed stamp before.length members, e.1.Fits ∧ e.2 < 256 ^ 4) :
    (placed stamp before.length members).mapM
      (readMember (before ++ (writeMembers stamp members ++ after))) = some members := by
  induction members generalizing before with
  | nil => rfl
  | cons member members ih =>
    obtain ⟨⟨hhead, -⟩, hrest⟩ := forall_mem_cons.mp hfits
    have hmember := readMember_append stamp hhead before (writeMembers stamp members ++ after)
    have hbefore : before.length + (writeLocal stamp (headerOf member) ++ member.2).length =
        (before ++ (writeLocal stamp (headerOf member) ++ member.2)).length :=
      (length_append ..).symm
    rw [hbefore] at hrest
    have hmembers := ih _ hrest
    simp only [append_assoc] at hmember hmembers
    rw [placed, mapM_cons, writeMembers, hbefore]
    simp only [append_assoc, hmember, hmembers, bind_eq_bind, bind_some]
    rfl

/-- **An archive is read as it was written**, if its numbers fit into their fields. -/
theorem readArchive_writeArchive
    (hcount : members.length < 256 ^ 2) (hnames : ∀ m ∈ members, m.1.length < 256 ^ 2)
    (hlength : (writeArchive stamp members).length < 256 ^ 4) :
    readArchive (writeArchive stamp members) = some members := by
  have hend : ∀ a b c, (writeFields (endFields a b c)).length = endLength := fun a b c =>
    length_writeFields _
  rw [writeArchive] at hlength ⊢
  generalize hbody : writeMembers stamp members = body at hlength ⊢
  generalize hdirectory : writeDirectory stamp (placed stamp 0 members) = directory at hlength ⊢
  rw [length_append, length_append, hend] at hlength
  have hfits : ∀ e ∈ placed stamp 0 members, e.1.Fits ∧ e.2 < 256 ^ 4 := by
    apply placed_fits hnames
    rw [hbody]
    omega
  have hread : readDirectory members.length directory = some (placed stamp 0 members) := by
    have h := readDirectory_writeDirectory stamp hfits
    rwa [length_placed, hdirectory] at h
  have hmembers := mapM_readMember []
    (directory ++ writeFields (endFields members.length directory.length body.length)) hfits
  rw [nil_append, hbody] at hmembers
  have hstart : (body ++ (directory ++ writeFields (endFields members.length directory.length
      body.length))).length - endLength = (body ++ directory).length := by
    rw [length_append, length_append, hend, length_append]
    omega
  rw [readArchive, hstart, ← append_assoc, drop_left,
    readEnd_writeFields hcount (by omega) (by omega), append_assoc]
  simp only [bind_eq_bind, bind_some]
  rw [if_pos (by rw [length_append, length_append, hend]; omega), drop_left, take_left, hread]
  exact hmembers

end Protoc.Lib.Zip
