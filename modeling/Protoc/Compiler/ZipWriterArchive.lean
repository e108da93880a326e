import Protoc.Compiler.ZipWriter

/-!
# What the writer of ZIP files leaves
-/

namespace Protoc.Compiler

open Protoc.Lib
open List Option
open Protoc.Io (Buffers WriteOp ZeroCopyOutputStream CodedOutputStream)
open Protoc.Io.EpsCopyOutputStream (Holds)

/-! ## The checksum -/

theorem kCRC32Table_eq :
    kCRC32Table.map UInt32.toBitVec = (List.range 256).map fun i => Crc.steps 0xEDB88320 8 (BitVec.ofNat 32 i) := by
  decide +kernel

theorem getD_kCRC32Table {i : ℕ} (hi : i < 256) :
    (kCRC32Table.getD i 0).toBitVec = Crc.steps 0xEDB88320 8 (BitVec.ofNat 32 i) := by
  have hentry : (kCRC32Table.map UInt32.toBitVec)[i]? = some (Crc.steps 0xEDB88320 8 (BitVec.ofNat 32 i)) := by
    rw [kCRC32Table_eq, List.getElem?_map, List.getElem?_range hi]
    rfl
  rw [List.getElem?_map, map_eq_some_iff] at hentry
  obtain ⟨entry, hentry, heq⟩ := hentry
  rw [getD_eq_getElem?_getD, hentry]
  exact heq

theorem low_byte (y : BitVec 32) : (∀ i < 8, (y &&& 0xff).getLsbD i = y.getLsbD i) ∧ (y &&& 0xff) >>> 8 = 0 := by
  constructor
  · intro i hi
    have hset : ∀ j < 8, (0xff#32).getLsbD j = true := by decide
    rw [BitVec.getLsbD_and]
    exact (congrArg _ (hset i hi)).trans (Bool.and_true _)
  · rw [BitVec.ushiftRight_and_distrib]
    exact BitVec.and_zero

theorem shift_byte (c : UInt8) : c.toBitVec.setWidth 32 >>> 8 = 0 := by
  apply BitVec.eq_of_toNat_eq
  have hc := c.toNat_lt
  rw [BitVec.toNat_ushiftRight, BitVec.toNat_setWidth, Nat.shiftRight_eq_div_pow]
  change c.toNat % _ / _ = 0
  omega

theorem table_step (x : UInt32) (c : UInt8) :
    (kCRC32Table.getD ((x ^^^ c.toUInt32) &&& 0xff).toNat 0 ^^^ (x >>> 8)).toBitVec =
      Crc.steps 0xEDB88320 8 (x.toBitVec ^^^ c.toBitVec.setWidth 32) := by
  have hlow := low_byte (x.toBitVec ^^^ c.toBitVec.setWidth 32)
  have hindex : ((x ^^^ c.toUInt32) &&& 0xff).toNat = ((x.toBitVec ^^^ c.toBitVec.setWidth 32) &&& 0xff).toNat := rfl
  have hlt : ((x ^^^ c.toUInt32) &&& 0xff).toNat < 256 := by
    rw [UInt32.toNat_and]
    exact Nat.lt_succ_of_le Nat.and_le_right
  have hshift : (x >>> 8).toBitVec = (x.toBitVec ^^^ c.toBitVec.setWidth 32) >>> 8 := by
    rw [BitVec.ushiftRight_xor_distrib, shift_byte]
    exact (BitVec.xor_zero).symm
  rw [Crc.steps_eq hlow.1 hlow.2, UInt32.toBitVec_xor, getD_kCRC32Table hlt, hindex, BitVec.ofNat_toNat, hshift]
  rfl

theorem toBitVec_computeCRC32Loop (x : UInt32) (buf : List UInt8) :
    (computeCRC32Loop x buf).toBitVec = Crc.remainder 0xEDB88320 x.toBitVec buf := by
  induction buf generalizing x with
  | nil => rfl
  | cons c buf ih => rw [computeCRC32Loop, ih, table_step, Crc.remainder]

/-- **The table computes the checksum.** -/
theorem computeCRC32_eq (buf : List UInt8) : (computeCRC32 buf).toBitVec = Crc.crc32 buf := by
  rw [computeCRC32, UInt32.toBitVec_not, toBitVec_computeCRC32Loop]
  rfl

/-! ## The coded outputs -/

def stamp : Zip.Stamp := ⟨10, 10, 0, 0, kDosEpoch⟩

@[simp] theorem toArray_writeShort (val : UInt16) : (writeShort val).toArray = leBytes 2 val.toNat := by
  have hhigh : (val >>> 8).toUInt8 = UInt8.ofNat (val.toNat / 256) := by
    have hshift : (val >>> 8).toNat = val.toNat / 256 := by
      rw [UInt16.toNat_shiftRight, Nat.shiftRight_eq_div_pow]
      rfl
    rw [← hshift]
    rfl
  calc (writeShort val).toArray
      = [val.toUInt8, (val >>> 8).toUInt8] := rfl
    _ = [val.toUInt8, UInt8.ofNat (val.toNat / 256)] := congrArg (fun b => [val.toUInt8, b]) hhigh
    _ = leBytes 2 val.toNat := rfl

@[simp] theorem toArray_writeLittleEndian32 (value : UInt32) :
    (WriteOp.writeLittleEndian32 value).toArray = leBytes 4 value.toNat := rfl

@[simp] theorem toArray_writeString (str : Io.IntSized) : (WriteOp.writeString str).toArray = str := rfl

namespace ZipWriter

variable {buffers : Buffers} (memory : Memory)

theorem output_holds (hsucceeds : ∀ n, buffers.result n ≠ none) (w : ZipWriter) (n : ℕ) (ops : List WriteOp) :
    Holds ((w.output buffers memory n).performAll buffers ops).impl
      ((w.output buffers memory n).performAll buffers ops).cur
      (w.rawOutput.bytes ++ ops.flatMap WriteOp.toArray) :=
  CodedOutputStream.performAll_holds hsucceeds
    (CodedOutputStream.ofStream_holds buffers w.rawOutput (memory n).2 true) ops

/-- **A coded output** of the writer, when it is asked for errors, and when it goes. -/
theorem output_spec (hsucceeds : ∀ n, buffers.result n ≠ none) (w : ZipWriter) (n : ℕ) (ops : List WriteOp) :
    let c := ((w.output buffers memory n).performAll buffers ops).hadError buffers
    c.impl.hadError = false ∧
      (c.trim buffers).impl.stream.bytes = w.rawOutput.bytes ++ ops.flatMap WriteOp.toArray := by
  intro c
  have hholds := (output_holds memory hsucceeds w n ops).flushAndResetBuffer_holds hsucceeds
  exact ⟨hholds.ready.noError, (hholds.trim_holds hsucceeds).1⟩

theorem performAll_append (c : CodedOutputStream) (ops ops' : List WriteOp) :
    (c.performAll buffers ops).performAll buffers ops' = c.performAll buffers (ops ++ ops') :=
  (foldl_append ..).symm

/-! ## A file -/

/-- What the writer remembers of a file. -/
def infoOf (entry : List UInt8 × List UInt8) (offset : ℕ) : FileInfo where
  name := entry.1
  offset := .ofNat offset
  size := .ofNat entry.2.length
  crc32 := computeCRC32 entry.2

theorem toNat_computeCRC32 (buf : List UInt8) : (computeCRC32 buf).toNat = (Crc.crc32 buf).toNat := by
  rw [← computeCRC32_eq]
  rfl

theorem UInt16.toNat_ofNat_lt {n : ℕ} (h : n < 2 ^ 16) : (UInt16.ofNat n).toNat = n :=
  UInt16.toNat_ofNat_of_lt' h

variable {filename contents : List UInt8}

/-- **`Write`** appends a local header and the contents. -/
theorem write_spec (hsucceeds : ∀ n, buffers.result n ≠ none) (w : ZipWriter)
    (hname : filename.length < 2 ^ 16) (hcontents : contents.length < 2 ^ 31) :
    ∃ w', w.write buffers memory filename contents = some (⟨true, false⟩, w') ∧
      w'.rawOutput.bytes = w.rawOutput.bytes ++
        (Zip.writeLocal stamp (Zip.headerOf (filename, contents)) ++ contents) ∧
      w'.files = w.files ++ [infoOf (filename, contents) w.rawOutput.bytes.length] := by
  have hlengths : filename.length < 2 ^ 31 ∧ contents.length < 2 ^ 31 := ⟨by omega, hcontents⟩
  rw [write, dif_pos hlengths]
  simp only
  generalize hops : [WriteOp.writeLittleEndian32 0x04034b50, writeShort 10, writeShort 0, writeShort 0,
    writeShort 0, writeShort kDosEpoch, .writeLittleEndian32 (computeCRC32 contents),
    .writeLittleEndian32 (.ofNat contents.length), .writeLittleEndian32 (.ofNat contents.length),
    writeShort (.ofNat filename.length), writeShort 0, .writeString ⟨filename, hlengths.1⟩,
    .writeString ⟨contents, hlengths.2⟩] = ops
  obtain ⟨hnoError, hbytes⟩ := output_spec memory hsucceeds w w.files.length ops
  have hwritten : ops.flatMap WriteOp.toArray =
      Zip.writeLocal stamp (Zip.headerOf (filename, contents)) ++ contents := by
    have hsize : (UInt32.ofNat contents.length).toNat = contents.length :=
      UInt32.toNat_ofNat_of_lt' (by change _ < 2 ^ 32; omega)
    rw [← hops]
    simp only [flatMap_cons, flatMap_nil, toArray_writeShort, toArray_writeLittleEndian32, hsize,
      toNat_computeCRC32, UInt16.toNat_ofNat_lt hname, toArray_writeString, Zip.writeLocal, Zip.localFields,
      Zip.writeFields, Zip.headerOf, stamp, append_assoc, append_nil]
    rfl
  rw [hnoError]
  exact ⟨_, rfl, by rw [← hwritten]; exact hbytes, rfl⟩

/-! ## All files -/

/-- What the writer remembers of the files that begin at an offset. -/
def infos : ℕ → List (List UInt8 × List UInt8) → List FileInfo
  | _, [] => []
  | offset, entry :: entries => infoOf entry offset ::
      infos (offset + (Zip.writeLocal stamp (Zip.headerOf entry) ++ entry.2).length) entries

theorem length_infos (offset : ℕ) (entries : List (List UInt8 × List UInt8)) :
    (infos offset entries).length = entries.length := by
  induction entries generalizing offset with
  | nil => rfl
  | cons entry entries ih => rw [infos, length_cons, length_cons, ih]

variable {entries : List (List UInt8 × List UInt8)}

/-- **The calls of `Write`** append the members. -/
theorem writeAll_spec (hsucceeds : ∀ n, buffers.result n ≠ none) (w : ZipWriter)
    (hentries : ∀ e ∈ entries, e.1.length < 2 ^ 16 ∧ e.2.length < 2 ^ 31) :
    ∃ rs w', writeAll buffers memory entries w = some (rs, w') ∧ rs = entries.map (fun _ => ⟨true, false⟩) ∧
      w'.rawOutput.bytes = w.rawOutput.bytes ++ Zip.writeMembers stamp entries ∧
      w'.files = w.files ++ infos w.rawOutput.bytes.length entries := by
  induction entries generalizing w with
  | nil => exact ⟨[], w, rfl, rfl, (append_nil _).symm, (append_nil _).symm⟩
  | cons entry entries ih =>
    obtain ⟨⟨hname, hcontents⟩, hrest⟩ := forall_mem_cons.mp hentries
    obtain ⟨w₁, hwrite, hbytes₁, hfiles₁⟩ := write_spec memory hsucceeds w hname hcontents
    obtain ⟨rs, w', hwriteAll, hresults, hbytes, hfiles⟩ := ih w₁ hrest
    refine ⟨⟨true, false⟩ :: rs, w', ?_, ?_, ?_, ?_⟩
    · rw [writeAll, hwrite]
      simp only [bind_eq_bind, bind_some, hwriteAll]
    · rw [hresults, map_cons]
    · rw [hbytes, hbytes₁, Zip.writeMembers, append_assoc, append_assoc]
    · rw [hfiles, hfiles₁, hbytes₁, infos, append_assoc, length_append]
      rfl

/-! ## The directory -/

theorem centralHeader_bytes {entry : List UInt8 × List UInt8} {offset : ℕ}
    (hname : entry.1.length < 2 ^ 16) (hcontents : entry.2.length < 2 ^ 31) (hoffset : offset < 2 ^ 32)
    (h : (infoOf entry offset).name.length < 2 ^ 31) :
    (centralHeader (infoOf entry offset) h).flatMap WriteOp.toArray =
      Zip.writeCentral stamp (Zip.headerOf entry) offset := by
  have hsize : (UInt32.ofNat entry.2.length).toNat = entry.2.length :=
    UInt32.toNat_ofNat_of_lt' (by change _ < 2 ^ 32; omega)
  have hoffset : (UInt32.ofNat offset).toNat = offset := UInt32.toNat_ofNat_of_lt' hoffset
  simp only [centralHeader, infoOf, flatMap_cons, flatMap_nil, toArray_writeShort,
    toArray_writeLittleEndian32, hsize, hoffset, toNat_computeCRC32, UInt16.toNat_ofNat_lt hname,
    toArray_writeString, Zip.writeCentral, Zip.centralFields, Zip.writeFields, Zip.headerOf, stamp,
    append_assoc, append_nil]
  rfl

theorem centralDirectory_isSome {files : List FileInfo} (h : ∀ f ∈ files, f.name.length < 2 ^ 31) :
    ∃ ops, centralDirectory files = some ops := by
  induction files with
  | nil => exact ⟨[], rfl⟩
  | cons info files ih =>
    obtain ⟨hname, hfiles⟩ := forall_mem_cons.mp h
    obtain ⟨ops, hops⟩ := ih hfiles
    exact ⟨centralHeader info hname ++ ops, by rw [centralDirectory, dif_pos hname, hops, map_some]⟩

theorem infos_name (offset : ℕ) (hentries : ∀ e ∈ entries, e.1.length < 2 ^ 16 ∧ e.2.length < 2 ^ 31) :
    ∀ f ∈ infos offset entries, f.name.length < 2 ^ 31 := by
  induction entries generalizing offset with
  | nil => exact fun f hf => absurd hf not_mem_nil
  | cons entry entries ih =>
    obtain ⟨⟨hname, -⟩, hrest⟩ := forall_mem_cons.mp hentries
    rw [infos, forall_mem_cons]
    constructor
    · change entry.1.length < 2 ^ 31
      omega
    · exact ih _ hrest

/-- **The central directory**, while the offsets fit. -/
theorem centralDirectory_bytes {offset : ℕ} {ops : List WriteOp}
    (hentries : ∀ e ∈ entries, e.1.length < 2 ^ 16 ∧ e.2.length < 2 ^ 31)
    (hlength : offset + (Zip.writeMembers stamp entries).length < 2 ^ 32)
    (hops : centralDirectory (infos offset entries) = some ops) :
    ops.flatMap WriteOp.toArray = Zip.writeDirectory stamp (Zip.placed stamp offset entries) := by
  induction entries generalizing offset ops with
  | nil =>
    cases hops
    rfl
  | cons entry entries ih =>
    obtain ⟨⟨hname, hcontents⟩, hrest⟩ := forall_mem_cons.mp hentries
    have hinfo : (infoOf entry offset).name.length < 2 ^ 31 := by
      change entry.1.length < 2 ^ 31
      omega
    rw [Zip.writeMembers, length_append, length_append] at hlength
    rw [infos, centralDirectory, dif_pos hinfo, map_eq_some_iff] at hops
    obtain ⟨ops', hops', rfl⟩ := hops
    have hnext := ih hrest (by rw [length_append]; omega) hops'
    rw [flatMap_append, centralHeader_bytes hname hcontents (by omega), hnext, Zip.placed]
    rfl

theorem toNat_ofInt_toInt32 {n : ℕ} (h : n < 2 ^ 32) : (UInt32.ofInt (Io.toInt32 n)).toNat = n := by
  have hmod : (Io.toInt32 n % 2 ^ 32).toNat = n := by
    rw [Io.toInt32]
    omega
  rw [UInt32.ofInt, hmod]
  exact UInt32.toNat_ofNat_of_lt' h

/-- **`WriteDirectory`** appends the directory and the end record, and returns false. -/
theorem writeDirectory_spec (hsucceeds : ∀ n, buffers.result n ≠ none) (w : ZipWriter)
    (hfiles : w.files.length < 2 ^ 16) {ops : List WriteOp} (hops : centralDirectory w.files = some ops) :
    ∃ w', w.writeDirectory buffers memory = some (⟨false, false⟩, w') ∧
      w'.rawOutput.bytes = w.rawOutput.bytes ++ (ops.flatMap WriteOp.toArray ++
        Zip.writeFields (Zip.endFields w.files.length
          (UInt32.ofInt (Io.toInt32 (ops.flatMap WriteOp.toArray).length)).toNat
          (UInt32.ofNat w.rawOutput.bytes.length).toNat)) := by
  have hcount : (UInt16.ofNat w.files.length).toNat = w.files.length := UInt16.toNat_ofNat_lt hfiles
  have hlength : ((w.output buffers memory w.files.length).performAll buffers ops).byteCount =
      Io.toInt32 (ops.flatMap WriteOp.toArray).length :=
    CodedOutputStream.byteCount_performAll hsucceeds w.rawOutput (memory w.files.length).2 true ops
  rw [writeDirectory, hcount, take_length, hops]
  simp only [bind_eq_bind, bind_some, hlength, performAll_append]
  generalize hend : [WriteOp.writeLittleEndian32 0x06054b50, writeShort 0, writeShort 0,
    writeShort (.ofNat w.files.length), writeShort (.ofNat w.files.length),
    .writeLittleEndian32 (.ofInt (Io.toInt32 (ops.flatMap WriteOp.toArray).length)),
    .writeLittleEndian32 (.ofNat w.rawOutput.byteCount), writeShort 0] = record
  obtain ⟨hnoError, hbytes⟩ := output_spec memory hsucceeds w w.files.length (ops ++ record)
  have hrecord : record.flatMap WriteOp.toArray = Zip.writeFields (Zip.endFields w.files.length
      (UInt32.ofInt (Io.toInt32 (ops.flatMap WriteOp.toArray).length)).toNat
      (UInt32.ofNat w.rawOutput.bytes.length).toNat) := by
    rw [← hend]
    simp only [flatMap_cons, flatMap_nil, toArray_writeShort, toArray_writeLittleEndian32, hcount,
      Zip.endFields, Zip.writeFields]
    rfl
  rw [hnoError]
  exact ⟨_, rfl, by rw [← hrecord, ← flatMap_append]; exact hbytes⟩

variable {w : ZipWriter}

theorem write_returned {r : CallResult × ZipWriter}
    (h : w.write buffers memory filename contents = some r) : r.1.returned = !r.1.failed := by
  rw [write] at h
  split at h
  case isTrue => rw [← some.inj h]
  case isFalse => cases h

theorem writeAll_returned {r : List CallResult × ZipWriter}
    (h : writeAll buffers memory entries w = some r) : ∀ call ∈ r.1, call.returned = !call.failed := by
  induction entries generalizing w r with
  | nil =>
    cases h
    exact fun call hcall => absurd hcall not_mem_nil
  | cons entry entries ih =>
    rw [writeAll, bind_eq_bind, bind_eq_some_iff] at h
    obtain ⟨r₁, hwrite, h⟩ := h
    rw [bind_eq_bind, bind_eq_some_iff] at h
    obtain ⟨rs, hrest, h⟩ := h
    cases h
    exact forall_mem_cons.mpr ⟨write_returned memory hwrite, ih hrest⟩

theorem writeDirectory_returned {r : CallResult × ZipWriter}
    (h : w.writeDirectory buffers memory = some r) : r.1.returned = r.1.failed := by
  rw [writeDirectory] at h
  cases hops : centralDirectory (w.files.take (UInt16.ofNat w.files.length).toNat) with
  | none =>
    rw [hops] at h
    cases h
  | some ops =>
    rw [hops] at h
    cases h
    rfl

end ZipWriter

open ZipWriter

/-! ## The archive -/

/-- The archive is right, and the calls return true exactly if no write error occurred. -/
def ValidArchive (buffers : Buffers) (memory : Memory) (entries : List (List UInt8 × List UInt8)) : Prop :=
  ∃ run, zip buffers memory entries = some run ∧
    ((∀ n, buffers.result n ≠ none) → Zip.readArchive run.bytes = some entries) ∧
    (∀ call ∈ run.writes, call.returned = true ↔ call.failed = false) ∧
    (run.directory.returned = true ↔ run.directory.failed = false)

variable {buffers : Buffers} {memory : Memory} {entries : List (List UInt8 × List UInt8)}

theorem zip_returned {run : ZipRun} (h : zip buffers memory entries = some run) :
    (∀ call ∈ run.writes, call.returned = !call.failed) ∧ run.directory.returned = run.directory.failed := by
  rw [zip, bind_eq_bind, bind_eq_some_iff] at h
  obtain ⟨rs, hwrites, h⟩ := h
  rw [bind_eq_bind, bind_eq_some_iff] at h
  obtain ⟨r, hdirectory, h⟩ := h
  cases h
  exact ⟨writeAll_returned memory hwrites, writeDirectory_returned memory hdirectory⟩

/-- **The archive itself** is read as the files that were written. -/
theorem zip_readArchive (memory : Memory) (hsucceeds : ∀ n, buffers.result n ≠ none) (hcount : entries.length < 2 ^ 16)
    (hentries : ∀ e ∈ entries, e.1.length < 2 ^ 16 ∧ e.2.length < 2 ^ 31) :
    ∃ run, zip buffers memory entries = some run ∧ run.writes = entries.map (fun _ => ⟨true, false⟩) ∧
      run.directory = ⟨false, false⟩ ∧
      (run.bytes.length < 2 ^ 32 → Zip.readArchive run.bytes = some entries) := by
  obtain ⟨rs, w, hwriteAll, hresults, hbytes, hfiles⟩ :=
    writeAll_spec memory hsucceeds ⟨⟨[], 0, 0⟩, []⟩ hentries
  rw [nil_append] at hbytes hfiles
  have hlength : w.files.length = entries.length := by rw [hfiles, length_infos]
  obtain ⟨ops, hops⟩ := centralDirectory_isSome (infos_name 0 hentries)
  obtain ⟨w', hdirectory, hbytes'⟩ := writeDirectory_spec memory hsucceeds w (by omega) (hfiles ▸ hops)
  refine ⟨⟨rs, ⟨false, false⟩, w'.rawOutput.bytes⟩, ?_, hresults, rfl, ?_⟩
  · rw [zip, hwriteAll]
    simp only [bind_eq_bind, bind_some, hdirectory]
  · intro hfits
    simp only at hfits ⊢
    have hparts := congrArg List.length hbytes'
    rw [length_append, length_append] at hparts
    have hops' := centralDirectory_bytes hentries (by rw [← hbytes]; omega) hops
    have harchive : w'.rawOutput.bytes = Zip.writeArchive stamp entries := by
      rw [hbytes', toNat_ofInt_toInt32 (by omega),
        UInt32.toNat_ofNat_of_lt' (by change _ < 2 ^ 32; omega), hops', hbytes, hlength]
      rfl
    rw [harchive] at hfits ⊢
    exact Zip.readArchive_writeArchive hcount (fun e he => (hentries e he).1) hfits

theorem zip_not_validArchive : ¬ ValidArchive buffers memory entries := by
  rintro ⟨run, hrun, -, -, hdirectory⟩
  rw [(zip_returned hrun).2] at hdirectory
  cases hfailed : run.directory.failed with
  | false => simp [hfailed] at hdirectory
  | true => simp [hfailed] at hdirectory

/-- **The writer never does all it should.**  The archive is read as the files that were written, in
their order, over every stream that never fails, and `Write` returns true exactly if no write error
occurred; but `WriteDirectory` returns `HadError`, so on every stream it returns true exactly if
one did. -/
theorem not_validArchive (buffers : Buffers) (memory : Memory) (entries : List (List UInt8 × List UInt8)) :
    ¬ ValidArchive buffers memory entries ∧ (∀ run, zip buffers memory entries = some run →
        (∀ call ∈ run.writes, call.returned = !call.failed) ∧
          run.directory.returned = run.directory.failed) ∧
      ((∀ n, buffers.result n ≠ none) → entries.length < 2 ^ 16 →
        (∀ e ∈ entries, e.1.length < 2 ^ 16 ∧ e.2.length < 2 ^ 31) →
        ∃ run, zip buffers memory entries = some run ∧
          run.writes = entries.map (fun _ => ⟨true, false⟩) ∧ run.directory = ⟨false, false⟩ ∧
          (run.bytes.length < 2 ^ 32 → Zip.readArchive run.bytes = some entries)) :=
  ⟨zip_not_validArchive, fun _ hrun => zip_returned hrun,
    fun hsucceeds hcount hentries => zip_readArchive memory hsucceeds hcount hentries⟩

theorem length_replicate_zero : (replicate 32 (0 : UInt8)).length = 32 := length_replicate ..

def zeros : Memory := fun _ => ⟨replicate 32 0, length_replicate_zero⟩

/-- A file `a` of two bytes. -/
def oneFile : List (List UInt8 × List UInt8) := [([97], [104, 105])]

theorem not_validArchive_oneFile :
    ∃ run, zip CodedOutputStream.mixedBuffers zeros oneFile = some run ∧ run.writes = [⟨true, false⟩] ∧
      run.directory = ⟨false, false⟩ ∧
      (run.bytes.length < 2 ^ 32 → Zip.readArchive run.bytes = some oneFile) :=
  (not_validArchive CodedOutputStream.mixedBuffers zeros oneFile).2.2 CodedOutputStream.mixedBuffers_succeeds
    (by decide) (by decide)

/-- The stream never fails, and `WriteDirectory` returns false. -/
theorem writeDirectory_oneFile : (∀ n, CodedOutputStream.mixedBuffers.result n ≠ none) ∧
      (∃ run, zip CodedOutputStream.mixedBuffers zeros oneFile = some run ∧
        run.directory.returned = false ∧ run.directory.failed = false) ∧
      ¬ ValidArchive CodedOutputStream.mixedBuffers zeros oneFile := by
  have hcount : oneFile.length < 2 ^ 16 := by decide
  have hsizes : ∀ e ∈ oneFile, e.1.length < 2 ^ 16 ∧ e.2.length < 2 ^ 31 := by decide
  obtain ⟨run, hrun, -, hdirectory, -⟩ := zip_readArchive zeros CodedOutputStream.mixedBuffers_succeeds hcount hsizes
  exact ⟨CodedOutputStream.mixedBuffers_succeeds, ⟨run, hrun, by rw [hdirectory], by rw [hdirectory]⟩, zip_not_validArchive⟩

end Protoc.Compiler
