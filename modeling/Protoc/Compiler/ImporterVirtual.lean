import Protoc.Compiler.ImporterOpen

/-!
# Disk files and their virtual names

`DiskFileToVirtualFile` applies the first mapping that covers a file in reverse.  Its result
leads back to the file where the virtual name passes the test of `OpenVirtualFile` and no
mapping before denies access.
-/

namespace Protoc.Compiler

open Protoc.Lib
open List
open Protoc.Util (Str)

/-- A file name under which `OpenDiskFile` finds a file. -/
def Opens (fs : FileSystem) (path : Str) : Prop :=
  fs.stat path ≠ .ok true ∧ ∃ descriptor, fs.openFile path = .ok descriptor

/-- What the system calls promise. -/
structure Posix (fs : FileSystem) : Prop where
  /-- What `stat` describes exists. -/
  exists_of_stat : ∀ path isDirectory, fs.stat path = .ok isDirectory → fs.access path = .ok ()
  /-- What opens exists. -/
  exists_of_open : ∀ path descriptor, fs.openFile path = .ok descriptor → fs.access path = .ok ()
  /-- A file is found without the parts `.` and the empty parts of its name too. -/
  canonical : ∀ path, Opens fs path → Opens fs (canonicalizePath path)
  /-- Two slashes are as good as one. -/
  doubled : ∀ a b, Opens fs (a ++ slash :: b) → Opens fs (a ++ slash :: slash :: b)

variable {fs : FileSystem}

theorem openDiskFile_fst (path : Str) (st : State) : (openDiskFile fs path st).1 = true ↔ Opens fs path := by
  unfold openDiskFile Opens
  dsimp only
  rcases fs.stat path with errno | isDirectory
  · cases fs.openFile path <;> simp
  · cases isDirectory <;> cases fs.openFile path <;> simp

theorem openDiskFile_of_missing (hfs : Posix fs) {path : Str} {errno : Int}
    (h : fs.access path = .error errno) (st : State) :
    (openDiskFile fs path st).1 = false ∧ fs.openFile path = .error (openDiskFile fs path st).2.errno := by
  unfold openDiskFile
  dsimp only
  cases hstat : fs.stat path with
  | ok isDirectory =>
    rw [hfs.exists_of_stat path isDirectory hstat] at h
    exact absurd h (by simp)
  | error statErrno =>
    cases hopen : fs.openFile path with
    | ok descriptor =>
      rw [hfs.exists_of_open path descriptor hopen] at h
      exact absurd h (by simp)
    | error openErrno => exact ⟨rfl, rfl⟩

/-! ## The loops -/

def AllMissing (fs : FileSystem) (name : Str) (mappings : List Mapping) : Prop :=
  ∀ m ∈ mappings, ∀ path, applyMapping name m.virtualPath m.diskPath = some path →
    ∃ errno, fs.access path = .error errno

/-- Mappings none of which leads to a file that must not be read. -/
def NoneDenied (fs : FileSystem) (name : Str) (mappings : List Mapping) : Prop :=
  ∀ m ∈ mappings, ∀ path, applyMapping name m.virtualPath m.diskPath = some path →
    fs.openFile path ≠ .error eacces

variable {name : Str}

theorem openMappings_skip (hfs : Posix fs) {before : List Mapping}
    (hmissing : AllMissing fs name before) (hdenied : NoneDenied fs name before)
    (rest : List Mapping) (st : State) :
    ∃ st', openMappings fs name (before ++ rest) st = openMappings fs name rest st' := by
  induction before generalizing st with
  | nil => exact ⟨st, rfl⟩
  | cons m before ih =>
    have hrest := ih (fun b hb => hmissing b (mem_cons_of_mem _ hb))
      (fun b hb => hdenied b (mem_cons_of_mem _ hb))
    rw [cons_append, openMappings]
    cases hmap : applyMapping name m.virtualPath m.diskPath with
    | none => exact hrest st
    | some path =>
      obtain ⟨errno, haccess⟩ := hmissing m mem_cons_self path hmap
      obtain ⟨hclosed, hopen⟩ := openDiskFile_of_missing hfs haccess st
      have hallowed : (openDiskFile fs path st).2.errno ≠ eacces := by
        intro heq
        rw [heq] at hopen
        exact hdenied m mem_cons_self path hmap hopen
      simp only [hclosed, Bool.false_eq_true, if_false, hallowed]
      exact hrest _

theorem openMappings_denied (hfs : Posix fs) {before : List Mapping}
    (hmissing : AllMissing fs name before) (hdenied : ¬ NoneDenied fs name before)
    (rest : List Mapping) (st : State) : (openMappings fs name (before ++ rest) st).1 = none := by
  induction before generalizing st with
  | nil => exact absurd (nofun) hdenied
  | cons m before ih =>
    have hmissingRest : AllMissing fs name before := fun b hb => hmissing b (mem_cons_of_mem _ hb)
    rw [cons_append, openMappings]
    cases hmap : applyMapping name m.virtualPath m.diskPath with
    | none =>
      refine ih hmissingRest (fun hnone => hdenied ?_) st
      intro b hb path hpath
      rcases mem_cons.mp hb with rfl | hb
      · rw [hmap] at hpath
        exact absurd hpath (by simp)
      · exact hnone b hb path hpath
    | some path =>
      obtain ⟨errno, haccess⟩ := hmissing m mem_cons_self path hmap
      obtain ⟨hclosed, hopen⟩ := openDiskFile_of_missing hfs haccess st
      simp only [hclosed, Bool.false_eq_true, if_false]
      split_ifs with hdeny
      · rfl
      · refine ih hmissingRest (fun hnone => hdenied ?_) _
        intro b hb path' hpath
        rcases mem_cons.mp hb with rfl | hb
        · rw [hmap, Option.some_inj] at hpath
          rw [← hpath, hopen]
          simpa using hdeny
        · exact hnone b hb path' hpath

variable {mappings : List Mapping} {st : State}

theorem openMappings_some {name path : Str} (h : (openMappings fs name mappings st).1 = some path) :
    ∃ m ∈ mappings, applyMapping name m.virtualPath m.diskPath = some path := by
  induction mappings generalizing st with
  | nil => exact absurd h (by simp [openMappings])
  | cons m mappings ih =>
    rw [openMappings] at h
    cases hmap : applyMapping name m.virtualPath m.diskPath with
    | none =>
      rw [hmap] at h
      obtain ⟨m', hm', hpath⟩ := ih h
      exact ⟨m', mem_cons_of_mem _ hm', hpath⟩
    | some temp =>
      rw [hmap] at h
      dsimp only at h
      split_ifs at h
      · exact ⟨m, mem_cons_self, hmap.trans h⟩
      · obtain ⟨m', hm', hpath⟩ := ih h
        exact ⟨m', mem_cons_of_mem _ hm', hpath⟩

theorem shadowingFile_none
    (h : (shadowingFile fs name mappings st).1 = none) : AllMissing fs name mappings := by
  induction mappings generalizing st with
  | nil => exact nofun
  | cons m mappings ih =>
    rw [shadowingFile] at h
    intro b hb path hpath
    rcases mem_cons.mp hb with rfl | hb
    · rw [hpath] at h
      cases haccess : fs.access path with
      | error errno => exact ⟨errno, rfl⟩
      | ok found => simp [haccess] at h
    · cases hmap : applyMapping name m.virtualPath m.diskPath with
      | none =>
        rw [hmap] at h
        exact ih h b hb path hpath
      | some temp =>
        rw [hmap] at h
        cases haccess : fs.access temp with
        | ok found => simp [haccess] at h
        | error errno =>
          simp only [haccess] at h
          exact ih h b hb path hpath

theorem reverseMapping_some {file virtualFile : Str} {k : ℕ}
    (h : reverseMapping file mappings = some (k, virtualFile)) :
    ∃ before m after found, mappings = before ++ m :: after ∧ before.length = k ∧
      (∀ b ∈ before, matchPrefix file b.diskPath = none) ∧
      matchPrefix file m.diskPath = some found ∧ virtualFile = mapTo m.virtualPath found := by
  induction mappings generalizing k with
  | nil => exact absurd h (by simp [reverseMapping])
  | cons m mappings ih =>
    rw [reverseMapping, applyMapping_eq] at h
    cases hmatch : matchPrefix file m.diskPath with
    | some found =>
      rw [hmatch] at h
      simp only [Option.map_some, Option.some_inj, Prod.mk.injEq] at h
      obtain ⟨rfl, rfl⟩ := h
      exact ⟨[], m, mappings, found, rfl, rfl, by simp, hmatch, rfl⟩
    | none =>
      rw [hmatch] at h
      simp only [Option.map_none, Option.map_eq_some_iff, Prod.mk.injEq, Prod.exists] at h
      obtain ⟨i, v, hrest, rfl, rfl⟩ := h
      obtain ⟨before, m', after, found, rfl, rfl, hbefore, hfound, rfl⟩ := ih hrest
      refine ⟨m :: before, m', after, found, rfl, rfl, ?_, hfound, rfl⟩
      intro b hb
      rcases mem_cons.mp hb with rfl | hb
      · exact hmatch
      · exact hbefore b hb

/-! ## Names that lead back -/

theorem canonicalParts_doubled (a b : Str) :
    canonicalParts (a ++ slash :: slash :: b) = canonicalParts (a ++ slash :: b) := by
  unfold canonicalParts
  rw [split_append_delimiter, split_append_delimiter, split_delimiter]

theorem canonicalizePath_doubled (a b : Str) :
    canonicalizePath (a ++ slash :: slash :: b) = canonicalizePath (a ++ slash :: b) := by
  have hhead : (a ++ slash :: slash :: b).head? = (a ++ slash :: b).head? := by
    cases a <;> rfl
  have hlast : (a ++ slash :: slash :: b).getLast? = (a ++ slash :: b).getLast? := by
    rw [List.getLast?_append_cons, List.getLast?_append_cons, List.getLast?_cons_cons]
  rw [canonicalizePath_eq, canonicalizePath_eq, canonicalParts_doubled, hhead, hlast]

theorem canonicalizePath_trailing (path : Str) :
    canonicalizePath (path ++ [slash]) = [] ∨ (canonicalizePath (path ++ [slash])).getLast? = some slash := by
  rw [canonicalizePath_eq]
  have hparts : ∀ p ∈ canonicalParts (path ++ [slash]), IsPart slash p :=
    fun p hp => (canonicalPart_of_mem hp).1
  by_cases hne : canonicalParts (path ++ [slash]) = []
  · rw [hne]
    cases decide ((path ++ [slash]).head? = some slash) <;> simp [assemble]
  · right
    refine (ends_assemble _ _ hparts hne).2.mpr ?_
    simp [hne]

/-- The virtual path of a mapping makes names that `OpenVirtualFile` accepts and takes back: it is
canonical without `..`, ends in no slash where a rest follows, and is not empty where the mapping
is for a single file. -/
def Usable (m : Mapping) (found : Option Str) : Prop :=
  Proper m.virtualPath ∧ ¬ containsParentReference m.virtualPath ∧
    match found with
    | none => m.virtualPath = [] → m.diskPath.getLast? = some slash
    | some _ => m.virtualPath.getLast? ≠ some slash

theorem relative_of_covers {file oldPrefix rest : Str} (hproper : Proper file)
    (h : Covers file oldPrefix (some rest)) : Relative rest := by
  obtain ⟨hparent, ⟨-, rfl, hlead⟩ | ⟨-, rfl⟩ | ⟨-, hdirectory, rfl, -, -⟩⟩ := h
  · exact relative_of_proper hproper hparent hlead
  · exact relative_of_append hproper hparent
  · obtain ⟨before, hbefore⟩ := List.getLast?_eq_some_iff.mp hdirectory
    rw [hbefore, append_assoc, singleton_append] at hproper
    exact relative_of_append hproper hparent

theorem proper_of_relative {path : Str} (h : Relative path) : Proper path := by
  refine ⟨h.noCurrent, fun s hs => h.nonempty s ?_⟩
  rw [← tail_dropLast] at hs
  exact mem_of_mem_tail hs

theorem getLast?_segments {path : Str} :
    (segments path).getLast? = some [] ↔ path = [] ∨ path.getLast? = some slash := by
  have hpath := intercalate_segments path
  rcases segments_cases path with ⟨s, hs⟩ | ⟨first, inner, last, hs⟩
  · have hmem : s ∈ segments path := by simp [hs]
    have hnot : slash ∉ s := slash_notMem_of_mem_segments hmem
    rw [hs, intercalate_singleton] at hpath
    rw [hs, ← hpath]
    have hlast : s.getLast? ≠ some slash := fun heq => hnot (List.mem_of_getLast? heq)
    simp [hlast]
  · have hmem : last ∈ segments path := by simp [hs]
    have hnot : slash ∉ last := slash_notMem_of_mem_segments hmem
    rw [hs, intercalate_append (by simp) (by simp), intercalate_singleton] at hpath
    rw [hs, ← hpath]
    by_cases hnil : last = []
    · rw [hnil, List.getLast?_concat]
      simp
    · have hlast : last.getLast? ≠ some slash := fun heq => hnot (List.mem_of_getLast? heq)
      have hend : ([slash].intercalate (first :: inner) ++ slash :: last).getLast? = last.getLast? := by
        rw [List.getLast?_append_cons, List.getLast?_cons_of_ne_nil hnil]
      rw [hend, List.getLast?_concat]
      simp [hnil, hlast]

/-- A relative path below a virtual path. -/
theorem proper_underPrefix {virtualPath rest : Str} (hrest : Relative rest) :
    (Proper (underPrefix virtualPath rest) ∧ ¬ containsParentReference (underPrefix virtualPath rest)) ↔
      Proper virtualPath ∧ ¬ containsParentReference virtualPath ∧ virtualPath.getLast? ≠ some slash := by
  unfold underPrefix
  by_cases hempty : virtualPath = []
  · have hproper : Proper [] := by simp [Proper, segments, currentDirectory]
    have hparent : ¬ containsParentReference [] := by decide
    rw [hempty]
    simp [hproper, hparent, proper_of_relative hrest, mt containsParentReference_iff.mp hrest.noParent]
  · rw [if_pos hempty, append_assoc, singleton_append]
    have hne := segments_ne_nil virtualPath
    have hinner : (segments virtualPath ++ segments rest).tail.dropLast =
        (segments virtualPath).tail ++ (segments rest).dropLast := by
      rw [tail_append_of_ne_nil hne, dropLast_append_of_ne_nil (segments_ne_nil rest)]
    have hlast : virtualPath.getLast? ≠ some slash ↔ (segments virtualPath).getLast? ≠ some [] := by
      rw [ne_eq, ne_eq, getLast?_segments]
      simp [hempty]
    have hbelow : ∀ s ∈ (segments rest).dropLast, s ≠ [] := hrest.nonempty
    have hnodot : currentDirectory ∉ segments virtualPath ++ segments rest ↔
        currentDirectory ∉ segments virtualPath := by
      simp [hrest.noCurrent]
    have hnoparent : parentDirectory ∉ segments virtualPath ++ segments rest ↔
        parentDirectory ∉ segments virtualPath := by
      simp [hrest.noParent]
    have hfilled : (∀ s ∈ (segments virtualPath).tail ++ (segments rest).dropLast, s ≠ []) ↔
        (∀ s ∈ (segments virtualPath).tail.dropLast, s ≠ []) ∧ virtualPath.getLast? ≠ some slash := by
      rw [hlast]
      simp only [mem_append, or_imp, forall_and, and_iff_left hbelow]
      rcases segments_cases virtualPath with ⟨s, hs⟩ | ⟨first, inner, last, hs⟩
      · have hnonempty : s ≠ [] := by
          rintro rfl
          have hpath := intercalate_segments virtualPath
          rw [hs, intercalate_singleton] at hpath
          exact hempty hpath.symm
        simp [hs, hnonempty]
      · rw [hs, List.getLast?_concat, cons_append, tail_cons, dropLast_concat]
        simp only [mem_append, mem_singleton, or_imp, forall_and, forall_eq, ne_eq, Option.some_inj]
    rw [containsParentReference_iff, containsParentReference_iff, Proper, Proper, segments_append,
      hinner, hnodot, hnoparent, hfilled]
    tauto

def Doubled (file path : Str) : Prop :=
  path = file ∨ ∃ a b, file = a ++ slash :: b ∧ path = a ++ slash :: slash :: b

variable {file path : Str}

theorem Doubled.opens (hfs : Posix fs) (h : Doubled file path) (hopens : Opens fs file) : Opens fs path := by
  obtain rfl | ⟨a, b, rfl, rfl⟩ := h
  · exact hopens
  · exact hfs.doubled a b hopens

theorem Doubled.canonicalizePath_eq (h : Doubled file path) :
    canonicalizePath path = canonicalizePath file := by
  obtain rfl | ⟨a, b, rfl, rfl⟩ := h
  · rfl
  · exact canonicalizePath_doubled a b

theorem doubled_underPrefix {file oldPrefix rest : Str} (h : Covers file oldPrefix (some rest)) :
    Doubled file (underPrefix oldPrefix rest) := by
  unfold underPrefix
  obtain ⟨-, ⟨rfl, rfl, -⟩ | ⟨hempty, rfl⟩ | ⟨hempty, hdirectory, rfl, -, -⟩⟩ := h
  · exact Or.inl (by simp)
  · exact Or.inl (by simp [hempty])
  · obtain ⟨before, rfl⟩ := List.getLast?_eq_some_iff.mp hdirectory
    exact Or.inr ⟨before, rest, by simp, by simp⟩

/-- **A usable mapping takes back** the name that it makes. -/
theorem applyMapping_of_usable {file : Str} {m : Mapping} {found : Option Str} (hproper : Proper file)
    (hcovers : Covers file m.diskPath found) (husable : Usable m found) :
    ∃ path, applyMapping (mapTo m.virtualPath found) m.virtualPath m.diskPath = some path ∧
      Doubled file path := by
  obtain ⟨-, hparent, hend⟩ := husable
  cases found with
  | none =>
    obtain ⟨hdisk, rfl⟩ := hcovers
    by_cases hempty : m.virtualPath = []
    · -- the empty virtual path makes a directory of it
      obtain ⟨before, hbefore⟩ := List.getLast?_eq_some_iff.mp (hend hempty)
      have hback : Covers (mapTo m.virtualPath none) m.virtualPath (some []) :=
        ⟨by decide, Or.inl ⟨hempty, hempty, by simp⟩⟩
      rw [applyMapping_eq, matchPrefix_of_covers hback]
      refine ⟨_, rfl, Or.inr ⟨before, [], hbefore, ?_⟩⟩
      rw [mapTo, underPrefix, if_pos hdisk, hbefore]
      simp
    · have hback : Covers (mapTo m.virtualPath none) m.virtualPath none := ⟨hempty, rfl⟩
      rw [applyMapping_eq, matchPrefix_of_covers hback]
      exact ⟨_, rfl, Or.inl rfl⟩
  | some rest =>
    have hrest := relative_of_covers hproper hcovers
    have hback : Covers (mapTo m.virtualPath (some rest)) m.virtualPath (some rest) := by
      refine ⟨hcovers.1, ?_⟩
      rw [mapTo, underPrefix]
      by_cases hempty : m.virtualPath = []
      · exact Or.inl ⟨hempty, by simp [hempty], hrest.noRoot⟩
      · exact Or.inr (Or.inl ⟨hempty, by simp [hempty]⟩)
    rw [applyMapping_eq, matchPrefix_of_covers hback]
    exact ⟨_, rfl, doubled_underPrefix hcovers⟩

theorem proper_mapTo {file : Str} {m : Mapping} {found : Option Str} (hproper : Proper file)
    (hcovers : Covers file m.diskPath found) (husable : Usable m found) :
    Proper (mapTo m.virtualPath found) ∧ ¬ containsParentReference (mapTo m.virtualPath found) := by
  obtain ⟨hvirtual, hparent, hend⟩ := husable
  cases found with
  | none => exact ⟨hvirtual, hparent⟩
  | some rest =>
    exact (proper_underPrefix (relative_of_covers hproper hcovers)).mpr ⟨hvirtual, hparent, hend⟩

theorem applyMapping_nil {virtualPath diskPath path : Str}
    (h : applyMapping [] virtualPath diskPath = some path) :
    canonicalizePath path = [] ∨ (canonicalizePath path).getLast? = some slash := by
  rw [applyMapping_eq] at h
  obtain ⟨found, hmatch, rfl⟩ := Option.map_eq_some_iff.mp h
  have hcovers := covers_of_matchPrefix hmatch
  cases found with
  | none => exact absurd hcovers.2.symm hcovers.1
  | some rest =>
    obtain ⟨-, ⟨-, hnil, -⟩ | ⟨-, hnil⟩ | ⟨hempty, -, hnil, -, -⟩⟩ := hcovers
    · rw [mapTo, underPrefix, ← hnil, append_nil]
      split_ifs with hdisk
      · exact canonicalizePath_trailing diskPath
      · rw [not_not.mp hdisk]
        simp [canonicalizePath, split_nil]
    · exact absurd hnil (by simp)
    · exact absurd (append_eq_nil_iff.mp hnil.symm).1 hempty

/-! ## Back to the file -/

/-- The first mapping that covers the file is usable, and no mapping before it leads to a file that
must not be read. -/
def LeadsBack (fs : FileSystem) (mappings : List Mapping) (file : Str) : Prop :=
  ∃ before m after found, mappings = before ++ m :: after ∧
    (∀ b ∈ before, matchPrefix file b.diskPath = none) ∧ matchPrefix file m.diskPath = some found ∧
    Usable m found ∧ NoneDenied fs (mapTo m.virtualPath found) before

theorem first_unique {file : Str} {before before' after after' : List Mapping} {m m' : Mapping}
    {found found' : Option Str} (h : before ++ m :: after = before' ++ m' :: after')
    (hbefore : ∀ b ∈ before, matchPrefix file b.diskPath = none)
    (hfound : matchPrefix file m.diskPath = some found)
    (hbefore' : ∀ b ∈ before', matchPrefix file b.diskPath = none)
    (hfound' : matchPrefix file m'.diskPath = some found') : before = before' ∧ m = m' ∧ found = found' := by
  induction before generalizing before' with
  | nil =>
    cases before' with
    | nil =>
      cases h
      rw [hfound] at hfound'
      exact ⟨rfl, rfl, Option.some_inj.mp hfound'⟩
    | cons b before' =>
      cases h
      rw [hbefore' m mem_cons_self] at hfound
      exact absurd hfound (by simp)
  | cons b before ih =>
    cases before' with
    | nil =>
      obtain ⟨rfl, -⟩ := List.cons.inj h
      rw [hbefore b mem_cons_self] at hfound'
      exact absurd hfound' (by simp)
    | cons b' before' =>
      obtain ⟨rfl, hrest⟩ := List.cons.inj h
      obtain ⟨rfl, hm, hf⟩ := ih hrest (fun c hc => hbefore c (mem_cons_of_mem _ hc))
        (fun c hc => hbefore' c (mem_cons_of_mem _ hc))
      exact ⟨rfl, hm, hf⟩

theorem diskFileToVirtualFile_success {diskFile : Str}
    (h : (diskFileToVirtualFile fs mappings diskFile st).1.result = .success) :
    Opens fs diskFile ∧ ∃ before m after found, mappings = before ++ m :: after ∧
      (∀ b ∈ before, matchPrefix (canonicalizePath diskFile) b.diskPath = none) ∧
      matchPrefix (canonicalizePath diskFile) m.diskPath = some found ∧
      (diskFileToVirtualFile fs mappings diskFile st).1.virtualFile = mapTo m.virtualPath found ∧
      AllMissing fs (mapTo m.virtualPath found) before := by
  unfold diskFileToVirtualFile at h ⊢
  cases hreverse : reverseMapping (canonicalizePath diskFile) mappings with
  | none =>
    rw [hreverse] at h
    exact absurd h (by simp)
  | some result =>
    obtain ⟨k, virtualFile⟩ := result
    rw [hreverse] at h
    dsimp only at h ⊢
    obtain ⟨before, m, after, found, rfl, rfl, hbefore, hfound, rfl⟩ := reverseMapping_some hreverse
    rw [take_left] at h ⊢
    cases hshadow : (shadowingFile fs (mapTo m.virtualPath found) before st).1 with
    | some shadowing =>
      rw [hshadow] at h
      exact absurd h (by simp)
    | none =>
      rw [hshadow] at h
      dsimp only at h ⊢
      split_ifs at h ⊢ with hopen
      exact ⟨(openDiskFile_fst _ _).mp hopen, before, m, after, found, rfl, hbefore, hfound, rfl,
        shadowingFile_none hshadow⟩

/-- **The virtual name of a file leads back to it** if and only if the mapping that made it is
usable and no mapping before denies access. -/
theorem virtualFileToDiskFile_iff (hfs : Posix fs) {mappings : List Mapping} {diskFile : Str}
    {st st' : State} (h : (diskFileToVirtualFile fs mappings diskFile st).1.result = .success) :
    (∃ path, (virtualFileToDiskFile fs mappings
          (diskFileToVirtualFile fs mappings diskFile st).1.virtualFile st').1 = some path ∧
        canonicalizePath path = canonicalizePath diskFile) ↔
      LeadsBack fs mappings (canonicalizePath diskFile) := by
  obtain ⟨hopens, before, m, after, found, rfl, hbefore, hfound, hvirtual, hmissing⟩ :=
    diskFileToVirtualFile_success h
  have hidem := canonicalizePath_idem diskFile
  have hproper : Proper (canonicalizePath diskFile) := canonicalizePath_eq_self_iff.mp hidem
  have hcovers := covers_of_matchPrefix hfound
  rw [hvirtual, virtualFileToDiskFile, openVirtualFile]
  constructor
  · rintro ⟨path, hpath, hcanonical⟩
    split_ifs at hpath with hbad
    obtain ⟨hname, hparent⟩ := not_or.mp hbad
    have hgood : Proper (mapTo m.virtualPath found) :=
      canonicalizePath_eq_self_iff.mp (not_not.mp hname).symm
    refine ⟨before, m, after, found, rfl, hbefore, hfound, ?_, ?_⟩
    · cases found with
      | some rest =>
        exact (proper_underPrefix (relative_of_covers hproper hcovers)).mp ⟨hgood, hparent⟩
      | none =>
        refine ⟨hgood, hparent, ?_⟩
        intro hempty
        obtain ⟨m', -, hmap⟩ := openMappings_some hpath
        rw [mapTo, hempty] at hmap
        rw [← hcovers.2, ← hcanonical]
        refine (applyMapping_nil hmap).resolve_left ?_
        rw [hcanonical, hcovers.2]
        exact hcovers.1
    · by_contra hdenied
      rw [openMappings_denied hfs hmissing hdenied] at hpath
      exact absurd hpath (by simp)
  · rintro ⟨before', m', after', found', hmappings, hbefore', hfound', husable, hdenied⟩
    obtain ⟨rfl, rfl, rfl⟩ := first_unique hmappings hbefore hfound hbefore' hfound'
    obtain ⟨hgood, hparent⟩ := proper_mapTo hproper hcovers husable
    obtain ⟨path, hmap, hdoubled⟩ := applyMapping_of_usable hproper hcovers husable
    have hfile : Opens fs path := hdoubled.opens hfs (hfs.canonical _ hopens)
    obtain ⟨st'', hskip⟩ := openMappings_skip hfs hmissing hdenied (m :: after) st'
    rw [if_neg (not_or.mpr ⟨not_not.mpr (canonicalizePath_eq_self_iff.mpr hgood).symm, hparent⟩), hskip]
    refine ⟨path, ?_, by rw [hdoubled.canonicalizePath_eq, hidem]⟩
    rw [openMappings, hmap]
    dsimp only
    rw [if_pos ((openDiskFile_fst path st'').mpr hfile)]

/-! ## A file system with one file -/

/-- `ENOENT`. -/
def enoent : Int := 2

/-- The file system in which only the file exists, under each of its names. -/
def onlyFile (file : Str) : FileSystem where
  access path := if canonicalizePath path = file then .ok () else .error enoent
  stat path := if canonicalizePath path = file then .ok false else .error enoent
  openFile path := if canonicalizePath path = file then .ok 3 else .error enoent

theorem opens_onlyFile : Opens (onlyFile file) path ↔ canonicalizePath path = file := by
  unfold Opens onlyFile
  by_cases hfile : canonicalizePath path = file <;> simp [hfile]

theorem posix_onlyFile (file : Str) : Posix (onlyFile file) where
  exists_of_stat path isDirectory h := by
    unfold onlyFile at h ⊢
    by_cases hfile : canonicalizePath path = file <;> simp_all
  exists_of_open path descriptor h := by
    unfold onlyFile at h ⊢
    by_cases hfile : canonicalizePath path = file <;> simp_all
  canonical path h := by
    rw [opens_onlyFile] at h ⊢
    rw [canonicalizePath_idem, h]
  doubled a b h := by
    rw [opens_onlyFile] at h ⊢
    rw [canonicalizePath_doubled, h]

def freshState : State := ⟨0, [], []⟩

/-- `d/x`. -/
def fileInD : Str := [100, 47, 120]

/-- The source tree that maps `virtualPath` to the directory `d`. -/
def mappedD (virtualPath : Str) : List Mapping := [⟨virtualPath, [100]⟩]

theorem canonicalizePath_fileInD : canonicalizePath fileInD = fileInD :=
  canonicalizePath_eq_self_iff.mpr (by unfold Proper segments; decide)

theorem diskFileToVirtualFile_mappedD (virtualPath : Str) :
    (diskFileToVirtualFile (onlyFile fileInD) (mappedD virtualPath) fileInD freshState).1 =
      ⟨.success, underPrefix virtualPath [120], []⟩ := by
  have hopen : (openDiskFile (onlyFile fileInD) fileInD freshState).1 = true :=
    (openDiskFile_fst _ _).mpr (opens_onlyFile.mpr canonicalizePath_fileInD)
  have hmap : applyMapping fileInD [100] virtualPath = some (underPrefix virtualPath [120]) := by
    have hcovers : Covers fileInD [100] (some [120]) := ⟨by decide, Or.inr (Or.inl ⟨by decide, rfl⟩)⟩
    rw [applyMapping_eq, matchPrefix_of_covers hcovers]
    rfl
  rw [diskFileToVirtualFile, canonicalizePath_fileInD]
  simp [mappedD, reverseMapping, hmap, shadowingFile, hopen]

/-- With the virtual path `foo`, the file is importable as `foo/x`. -/
theorem virtualFileToDiskFile_iff_foo :
    ∃ path, (virtualFileToDiskFile (onlyFile fileInD) (mappedD (text "foo"))
        (diskFileToVirtualFile (onlyFile fileInD) (mappedD (text "foo")) fileInD freshState).1.virtualFile
        freshState).1 = some path ∧ canonicalizePath path = canonicalizePath fileInD := by
  have hsuccess : (diskFileToVirtualFile (onlyFile fileInD) (mappedD (text "foo")) fileInD
      freshState).1.result = .success := by
    rw [diskFileToVirtualFile_mappedD]
  refine (virtualFileToDiskFile_iff (posix_onlyFile fileInD) hsuccess).mpr ?_
  rw [canonicalizePath_fileInD]
  refine ⟨[], ⟨text "foo", [100]⟩, [], some [120], rfl, by simp, by decide, ?_, by simp [NoneDenied]⟩
  unfold Usable Proper segments
  decide

/-- With the virtual path `foo/`, its name is `foo//x`, which is never opened. -/
theorem not_virtualFileToDiskFile_fooSlash : Posix (onlyFile fileInD) ∧
      (diskFileToVirtualFile (onlyFile fileInD) (mapPath (text "foo/") [100] []) fileInD
        freshState).1.result = .success ∧
      ¬ ∃ path, (virtualFileToDiskFile (onlyFile fileInD) (mapPath (text "foo/") [100] [])
          (diskFileToVirtualFile (onlyFile fileInD) (mapPath (text "foo/") [100] []) fileInD
            freshState).1.virtualFile freshState).1 = some path ∧
        canonicalizePath path = canonicalizePath fileInD := by
  have hmapped : mapPath (text "foo/") [100] [] = mappedD (text "foo/") := by
    have hd : canonicalizePath [100] = [100] :=
      canonicalizePath_eq_self_iff.mpr (by unfold Proper segments; decide)
    rw [mapPath, hd]
    rfl
  have himproper : ¬ Proper (underPrefix (text "foo/") [120]) := by
    unfold Proper segments
    decide
  rw [hmapped, diskFileToVirtualFile_mappedD]
  refine ⟨posix_onlyFile fileInD, rfl, ?_⟩
  rintro ⟨path, hpath, -⟩
  rw [virtualFileToDiskFile, openVirtualFile, if_pos] at hpath
  · exact absurd hpath (by simp)
  · exact Or.inl fun heq => himproper (canonicalizePath_eq_self_iff.mp heq.symm)

end Protoc.Compiler
