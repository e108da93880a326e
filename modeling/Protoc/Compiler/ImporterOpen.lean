import Protoc.Compiler.ImporterPaths

/-!
# What is opened for a virtual file

`OpenVirtualFile` hands to `OpenDiskFile` the disk path of a mapping, or a path below one.
What is below it is relative and has no segment `..`, so it stays inside the mapped directory.
-/

namespace Protoc.Compiler

open Protoc.Lib
open List
open Protoc.Util (Str)

/-! ## Applying a mapping -/

/-- How a prefix covers a file name: all of it (`some none`), or up to the rest. -/
def matchPrefix (filename oldPrefix : Str) : Option (Option Str) :=
  if oldPrefix = [] then
    if containsParentReference filename ∨ filename.head? = some slash then none
    else some (some filename)
  else if oldPrefix <+: filename then
    let rest := filename.drop oldPrefix.length
    if rest = [] then some none
    else if rest.head? = some slash then
      if containsParentReference (rest.drop 1) then none else some (some (rest.drop 1))
    else if oldPrefix.getLast? = some slash then
      if containsParentReference rest then none else some (some rest)
    else none
  else none

def mapTo (newPrefix : Str) : Option Str → Str
  | none => newPrefix
  | some rest => underPrefix newPrefix rest

/-- **The result of a mapping** is the new prefix with what the old one leaves. -/
theorem applyMapping_eq (filename oldPrefix newPrefix : Str) : applyMapping filename oldPrefix newPrefix =
      (matchPrefix filename oldPrefix).map (mapTo newPrefix) := by
  unfold applyMapping matchPrefix
  by_cases hempty : oldPrefix = []
  · have hslash : [slash] <+: filename ↔ filename.head? = some slash := by
      cases filename <;> simp [cons_prefix_cons, eq_comm]
    rw [if_pos hempty, if_pos hempty]
    by_cases hparent : containsParentReference filename
    · simp [hparent]
    · by_cases hlead : filename.head? = some slash <;> simp [hparent, hslash, hlead, mapTo]
  · rw [if_neg hempty, if_neg hempty]
    by_cases hprefix : oldPrefix <+: filename
    · obtain ⟨rest, rfl⟩ := hprefix
      have hlast : (oldPrefix ++ rest)[oldPrefix.length - 1]? = oldPrefix.getLast? := by
        have hpos : oldPrefix.length - 1 < oldPrefix.length :=
          Nat.sub_lt (length_pos_of_ne_nil hempty) Nat.one_pos
        rw [List.getElem?_append_left hpos, List.getLast?_eq_getElem?]
      have hnext : (oldPrefix ++ rest)[oldPrefix.length]? = rest.head? := by
        rw [List.getElem?_append_right le_rfl, Nat.sub_self, List.head?_eq_getElem?]
      rw [if_pos (prefix_append _ _), if_pos (prefix_append _ _)]
      dsimp only
      rw [hlast, hnext, drop_left]
      by_cases hnil : rest = []
      · simp [hnil, mapTo]
      · have hlength : (oldPrefix ++ rest).length ≠ oldPrefix.length := by
          simpa using hnil
        rw [if_neg hlength, if_neg hnil]
        by_cases hslash : rest.head? = some slash
        · have hdrop : (oldPrefix ++ rest).drop ((oldPrefix.length : Int) + 1).toNat = rest.drop 1 := by
            rw [show ((oldPrefix.length : Int) + 1).toNat = oldPrefix.length + 1 by omega,
              drop_append, drop_eq_nil_of_le (by omega)]
            simp
          simp only [hslash, if_true, hdrop]
          rw [if_pos (by omega)]
          split_ifs <;> rfl
        · by_cases hdirectory : oldPrefix.getLast? = some slash
          · simp only [hslash, hdirectory, if_true, if_false, Int.toNat_natCast, drop_left]
            rw [if_pos (by omega)]
            split_ifs <;> rfl
          · simp [hslash, hdirectory]
    · rw [if_neg hprefix, if_neg hprefix]
      rfl

/-- How a file name goes on after a prefix that covers it. -/
def Covers (filename oldPrefix : Str) : Option Str → Prop
  | none => oldPrefix ≠ [] ∧ filename = oldPrefix
  | some rest => ¬ containsParentReference rest ∧
      ((oldPrefix = [] ∧ filename = rest ∧ rest.head? ≠ some slash) ∨
        (oldPrefix ≠ [] ∧ filename = oldPrefix ++ slash :: rest) ∨
        (oldPrefix ≠ [] ∧ oldPrefix.getLast? = some slash ∧ filename = oldPrefix ++ rest ∧
          rest ≠ [] ∧ rest.head? ≠ some slash))

theorem matchPrefix_append {oldPrefix : Str} (h : oldPrefix ≠ []) (rest : Str) :
    matchPrefix (oldPrefix ++ rest) oldPrefix = if rest = [] then some none
      else if rest.head? = some slash then
        if containsParentReference (rest.drop 1) then none else some (some (rest.drop 1))
      else if oldPrefix.getLast? = some slash then
        if containsParentReference rest then none else some (some rest)
      else none := by
  unfold matchPrefix
  rw [if_neg h, if_pos (prefix_append _ _), drop_left]

theorem covers_of_matchPrefix {filename oldPrefix : Str} {found : Option Str}
    (h : matchPrefix filename oldPrefix = some found) : Covers filename oldPrefix found := by
  by_cases hempty : oldPrefix = []
  · rw [matchPrefix, if_pos hempty] at h
    split_ifs at h with hcond
    obtain ⟨hparent, hlead⟩ := not_or.mp hcond
    cases h
    exact ⟨hparent, Or.inl ⟨hempty, rfl, hlead⟩⟩
  · by_cases hprefix : oldPrefix <+: filename
    · obtain ⟨rest, rfl⟩ := hprefix
      rw [matchPrefix_append hempty] at h
      split_ifs at h with hnil hslash hparent hdirectory hparent
      · cases h
        exact ⟨hempty, by rw [hnil, append_nil]⟩
      · cases h
        obtain ⟨tail, rfl⟩ := List.head?_eq_some_iff.mp hslash
        exact ⟨hparent, Or.inr (Or.inl ⟨hempty, rfl⟩)⟩
      · cases h
        exact ⟨hparent, Or.inr (Or.inr ⟨hempty, hdirectory, rfl, hnil, hslash⟩)⟩
    · rw [matchPrefix, if_neg hempty, if_neg hprefix] at h
      exact absurd h (by simp)

theorem matchPrefix_of_covers {filename oldPrefix : Str} {found : Option Str}
    (h : Covers filename oldPrefix found) : matchPrefix filename oldPrefix = some found := by
  cases found with
  | none =>
    obtain ⟨hempty, rfl⟩ := h
    have happend := matchPrefix_append hempty []
    rwa [append_nil, if_pos rfl] at happend
  | some rest =>
    obtain ⟨hparent, ⟨rfl, rfl, hlead⟩ | ⟨hempty, rfl⟩ | ⟨hempty, hdirectory, rfl, hnil, hlead⟩⟩ := h
    · simp [matchPrefix, hparent, hlead]
    · rw [matchPrefix_append hempty]
      simp [hparent]
    · rw [matchPrefix_append hempty]
      simp [hparent, hnil, hlead, hdirectory]

/-! ## Confinement -/

/-- A relative path without segments `..` and `.`, and empty at most at its end. -/
structure Relative (path : Str) : Prop where
  /-- It does not lead to a parent directory. -/
  noParent : parentDirectory ∉ segments path
  /-- It has no segment `.`. -/
  noCurrent : currentDirectory ∉ segments path
  /-- It does not start at the root. -/
  noRoot : path.head? ≠ some slash
  /-- No segment but the last is empty. -/
  nonempty : ∀ s ∈ (segments path).dropLast, s ≠ []

/-- A name that is not to be opened: with a segment `..` or `.`, or an empty inner segment. -/
def Improper (name : Str) : Prop :=
  parentDirectory ∈ segments name ∨ currentDirectory ∈ segments name ∨
    ∃ s ∈ (segments name).tail.dropLast, s = []

/-- A path that a virtual file may lead to: the disk path of a mapping for the file itself, or a
relative path below the disk path of a mapping. -/
def Confined (mappings : List Mapping) (name path : Str) : Prop :=
  (∃ m ∈ mappings, m.virtualPath = name ∧ path = m.diskPath) ∨
    ∃ m ∈ mappings, ∃ sep rest, (sep = [] ∨ sep = [slash]) ∧ path = m.diskPath ++ sep ++ rest ∧
      Relative rest

theorem segments_append (a b : Str) : segments (a ++ slash :: b) = segments a ++ segments b :=
  splitOn_append_cons_self a b

theorem segments_ne_nil (path : Str) : segments path ≠ [] := splitOn_ne_nil slash path

theorem head?_ne_of_nonempty {path : Str} (h : ∀ s ∈ (segments path).dropLast, s ≠ []) :
    path.head? ≠ some slash := by
  intro hhead
  obtain ⟨tail, rfl⟩ := List.head?_eq_some_iff.mp hhead
  have hsegments : segments (slash :: tail) = [] :: segments tail := by
    have happend := segments_append [] tail
    rwa [nil_append] at happend
  refine h [] ?_ rfl
  rw [hsegments, dropLast_cons_of_ne_nil (segments_ne_nil tail)]
  exact mem_cons_self

theorem relative_of_append {before rest : Str} (hproper : Proper (before ++ slash :: rest))
    (hparent : ¬ containsParentReference rest) : Relative rest := by
  obtain ⟨hcurrent, hinner⟩ := hproper
  rw [segments_append] at hcurrent hinner
  have hnonempty : ∀ s ∈ (segments rest).dropLast, s ≠ [] := by
    intro s hs
    refine hinner s ?_
    rw [tail_append_of_ne_nil (segments_ne_nil before), dropLast_append_of_ne_nil (segments_ne_nil rest)]
    exact mem_append_right _ hs
  exact ⟨mt containsParentReference_iff.mpr hparent, fun h => hcurrent (mem_append_right _ h),
    head?_ne_of_nonempty hnonempty, hnonempty⟩

theorem relative_of_proper {name : Str} (hproper : Proper name)
    (hparent : ¬ containsParentReference name) (hlead : name.head? ≠ some slash) : Relative name := by
  obtain ⟨hcurrent, hinner⟩ := hproper
  refine ⟨mt containsParentReference_iff.mpr hparent, hcurrent, hlead, ?_⟩
  rcases segments_cases name with ⟨s, hs⟩ | ⟨first, inner, last, hs⟩
  · simp [hs]
  · have hfirst : first ≠ [] := by
      rintro rfl
      have hname := intercalate_segments name
      rw [hs, cons_append, intercalate_cons_of_ne_nil (by simp)] at hname
      rw [← hname] at hlead
      exact hlead rfl
    intro s hmem
    rw [hs, dropLast_concat] at hmem
    rcases mem_cons.mp hmem with rfl | hmem
    · exact hfirst
    · refine hinner s ?_
      rw [hs, cons_append, tail_cons, dropLast_concat]
      exact hmem

/-- **What a mapping makes of a proper name is confined.** -/
theorem confined_of_applyMapping {mappings : List Mapping} {m : Mapping} {name path : Str}
    (hproper : Proper name) (hmem : m ∈ mappings)
    (h : applyMapping name m.virtualPath m.diskPath = some path) : Confined mappings name path := by
  rw [applyMapping_eq] at h
  obtain ⟨found, hmatch, rfl⟩ := Option.map_eq_some_iff.mp h
  have hcovers := covers_of_matchPrefix hmatch
  have hbelow : ∀ rest, Relative rest → Confined mappings name (underPrefix m.diskPath rest) := by
    intro rest hrest
    refine Or.inr ⟨m, hmem, if m.diskPath ≠ [] then [slash] else [], rest, ?_, ?_, hrest⟩
    · split_ifs <;> simp
    · unfold underPrefix
      split_ifs <;> simp
  cases found with
  | none => exact Or.inl ⟨m, hmem, hcovers.2.symm, rfl⟩
  | some rest =>
    refine hbelow rest ?_
    obtain ⟨hparent, ⟨-, rfl, hlead⟩ | ⟨-, rfl⟩ | ⟨-, hdirectory, rfl, -, -⟩⟩ := hcovers
    · exact relative_of_proper hproper hparent hlead
    · exact relative_of_append hproper hparent
    · obtain ⟨before, hbefore⟩ := List.getLast?_eq_some_iff.mp hdirectory
      rw [hbefore, append_assoc, singleton_append] at hproper
      exact relative_of_append hproper hparent

/-! ## Opening -/

variable (fs : FileSystem)

theorem openDiskFile_opened (filename : Str) (st : State) :
    (openDiskFile fs filename st).2.opened = st.opened ++ [filename] := by
  unfold openDiskFile
  dsimp only
  cases fs.stat filename with
  | error errno => cases fs.openFile filename <;> rfl
  | ok isDirectory =>
    cases isDirectory with
    | true => rfl
    | false => cases fs.openFile filename <;> rfl

theorem openMappings_opened (name : Str) (mappings : List Mapping) (st : State) :
    ∃ opened, (openMappings fs name mappings st).2.opened = st.opened ++ opened ∧
      ∀ path ∈ opened, ∃ m ∈ mappings, applyMapping name m.virtualPath m.diskPath = some path := by
  induction mappings generalizing st with
  | nil => exact ⟨[], by simp [openMappings], by simp⟩
  | cons m mappings ih =>
    rw [openMappings]
    cases hmap : applyMapping name m.virtualPath m.diskPath with
    | none =>
      obtain ⟨opened, hopened, hall⟩ := ih st
      exact ⟨opened, hopened, fun path hpath => (hall path hpath).imp fun _ h =>
        ⟨mem_cons_of_mem _ h.1, h.2⟩⟩
    | some temp =>
      have hfirst := openDiskFile_opened fs temp st
      dsimp only
      split_ifs
      · exact ⟨[temp], hfirst, fun path hpath => ⟨m, mem_cons_self, by
          rw [mem_singleton.mp hpath, hmap]⟩⟩
      · exact ⟨[temp], hfirst, fun path hpath => ⟨m, mem_cons_self, by
          rw [mem_singleton.mp hpath, hmap]⟩⟩
      · obtain ⟨opened, hopened, hall⟩ := ih (openDiskFile fs temp st).2
        refine ⟨temp :: opened, by rw [hopened, hfirst]; simp, ?_⟩
        intro path hpath
        rcases mem_cons.mp hpath with rfl | hpath
        · exact ⟨m, mem_cons_self, hmap⟩
        · exact (hall path hpath).imp fun _ h => ⟨mem_cons_of_mem _ h.1, h.2⟩

/-- **Every path that is opened for a virtual file is confined**, and none is for an improper name. -/
theorem openVirtualFile_confined (mappings : List Mapping) (name : Str) (st : State) :
    ∃ opened, (openVirtualFile fs mappings name st).2.opened = st.opened ++ opened ∧
      (∀ path ∈ opened, Confined mappings name path) ∧ (Improper name → opened = []) := by
  unfold openVirtualFile
  split_ifs with hbad
  · exact ⟨[], by simp, by simp, fun _ => rfl⟩
  · obtain ⟨hcanonical, hparent⟩ := not_or.mp hbad
    have hproper : Proper name := canonicalizePath_eq_self_iff.mp (not_not.mp hcanonical).symm
    obtain ⟨opened, hopened, hall⟩ := openMappings_opened fs name mappings st
    refine ⟨opened, hopened, ?_, ?_⟩
    · intro path hpath
      obtain ⟨m, hmem, hmap⟩ := hall path hpath
      exact confined_of_applyMapping hproper hmem hmap
    · rintro (hup | hcurrent | ⟨s, hs, hnil⟩)
      · exact absurd (containsParentReference_iff.mpr hup) hparent
      · exact absurd hcurrent hproper.1
      · exact absurd hnil (hproper.2 s hs)

end Protoc.Compiler
