import Protoc.Compiler.Importer

/-!
# Canonical paths

A canonical path is put together from parts that are neither empty nor `.`, with a slash in
front and behind or without.  In terms of the segments between the slashes: none is `.`, and
only the first and the last may be empty.
-/

namespace Protoc.Compiler

open Protoc.Lib
open List
open Protoc.Util (Str)

def segments (path : Str) : List Str := path.splitOn slash

def CanonicalPart (part : Str) : Prop := IsPart slash part ∧ part ≠ currentDirectory

/-- The parts that `CanonicalizePath` keeps. -/
def canonicalParts (path : Str) : List Str := (split slash path).filter (· ≠ currentDirectory)

theorem canonicalPart_of_mem {path part : Str} (h : part ∈ canonicalParts path) : CanonicalPart part := by
  obtain ⟨hmem, hne⟩ := mem_filter.mp h
  rw [split_eq_filter] at hmem
  obtain ⟨hsegment, hnil⟩ := mem_filter.mp hmem
  exact ⟨⟨of_decide_eq_true hnil, notMem_of_mem_splitOn hsegment⟩, of_decide_eq_true hne⟩

/-- **The canonical path** has a slash in front where the path has, and one behind where the path
has and there are parts. -/
theorem canonicalizePath_eq (path : Str) :
    canonicalizePath path = assemble slash (decide (path.head? = some slash)) (canonicalParts path)
      (decide (path.getLast? = some slash ∧ canonicalParts path ≠ [])) := by
  have hparts : ∀ p ∈ canonicalParts path, IsPart slash p := fun p hp => (canonicalPart_of_mem hp).1
  unfold canonicalizePath assemble
  dsimp only
  change _ = _ ++ [slash].intercalate (canonicalParts path) ++ _
  rw [show (split slash path).filter (· ≠ currentDirectory) = canonicalParts path from rfl]
  by_cases hne : canonicalParts path = []
  · rw [hne, intercalate_nil]
    by_cases hlead : path.head? = some slash <;> simp [hlead]
  · obtain ⟨hnil, hhead, hlast⟩ := intercalate_ends hparts hne
    by_cases hlead : path.head? = some slash <;> by_cases htrail : path.getLast? = some slash
    · have hend : (slash :: [slash].intercalate (canonicalParts path)).getLast? ≠ some slash := by
        rw [← singleton_append, List.getLast?_append_of_ne_nil _ hnil]
        exact hlast
      simp [hlead, htrail, hne, hend]
    · simp [hlead, htrail]
    · simp [hlead, htrail, hne, hnil, hlast]
    · simp [hlead, htrail]

theorem canonicalizePath_assemble {lead trail : Bool} {parts : List Str}
    (h : ∀ p ∈ parts, CanonicalPart p) (htrail : parts = [] → trail = false) :
    canonicalizePath (assemble slash lead parts trail) = assemble slash lead parts trail := by
  have hparts : ∀ p ∈ parts, IsPart slash p := fun p hp => (h p hp).1
  have hsame : canonicalParts (assemble slash lead parts trail) = parts := by
    unfold canonicalParts
    rw [split_assemble hparts, filter_eq_self]
    exact fun p hp => decide_eq_true (h p hp).2
  rw [canonicalizePath_eq, hsame]
  by_cases hne : parts = []
  · rw [hne, htrail hne]
    cases lead <;> simp [assemble]
  · obtain ⟨hhead, hlast⟩ := ends_assemble lead trail hparts hne
    have hfront : decide ((assemble slash lead parts trail).head? = some slash) = lead := by
      rw [Bool.eq_iff_iff, decide_eq_true_eq]
      exact hhead
    have hback : decide ((assemble slash lead parts trail).getLast? = some slash ∧ parts ≠ []) = trail := by
      rw [Bool.eq_iff_iff, decide_eq_true_eq, and_iff_left hne]
      exact hlast
    rw [hfront, hback]

theorem canonicalizePath_idem (path : Str) :
    canonicalizePath (canonicalizePath path) = canonicalizePath path := by
  rw [canonicalizePath_eq path]
  refine canonicalizePath_assemble (fun p hp => canonicalPart_of_mem hp) ?_
  intro hnil
  simp [hnil]

/-! ## Proper paths -/

/-- No segment is `.`, and only the first and the last segment may be empty. -/
def Proper (path : Str) : Prop :=
  currentDirectory ∉ segments path ∧ ∀ s ∈ (segments path).tail.dropLast, s ≠ []

theorem intercalate_segments (path : Str) : [slash].intercalate (segments path) = path :=
  intercalate_splitOn slash

theorem slash_notMem_of_mem_segments {path s : Str} (h : s ∈ segments path) : slash ∉ s :=
  notMem_of_mem_splitOn h

theorem segments_cases (path : Str) :
    (∃ s, segments path = [s]) ∨ ∃ s inner t, segments path = s :: inner ++ [t] := by
  obtain ⟨s, rest, hsegments⟩ := exists_cons_of_ne_nil (splitOn_ne_nil slash path)
  rcases eq_nil_or_concat rest with rfl | ⟨inner, t, rfl⟩
  · exact Or.inl ⟨s, hsegments⟩
  · exact Or.inr ⟨s, inner, t, by rw [segments, hsegments]; simp⟩

theorem nonempty_part {path s : Str} (hmem : s ∈ segments path) (hcurrent : currentDirectory ∉ segments path)
    (hne : s ≠ []) : CanonicalPart s :=
  ⟨⟨hne, slash_notMem_of_mem_segments hmem⟩, fun heq => hcurrent (heq ▸ hmem)⟩

variable {path : Str}

/-- A proper path is assembled from its segments that are not empty. -/
theorem Proper.exists_assemble (h : Proper path) :
    ∃ lead parts trail, path = assemble slash lead parts trail ∧ (∀ p ∈ parts, CanonicalPart p) ∧
      (parts = [] → trail = false) := by
  obtain ⟨hcurrent, hinner⟩ := h
  have hpart : ∀ s ∈ segments path, s ≠ [] → CanonicalPart s := fun s hs => nonempty_part hs hcurrent
  have hpath := intercalate_segments path
  rcases segments_cases path with ⟨s, hs⟩ | ⟨s, inner, t, hs⟩
  · rw [hs, intercalate_singleton] at hpath
    by_cases hnil : s = []
    · refine ⟨false, [], false, ?_, by simp, fun _ => rfl⟩
      rw [← hpath, hnil]
      simp [assemble]
    · refine ⟨false, [s], false, ?_, ?_, by simp⟩
      · rw [← hpath]
        simp [assemble]
      · intro p hp
        rw [mem_singleton.mp hp]
        exact hpart s (by simp [hs]) hnil
  · have hinnerParts : ∀ p ∈ inner, CanonicalPart p := by
      intro p hp
      refine hpart p (by simp [hs, hp]) (hinner p ?_)
      rw [hs, cons_append, tail_cons, dropLast_concat]
      exact hp
    rw [hs] at hpath
    -- the first and the last segment are parts where they are not empty
    by_cases hfirst : s = [] <;> by_cases hlast : t = []
    · by_cases hempty : inner = []
      · refine ⟨true, [], false, ?_, by simp, fun _ => rfl⟩
        rw [← hpath, hfirst, hlast, hempty]
        rfl
      · refine ⟨true, inner, true, ?_, hinnerParts, fun hnil => absurd hnil hempty⟩
        rw [← hpath, hfirst, hlast, intercalate_append (by simp) (by simp),
          intercalate_cons_of_ne_nil hempty]
        simp [assemble]
    · refine ⟨true, inner ++ [t], false, ?_, ?_, by simp⟩
      · rw [← hpath, hfirst, cons_append, intercalate_cons_of_ne_nil (by simp)]
        simp [assemble]
      · intro p hp
        rcases mem_append.mp hp with hp | hp
        · exact hinnerParts p hp
        · rw [mem_singleton.mp hp]
          exact hpart t (by simp [hs]) hlast
    · refine ⟨false, s :: inner, true, ?_, ?_, by simp⟩
      · rw [← hpath, hlast, intercalate_append (by simp) (by simp), intercalate_singleton]
        simp [assemble]
      · intro p hp
        rcases mem_cons.mp hp with rfl | hp
        · exact hpart p (by simp [hs]) hfirst
        · exact hinnerParts p hp
    · refine ⟨false, s :: inner ++ [t], false, ?_, ?_, by simp⟩
      · rw [← hpath]
        simp [assemble]
      · intro p hp
        have hmem : p ∈ segments path := by rw [hs]; exact hp
        refine hpart p hmem ?_
        rcases mem_append.mp hp with hp | hp
        · rcases mem_cons.mp hp with rfl | hp
          · exact hfirst
          · exact (hinnerParts p hp).1.1
        · rw [mem_singleton.mp hp]
          exact hlast

theorem proper_assemble {lead trail : Bool} {parts : List Str} (h : ∀ p ∈ parts, CanonicalPart p)
    (htrail : parts = [] → trail = false) : Proper (assemble slash lead parts trail) := by
  by_cases hne : parts = []
  · rw [hne, htrail hne]
    cases lead with
    | false => simp [Proper, segments, assemble, currentDirectory]
    | true =>
      have hsegments : segments [slash] = [[], []] := by decide
      simp [Proper, assemble, currentDirectory, hsegments]
  · have hsegments := splitOn_assemble lead trail (fun p hp => (h p hp).1.2) hne
    obtain ⟨first, rest, rfl⟩ := exists_cons_of_ne_nil hne
    refine ⟨?_, ?_⟩
    · rw [segments, hsegments]
      have hnot : currentDirectory ∉ first :: rest := fun hmem => (h _ hmem).2 rfl
      cases lead <;> cases trail <;> simpa [currentDirectory] using hnot
    · rw [segments, hsegments]
      intro s hs
      have hmem : s ∈ first :: rest := by
        cases lead <;> cases trail
        · simp only [Bool.false_eq_true, if_false, nil_append, append_nil, tail_cons] at hs
          exact mem_cons_of_mem _ (mem_of_mem_dropLast hs)
        · simp only [Bool.false_eq_true, if_false, if_true, nil_append, cons_append,
            tail_cons, dropLast_concat] at hs
          exact mem_cons_of_mem _ hs
        · simp only [Bool.false_eq_true, if_false, if_true, append_nil, cons_append,
            nil_append, tail_cons] at hs
          exact mem_of_mem_dropLast hs
        · simp only [if_true, cons_append, nil_append, tail_cons] at hs
          rw [← cons_append, dropLast_concat] at hs
          exact hs
      exact (h s hmem).1.1

/-- **The proper paths are those that are canonical.** -/
theorem canonicalizePath_eq_self_iff : canonicalizePath path = path ↔ Proper path := by
  constructor
  · intro heq
    rw [← heq, canonicalizePath_eq]
    refine proper_assemble (fun p hp => canonicalPart_of_mem hp) ?_
    intro hnil
    simp [hnil]
  · intro hproper
    obtain ⟨lead, parts, trail, rfl, hparts, htrail⟩ := hproper.exists_assemble
    exact canonicalizePath_assemble hparts htrail

/-! ## The canonical form -/

/-- The segments that are neither empty nor `.`. -/
def otherSegments (path : Str) : List Str := (segments path).filter fun s => s ≠ [] ∧ s ≠ currentDirectory

theorem canonicalParts_eq_otherSegments (path : Str) : canonicalParts path = otherSegments path := by
  rw [canonicalParts, otherSegments, split_eq_filter, filter_filter, segments]
  refine filter_congr fun s _ => ?_
  rw [Bool.decide_and, Bool.and_comm]

theorem canonicalizePath_keeps (path : Str) : canonicalParts (canonicalizePath path) = canonicalParts path ∧
      ((canonicalizePath path).head? = some slash ↔ path.head? = some slash) := by
  have hparts : ∀ p ∈ canonicalParts path, CanonicalPart p := fun p hp => canonicalPart_of_mem hp
  rw [canonicalizePath_eq]
  constructor
  · rw [canonicalParts, split_assemble fun p hp => (hparts p hp).1, filter_eq_self]
    exact fun p hp => decide_eq_true (hparts p hp).2
  · by_cases hne : canonicalParts path = []
    · rw [hne]
      by_cases hlead : path.head? = some slash <;> simp [assemble, hlead]
    · rw [(ends_assemble _ _ (fun p hp => (hparts p hp).1) hne).1, decide_eq_true_eq]

/-- **`CanonicalizePath` is a canonical form.**  A second time it changes nothing; no segment is
`.`, and none between two slashes is empty; whether the path is absolute and the other segments
stay; and paths that agree in these and in the slash at their end have one canonical path. -/
theorem canonicalizePath_canonical (path : Str) :
    canonicalizePath (canonicalizePath path) = canonicalizePath path ∧
      (currentDirectory ∉ segments (canonicalizePath path) ∧
        ∀ s ∈ (segments (canonicalizePath path)).tail.dropLast, s ≠ []) ∧
      ((canonicalizePath path).head? = some slash ↔ path.head? = some slash) ∧
      otherSegments (canonicalizePath path) = otherSegments path ∧
      ∀ path' : Str, (path'.head? = some slash ↔ path.head? = some slash) →
        otherSegments path' = otherSegments path → (path'.getLast? = some slash ↔ path.getLast? = some slash) →
        canonicalizePath path' = canonicalizePath path := by
  obtain ⟨hsame, habsolute⟩ := canonicalizePath_keeps path
  have hidem := canonicalizePath_idem path
  refine ⟨hidem, canonicalizePath_eq_self_iff.mp hidem, habsolute, ?_, fun path' hhead hother hlast => ?_⟩
  · rw [← canonicalParts_eq_otherSegments, ← canonicalParts_eq_otherSegments, hsame]
  · have hparts : canonicalParts path' = canonicalParts path := by
      rw [canonicalParts_eq_otherSegments, canonicalParts_eq_otherSegments, hother]
    rw [canonicalizePath_eq, canonicalizePath_eq, hparts, decide_eq_decide.mpr hhead]
    congr 1
    exact decide_eq_decide.mpr (and_congr_left' hlast)

/-- `.//a/./b/` and `a/b//`. -/
theorem canonicalizePath_canonical_dots :
    canonicalizePath (text ".//a/./b/") = canonicalizePath (text "a/b//") :=
  (canonicalizePath_canonical (text "a/b//")).2.2.2.2 (text ".//a/./b/") (by decide) (by decide) (by decide)

/-- **A parent reference is a segment `..`.** -/
theorem containsParentReference_iff : containsParentReference path ↔ parentDirectory ∈ segments path :=
  (mem_splitOn_iff (x := parentDirectory) (c := slash) (by decide)).symm

end Protoc.Compiler
