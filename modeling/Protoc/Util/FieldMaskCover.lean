import Mathlib.Data.Set.Basic
import Protoc.Util.FieldMask

/-!
# What a field mask covers

A mask covers a path if one of the mask's paths is the path or leads to it.  The operations
on masks are the set operations on what they cover.
-/

namespace Protoc.Util

open Protoc.Lib PathTree
open List

def segments (path : Str) : List Str := path.splitOn dot

/-- A dotted field path: one name at least, none empty. -/
def IsPath (path : Str) : Prop := [] ∉ segments path

instance (path : Str) : Decidable (IsPath path) := inferInstanceAs (Decidable ([] ∉ segments path))

def MaskCovers (mask : FieldMask) (parts : List Str) : Prop :=
  ∃ maskPath ∈ mask, segments maskPath <+: parts

/-- The field paths that a path of the mask is a prefix of, name by name. -/
def cov (mask : FieldMask) : Set Str := { path | IsPath path ∧ MaskCovers mask (segments path) }

def pathOf (parts : List Str) : Str := [dot].intercalate parts

theorem segments_ne_nil (path : Str) : segments path ≠ [] := splitOn_ne_nil dot path

theorem pathOf_segments (path : Str) : pathOf (segments path) = path := intercalate_splitOn dot

variable {parts : List Str}

theorem segments_pathOf (h : ∀ part ∈ parts, IsPart dot part) (hne : parts ≠ []) :
    segments (pathOf parts) = parts :=
  splitOn_intercalate dot (fun part hmem => (h part hmem).2) hne

theorem isPath_pathOf (h : ∀ part ∈ parts, IsPart dot part) (hne : parts ≠ []) : IsPath (pathOf parts) := by
  rw [IsPath, segments_pathOf h hne]
  intro hmem
  exact (h [] hmem).1 rfl

variable {path : Str}

theorem IsPath.isPart (h : IsPath path) : ∀ part ∈ segments path, IsPart dot part := by
  intro part hmem
  refine ⟨?_, notMem_of_mem_splitOn hmem⟩
  rintro rfl
  exact h hmem

theorem IsPath.split (h : IsPath path) : Lib.split dot path = segments path := split_eq_splitOn h

def Named : Node → Prop
  | .empty => True
  | .child name node next => IsPart dot name ∧ Named node ∧ Named next

/-- The children are in order, and all names are field names. -/
structure Valid (t : Node) : Prop where
  ordered : Ordered t
  named : Named t

theorem valid_empty : Valid .empty := ⟨trivial, trivial⟩

variable {name : Str}

theorem Named.set {t new : Node} (h : Named t) (hname : IsPart dot name)
    (hnew : Named new) : Named (set name new t) := by
  induction t with
  | empty => exact ⟨hname, hnew, trivial⟩
  | child n node next ihNode ihNext =>
    rw [PathTree.set]
    split
    · exact ⟨hname, hnew, h⟩
    · split
      · exact ⟨h.1, hnew, h.2.2⟩
      · exact ⟨h.1, h.2.1, ihNext h.2.2⟩

theorem Named.find {t node : Node} (h : Named t) (hfind : find name t = some node) : Named node := by
  induction t with
  | empty => cases hfind
  | child n node' next ihNode ihNext =>
    by_cases heq : name = n
    · subst heq
      rw [find_child_self] at hfind
      cases hfind
      exact h.2.1
    · rw [find_child_of_ne heq] at hfind
      exact ihNext h.2.2 hfind

theorem Valid.set {t new : Node} (h : Valid t) (hname : IsPart dot name)
    (hnew : Valid new) : Valid (set name new t) :=
  ⟨h.ordered.set hnew.ordered, h.named.set hname hnew.named⟩

theorem Valid.find {t node : Node} (h : Valid t) (hfind : find name t = some node) : Valid node :=
  ⟨h.ordered.find hfind, h.named.find hfind⟩

/-! ## Adding a path -/

variable {node : Node}

theorem addParts_valid (hparts : ∀ part ∈ parts, IsPart dot part) (newBranch isRoot : Bool) (h : Valid node) :
    Valid (addParts newBranch isRoot parts node) := by
  induction parts generalizing newBranch isRoot node with
  | nil => exact valid_empty
  | cons name parts ih =>
    have hname := hparts name mem_cons_self
    have hrest : ∀ part ∈ parts, IsPart dot part :=
      fun part hmem => hparts part (mem_cons_of_mem _ hmem)
    rw [addParts]
    split
    · exact h
    · split
      · exact h.set hname (ih hrest true false valid_empty)
      · next result hfind => exact h.set hname (ih hrest newBranch false (h.find hfind))

theorem set_covers {node new : Node} (h : Ordered node)
    (hnew : ∀ rest, NodeCovers new rest ↔ Covers node (name :: rest) ∨ parts <+: rest) (path : List Str) :
    Covers (set name new node) path ↔ Covers node path ∨ name :: parts <+: path := by
  cases path with
  | nil => simp [Covers]
  | cons m rest =>
    rw [covers_set h]
    by_cases heq : m = name
    · subst heq
      rw [if_pos rfl, hnew, cons_prefix_cons]
      simp
    · rw [if_neg heq, cons_prefix_cons]
      simp [Ne.symm heq]

theorem newBranch_covers (parts : List Str) (path : List Str) :
    NodeCovers (addParts true false parts .empty) path ↔ parts <+: path := by
  induction parts generalizing path with
  | nil => simp [addParts, NodeCovers]
  | cons name parts ih =>
    have hnew : ∀ rest, NodeCovers (addParts true false parts .empty) rest ↔
        Covers .empty (name :: rest) ∨ parts <+: rest := by
      intro rest
      rw [ih, or_iff_right (not_covers_empty _)]
    have hordered : Ordered (.empty : Node) := trivial
    have hset := set_covers hordered hnew path
    rw [addParts, if_neg (by simp), find_empty]
    simp only
    rw [NodeCovers, or_iff_right (set_ne_empty _ _ _), hset, or_iff_right (not_covers_empty _)]

theorem addParts_cons {isRoot : Bool} (h : isRoot = true ∨ node ≠ .empty) (name : Str) (parts : List Str) :
    addParts false isRoot (name :: parts) node =
      set name ((find name node).elim (addParts true false parts .empty) (addParts false false parts))
        node := by
  have hgo : ¬ (false = false ∧ isRoot = false ∧ node = .empty) := by
    rintro ⟨-, hroot, hempty⟩
    rcases h with h | h
    · simp [h] at hroot
    · exact h hempty
  rw [addParts, if_neg hgo]
  cases find name node <;> rfl

theorem addName_covers (h : Ordered node) (hrest : ∀ {node : Node} (path : List Str), Ordered node →
      (NodeCovers (addParts false false parts node) path ↔ NodeCovers node path ∨ parts <+: path))
    (path : List Str) : Covers (set name ((find name node).elim (addParts true false parts .empty)
      (addParts false false parts)) node) path ↔ Covers node path ∨ name :: parts <+: path := by
  cases hfind : find name node with
  | none =>
    apply set_covers h
    intro rest
    rw [Option.elim_none, newBranch_covers, or_iff_right (not_covers_of_find hfind rest)]
  | some result =>
    apply set_covers h
    intro rest
    rw [Option.elim_some, hrest rest (h.find hfind), covers_cons hfind]

theorem addParts_nodeCovers (h : Ordered node) (path : List Str) :
    NodeCovers (addParts false false parts node) path ↔ NodeCovers node path ∨ parts <+: path := by
  induction parts generalizing node path with
  | nil => simp [addParts, NodeCovers]
  | cons name parts ih =>
    by_cases hempty : node = .empty
    · rw [addParts, if_pos ⟨rfl, rfl, hempty⟩]
      simp [NodeCovers, hempty]
    · rw [addParts_cons (.inr hempty), NodeCovers, or_iff_right (set_ne_empty _ _ _), NodeCovers,
        or_iff_right hempty]
      exact addName_covers h (fun path hnode => ih hnode path) path

variable {root : Node}

theorem addPath_valid (hpath : IsPath path) (h : Valid root) : Valid (addPath path root) := by
  rw [addPath, hpath.split, if_neg (segments_ne_nil path)]
  exact addParts_valid hpath.isPart false true h

/-- **`AddPath`** adds what its path covers. -/
theorem addPath_covers {maskPath : Str} (hpath : IsPath maskPath) (h : Valid root) (path : List Str) :
    Covers (addPath maskPath root) path ↔ Covers root path ∨ segments maskPath <+: path := by
  rw [addPath, hpath.split, if_neg (segments_ne_nil maskPath)]
  cases hparts : segments maskPath with
  | nil => exact absurd hparts (segments_ne_nil maskPath)
  | cons name parts =>
    rw [addParts_cons (.inl rfl)]
    exact addName_covers h.ordered (fun path hnode => addParts_nodeCovers hnode path) path

theorem maskCovers_cons (maskPath : Str) (mask : FieldMask) (path : List Str) :
    MaskCovers (maskPath :: mask) path ↔ segments maskPath <+: path ∨ MaskCovers mask path := by
  simp only [MaskCovers, mem_cons, exists_eq_or_imp]

variable {mask : FieldMask}

/-- **`MergeFromFieldMask`** adds what the mask covers. -/
theorem mergeFromFieldMask_covers (hmask : ∀ maskPath ∈ mask, IsPath maskPath) (h : Valid root) :
    Valid (mergeFromFieldMask mask root) ∧
      ∀ path, Covers (mergeFromFieldMask mask root) path ↔ Covers root path ∨ MaskCovers mask path := by
  induction mask generalizing root with
  | nil => exact ⟨h, by simp [mergeFromFieldMask, MaskCovers]⟩
  | cons maskPath mask ih =>
    have hpath := hmask maskPath mem_cons_self
    obtain ⟨hvalid, hcovers⟩ := ih (fun p hmem => hmask p (mem_cons_of_mem _ hmem))
      (addPath_valid hpath h)
    refine ⟨hvalid, fun path => ?_⟩
    have hrest := hcovers path
    rw [addPath_covers hpath h, or_assoc, ← maskCovers_cons] at hrest
    exact hrest

/-! ## The leaves -/

theorem pathOf_ne_nil (h : ∀ part ∈ parts, IsPart dot part) (hne : parts ≠ []) : pathOf parts ≠ [] := by
  intro heq
  have hsegments := segments_pathOf h hne
  rw [heq] at hsegments
  exact (h [] (by simp [← hsegments, segments])).1 rfl

theorem currentPath_pathOf (hparts : ∀ part ∈ parts, IsPart dot part) (hname : IsPart dot name) :
    currentPath (pathOf parts) name = pathOf (parts ++ [name]) := by
  rw [currentPath]
  by_cases hempty : parts = []
  · subst hempty
    simp [pathOf]
  · have hboth : segments (pathOf parts ++ dot :: name) = parts ++ [name] := by
      rw [segments, splitOn_append_cons_self, splitOn_eq_singleton hname.2]
      exact congrArg (· ++ [name]) (segments_pathOf hparts hempty)
    rw [if_neg (pathOf_ne_nil hparts hempty), ← hboth, pathOf_segments]

theorem isPart_append {parts rest : List Str} (hparts : ∀ part ∈ parts, IsPart dot part)
    (hrest : ∀ part ∈ rest, IsPart dot part) : ∀ part ∈ parts ++ rest, IsPart dot part := by
  intro part hmem
  rcases mem_append.mp hmem with hmem | hmem
  · exact hparts part hmem
  · exact hrest part hmem

theorem isPart_singleton (h : IsPart dot name) : ∀ part ∈ [name], IsPart dot part := by
  intro part hmem
  rwa [mem_singleton.mp hmem]

variable {t : Node}

theorem paths_named (h : Named t) : ∀ q ∈ paths t, ∀ part ∈ q, IsPart dot part := by
  induction t with
  | empty => simp [paths]
  | child name node next ihNode ihNext =>
    intro q hmem
    rw [paths, mem_append] at hmem
    rcases hmem with hmem | hmem
    · by_cases hempty : node = .empty
      · rw [if_pos hempty, mem_singleton] at hmem
        rw [hmem]
        exact isPart_singleton h.1
      · rw [if_neg hempty, mem_map] at hmem
        obtain ⟨tail, htail, rfl⟩ := hmem
        exact isPart_append (isPart_singleton h.1) (ihNode h.2.1 tail htail)
    · exact ihNext h.2.2 q hmem

/-- The paths of the leaves below a node, which itself is at `parts`. -/
def leafPaths (parts : List Str) (t : Node) : FieldMask := (paths t).map fun q => pathOf (parts ++ q)

theorem leafPaths_child (parts : List Str) (name : Str) (node next : Node) :
    leafPaths parts (.child name node next) =
      (if node = .empty then [pathOf (parts ++ [name])] else leafPaths (parts ++ [name]) node) ++
        leafPaths parts next := by
  rw [leafPaths, paths, map_append]
  by_cases hempty : node = .empty
  · rw [if_pos hempty, if_pos hempty]
    rfl
  · rw [if_neg hempty, if_neg hempty, map_map]
    simp only [Function.comp_def, leafPaths, append_assoc, singleton_append]

theorem leafPaths_covers (h : Valid t) (hparts : ∀ part ∈ parts, IsPart dot part) (path : List Str) :
    MaskCovers (leafPaths parts t) path ↔ ∃ rest, path = parts ++ rest ∧ Covers t rest := by
  have hleaf : ∀ q ∈ paths t, segments (pathOf (parts ++ q)) = parts ++ q := by
    intro q hmem
    have hne : parts ++ q ≠ [] := by
      intro heq
      rw [(append_eq_nil_iff.mp heq).2] at hmem
      exact nil_notMem_paths t hmem
    exact segments_pathOf (isPart_append hparts (paths_named h.named q hmem)) hne
  constructor
  · rintro ⟨maskPath, hmem, hprefix⟩
    obtain ⟨q, hq, rfl⟩ := mem_map.mp hmem
    rw [hleaf q hq] at hprefix
    obtain ⟨tail, rfl⟩ := hprefix
    refine ⟨q ++ tail, append_assoc _ _ _, ?_⟩
    exact (covers_iff_paths h.ordered _).mpr ⟨q, hq, prefix_append q tail⟩
  · rintro ⟨rest, rfl, hcovers⟩
    obtain ⟨q, hq, hprefix⟩ := (covers_iff_paths h.ordered rest).mp hcovers
    refine ⟨pathOf (parts ++ q), mem_map.mpr ⟨q, hq, rfl⟩, ?_⟩
    rw [hleaf q hq, prefix_append_right_inj]
    exact hprefix

theorem mergeChildrenToFieldMask_eq (h : Named t) (hparts : ∀ part ∈ parts, IsPart dot part) :
    mergeChildrenToFieldMask (pathOf parts) t = leafPaths parts t := by
  induction t generalizing parts with
  | empty => rfl
  | child name node next ihNode ihNext =>
    have hcur := isPart_append hparts (isPart_singleton h.1)
    rw [mergeChildrenToFieldMask, leafPaths_child, ← ihNext h.2.2 hparts, ← ihNode h.2.1 hcur]
    have hne : pathOf (parts ++ [name]) ≠ [] := pathOf_ne_nil hcur (by simp)
    simp only [currentPath_pathOf hparts h.1, hne, if_false]

/-- **`MergeToFieldMask`** lists the paths of the leaves. -/
theorem mergeToFieldMask_eq (h : Named t) : mergeToFieldMask [] t = leafPaths [] t := by
  rw [mergeToFieldMask]
  by_cases hempty : t = .empty
  · rw [if_pos hempty, if_pos rfl, hempty]
    rfl
  · have hnil : ∀ part ∈ ([] : List Str), IsPart dot part := by simp
    rw [if_neg hempty]
    exact mergeChildrenToFieldMask_eq h hnil

theorem mergeToFieldMask_covers (h : Valid t) (path : List Str) :
    MaskCovers (mergeToFieldMask [] t) path ↔ Covers t path := by
  rw [mergeToFieldMask_eq h.named, leafPaths_covers h (by simp)]
  simp

theorem mergeChildrenToTree_eq (h : Named t) (hparts : ∀ part ∈ parts, IsPart dot part) (out : Node) :
    mergeChildrenToTree (pathOf parts) t out = mergeFromFieldMask (leafPaths parts t) out := by
  induction t generalizing parts out with
  | empty => rfl
  | child name node next ihNode ihNext =>
    have hcur := isPart_append hparts (isPart_singleton h.1)
    have happend : ∀ (mask₁ mask₂ : FieldMask) (out : Node), mergeFromFieldMask (mask₁ ++ mask₂) out =
        mergeFromFieldMask mask₂ (mergeFromFieldMask mask₁ out) :=
      fun mask₁ mask₂ out => foldl_append
    rw [mergeChildrenToTree, leafPaths_child, happend, currentPath_pathOf hparts h.1,
      ihNext h.2.2 hparts, ihNode h.2.1 hcur]
    by_cases hempty : node = .empty
    · rw [if_pos hempty, if_pos hempty, hempty]
      rfl
    · rw [if_neg hempty, if_neg hempty]

/-- **`MergeLeafNodesToTree`** adds what the node covers, below the path to it. -/
theorem mergeLeafNodesToTree_covers {node out : Node} (hnode : Valid node) (hout : Valid out) (hparts : ∀ part ∈ parts, IsPart dot part) (hne : parts ≠ []) :
    Valid (mergeLeafNodesToTree (pathOf parts) node out) ∧
      ∀ path, Covers (mergeLeafNodesToTree (pathOf parts) node out) path ↔
        Covers out path ∨ ∃ rest, path = parts ++ rest ∧ NodeCovers node rest := by
  have hpath := isPath_pathOf hparts hne
  rw [mergeLeafNodesToTree]
  by_cases hempty : node = .empty
  · subst hempty
    rw [if_pos rfl]
    refine ⟨addPath_valid hpath hout, fun path => ?_⟩
    have hadd := addPath_covers hpath hout path
    rw [segments_pathOf hparts hne] at hadd
    refine hadd.trans (or_congr_right ?_)
    simp only [NodeCovers, true_or, and_true]
    constructor
    · rintro ⟨rest, heq⟩
      exact ⟨rest, heq.symm⟩
    · rintro ⟨rest, heq⟩
      exact ⟨rest, heq.symm⟩
  · rw [if_neg hempty, mergeChildrenToTree_eq hnode.named hparts]
    have hleaves : ∀ maskPath ∈ leafPaths parts node, IsPath maskPath := by
      intro maskPath hmem
      obtain ⟨q, hq, rfl⟩ := mem_map.mp hmem
      exact isPath_pathOf (isPart_append hparts (paths_named hnode.named q hq))
        (append_ne_nil_of_left_ne_nil hne q)
    obtain ⟨hvalid, hcovers⟩ := mergeFromFieldMask_covers hleaves hout
    refine ⟨hvalid, fun path => ?_⟩
    rw [hcovers, leafPaths_covers hnode hparts]
    simp only [NodeCovers, hempty, false_or]

/-! ## The intersection with a path -/

/-- The walk of `IntersectPath` from a node at `pre` on. -/
theorem intersectParts_covers {pre parts : List Str} (hpre : ∀ part ∈ pre, IsPart dot part)
    (hparts : ∀ part ∈ parts, IsPart dot part) {isRoot : Bool} (hroot : isRoot = true → parts ≠ [])
    (hne : pre ++ parts ≠ []) {node out : Node} (hnode : Valid node) (hout : Valid out) :
    Valid (intersectParts (pathOf (pre ++ parts)) isRoot parts node out) ∧
      ∀ path, Covers (intersectParts (pathOf (pre ++ parts)) isRoot parts node out) path ↔
        Covers out path ∨ ∃ rest, path = pre ++ rest ∧
          (isRoot = false ∧ node = .empty ∨ Covers node rest) ∧ parts <+: rest := by
  induction parts generalizing pre isRoot node with
  | nil =>
    have hfalse : isRoot = false := by
      cases isRoot with
      | false => rfl
      | true => exact absurd rfl (hroot rfl)
    rw [append_nil] at hne ⊢
    obtain ⟨hvalid, hcovers⟩ := mergeLeafNodesToTree_covers hnode hout hpre hne
    refine ⟨hvalid, fun path => (hcovers path).trans (or_congr_right ?_)⟩
    simp [hfalse, NodeCovers]
  | cons name parts ih =>
    rw [intersectParts]
    by_cases hempty : node = .empty
    · rw [if_pos hempty]
      cases isRoot with
      | true =>
        -- an empty root covers nothing
        refine ⟨hout, fun path => (or_iff_left ?_).symm⟩
        rintro ⟨rest, -, hcovers | hcovers, -⟩
        · simp at hcovers
        · rw [hempty] at hcovers
          exact not_covers_empty rest hcovers
      | false =>
        have hfull := isPart_append hpre hparts
        have hpath := isPath_pathOf hfull hne
        refine ⟨addPath_valid hpath hout, fun path => ?_⟩
        have hadd := addPath_covers hpath hout path
        rw [segments_pathOf hfull hne] at hadd
        refine hadd.trans (or_congr_right ?_)
        simp only [hempty, and_self, true_or, true_and]
        constructor
        · rintro ⟨tail, rfl⟩
          exact ⟨name :: parts ++ tail, append_assoc _ _ _, prefix_append _ _⟩
        · rintro ⟨rest, rfl, hprefix⟩
          exact (prefix_append_right_inj pre).mpr hprefix
    · rw [if_neg hempty]
      have hname := hparts name mem_cons_self
      have htail : ∀ part ∈ parts, IsPart dot part :=
        fun part hmem => hparts part (mem_cons_of_mem _ hmem)
      cases hfind : find name node with
      | none =>
        refine ⟨hout, fun path => (or_iff_left ?_).symm⟩
        rintro ⟨rest, -, hcovers | hcovers, tail, rfl⟩
        · exact hempty hcovers.2
        · exact not_covers_of_find hfind _ hcovers
      | some result =>
        have hpre' := isPart_append hpre (isPart_singleton hname)
        have happend : pre ++ [name] ++ parts = pre ++ name :: parts := by simp
        obtain ⟨hvalid, hcovers⟩ := ih hpre' htail (fun h : false = true => absurd h (by simp))
          (by rwa [happend]) (hnode.find hfind)
        rw [happend] at hvalid hcovers
        refine ⟨hvalid, fun path => (hcovers path).trans (or_congr_right ?_)⟩
        constructor
        · rintro ⟨rest, rfl, hrest, hprefix⟩
          refine ⟨name :: rest, by simp, .inr ?_, cons_prefix_cons.mpr ⟨rfl, hprefix⟩⟩
          rw [covers_cons hfind, NodeCovers]
          simpa using hrest
        · rintro ⟨rest, rfl, hrest, tail, rfl⟩
          refine ⟨parts ++ tail, by simp, ?_, prefix_append _ _⟩
          have hbelow := hrest.resolve_left fun h => hempty h.2
          rw [cons_append, covers_cons hfind, NodeCovers] at hbelow
          simpa using hbelow

/-- **`IntersectPath`** adds what the tree and the path both cover. -/
theorem intersectPath_covers {maskPath : Str} (hpath : IsPath maskPath) {root out : Node}
    (hroot : Valid root) (hout : Valid out) : Valid (intersectPath maskPath root out) ∧
      ∀ path, Covers (intersectPath maskPath root out) path ↔
        Covers out path ∨ Covers root path ∧ segments maskPath <+: path := by
  have hnil : ∀ part ∈ ([] : List Str), IsPart dot part := by simp
  have hne := segments_ne_nil maskPath
  have hwalk := intersectParts_covers hnil hpath.isPart (fun _ : true = true => hne) hne hroot hout
  rw [nil_append, pathOf_segments] at hwalk
  rw [intersectPath, hpath.split, if_neg hne]
  refine ⟨hwalk.1, fun path => (hwalk.2 path).trans ?_⟩
  simp

theorem foldl_intersectPath_covers (hmask : ∀ maskPath ∈ mask, IsPath maskPath)
    {root out : Node} (hroot : Valid root) (hout : Valid out) :
    Valid (mask.foldl (fun out path => intersectPath path root out) out) ∧
      ∀ path, Covers (mask.foldl (fun out path => intersectPath path root out) out) path ↔
        Covers out path ∨ Covers root path ∧ MaskCovers mask path := by
  induction mask generalizing out with
  | nil => exact ⟨hout, by simp [MaskCovers]⟩
  | cons maskPath mask ih =>
    obtain ⟨hvalid, hcovers⟩ := intersectPath_covers (hmask maskPath mem_cons_self) hroot hout
    obtain ⟨hvalid', hcovers'⟩ := ih (fun p hmem => hmask p (mem_cons_of_mem _ hmem)) hvalid
    refine ⟨hvalid', fun path => (hcovers' path).trans ?_⟩
    rw [hcovers, maskCovers_cons, and_or_left, or_assoc]

/-! ## The operations on masks -/

theorem toCanonicalForm_covers (h : ∀ maskPath ∈ mask, IsPath maskPath)
    (path : List Str) : MaskCovers (toCanonicalForm mask) path ↔ MaskCovers mask path := by
  obtain ⟨hvalid, hcovers⟩ := mergeFromFieldMask_covers h valid_empty
  rw [toCanonicalForm, mergeToFieldMask_covers hvalid, hcovers, or_iff_right (not_covers_empty path)]

variable {mask₁ mask₂ : FieldMask}

theorem union_covers (h₁ : ∀ maskPath ∈ mask₁, IsPath maskPath)
    (h₂ : ∀ maskPath ∈ mask₂, IsPath maskPath) (path : List Str) :
    MaskCovers (union mask₁ mask₂) path ↔ MaskCovers mask₁ path ∨ MaskCovers mask₂ path := by
  obtain ⟨hvalid₁, hcovers₁⟩ := mergeFromFieldMask_covers h₁ valid_empty
  obtain ⟨hvalid, hcovers⟩ := mergeFromFieldMask_covers h₂ hvalid₁
  rw [union, mergeToFieldMask_covers hvalid, hcovers, hcovers₁, or_iff_right (not_covers_empty path)]

theorem intersect_covers (h₁ : ∀ maskPath ∈ mask₁, IsPath maskPath)
    (h₂ : ∀ maskPath ∈ mask₂, IsPath maskPath) (path : List Str) :
    MaskCovers (intersect mask₁ mask₂) path ↔ MaskCovers mask₁ path ∧ MaskCovers mask₂ path := by
  obtain ⟨hvalid₁, hcovers₁⟩ := mergeFromFieldMask_covers h₁ valid_empty
  obtain ⟨hvalid, hcovers⟩ := foldl_intersectPath_covers h₂ hvalid₁ valid_empty
  rw [intersect, mergeToFieldMask_covers hvalid, hcovers, hcovers₁,
    or_iff_right (not_covers_empty path), or_iff_right (not_covers_empty path)]

/-- The paths that a path of the mask leads to, as strings. -/
theorem isPathInFieldMask_iff (mask : FieldMask) (path : Str) :
    isPathInFieldMask path mask = true ↔ MaskCovers mask (segments path) := by
  induction mask with
  | nil => simp [isPathInFieldMask, MaskCovers]
  | cons maskPath mask ih =>
    rw [maskCovers_cons, ← ih, isPathInFieldMask]
    by_cases heq : path = maskPath
    · simp [heq]
    · rw [if_neg heq]
      by_cases hlead : maskPath.length < path.length ∧
          path.take (maskPath.length + 1) = maskPath ++ [dot]
      · have hpath : path = maskPath ++ dot :: path.drop (maskPath.length + 1) := by
          have htake := take_append_drop (maskPath.length + 1) path
          rw [hlead.2, append_assoc, singleton_append] at htake
          exact htake.symm
        have hprefix : segments maskPath <+: segments path := by
          rw [hpath, segments, segments, splitOn_append_cons_self]
          exact prefix_append _ _
        simp [hlead, hprefix]
      · have hprefix : ¬ segments maskPath <+: segments path := by
          rintro ⟨rest, hrest⟩
          by_cases hnil : rest = []
          · rw [hnil, append_nil] at hrest
            apply heq
            rw [← pathOf_segments path, ← hrest, pathOf_segments]
          · apply hlead
            have hpath : path = maskPath ++ dot :: pathOf rest := by
              rw [← pathOf_segments path, ← hrest, pathOf, intercalate_append (segments_ne_nil _) hnil]
              exact congrArg (· ++ dot :: pathOf rest) (pathOf_segments maskPath)
            rw [hpath]
            constructor
            · simp
            · rw [take_append, take_of_length_le (by simp)]
              simp
        simp [hlead, hprefix]

/-- The names of a leaf make a field path, so what a tree covers of the field paths decides
what it covers at all. -/
theorem covers_of_paths {s t : Node} (hs : Valid s) (ht : Valid t)
    (h : ∀ path, IsPath path → Covers s (segments path) → Covers t (segments path))
    {path : List Str} (hcovers : Covers s path) : Covers t path := by
  obtain ⟨q, hmem, hprefix⟩ := (covers_iff_paths hs.ordered path).mp hcovers
  have hparts := paths_named hs.named q hmem
  have hne : q ≠ [] := by
    rintro rfl
    exact nil_notMem_paths s hmem
  have hself : Covers s (segments (pathOf q)) := by
    rw [segments_pathOf hparts hne, covers_iff_paths hs.ordered]
    exact ⟨q, hmem, prefix_rfl⟩
  have hq := h (pathOf q) (isPath_pathOf hparts hne) hself
  rw [segments_pathOf hparts hne, covers_iff_paths ht.ordered] at hq
  obtain ⟨q', hmem', hprefix'⟩ := hq
  exact (covers_iff_paths ht.ordered path).mpr ⟨q', hmem', hprefix'.trans hprefix⟩

theorem toCanonicalForm_eq_of_cov
    (h₁ : ∀ maskPath ∈ mask₁, IsPath maskPath) (h₂ : ∀ maskPath ∈ mask₂, IsPath maskPath)
    (h : cov mask₁ = cov mask₂) : toCanonicalForm mask₁ = toCanonicalForm mask₂ := by
  obtain ⟨hvalid₁, hcovers₁⟩ := mergeFromFieldMask_covers h₁ valid_empty
  obtain ⟨hvalid₂, hcovers₂⟩ := mergeFromFieldMask_covers h₂ valid_empty
  have hcov : ∀ path, IsPath path → (Covers (mergeFromFieldMask mask₁ .empty) (segments path) ↔
        Covers (mergeFromFieldMask mask₂ .empty) (segments path)) := by
    intro path hpath
    rw [hcovers₁, hcovers₂, or_iff_right (not_covers_empty _), or_iff_right (not_covers_empty _)]
    have hmem : path ∈ cov mask₁ ↔ path ∈ cov mask₂ := by rw [h]
    simpa [cov, hpath] using hmem
  have htree : mergeFromFieldMask mask₁ .empty = mergeFromFieldMask mask₂ .empty := by
    apply eq_of_covers hvalid₁.ordered hvalid₂.ordered
    intro path
    constructor
    · exact covers_of_paths hvalid₁ hvalid₂ fun p hp => (hcov p hp).mp
    · exact covers_of_paths hvalid₂ hvalid₁ fun p hp => (hcov p hp).mpr
  rw [toCanonicalForm, htree, toCanonicalForm]

theorem cov_toCanonicalForm (h : ∀ maskPath ∈ mask, IsPath maskPath) :
    cov (toCanonicalForm mask) = cov mask := by
  ext path
  rw [cov, cov, Set.mem_ofPred_eq, Set.mem_ofPred_eq, toCanonicalForm_covers h]

/-- **The operations on masks are those on the sets of paths**: the canonical form covers the
same, and is the same for masks that cover the same. -/
theorem cov_algebra {mask₁ mask₂ : FieldMask} (h₁ : ∀ maskPath ∈ mask₁, IsPath maskPath)
    (h₂ : ∀ maskPath ∈ mask₂, IsPath maskPath) :
    cov (toCanonicalForm mask₁) = cov mask₁ ∧ cov (union mask₁ mask₂) = cov mask₁ ∪ cov mask₂ ∧
      cov (intersect mask₁ mask₂) = cov mask₁ ∩ cov mask₂ ∧
      (toCanonicalForm mask₁ = toCanonicalForm mask₂ ↔
        cov (toCanonicalForm mask₁) = cov (toCanonicalForm mask₂)) ∧
      ∀ path, (isPathInFieldMask path mask₁ = true ↔ MaskCovers mask₁ (segments path)) ∧
        (IsPath path → (isPathInFieldMask path mask₁ = true ↔ path ∈ cov mask₁)) := by
  refine ⟨cov_toCanonicalForm h₁, ?_, ?_, ?_, fun path => ⟨isPathInFieldMask_iff mask₁ path, ?_⟩⟩
  · ext path
    simp only [cov, Set.mem_union, Set.mem_ofPred_eq, union_covers h₁ h₂, and_or_left]
  · ext path
    simp only [cov, Set.mem_inter_iff, Set.mem_ofPred_eq, intersect_covers h₁ h₂]
    exact and_and_left
  · constructor
    · intro heq
      rw [heq]
    · rw [cov_toCanonicalForm h₁, cov_toCanonicalForm h₂]
      exact toCanonicalForm_eq_of_cov h₁ h₂
  · intro hpath
    rw [isPathInFieldMask_iff, cov, Set.mem_ofPred_eq, and_iff_right hpath]

/-- The masks `a.b` and `a`. -/
theorem cov_algebra_two :
    (∀ maskPath ∈ [[97, 46, 98]], IsPath maskPath) ∧ (∀ maskPath ∈ [[97]], IsPath maskPath) ∧
      cov (union [[97, 46, 98]] [[97]]) = cov [[97, 46, 98]] ∪ cov [[97]] ∧
      cov (intersect [[97, 46, 98]] [[97]]) = cov [[97, 46, 98]] ∩ cov [[97]] := by
  have h₁ : ∀ maskPath ∈ [[97, 46, 98]], IsPath maskPath := by decide
  have h₂ : ∀ maskPath ∈ [[97]], IsPath maskPath := by decide
  obtain ⟨-, hunion, hintersect, -, -⟩ := cov_algebra h₁ h₂
  exact ⟨h₁, h₂, hunion, hintersect⟩

end Protoc.Util
