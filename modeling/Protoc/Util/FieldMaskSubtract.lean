import Protoc.Util.FieldMaskRemove

/-!
# The difference of two field masks

`Subtract` builds the tree of the first mask and calls `RemovePath` for each path of the
second.  A path below a repeated message field is not valid, yet `RemovePath` removes it.
-/

namespace Protoc.Util

open Protoc.Lib PathTree
open List

variable {D : Type} (types : Descriptors D)

/-- The loop of `Subtract`. -/
def removePaths (descriptor : D) (mask : FieldMask) (root : Node) : Node :=
  mask.foldl (fun root path => removePath types descriptor path root) root

/-- `Subtract`. -/
def subtract (descriptor : D) (mask₁ mask₂ : FieldMask) : FieldMask :=
  if mask₁ = [] then []
  else mergeToFieldMask [] (removePaths types descriptor mask₂ (mergeFromFieldMask mask₁ .empty))

variable {types}

variable {root : Node}

theorem valid_removePaths (types : Descriptors D) (descriptor : D) (mask : FieldMask) (h : Valid root) : Valid (removePaths types descriptor mask root) := by
  induction mask generalizing root with
  | nil => exact h
  | cons path mask ih => exact ih (valid_removePath descriptor path h)

/-! ## A whole mask -/

/-- A valid path of the mask is a prefix of these names. -/
def RemovedBy (types : Descriptors D) (descriptor : D) (mask : FieldMask) (parts : List Str) : Prop :=
  ∃ path ∈ mask, split dot path ≠ [] ∧ isValidPath types descriptor path = true ∧
    split dot path <+: parts

/-- No call for a path of the mask that is not valid changes the tree. -/
def InvalidUnchanged (types : Descriptors D) (descriptor : D) (mask : FieldMask) (root : Node) : Prop :=
  ∀ pre path post, mask = pre ++ path :: post → isValidPath types descriptor path = false →
    removePath types descriptor path (removePaths types descriptor pre root) =
      removePaths types descriptor pre root

theorem removedBy_cons (descriptor : D) (path : Str) (mask : FieldMask) (parts : List Str) :
    RemovedBy types descriptor (path :: mask) parts ↔
      (split dot path ≠ [] ∧ isValidPath types descriptor path = true ∧ split dot path <+: parts) ∨
        RemovedBy types descriptor mask parts := by
  simp only [RemovedBy, mem_cons, exists_eq_or_imp]

variable {descriptor : D} {mask : FieldMask}

theorem InvalidUnchanged.tail {path : Str} (h : InvalidUnchanged types descriptor (path :: mask) root) :
    InvalidUnchanged types descriptor mask (removePath types descriptor path root) := by
  intro pre later post heq hinvalid
  exact h (path :: pre) later post (by rw [heq, cons_append]) hinvalid

/-- One call, where a path that stops leads: nowhere if the call's path is valid and on the
way, and else where it led. -/
theorem reach_removePath_of_stops {path : Str} (hroot : Ordered root)
    (hunchanged : isValidPath types descriptor path = false →
      removePath types descriptor path root = root) {first : List Str}
    (hstops : stops types descriptor first = true) (rest : List Str) :
    reach (first ++ rest) (removePath types descriptor path root) =
      if split dot path ≠ [] ∧ isValidPath types descriptor path = true ∧ split dot path <+: first
      then none else reach (first ++ rest) root := by
  cases hvalid : isValidPath types descriptor path with
  | false => simp [hunchanged hvalid]
  | true =>
    by_cases hnil : split dot path = []
    · have hsame : removePath types descriptor path root = root := by
        unfold removePath
        simp [hnil]
      simp [hsame, hnil]
    · rw [isValidPath_eq] at hvalid
      obtain ⟨hgone, hkept⟩ := reach_removePath (walks_messageType hvalid) hnil hroot
      by_cases hprefix : split dot path <+: first
      · rw [if_pos ⟨hnil, rfl, hprefix⟩]
        obtain ⟨tail, rfl⟩ := hprefix
        rw [append_assoc]
        exact hgone _
      · rw [if_neg fun h => hprefix h.2.2]
        have hwalks := walks_messageType (walks_of_stops hstops)
        refine hkept first rest hwalks ⟨fun hlong => ?_, hprefix⟩
        rw [eq_of_prefix_stops hstops hvalid hlong] at hprefix
        exact hprefix prefix_rfl

/-- **A run of removals**, where a path that stops leads. -/
theorem reach_removePaths (hroot : Valid root)
    (hunchanged : InvalidUnchanged types descriptor mask root) {first : List Str}
    (hstops : stops types descriptor first = true) (rest : List Str) : (RemovedBy types descriptor mask first →
        reach (first ++ rest) (removePaths types descriptor mask root) = none) ∧
      (¬ RemovedBy types descriptor mask first →
        reach (first ++ rest) (removePaths types descriptor mask root) = reach (first ++ rest) root) := by
  induction mask generalizing root with
  | nil =>
    refine ⟨?_, fun _ => rfl⟩
    rintro ⟨path, hmem, -⟩
    cases hmem
  | cons path mask ih =>
    have hstep := reach_removePath_of_stops hroot.ordered (hunchanged [] path mask rfl) hstops rest
    obtain ⟨hgone, hkept⟩ := ih (valid_removePath descriptor path hroot) hunchanged.tail
    rw [removedBy_cons]
    constructor
    · intro hremoved
      by_cases hlater : RemovedBy types descriptor mask first
      · exact hgone hlater
      · rw [if_pos (hremoved.resolve_right hlater)] at hstep
        exact (hkept hlater).trans hstep
    · intro hremoved
      obtain ⟨hnow, hlater⟩ := not_or.mp hremoved
      rw [if_neg hnow] at hstep
      exact (hkept hlater).trans hstep

/-! ## When the difference is right -/

/-- The difference of the masks covers the fields that the first covers and the second does
not, and the paths of the second that are not valid change nothing. -/
structure Subtracts (types : Descriptors D) (descriptor : D) (mask₁ mask₂ : FieldMask) : Prop where
  difference : ∀ path, EndsAtField types descriptor path →
    (Covered (subtract types descriptor mask₁ mask₂) (split dot path) ↔
      Covered mask₁ (split dot path) ∧ ¬ Covered mask₂ (split dot path))
  unchanged : InvalidUnchanged types descriptor mask₂ (mergeFromFieldMask mask₁ .empty)

/-- A path of the second mask leads through a repeated message field, so that it is not
valid, and still to something of the first mask that no valid path before it removes. -/
def MeetsBelowRepeated (types : Descriptors D) (descriptor : D) (mask₁ mask₂ : FieldMask) : Prop :=
  ∃ pre path post, mask₂ = pre ++ path :: post ∧ isValidPath types descriptor path = false ∧
    walks types (·.messageType) descriptor (split dot path) = true ∧
    Meets mask₁ (split dot path) ∧ ¬ RemovedBy types descriptor pre (split dot path)

/-- A valid path before one that goes on below a repeated field is a prefix of its part down
to that field. -/
theorem removedBy_first {first rest : List Str} (hstops : stops types descriptor first = true) :
    RemovedBy types descriptor mask (first ++ rest) ↔ RemovedBy types descriptor mask first := by
  constructor
  · rintro ⟨path, hmem, hne, hvalid, hprefix⟩
    refine ⟨path, hmem, hne, hvalid, ?_⟩
    rcases prefix_or_prefix_of_prefix hprefix (prefix_append first rest) with h | h
    · exact h
    · rw [isValidPath_eq] at hvalid
      rw [eq_of_prefix_stops hstops hvalid h]
  · rintro ⟨path, hmem, hne, hvalid, hprefix⟩
    exact ⟨path, hmem, hne, hvalid, hprefix.trans (prefix_append first rest)⟩

variable {parts : List Str}

theorem reach_removePaths_iff {mask₁ pre : FieldMask}
    (hunchanged : InvalidUnchanged types descriptor pre (mergeFromFieldMask mask₁ .empty))
    (hwalks : walks types (·.messageType) descriptor parts = true)
    (hnot : walks types (·.singularMessageType) descriptor parts = false) :
    reach parts (removePaths types descriptor pre (mergeFromFieldMask mask₁ .empty)) ≠ none ↔
      Meets mask₁ parts ∧ ¬ RemovedBy types descriptor pre parts := by
  obtain ⟨hvalid, -⟩ := mergeFromFieldMask_covered mask₁ valid_empty
  obtain ⟨first, rest, rfl, -, hstops⟩ := exists_stops_of_not_valid hwalks hnot
  have hne : first ++ rest ≠ [] := append_ne_nil_of_left_ne_nil (ne_nil_of_stops hstops) rest
  obtain ⟨hgone, hkept⟩ := reach_removePaths hvalid hunchanged hstops rest
  rw [removedBy_first hstops, ← reach_ne_none_iff_meets mask₁ hne]
  by_cases hremoved : RemovedBy types descriptor pre first
  · simp [hgone hremoved, hremoved]
  · simp [hkept hremoved, hremoved]

theorem InvalidUnchanged.pre {pre post : FieldMask} (h : InvalidUnchanged types descriptor (pre ++ post) root) :
    InvalidUnchanged types descriptor pre root := by
  intro pre' path post' heq hinvalid
  exact h pre' path (post' ++ post) (by rw [heq, append_assoc, cons_append]) hinvalid

/-- **Only paths below a repeated field do harm**: without them no path that is not valid
changes the tree. -/
theorem invalidUnchanged_of_not_meets {mask₁ mask₂ : FieldMask}
    (h : ¬ MeetsBelowRepeated types descriptor mask₁ mask₂) :
    InvalidUnchanged types descriptor mask₂ (mergeFromFieldMask mask₁ .empty) := by
  obtain ⟨hvalid, -⟩ := mergeFromFieldMask_covered mask₁ valid_empty
  -- by induction on what comes before the path
  have hbefore : ∀ n pre path post, pre.length = n → mask₂ = pre ++ path :: post →
      isValidPath types descriptor path = false →
      removePath types descriptor path
          (removePaths types descriptor pre (mergeFromFieldMask mask₁ .empty)) =
        removePaths types descriptor pre (mergeFromFieldMask mask₁ .empty) := by
    intro n
    induction n using Nat.strong_induction_on with
    | _ n ih =>
      intro pre path post hlen heq hinvalid
      have hpre : InvalidUnchanged types descriptor pre (mergeFromFieldMask mask₁ .empty) := by
        intro pre' path' post' heq' hinvalid'
        refine ih pre'.length ?_ pre' path' (post' ++ path :: post) rfl ?_ hinvalid'
        · rw [← hlen, heq', length_append, length_cons]
          omega
        · rw [heq, heq', append_assoc, cons_append]
      have hordered := (valid_removePaths types descriptor pre hvalid).ordered
      cases hwalks : walks types (·.messageType) descriptor (split dot path) with
      | false => exact removePath_of_not_walks hwalks hordered
      | true =>
        refine removePath_of_reach_eq_none hwalks hordered ?_
        by_contra hreach
        have hnot := hinvalid
        rw [isValidPath_eq] at hnot
        obtain ⟨hmeets, hremoved⟩ := (reach_removePaths_iff hpre hwalks hnot).mp hreach
        exact h ⟨pre, path, post, heq, hinvalid, hwalks, hmeets, hremoved⟩
  intro pre path post heq hinvalid
  exact hbefore _ pre path post rfl heq hinvalid

theorem covered_iff_removedBy (hstops : stops types descriptor parts = true) (mask : FieldMask) :
    Covered mask parts ↔ RemovedBy types descriptor mask parts := by
  constructor
  · rintro ⟨path, hmem, hne, hprefix⟩
    refine ⟨path, hmem, hne, ?_, hprefix⟩
    rw [isValidPath_eq]
    exact walks_of_prefix (walks_of_stops hstops) hprefix
  · rintro ⟨path, hmem, hne, -, hprefix⟩
    exact ⟨path, hmem, hne, hprefix⟩

theorem subtract_covered (descriptor : D) (mask₁ mask₂ : FieldMask)
    (hstops : stops types descriptor parts = true)
    (hunchanged : InvalidUnchanged types descriptor mask₂ (mergeFromFieldMask mask₁ .empty)) :
    Covered (subtract types descriptor mask₁ mask₂) parts ↔ Covered mask₁ parts ∧ ¬ Covered mask₂ parts := by
  obtain ⟨hvalid, hcovers⟩ := mergeFromFieldMask_covered mask₁ valid_empty
  by_cases hnil : mask₁ = []
  · subst hnil
    simp [subtract, Covered]
  · obtain ⟨hgone, hkept⟩ := reach_removePaths hvalid hunchanged hstops []
    rw [append_nil] at hgone hkept
    have htree := hcovers parts
    rw [or_iff_right (not_covers_empty parts), covers_iff_reach] at htree
    have hresult := valid_removePaths types descriptor mask₂ hvalid
    rw [subtract, if_neg hnil, mergeToFieldMask_covered hresult, covers_iff_reach,
      covered_iff_removedBy hstops mask₂]
    by_cases hremoved : RemovedBy types descriptor mask₂ parts
    · simp [hgone hremoved, hremoved]
    · rw [hkept hremoved, htree, and_iff_left hremoved]

/-- **The difference of two masks** is right if and only if no path of the second mask leads
through a repeated message field to something of the first. -/
theorem subtracts_iff (types : Descriptors D) (descriptor : D) (mask₁ mask₂ : FieldMask) :
    Subtracts types descriptor mask₁ mask₂ ↔ ¬ MeetsBelowRepeated types descriptor mask₁ mask₂ := by
  constructor
  · rintro ⟨-, hunchanged⟩ ⟨pre, path, post, heq, hinvalid, hwalks, hmeets, hremoved⟩
    have hnot := hinvalid
    rw [isValidPath_eq] at hnot
    have hne : split dot path ≠ [] := by
      intro hnil
      rw [hnil] at hnot
      cases hnot
    have hpre : InvalidUnchanged types descriptor pre (mergeFromFieldMask mask₁ .empty) := by
      rw [heq] at hunchanged
      exact hunchanged.pre
    -- the path leads to a node before the call, and to none after it
    have hreach := (reach_removePaths_iff hpre hwalks hnot).mpr ⟨hmeets, hremoved⟩
    obtain ⟨hvalid, -⟩ := mergeFromFieldMask_covered mask₁ valid_empty
    have hordered := (valid_removePaths types descriptor pre hvalid).ordered
    have hgone := (reach_removePath hwalks hne hordered).1 []
    rw [hunchanged pre path post heq hinvalid, append_nil] at hgone
    exact hreach hgone
  · intro h
    have hunchanged := invalidUnchanged_of_not_meets h
    refine ⟨fun path hpath => ?_, hunchanged⟩
    exact subtract_covered descriptor mask₁ mask₂ ((endsAtField_iff descriptor path).mp hpath)
      hunchanged

/-- `message Outer { repeated Inner r = 1; }` and `message Inner { int32 x = 1; int32 y = 2; }`,
`true` for the first. -/
def repeatedInner : Descriptors Bool where
  fields
    | true => [⟨[114], .repeated, some false⟩]
    | false => [⟨[120], .optional, none⟩, ⟨[121], .optional, none⟩]
  isPart_name
    | true => by unfold IsPart; decide
    | false => by unfold IsPart; decide
  nodup_names
    | true => by decide
    | false => by decide

/-- The mask `r` without `r.x` is `r.y`: the path `r.x` is not valid, and `r` is covered no
longer. -/
theorem not_subtracts : isValidPath repeatedInner true [114, 46, 120] = false ∧
      EndsAtField repeatedInner true [114] ∧
      subtract repeatedInner true [[114]] [[114, 46, 120]] = [[114, 46, 121]] ∧
      ¬ Subtracts repeatedInner true [[114]] [[114, 46, 120]] := by
  have hr : split dot [114] = [[114]] := split_part ⟨by decide, by decide⟩
  have hparts : ∀ last : UInt8, last ≠ dot → ∀ part ∈ [[114], [last]], IsPart dot part := by
    intro last hlast part hmem
    rcases List.mem_cons.mp hmem with rfl | hmem
    · exact ⟨by decide, by decide⟩
    · rw [List.mem_singleton.mp hmem]
      exact ⟨by simp, by simpa using hlast.symm⟩
  have hx : split dot [114, 46, 120] = [[114], [120]] := split_join (hparts 120 (by decide))
  have hy : split dot [114, 46, 121] = [[114], [121]] := split_join (hparts 121 (by decide))
  have hends : EndsAtField repeatedInner true [114] := by
    rw [endsAtField_iff, hr]
    decide
  have hsubtract : subtract repeatedInner true [[114]] [[114, 46, 120]] = [[114, 46, 121]] := by
    simp only [subtract, removePaths, mergeFromFieldMask, foldl_cons, foldl_nil, removePath, addPath, hr, hx]
    decide
  refine ⟨?_, hends, hsubtract, fun h => ?_⟩
  · rw [isValidPath_eq, hx]
    decide
  · have hcovered : Covered [[114]] (split dot [114]) ∧
        ¬ Covered [[114, 46, 120]] (split dot [114]) := by
      simp [Covered, hr, hx]
    have hresult := (h.difference [114] hends).mpr hcovered
    rw [hsubtract] at hresult
    simp [Covered, hr, hy] at hresult

end Protoc.Util
