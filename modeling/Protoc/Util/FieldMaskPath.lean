import Protoc.Util.FieldMaskCover

/-!
# The fields that a path runs through

A path is looked up in the descriptors: each of its names is a field, and each but the last
a message field.  `GetFieldDescriptors` wants those to be singular.

`Covered` is what a mask covers, for any mask: where names are empty, they are left out, as
in the tree.
-/

namespace Protoc.Util

open Protoc.Lib PathTree
open List

/-! ## Descriptors -/

/-- `FieldDescriptor::Label`. -/
inductive Label where
  | optional
  | required
  | repeated
  deriving DecidableEq

/-- A field: its name, its label, and `message_type` if its `cpp_type` is `CPPTYPE_MESSAGE`. -/
structure FieldDescriptor (D : Type) where
  name : Str
  label : Label
  messageType : Option D
  deriving DecidableEq

/-- Message types, with fields of each other's types.  The names of a type's fields are
different, not empty and without dots. -/
structure Descriptors (D : Type) where
  fields : D → List (FieldDescriptor D)
  isPart_name : ∀ d, ∀ field ∈ fields d, IsPart dot field.name
  nodup_names : ∀ d, ((fields d).map (·.name)).Nodup

variable {D : Type}

namespace FieldDescriptor

/-- `is_repeated`. -/
def isRepeated (field : FieldDescriptor D) : Bool := decide (field.label = .repeated)

/-- `is_required`. -/
def isRequired (field : FieldDescriptor D) : Bool := decide (field.label = .required)

def singularMessageType (field : FieldDescriptor D) : Option D :=
  if field.isRepeated then none else field.messageType

theorem messageType_of_singular {field : FieldDescriptor D} {d : D}
    (h : field.singularMessageType = some d) : field.messageType = some d := by
  unfold singularMessageType at h
  split at h
  · cases h
  · exact h

end FieldDescriptor

variable (types : Descriptors D)

/-- `FindFieldByName`. -/
def findFieldByName (descriptor : D) (name : Str) : Option (FieldDescriptor D) :=
  (types.fields descriptor).find? fun field => decide (field.name = name)

def fieldNames (descriptor : D) : List Str := (types.fields descriptor).map (·.name)

variable {descriptor : D} {field : FieldDescriptor D} {name : Str}

theorem mem_of_findFieldByName (h : findFieldByName types descriptor name = some field) :
    field ∈ types.fields descriptor ∧ field.name = name := by
  unfold findFieldByName at h
  have hname := List.find?_some h
  exact ⟨List.mem_of_find?_eq_some h, by simpa using hname⟩

theorem mem_fieldNames_of_find (h : findFieldByName types descriptor name = some field) :
    name ∈ fieldNames types descriptor := by
  obtain ⟨hmem, rfl⟩ := mem_of_findFieldByName types h
  exact mem_map_of_mem hmem

theorem findFieldByName_of_mem (h : field ∈ types.fields descriptor) :
    findFieldByName types descriptor field.name = some field := by
  have hfind : ∀ fields : List (FieldDescriptor D), (fields.map (·.name)).Nodup → field ∈ fields →
      fields.find? (fun f => decide (f.name = field.name)) = some field := by
    intro fields hnodup hmem
    induction fields with
    | nil => cases hmem
    | cons first fields ih =>
      rw [map_cons, nodup_cons] at hnodup
      rcases mem_cons.mp hmem with rfl | hmem
      · simp
      · have hne : first.name ≠ field.name := by
          intro heq
          exact hnodup.1 (heq ▸ mem_map_of_mem hmem)
        rw [List.find?_cons_of_neg (by simpa using hne), ih hnodup.2 hmem]
  exact hfind _ (types.nodup_names descriptor) h

/-! ## Following a path -/

/-- The loop of `GetFieldDescriptors`. -/
def getPartDescriptors : Option D → List Str → Option (List (FieldDescriptor D))
  | _, [] => some []
  | none, _ :: _ => none
  | some descriptor, fieldName :: parts =>
    match findFieldByName types descriptor fieldName with
    | none => none
    | some field => (getPartDescriptors field.singularMessageType parts).map (field :: ·)

/-- `GetFieldDescriptors`: the fields that the path traverses, `none` if it is not valid. -/
def getFieldDescriptors (descriptor : D) (path : Str) : Option (List (FieldDescriptor D)) :=
  getPartDescriptors types (some descriptor) (split dot path)

/-- `IsValidPath`. -/
def isValidPath (descriptor : D) (path : Str) : Bool :=
  (getFieldDescriptors types descriptor path).isSome

/-- The path is valid and ends at a scalar or a repeated field. -/
def EndsAtField (descriptor : D) (path : Str) : Prop :=
  ∃ fields field, getFieldDescriptors types descriptor path = some (fields ++ [field]) ∧
    field.singularMessageType = none

/-- Each name is a field, and `next` leads on from each but the last. -/
def walks (next : FieldDescriptor D → Option D) : D → List Str → Bool
  | _, [] => true
  | descriptor, name :: parts =>
    match findFieldByName types descriptor name with
    | none => false
    | some field =>
      match next field with
      | none => decide (parts = [])
      | some descriptor => walks next descriptor parts

/-- The names of a valid path whose last field is no singular message. -/
def stops : D → List Str → Bool
  | _, [] => false
  | descriptor, name :: parts =>
    match findFieldByName types descriptor name with
    | none => false
    | some field =>
      match field.singularMessageType with
      | none => decide (parts = [])
      | some descriptor => stops descriptor parts

variable {types}

variable {next : FieldDescriptor D → Option D}

theorem walks_cons (h : findFieldByName types descriptor name = some field) (parts : List Str) :
    walks types next descriptor (name :: parts) =
      (next field).elim (decide (parts = [])) fun d => walks types next d parts := by
  simp only [walks, h]
  cases next field <;> rfl

variable {parts : List Str}

theorem find_of_walks (h : walks types next descriptor (name :: parts) = true) :
    ∃ field, findFieldByName types descriptor name = some field := by
  cases hfind : findFieldByName types descriptor name with
  | none => simp [walks, hfind] at h
  | some field => exact ⟨field, rfl⟩

theorem isSome_getPartDescriptors (descriptor : D) (parts : List Str) :
    (getPartDescriptors types (some descriptor) parts).isSome =
      walks types (·.singularMessageType) descriptor parts := by
  induction parts generalizing descriptor with
  | nil => rfl
  | cons name parts ih =>
    rw [getPartDescriptors, walks]
    cases findFieldByName types descriptor name with
    | none => rfl
    | some field =>
      simp only [Option.isSome_map]
      cases field.singularMessageType with
      | none => cases parts <;> rfl
      | some d => exact ih d

theorem isValidPath_eq (descriptor : D) (path : Str) : isValidPath types descriptor path =
      walks types (·.singularMessageType) descriptor (split dot path) :=
  isSome_getPartDescriptors descriptor _

/-- The paths that end at a scalar or repeated field, name by name. -/
theorem endsAtField_parts (descriptor : D) (parts : List Str) :
    (∃ fields field, getPartDescriptors types (some descriptor) parts = some (fields ++ [field]) ∧
      field.singularMessageType = none) ↔ stops types descriptor parts = true := by
  induction parts generalizing descriptor with
  | nil => simp [getPartDescriptors, stops]
  | cons name parts ih =>
    rw [getPartDescriptors, stops]
    cases findFieldByName types descriptor name with
    | none => simp
    | some field =>
      simp only [Option.map_eq_some_iff]
      cases hnext : field.singularMessageType with
      | none =>
        cases parts with
        | nil =>
          simp only [getPartDescriptors, decide_true, iff_true]
          exact ⟨[], field, ⟨[], rfl, rfl⟩, hnext⟩
        | cons part parts => simp [getPartDescriptors]
      | some d =>
        rw [← ih d]
        constructor
        · rintro ⟨fields, last, ⟨rest, hrest, heq⟩, hlast⟩
          cases fields with
          | nil =>
            cases heq
            simp [hnext] at hlast
          | cons first fields =>
            cases heq
            exact ⟨fields, last, hrest, hlast⟩
        · rintro ⟨fields, last, hrest, hlast⟩
          exact ⟨field :: fields, last, ⟨_, hrest, rfl⟩, hlast⟩

theorem endsAtField_iff (descriptor : D) (path : Str) :
    EndsAtField types descriptor path ↔ stops types descriptor (split dot path) = true :=
  endsAtField_parts descriptor _

theorem stops_cons (h : findFieldByName types descriptor name = some field) (parts : List Str) :
    stops types descriptor (name :: parts) =
      field.singularMessageType.elim (decide (parts = [])) fun d => stops types d parts := by
  simp only [stops, h]
  cases field.singularMessageType <;> rfl

theorem find_of_stops (h : stops types descriptor (name :: parts) = true) :
    ∃ field, findFieldByName types descriptor name = some field := by
  cases hfind : findFieldByName types descriptor name with
  | none => simp [stops, hfind] at h
  | some field => exact ⟨field, rfl⟩

theorem ne_nil_of_stops (h : stops types descriptor parts = true) : parts ≠ [] := by
  rintro rfl
  cases h

theorem eq_of_prefix_stops {parts longer : List Str} (hstops : stops types descriptor parts = true)
    (hwalks : walks types (·.singularMessageType) descriptor longer = true)
    (hpre : parts <+: longer) : parts = longer := by
  induction parts generalizing descriptor longer with
  | nil => cases hstops
  | cons name parts ih =>
    obtain ⟨rest, rfl⟩ := hpre
    obtain ⟨field, hfind⟩ := find_of_stops hstops
    rw [stops_cons hfind] at hstops
    rw [cons_append, walks_cons hfind] at hwalks
    cases hnext : field.singularMessageType with
    | none =>
      rw [hnext] at hstops hwalks
      obtain rfl : parts = [] := of_decide_eq_true hstops
      obtain rfl : rest = [] := of_decide_eq_true hwalks
      rfl
    | some d =>
      rw [hnext] at hstops hwalks
      rw [cons_append, ← ih hstops hwalks (prefix_append parts rest)]

theorem walks_messageType (h : walks types (·.singularMessageType) descriptor parts = true) :
    walks types (·.messageType) descriptor parts = true := by
  induction parts generalizing descriptor with
  | nil => rfl
  | cons name parts ih =>
    obtain ⟨field, hfind⟩ := find_of_walks h
    rw [walks_cons hfind] at h ⊢
    cases hnext : field.singularMessageType with
    | none =>
      rw [hnext] at h
      obtain rfl : parts = [] := of_decide_eq_true h
      cases field.messageType <;> rfl
    | some d =>
      rw [hnext] at h
      rw [FieldDescriptor.messageType_of_singular hnext]
      exact ih h

theorem walks_of_stops (h : stops types descriptor parts = true) :
    walks types (·.singularMessageType) descriptor parts = true := by
  induction parts generalizing descriptor with
  | nil => cases h
  | cons name parts ih =>
    obtain ⟨field, hfind⟩ := find_of_stops h
    rw [stops_cons hfind] at h
    rw [walks_cons hfind]
    cases hnext : field.singularMessageType with
    | none =>
      rw [hnext] at h
      exact h
    | some d =>
      rw [hnext] at h
      exact ih h

theorem walks_of_prefix {parts longer : List Str} (h : walks types next descriptor longer = true)
    (hpre : parts <+: longer) : walks types next descriptor parts = true := by
  induction parts generalizing descriptor longer with
  | nil => rfl
  | cons name parts ih =>
    obtain ⟨rest, rfl⟩ := hpre
    rw [cons_append] at h
    obtain ⟨field, hfind⟩ := find_of_walks h
    rw [walks_cons hfind] at h ⊢
    cases hnext : next field with
    | none =>
      rw [hnext] at h
      have hnil : parts ++ rest = [] := of_decide_eq_true h
      exact decide_eq_true (append_eq_nil_iff.mp hnil).1
    | some d =>
      rw [hnext] at h
      exact ih h (prefix_append parts rest)

theorem exists_stops_of_not_valid (hwalks : walks types (·.messageType) descriptor parts = true)
    (hnot : walks types (·.singularMessageType) descriptor parts = false) :
    ∃ first rest, parts = first ++ rest ∧ rest ≠ [] ∧ stops types descriptor first = true := by
  induction parts generalizing descriptor with
  | nil => cases hnot
  | cons name parts ih =>
    obtain ⟨field, hfind⟩ := find_of_walks hwalks
    rw [walks_cons hfind] at hwalks hnot
    cases hnext : field.singularMessageType with
    | none =>
      rw [hnext] at hnot
      refine ⟨[name], parts, rfl, of_decide_eq_false hnot, ?_⟩
      rw [stops_cons hfind, hnext]
      rfl
    | some d =>
      rw [hnext] at hnot
      rw [FieldDescriptor.messageType_of_singular hnext] at hwalks
      obtain ⟨first, rest, rfl, hne, hstops⟩ := ih hwalks hnot
      refine ⟨name :: first, rest, rfl, hne, ?_⟩
      rw [stops_cons hfind, hnext]
      exact hstops

/-! ## What any mask covers -/

/-- A path of the mask, its empty names left out, is a prefix of these names. -/
def Covered (mask : FieldMask) (parts : List Str) : Prop :=
  ∃ maskPath ∈ mask, split dot maskPath ≠ [] ∧ split dot maskPath <+: parts

theorem covered_cons (maskPath : Str) (mask : FieldMask) (parts : List Str) : Covered (maskPath :: mask) parts ↔
      (split dot maskPath ≠ [] ∧ split dot maskPath <+: parts) ∨ Covered mask parts := by
  simp only [Covered, mem_cons, exists_eq_or_imp]

theorem covered_iff_maskCovers {mask : FieldMask} (h : ∀ maskPath ∈ mask, IsPath maskPath)
    (parts : List Str) : Covered mask parts ↔ MaskCovers mask parts := by
  constructor
  · rintro ⟨maskPath, hmem, -, hprefix⟩
    rw [(h maskPath hmem).split] at hprefix
    exact ⟨maskPath, hmem, hprefix⟩
  · rintro ⟨maskPath, hmem, hprefix⟩
    refine ⟨maskPath, hmem, ?_, ?_⟩
    · rw [(h maskPath hmem).split]
      exact segments_ne_nil maskPath
    · rwa [(h maskPath hmem).split]

theorem addPath_eq (path : Str) (root : Node) : addPath path root = if split dot path = [] then root
      else addPath (pathOf (split dot path)) root := by
  by_cases hnil : split dot path = []
  · rw [if_pos hnil, addPath, if_pos hnil]
  · rw [if_neg hnil, addPath, addPath, pathOf, split_join fun _ => isPart_of_mem_split]

theorem addPath_covered (maskPath : Str) {root : Node} (h : Valid root) :
    Valid (addPath maskPath root) ∧ ∀ path, Covers (addPath maskPath root) path ↔
      Covers root path ∨ (split dot maskPath ≠ [] ∧ split dot maskPath <+: path) := by
  rw [addPath_eq]
  split
  · next hnil => exact ⟨h, by simp [hnil]⟩
  · next hne =>
    have hparts : ∀ part ∈ split dot maskPath, IsPart dot part := fun _ => isPart_of_mem_split
    refine ⟨addPath_valid (isPath_pathOf hparts hne) h, fun path => ?_⟩
    rw [addPath_covers (isPath_pathOf hparts hne) h, segments_pathOf hparts hne, and_iff_right hne]

/-- **`MergeFromFieldMask`** adds what the mask covers, for any mask. -/
theorem mergeFromFieldMask_covered (mask : FieldMask) {root : Node} (h : Valid root) :
    Valid (mergeFromFieldMask mask root) ∧ ∀ path,
      Covers (mergeFromFieldMask mask root) path ↔ Covers root path ∨ Covered mask path := by
  induction mask generalizing root with
  | nil => exact ⟨h, by simp [mergeFromFieldMask, Covered]⟩
  | cons maskPath mask ih =>
    obtain ⟨hvalid, hcovers⟩ := addPath_covered maskPath h
    obtain ⟨hvalid', hcovers'⟩ := ih hvalid
    refine ⟨hvalid', fun path => ?_⟩
    have hrest := hcovers' path
    rw [hcovers, or_assoc, ← covered_cons] at hrest
    exact hrest

/-- **`MergeToFieldMask`** has a path for each leaf. -/
theorem mergeToFieldMask_covered {t : Node} (h : Valid t) (path : List Str) :
    Covered (mergeToFieldMask [] t) path ↔ Covers t path := by
  rw [covered_iff_maskCovers _ path, mergeToFieldMask_covers h]
  intro maskPath hmem
  rw [mergeToFieldMask_eq h.named] at hmem
  obtain ⟨q, hq, rfl⟩ := mem_map.mp hmem
  refine isPath_pathOf (paths_named h.named q hq) ?_
  rintro rfl
  exact nil_notMem_paths t hq

/-- A path of the mask is a prefix of these names, or they are one of it. -/
def Meets (mask : FieldMask) (parts : List Str) : Prop :=
  ∃ path ∈ mask, split dot path ≠ [] ∧ (split dot path <+: parts ∨ parts <+: split dot path)

theorem reach_eq_empty_iff_covered (mask : FieldMask) (parts : List Str) :
    reach parts (mergeFromFieldMask mask .empty) = some .empty ↔ Covered mask parts := by
  obtain ⟨-, hcovers⟩ := mergeFromFieldMask_covered mask valid_empty
  rw [← covers_iff_reach, hcovers, or_iff_right (not_covers_empty parts)]

theorem reach_ne_none_iff_meets (mask : FieldMask) (hne : parts ≠ []) :
    reach parts (mergeFromFieldMask mask .empty) ≠ none ↔ Meets mask parts := by
  obtain ⟨hvalid, hcovers⟩ := mergeFromFieldMask_covered mask valid_empty
  rw [reach_ne_none_iff hvalid.ordered, and_iff_right hne]
  simp only [hcovers, not_covers_empty, false_or]
  constructor
  · rintro ⟨rest, path, hmem, hpath, hprefix⟩
    refine ⟨path, hmem, hpath, ?_⟩
    exact prefix_or_prefix_of_prefix hprefix (prefix_append parts rest)
  · rintro ⟨path, hmem, hpath, hprefix | ⟨rest, hrest⟩⟩
    · exact ⟨[], path, hmem, hpath, by rwa [append_nil]⟩
    · exact ⟨rest, path, hmem, hpath, by rw [hrest]⟩

end Protoc.Util
