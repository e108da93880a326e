import Mathlib

/-!
# The padding optimizer

`OptimizeLayout` puts the fields of a class in order: the families one after the other, and in each
family blocks of eight bytes, made of fields that are aligned to eight bytes, or of two groups of four.
A group that is left over is to be the last block, for which it gets a location behind the number of
fields; but the other blocks have the averages of their field numbers.
-/

namespace Protoc.Compiler.Padding

open List

/-! ## From the source -/

/-- `FieldDescriptor::CppType` -/
inductive CppType
  | int32 | int64 | uint32 | uint64 | double | float | bool | enum | string | message
  deriving DecidableEq

/-- What is read of a `FieldDescriptor` and its options.  `words` is the size of its member in words of
eight bytes, where it is aligned to eight bytes. -/
structure Field where
  number : ℤ
  isRepeated : Bool
  isExtension : Bool
  cppType : CppType
  isGroup : Bool
  lazy : Bool
  liteRuntime : Bool
  defaultIsZero : Bool
  words : ℕ
  deriving DecidableEq

/-- The `Options` that are read. -/
structure Options where
  opensourceRuntime : Bool

/-- `IsLazy` -/
def isLazy (field : Field) (options : Options) : Bool :=
  field.lazy && !field.isRepeated && (field.cppType == .message && !field.isGroup) && !field.liteRuntime &&
    !options.opensourceRuntime

/-- `CanInitializeByZeroing` -/
def canInitializeByZeroing (field : Field) : Bool :=
  if field.isRepeated || field.isExtension then false
  else
    match field.cppType with
    | .string | .message => false
    | _ => field.defaultIsZero

/-- `EstimateAlignmentSize` -/
def estimateAlignmentSize (field : Field) : ℕ :=
  if field.isRepeated then 8
  else
    match field.cppType with
    | .bool => 1
    | .int32 | .uint32 | .enum | .float => 4
    | .int64 | .uint64 | .double | .string | .message => 8

/-- `Family` -/
inductive Family
  | repeated | string | lazyMessage | message | zeroInitializable | other
  deriving DecidableEq

def families : List Family := [.repeated, .string, .lazyMessage, .message, .zeroInitializable, .other]

/-- The family of a field. -/
def familyOf (options : Options) (field : Field) : Family :=
  if field.isRepeated then .repeated
  else if field.cppType = .string then .string
  else if field.cppType = .message then (if isLazy field options then .lazyMessage else .message)
  else if canInitializeByZeroing field then .zeroInitializable
  else .other

/-- `FieldGroup` -/
structure FieldGroup where
  preferredLocation : ℚ
  fields : List Field
  deriving DecidableEq

namespace FieldGroup

/-- `FieldGroup()` -/
def empty : FieldGroup := ⟨0, []⟩

def single (field : Field) : FieldGroup := ⟨field.number, [field]⟩

/-- `Append` -/
def append (group other : FieldGroup) : FieldGroup :=
  if other.fields = [] then group
  else
    ⟨(group.preferredLocation * group.fields.length + other.preferredLocation * other.fields.length) /
        (group.fields.length + other.fields.length),
      group.fields ++ other.fields⟩

end FieldGroup

open FieldGroup

/-- `std::stable_sort`, by the preferred location. -/
def stableSort (groups : List FieldGroup) : List FieldGroup :=
  groups.mergeSort fun a b => decide (a.preferredLocation ≤ b.preferredLocation)

/-- The groups of the fields of a family that have an alignment. -/
def alignedTo (alignment : ℕ) (options : Options) (family : Family) (fields : List Field) : List FieldGroup :=
  (fields.filter fun field =>
    familyOf options field = family ∧ estimateAlignmentSize field = alignment).map single

/-- Sets of 4 groups. -/
def setsOfFour : List FieldGroup → List FieldGroup
  | [] => []
  | [a] => [empty.append a]
  | [a, b] => [(empty.append a).append b]
  | [a, b, c] => [((empty.append a).append b).append c]
  | a :: b :: c :: d :: rest => (((empty.append a).append b).append c).append d :: setsOfFour rest

/-- The location of an incomplete block: `OTHER` has it at the beginning. -/
def incompleteLocation (count : ℕ) (family : Family) : ℚ := if family = .other then -1 else count + 1

def pairs (location : ℚ) : List FieldGroup → List FieldGroup
  | [] => []
  | [a] => [{ empty.append a with preferredLocation := location }]
  | a :: b :: rest => (empty.append a).append b :: pairs location rest

/-- `aligned_to_4[f]`, with the fields of one byte. -/
def groupsOfFour (options : Options) (family : Family) (fields : List Field) : List FieldGroup :=
  stableSort (alignedTo 4 options family fields ++ setsOfFour (alignedTo 1 options family fields))

/-- `aligned_to_8[f]`, before it is sorted. -/
def blocks (options : Options) (family : Family) (fields : List Field) : List FieldGroup :=
  alignedTo 8 options family fields ++
    pairs (incompleteLocation fields.length family) (groupsOfFour options family fields)

def familyLayout (options : Options) (family : Family) (fields : List Field) : List Field :=
  (stableSort (blocks options family fields)).flatMap FieldGroup.fields

/-- `OptimizeLayout` -/
def optimizeLayout (options : Options) (fields : List Field) : List Field :=
  families.flatMap fun family => familyLayout options family fields

/-! ## Members of a class -/

/-- The size of the member: a field of one or four bytes is that large. -/
def memberSize (field : Field) : ℕ :=
  if estimateAlignmentSize field = 8 then 8 * field.words else estimateAlignmentSize field

/-- The bytes of padding in front of the members, and those of the members, from a boundary of eight bytes. -/
structure Extent where
  padding : ℕ
  size : ℕ

def place (e : Extent) (field : Field) : Extent where
  padding := e.padding + (estimateAlignmentSize field - (e.padding + e.size) % estimateAlignmentSize field) %
    estimateAlignmentSize field
  size := e.size + memberSize field

/-- The padding between the first of the members and the last. -/
def paddingOf (members : List Field) : ℕ := (members.foldl place ⟨0, 0⟩).padding

/-! ## Sorting -/

variable {options : Options} {family : Family} {fields : List Field} {groups : List FieldGroup}
  {a b group : FieldGroup} {location : ℚ}

theorem perm_stableSort (groups : List FieldGroup) : (stableSort groups).Perm groups := mergeSort_perm _ _

theorem pairwise_stableSort (groups : List FieldGroup) :
    (stableSort groups).Pairwise fun a b => a.preferredLocation ≤ b.preferredLocation := by
  refine (pairwise_mergeSort (fun a b c hab hbc => ?_) (fun a b => ?_) groups).imp of_decide_eq_true
  · exact decide_eq_true ((of_decide_eq_true hab).trans (of_decide_eq_true hbc))
  · rw [Bool.or_eq_true, decide_eq_true_iff, decide_eq_true_iff]
    exact le_total _ _

/-- **The last group of all** stands behind those of its location, when they are sorted. -/
theorem stableSort_concat (groups : List FieldGroup) (group : FieldGroup) :
    ∃ front back, stableSort (groups ++ [group]) = front ++ group :: back ∧ (front ++ back).Perm groups ∧
      (∀ a ∈ front, a.preferredLocation ≤ group.preferredLocation) ∧
      ∀ a ∈ back, group.preferredLocation < a.preferredLocation := by
  let q : FieldGroup → Bool := fun a => decide (a.preferredLocation = group.preferredLocation)
  have hperm := perm_stableSort (groups ++ [group])
  have hpairwise := pairwise_stableSort (groups ++ [group])
  -- the groups of that location are in the order in which they were
  have hsub : ((groups ++ [group]).filter q).Sublist (stableSort (groups ++ [group])) := by
    refine sublist_mergeSort (fun a b c hab hbc => ?_) (fun a b => ?_) ?_ filter_sublist
    · exact decide_eq_true ((of_decide_eq_true hab).trans (of_decide_eq_true hbc))
    · rw [Bool.or_eq_true, decide_eq_true_iff, decide_eq_true_iff]
      exact le_total _ _
    · refine List.Pairwise.imp_of_mem (R := fun _ _ => True) (fun ha hb _ => ?_)
        (pairwise_of_forall fun _ _ => trivial)
      have ha' := of_decide_eq_true (mem_filter.mp ha).2
      have hb' := of_decide_eq_true (mem_filter.mp hb).2
      exact decide_eq_true (ha'.trans hb'.symm).le
  have hsame : (stableSort (groups ++ [group])).filter q = groups.filter q ++ [group] := by
    have hfilter := hsub.filter q
    simp only [filter_filter, Bool.and_self] at hfilter
    rw [← hfilter.eq_of_length (hperm.filter q).length_eq.symm, filter_append]
    simp [q]
  obtain ⟨before, rest, hsplit, -, hrest⟩ := filter_eq_append_iff.mp hsame
  obtain ⟨between, back, rfl, -, -, hback⟩ := filter_eq_cons_iff.mp hrest
  rw [← append_assoc] at hsplit
  rw [hsplit] at hperm hpairwise
  rw [pairwise_append, pairwise_cons] at hpairwise
  refine ⟨before ++ between, back, hsplit, ?_, fun a ha => ?_, fun a ha => ?_⟩
  · exact (List.perm_middle.symm.trans (hperm.trans (perm_append_singleton group groups))).cons_inv
  · exact hpairwise.2.2 a ha group mem_cons_self
  · refine lt_of_le_of_ne (hpairwise.2.1.1 a ha) fun heq => ?_
    exact filter_eq_nil_iff.mp hback a ha (decide_eq_true heq.symm)

/-! ## Groups and their fields -/

@[simp] theorem fields_append (a b : FieldGroup) : (a.append b).fields = a.fields ++ b.fields := by
  rw [FieldGroup.append]
  split
  · next hnil => rw [hnil, append_nil]
  · rfl

@[simp] theorem fields_empty : empty.fields = [] := rfl

theorem flatMap_setsOfFour (groups : List FieldGroup) :
    (setsOfFour groups).flatMap FieldGroup.fields = groups.flatMap FieldGroup.fields := by
  induction groups using setsOfFour.induct with
  | case5 a b c d rest ih => simp [setsOfFour, ih]
  | _ => simp [setsOfFour]

theorem flatMap_pairs (location : ℚ) (groups : List FieldGroup) :
    (pairs location groups).flatMap FieldGroup.fields = groups.flatMap FieldGroup.fields := by
  induction groups using pairs.induct with
  | case3 a b rest ih => simp [pairs, ih]
  | _ => simp [pairs]

theorem flatMap_alignedTo (alignment : ℕ) (options : Options) (family : Family) (fields : List Field) :
    (alignedTo alignment options family fields).flatMap FieldGroup.fields = fields.filter fun field =>
      familyOf options field = family ∧ estimateAlignmentSize field = alignment := by
  rw [alignedTo, flatMap_map]
  exact flatMap_singleton' _

theorem perm_flatMap_filter {κ : Type} [DecidableEq κ] (key : Field → κ) {keys : List κ} (hnodup : keys.Nodup)
    {fields : List Field} (hkeys : ∀ field ∈ fields, key field ∈ keys) :
    (keys.flatMap fun k => fields.filter fun field => key field = k).Perm fields := by
  induction keys generalizing fields with
  | nil =>
    cases fields with
    | nil => exact .refl _
    | cons field rest => exact absurd (hkeys field mem_cons_self) not_mem_nil
  | cons k keys ih =>
    obtain ⟨hk, hnodup⟩ := nodup_cons.mp hnodup
    have hrest : (keys.flatMap fun k' => fields.filter fun field => key field = k') =
        keys.flatMap fun k' => (fields.filter fun field => !decide (key field = k)).filter fun field =>
          key field = k' := by
      refine flatMap_congr fun k' hk' => ?_
      rw [filter_filter]
      refine filter_congr fun field _ => ?_
      have hne : k' ≠ k := by
        rintro rfl
        exact hk hk'
      by_cases hfield : key field = k' <;> simp [hfield, hne]
    rw [flatMap_cons, hrest]
    refine ((ih hnodup fun field hfield => ?_).append_left _).trans (filter_append_perm _ fields)
    obtain ⟨hmem, hne⟩ := mem_filter.mp hfield
    exact (mem_cons.mp (hkeys field hmem)).resolve_left (by simpa using hne)

theorem alignment_cases (field : Field) : estimateAlignmentSize field ∈ [8, 4, 1] := by
  rw [estimateAlignmentSize]
  split
  · decide
  · split <;> decide

/-- **The layout of a family** is made of its fields. -/
theorem perm_familyLayout (options : Options) (family : Family) (fields : List Field) :
    (familyLayout options family fields).Perm (fields.filter fun field => familyOf options field = family) := by
  have hsorted := (perm_stableSort (blocks options family fields)).flatMap_right FieldGroup.fields
  have hgroups := (perm_stableSort (alignedTo 4 options family fields ++
    setsOfFour (alignedTo 1 options family fields))).flatMap_right FieldGroup.fields
  have hall := @perm_flatMap_filter _ _ estimateAlignmentSize [8, 4, 1] (by decide)
    (fields.filter fun field => familyOf options field = family) fun field _ => alignment_cases field
  refine hsorted.trans (.trans ?_ hall)
  rw [blocks, flatMap_append, flatMap_pairs, groupsOfFour, flatMap_alignedTo]
  refine (hgroups.append_left _).trans (.of_eq ?_)
  rw [flatMap_append, flatMap_setsOfFour, flatMap_alignedTo, flatMap_alignedTo]
  simp [filter_filter, and_comm]

/-! ## Groups of four bytes -/

def sizeOf (members : List Field) : ℕ := (members.map memberSize).sum

/-- A member of four bytes, or up to four of one byte. -/
inductive Four : List Field → Prop
  | word {x : Field} (hx : estimateAlignmentSize x = 4) : Four [x]
  | bytes {xs : List Field} (hxs : ∀ x ∈ xs, estimateAlignmentSize x = 1) (hpos : 0 < xs.length)
      (hle : xs.length ≤ 4) : Four xs

theorem Four.ne_eight {xs : List Field} (h : Four xs) : ∀ x ∈ xs, estimateAlignmentSize x ≠ 8 := by
  intro x hx
  cases h with
  | word hword =>
    rw [mem_singleton.mp hx, hword]
    decide
  | bytes hbytes =>
    rw [hbytes x hx]
    decide

def Short (members : List Field) : Prop := sizeOf members % 4 ≠ 0

instance (members : List Field) : Decidable (Short members) := inferInstanceAs (Decidable (_ ≠ _))

def Pair (members : List Field) : Prop := ∃ xs ys, members = xs ++ ys ∧ Four xs ∧ Four ys ∧ ¬ (Short xs ∧ Short ys)

def shorts (groups : List FieldGroup) : ℕ := groups.countP fun group => Short group.fields

variable {x : Field} {xs ys : List Field} {e : Extent} {odd : Bool} {d : ℕ}

theorem memberSize_of_lt (h : estimateAlignmentSize x ≠ 8) : memberSize x = estimateAlignmentSize x := if_neg h

theorem sizeOf_bytes (hxs : ∀ x ∈ xs, estimateAlignmentSize x = 1) : sizeOf xs = xs.length := by
  induction xs with
  | nil => rfl
  | cons x xs ih =>
    obtain ⟨hx, hxs⟩ := forall_mem_cons.mp hxs
    have hsize := memberSize_of_lt (x := x) (by omega)
    have hrest := ih hxs
    rw [sizeOf] at hrest ⊢
    rw [map_cons, sum_cons, hrest, hsize, hx, length_cons, add_comm]

theorem sizeOf_append (xs ys : List Field) : sizeOf (xs ++ ys) = sizeOf xs + sizeOf ys := by
  rw [sizeOf, map_append, sum_append, sizeOf, sizeOf]

theorem shorts_append (groups groups' : List FieldGroup) : shorts (groups ++ groups') = shorts groups + shorts groups' :=
  countP_append

theorem shorts_cons (group : FieldGroup) (groups : List FieldGroup) :
    shorts (group :: groups) = shorts groups + if Short group.fields then 1 else 0 := by
  rw [shorts, countP_cons]
  simp [shorts]

/-- **The sets of fields of one byte**, of which the last may be short. -/
theorem setsOfFour_spec (hgroups : ∀ g ∈ groups, ∃ x, g.fields = [x] ∧ estimateAlignmentSize x = 1) :
    (∀ g ∈ setsOfFour groups, Four g.fields) ∧ shorts (setsOfFour groups) ≤ 1 ∧
      (setsOfFour groups).length = (groups.length + 3) / 4 := by
  have hbytes : ∀ {gs : List FieldGroup}, (∀ g ∈ gs, ∃ x, g.fields = [x] ∧ estimateAlignmentSize x = 1) →
      (gs.flatMap FieldGroup.fields).length = gs.length ∧
        ∀ x ∈ gs.flatMap FieldGroup.fields, estimateAlignmentSize x = 1 := by
    intro gs hgs
    induction gs with
    | nil => exact ⟨rfl, fun _ hx => absurd hx not_mem_nil⟩
    | cons g gs ih =>
      obtain ⟨⟨x, hfields, hx⟩, hgs⟩ := forall_mem_cons.mp hgs
      obtain ⟨hlength, hall⟩ := ih hgs
      rw [flatMap_cons, hfields, length_append, hlength, length_cons, add_comm]
      refine ⟨rfl, forall_mem_append.mpr ⟨?_, hall⟩⟩
      exact forall_mem_singleton.mpr hx
  have hset : ∀ {gs : List FieldGroup} {g : FieldGroup}, (∀ g ∈ gs, ∃ x, g.fields = [x] ∧ estimateAlignmentSize x = 1) →
      g.fields = gs.flatMap FieldGroup.fields → 0 < gs.length → gs.length ≤ 4 →
      Four g.fields ∧ (gs.length = 4 → ¬ Short g.fields) := by
    intro gs g hgs hfields hpos hle
    obtain ⟨hlength, hall⟩ := hbytes hgs
    rw [← hfields] at hlength hall
    refine ⟨.bytes hall (by omega) (by omega), fun hfour hshort => hshort ?_⟩
    rw [sizeOf_bytes hall]
    omega
  induction groups using setsOfFour.induct with
  | case1 => exact ⟨fun _ hg => absurd hg not_mem_nil, Nat.zero_le 1, rfl⟩
  | case5 a b c d rest ih =>
    obtain ⟨hrest, hshorts, hlength⟩ := ih fun g hg => hgroups g (by simp [hg])
    obtain ⟨hfour, hfull⟩ := @hset [a, b, c, d] ((((empty.append a).append b).append c).append d)
      (fun g hg => hgroups g (by simp at hg ⊢; tauto)) (by simp) (Nat.succ_pos _) le_rfl
    rw [setsOfFour]
    refine ⟨forall_mem_cons.mpr ⟨hfour, hrest⟩, ?_, ?_⟩
    · rwa [shorts_cons, if_neg (hfull rfl)]
    · rw [length_cons, hlength]
      simp only [length_cons]
      omega
  | _ =>
    rw [setsOfFour]
    refine ⟨forall_mem_singleton.mpr (hset hgroups (by simp) (by simp) (by simp)).1, countP_le_length, by simp⟩

theorem alignedTo_spec {alignment : ℕ} (hgroup : group ∈ alignedTo alignment options family fields) :
    ∃ x ∈ fields, group = single x ∧ familyOf options x = family ∧ estimateAlignmentSize x = alignment := by
  obtain ⟨x, hx, rfl⟩ := mem_map.mp hgroup
  obtain ⟨hmem, hx⟩ := mem_filter.mp hx
  obtain ⟨hfamily, halign⟩ := of_decide_eq_true hx
  exact ⟨x, hmem, rfl, hfamily, halign⟩

theorem length_alignedTo (alignment : ℕ) (options : Options) (family : Family) (fields : List Field) :
    (alignedTo alignment options family fields).length =
      fields.countP fun field => familyOf options field = family ∧ estimateAlignmentSize field = alignment := by
  rw [alignedTo, length_map, countP_eq_length_filter]

def fourByteGroups (options : Options) (family : Family) (fields : List Field) : ℕ :=
  (fields.countP fun field => familyOf options field = family ∧ estimateAlignmentSize field = 4) +
    ((fields.countP fun field => familyOf options field = family ∧ estimateAlignmentSize field = 1) + 3) / 4

/-- **The groups of four bytes** of a family: one of them may be short. -/
theorem groupsOfFour_spec (options : Options) (family : Family) (fields : List Field) :
    (∀ g ∈ groupsOfFour options family fields, Four g.fields) ∧ shorts (groupsOfFour options family fields) ≤ 1 ∧
      (groupsOfFour options family fields).length = fourByteGroups options family fields := by
  obtain ⟨hsets, hshorts, hlength⟩ := @setsOfFour_spec (alignedTo 1 options family fields) fun g hg => by
    obtain ⟨x, -, rfl, -, hx⟩ := alignedTo_spec hg
    exact ⟨x, rfl, hx⟩
  have hwords : ∀ g ∈ alignedTo 4 options family fields, Four g.fields ∧ ¬ Short g.fields := by
    intro g hg
    obtain ⟨x, -, rfl, -, hx⟩ := alignedTo_spec hg
    refine ⟨.word hx, not_not.mpr ?_⟩
    have hsize := memberSize_of_lt (x := x) (by omega)
    simp [sizeOf, single, hsize, hx]
  have hperm := perm_stableSort (alignedTo 4 options family fields ++ setsOfFour (alignedTo 1 options family fields))
  have hzero : shorts (alignedTo 4 options family fields) = 0 :=
    countP_eq_zero.mpr fun g hg => by simpa using (hwords g hg).2
  refine ⟨fun g hg => ?_, ?_, ?_⟩
  · rcases mem_append.mp (hperm.mem_iff.mp hg) with hg | hg
    · exact (hwords g hg).1
    · exact hsets g hg
  · have hcount : shorts (groupsOfFour options family fields) = _ := hperm.countP_eq _
    rw [hcount, countP_append]
    rw [shorts] at hzero hshorts
    omega
  · rw [groupsOfFour, hperm.length_eq, length_append, hlength, length_alignedTo, length_alignedTo, fourByteGroups]

/-- **The pairs of groups**, and the group that is left over. -/
theorem pairs_spec (hfour : ∀ g ∈ groups, Four g.fields) (hshorts : shorts groups ≤ 1) :
    shorts (pairs location groups) ≤ shorts groups ∧ ∃ front, (∀ b ∈ front, Pair b.fields) ∧
      (groups.length % 2 = 0 ∧ pairs location groups = front ∨
        groups.length % 2 = 1 ∧ ∃ g, pairs location groups = front ++ [g] ∧ Four g.fields ∧
          g.preferredLocation = location) := by
  induction groups using pairs.induct with
  | case1 => exact ⟨le_rfl, [], nofun, .inl ⟨rfl, rfl⟩⟩
  | case2 a =>
    refine ⟨?_, [], nofun, .inr ⟨rfl, _, rfl, ?_, rfl⟩⟩
    · simp [pairs, shorts]
    · simpa using hfour a mem_cons_self
  | case3 a b rest ih =>
    rw [shorts_cons, shorts_cons] at hshorts
    obtain ⟨hle, front, hfront, hcase⟩ := ih (fun g hg => hfour g (by simp [hg])) (by omega)
    have hpair : Pair ((empty.append a).append b).fields := by
      refine ⟨a.fields, b.fields, by simp, hfour a (by simp), hfour b (by simp), ?_⟩
      rintro ⟨ha, hb⟩
      rw [if_pos ha, if_pos hb] at hshorts
      omega
    have hshort : Short ((empty.append a).append b).fields → Short a.fields ∨ Short b.fields := by
      rw [Short, Short, Short, fields_append, fields_append, sizeOf_append, sizeOf_append]
      simp only [fields_empty, sizeOf, map_nil, sum_nil]
      omega
    refine ⟨?_, (empty.append a).append b :: front, forall_mem_cons.mpr ⟨hpair, hfront⟩, ?_⟩
    · rw [pairs, shorts_cons, shorts_cons, shorts_cons]
      split <;> split <;> split <;> first | omega | tauto
    · rw [pairs, length_cons, length_cons]
      rcases hcase with ⟨heven, hpairs⟩ | ⟨hodd, g, hpairs, hg⟩
      · exact .inl ⟨by omega, by rw [hpairs]⟩
      · exact .inr ⟨by omega, g, by rw [hpairs, cons_append], hg⟩

/-! ## Placing the members -/

/-- Where a group ends: what is placed is `d` bytes short of words of four bytes, and the words are even or
odd in number. -/
def Aligned (odd : Bool) (d : ℕ) (e : Extent) : Prop := (e.size + d) % 8 = (if odd then 4 else 0) ∧ d ≤ 3

/-- The padding is nothing yet, or what the short group needs. -/
def Tight (d : ℕ) (e : Extent) : Prop := e.padding = 0 ∨ e.padding = d

theorem foldl_bytes (hxs : ∀ x ∈ xs, estimateAlignmentSize x = 1) (e : Extent) :
    xs.foldl place e = ⟨e.padding, e.size + xs.length⟩ := by
  induction xs generalizing e with
  | nil => rfl
  | cons x xs ih =>
    obtain ⟨hx, hxs⟩ := forall_mem_cons.mp hxs
    have hsize := memberSize_of_lt (x := x) (by omega)
    rw [foldl_cons, ih hxs, place, hx, hsize, hx, Nat.mod_one, length_cons]
    simp only [add_zero, add_assoc, add_comm 1]

/-- **A group of four bytes** is placed. -/
theorem four_placed (h : Four xs) (he : Aligned odd d e) (hshort : Short xs → d = 0) :
    ∃ d', Aligned (!odd) d' (xs.foldl place e) ∧ (Tight d e → Tight d' (xs.foldl place e)) ∧ (¬ Short xs → d' = d) := by
  obtain ⟨hsize, hd⟩ := he
  cases h with
  | @word x hx =>
    have hmember := memberSize_of_lt (x := x) (by omega)
    refine ⟨d, ⟨?_, hd⟩, fun htight => ?_, fun _ => rfl⟩
    · rw [foldl_cons, foldl_nil, place, hmember, hx]
      cases odd <;> simp at hsize ⊢ <;> omega
    · rw [foldl_cons, foldl_nil, place, hmember, hx, Tight]
      rcases htight with hzero | hdeficit <;> cases odd <;> simp at hsize ⊢ <;> omega
  | bytes hxs hpos hle =>
    rw [Short, sizeOf_bytes hxs] at hshort ⊢
    rw [foldl_bytes hxs]
    by_cases hfour : xs.length = 4
    · refine ⟨d, ⟨?_, hd⟩, id, fun _ => rfl⟩
      cases odd <;> simp at hsize ⊢ <;> omega
    · obtain rfl := hshort (by omega)
      refine ⟨4 - xs.length, ⟨?_, by omega⟩, fun htight => ?_, fun hfull => absurd hfull (by omega)⟩
      · cases odd <;> simp at hsize ⊢ <;> omega
      · exact .inl (htight.elim id id)

/-- **A pair** is placed. -/
theorem pair_placed (h : Pair xs) (he : Aligned odd d e) (hshort : Short xs → d = 0) :
    ∃ d', Aligned odd d' (xs.foldl place e) ∧ (Tight d e → Tight d' (xs.foldl place e)) ∧ (¬ Short xs → d' = d) := by
  obtain ⟨ys, zs, rfl, hys, hzs, hnot⟩ := h
  have hsizes : sizeOf (ys ++ zs) % 4 = (sizeOf ys % 4 + sizeOf zs % 4) % 4 := by
    rw [sizeOf_append, Nat.add_mod]
  have hleft : Short ys → Short (ys ++ zs) := by
    intro hy
    have hz := not_not.mp (not_and.mp hnot hy)
    rw [Short] at hy ⊢
    omega
  have hright : Short zs → Short (ys ++ zs) := by
    intro hz
    have hy := not_not.mp fun hy => hnot ⟨hy, hz⟩
    rw [Short] at hz ⊢
    omega
  obtain ⟨d₁, he₁, htight₁, hsame₁⟩ := four_placed hys he fun hy => hshort (hleft hy)
  obtain ⟨d₂, he₂, htight₂, hsame₂⟩ := four_placed hzs he₁ fun hz =>
    (hsame₁ fun hy => hnot ⟨hy, hz⟩).trans (hshort (hright hz))
  rw [foldl_append]
  rw [Bool.not_not] at he₂
  refine ⟨d₂, he₂, fun htight => htight₂ (htight₁ htight), fun hfull => ?_⟩
  exact (hsame₂ (mt hright hfull)).trans (hsame₁ (mt hleft hfull))

/-- **A field of eight bytes** is placed: behind an odd number of words there is much padding. -/
theorem eight_placed (hx : estimateAlignmentSize x = 8) (he : Aligned odd d e) :
    Aligned odd d (place e x) ∧ (odd = false → Tight d e → Tight d (place e x)) ∧
      (odd = true → 4 ≤ (place e x).padding) := by
  obtain ⟨hsize, hd⟩ := he
  have hmember : memberSize x = 8 * x.words := if_pos hx
  rw [place, hmember, hx]
  refine ⟨⟨?_, hd⟩, ?_, ?_⟩
  · cases odd <;> simp at hsize ⊢ <;> omega
  · rintro rfl htight
    rw [Tight] at htight ⊢
    simp at hsize ⊢
    omega
  · rintro rfl
    simp at hsize ⊢
    omega

def Block (members : List Field) : Prop := (∃ x, members = [x] ∧ estimateAlignmentSize x = 8) ∨ Pair members

theorem not_short_eight (hx : estimateAlignmentSize x = 8) : ¬ Short [x] := by
  have hmember : memberSize x = 8 * x.words := if_pos hx
  rw [Short, sizeOf, map_singleton, sum_singleton, hmember]
  omega

/-- **Blocks one after the other**, of which at most one is short: behind an odd number of words, the padding
stays small as long as there is no field of eight bytes. -/
theorem blocks_placed {bs : List FieldGroup} (hbs : ∀ b ∈ bs, Block b.fields) (he : Aligned odd d e)
    (hshorts : shorts bs + (if d = 0 then 0 else 1) ≤ 1) :
    ∃ d', Aligned odd d' ((bs.flatMap FieldGroup.fields).foldl place e) ∧
      ((odd = true → ∀ b ∈ bs, Pair b.fields) → Tight d e → Tight d' ((bs.flatMap FieldGroup.fields).foldl place e)) ∧
      (if d' = 0 then 0 else 1) ≤ shorts bs + if d = 0 then 0 else 1 := by
  induction bs generalizing d e with
  | nil => exact ⟨d, he, fun _ htight => htight, by simp [shorts]⟩
  | cons b bs ih =>
    obtain ⟨hb, hbs⟩ := forall_mem_cons.mp hbs
    rw [shorts_cons] at hshorts ⊢
    rw [flatMap_cons, foldl_append]
    -- the first block, and then the others
    obtain ⟨d₁, he₁, htight₁, hd₁⟩ : ∃ d₁, Aligned odd d₁ (b.fields.foldl place e) ∧
        ((odd = true → Pair b.fields) → Tight d e → Tight d₁ (b.fields.foldl place e)) ∧
        (if d₁ = 0 then 0 else 1) ≤ (if Short b.fields then 1 else 0) + if d = 0 then 0 else 1 := by
      rcases hb with ⟨x, hfields, hx⟩ | hpair
      · obtain ⟨he₁, htight₁, hpadding⟩ := eight_placed hx he
        rw [hfields, foldl_cons, foldl_nil, if_neg (not_short_eight hx), zero_add]
        refine ⟨d, he₁, fun hpair htight => ?_, le_rfl⟩
        cases odd with
        | false => exact htight₁ rfl htight
        | true =>
          obtain ⟨ys, zs, hsplit, hys, hzs, -⟩ := hpair rfl
          have hlength : 1 = ys.length + zs.length := by
            rw [← length_append, ← hsplit, length_singleton]
          have hpos : ∀ {ws : List Field}, Four ws → 0 < ws.length := by
            rintro ws (_ | ⟨-, hpos, -⟩)
            · exact Nat.one_pos
            · exact hpos
          have hys' := hpos hys
          have hzs' := hpos hzs
          omega
      · have hzero : Short b.fields → d = 0 := by
          intro hshort
          rw [if_pos hshort] at hshorts
          by_contra hne
          rw [if_neg hne] at hshorts
          omega
        obtain ⟨d₁, he₁, htight₁, hsame⟩ := pair_placed hpair he hzero
        refine ⟨d₁, he₁, fun _ => htight₁, ?_⟩
        by_cases hshort : Short b.fields
        · rw [if_pos hshort]
          split <;> omega
        · rw [hsame hshort, if_neg hshort, zero_add]
    obtain ⟨d', he', htight', hd'⟩ := ih hbs he₁ (by omega)
    refine ⟨d', he', fun hpairs htight => ?_, by omega⟩
    exact htight' (fun hodd b hb => hpairs hodd b (mem_cons_of_mem _ hb))
      (htight₁ (fun hodd => hpairs hodd _ mem_cons_self) htight)

theorem padding_le_foldl (members : List Field) (e : Extent) : e.padding ≤ (members.foldl place e).padding := by
  induction members generalizing e with
  | nil => exact le_rfl
  | cons x members ih => exact (Nat.le_add_right _ _).trans (ih (place e x))

/-! ## The layout of a family -/

/-- The number of groups of four bytes is odd, and a field of eight bytes has a number beyond the location of
the one that is left over. -/
def Displaced (options : Options) (family : Family) (fields : List Field) : Prop :=
  fourByteGroups options family fields % 2 = 1 ∧ ∃ field ∈ fields, familyOf options field = family ∧
    estimateAlignmentSize field = 8 ∧ (fields.length : ℤ) + 1 < field.number

def incomplete (options : Options) (family : Family) (fields : List Field) : Option FieldGroup :=
  if fourByteGroups options family fields % 2 = 1 then (blocks options family fields).getLast? else none

/-- **The blocks of a family**, and the group that is left over, which stands behind the blocks of its location. -/
theorem sorted_blocks (options : Options) (fields : List Field) (hfamily : family ≠ .other) :
    shorts (blocks options family fields) ≤ 1 ∧ ((fourByteGroups options family fields % 2 = 0 ∧
          ∀ b ∈ stableSort (blocks options family fields), Block b.fields) ∨
        (fourByteGroups options family fields % 2 = 1 ∧ ∃ front g back,
          stableSort (blocks options family fields) = front ++ g :: back ∧ Four g.fields ∧
          incomplete options family fields = some g ∧ g.preferredLocation = fields.length + 1 ∧
          (∀ b ∈ front ++ back, Block b.fields) ∧ (∀ b ∈ front, b.preferredLocation ≤ fields.length + 1) ∧
          ∀ b ∈ back, (fields.length : ℚ) + 1 < b.preferredLocation)) := by
  obtain ⟨hfour, hshorts, hlength⟩ := groupsOfFour_spec options family fields
  obtain ⟨hle, front, hfront, hcase⟩ := @pairs_spec _ (incompleteLocation fields.length family) hfour hshorts
  have heights : ∀ b ∈ alignedTo 8 options family fields, Block b.fields ∧ ¬ Short b.fields := by
    intro b hb
    obtain ⟨x, -, rfl, -, hx⟩ := alignedTo_spec hb
    exact ⟨.inl ⟨x, rfl, hx⟩, not_short_eight hx⟩
  have hblocks : ∀ b ∈ alignedTo 8 options family fields ++ front, Block b.fields :=
    forall_mem_append.mpr ⟨fun b hb => (heights b hb).1, fun b hb => .inr (hfront b hb)⟩
  have hzero : shorts (alignedTo 8 options family fields) = 0 :=
    countP_eq_zero.mpr fun b hb => by simpa using (heights b hb).2
  have hcount : shorts (blocks options family fields) ≤ 1 := by
    rw [blocks, shorts_append, hzero]
    omega
  refine ⟨hcount, ?_⟩
  rw [hlength] at hcase
  rcases hcase with ⟨heven, hpairs⟩ | ⟨hodd, g, hpairs, hg, hlocation⟩
  · refine .inl ⟨heven, fun b hb => hblocks b ?_⟩
    rw [← hpairs]
    exact (perm_stableSort _).mem_iff.mp hb
  · have hconcat : blocks options family fields = (alignedTo 8 options family fields ++ front) ++ [g] := by
      rw [blocks, hpairs, append_assoc]
    obtain ⟨before, back, hsorted, hperm, hbefore, hback⟩ :=
      stableSort_concat (alignedTo 8 options family fields ++ front) g
    rw [incompleteLocation, if_neg hfamily] at hlocation
    rw [hlocation] at hbefore hback
    refine .inr ⟨hodd, before, g, back, hconcat ▸ hsorted, hg, ?_, hlocation, fun b hb =>
      hblocks b (hperm.mem_iff.mp hb), hbefore, hback⟩
    rw [incomplete, if_pos hodd, hconcat, List.getLast?_append, List.getLast?_singleton, Option.some_or]

/-- **The padding of a family** is at most three bytes, unless a field of eight bytes stands behind the group that
is left over. -/
theorem paddingOf_le_iff (options : Options) (fields : List Field) (hfamily : family ≠ .other) :
    paddingOf (familyLayout options family fields) ≤ 3 ↔ ¬ Displaced options family fields := by
  have hstart : Aligned false 0 ⟨0, 0⟩ := ⟨rfl, Nat.zero_le 3⟩
  have hperm := perm_stableSort (blocks options family fields)
  obtain ⟨hshorts, ⟨heven, hblocks⟩ | ⟨hodd, front, g, back, hsorted, hg, -, -, hblocks, hfront, hback⟩⟩ :=
    sorted_blocks options fields hfamily
  · -- no group is left over
    have hcount : shorts (stableSort (blocks options family fields)) ≤ 1 := (hperm.countP_eq _).trans_le hshorts
    obtain ⟨d, ⟨-, hd⟩, htight, -⟩ := blocks_placed hblocks hstart hcount
    have hpadding := htight (fun h => absurd h Bool.false_ne_true) (.inl rfl)
    refine iff_of_true ?_ fun h => absurd (heven.symm.trans h.1) (by decide)
    rw [paddingOf, familyLayout]
    rcases hpadding with hpadding | hpadding <;> omega
  · have hcount : shorts (front ++ g :: back) ≤ 1 := by
      rw [← hsorted]
      exact (hperm.countP_eq _).trans_le hshorts
    rw [shorts_append, shorts_cons] at hcount
    obtain ⟨hfront', hback'⟩ := forall_mem_append.mp hblocks
    obtain ⟨d₁, he₁, htight₁, hd₁⟩ := blocks_placed hfront' hstart (by rw [if_pos rfl]; omega)
    rw [if_pos rfl, add_zero] at hd₁
    have hzero : Short g.fields → d₁ = 0 := by
      intro hshort
      rw [if_pos hshort] at hcount
      by_contra hne
      rw [if_neg hne] at hd₁
      omega
    obtain ⟨d₂, he₂, htight₂, hsame⟩ := four_placed hg he₁ hzero
    have hbudget : shorts back + (if d₂ = 0 then 0 else 1) ≤ 1 := by
      by_cases hshort : Short g.fields
      · rw [if_pos hshort] at hcount
        split <;> omega
      · rw [hsame hshort]
        omega
    have hlayout : familyLayout options family fields =
        front.flatMap FieldGroup.fields ++ (g.fields ++ back.flatMap FieldGroup.fields) := by
      rw [familyLayout, hsorted, flatMap_append, flatMap_cons]
    have htight := htight₂ (htight₁ (fun h => absurd h Bool.false_ne_true) (.inl rfl))
    rw [paddingOf, hlayout, foldl_append, foldl_append]
    constructor
    · -- a field of eight bytes stands behind it
      rintro hle ⟨-, x, hx, hxfamily, halign, hnumber⟩
      have hmem : single x ∈ front ++ g :: back := by
        rw [← hsorted, hperm.mem_iff, blocks, mem_append]
        exact .inl (mem_map_of_mem (mem_filter.mpr ⟨hx, decide_eq_true ⟨hxfamily, halign⟩⟩))
      have hlocation : (fields.length : ℚ) + 1 < (single x).preferredLocation := by
        have hnumber' : (fields.length : ℚ) + 1 < x.number := by exact_mod_cast hnumber
        exact hnumber'
      have hmem' : single x ∈ back := by
        rcases mem_append.mp hmem with hmem | hmem
        · exact absurd hlocation (not_lt.mpr (hfront _ hmem))
        · refine (mem_cons.mp hmem).resolve_left fun heq => ?_
          -- the group that is left over is not one of eight bytes
          rw [← heq] at hg
          exact hg.ne_eight x mem_cons_self halign
      obtain ⟨b₁, b₂, rfl⟩ := append_of_mem hmem'
      rw [shorts_append] at hbudget
      obtain ⟨d₃, he₃, -⟩ := @blocks_placed _ _ _ b₁ (fun b hb => hback' b (mem_append_left _ hb)) he₂ (by omega)
      have hlarge := (eight_placed halign he₃).2.2 rfl
      have hmono := padding_le_foldl (b₂.flatMap FieldGroup.fields) (place _ x) |>.trans' hlarge
      rw [flatMap_append, flatMap_cons, foldl_append, foldl_append] at hle
      exact absurd (hmono.trans hle) (by decide)
    · intro hnot
      have hpairs : ∀ b ∈ back, Pair b.fields := by
        intro b hb
        refine (hback' b hb).resolve_left ?_
        rintro ⟨x, hfields, halign⟩
        have hmem : b ∈ blocks options family fields := by
          rw [← hperm.mem_iff, hsorted]
          exact mem_append_right _ (mem_cons_of_mem _ hb)
        rcases mem_append.mp hmem with hmem | hmem
        · obtain ⟨y, hy, rfl, hyfamily, hyalign⟩ := alignedTo_spec hmem
          have hlocation : (fields.length : ℚ) + 1 < y.number := hback _ hb
          exact hnot ⟨hodd, y, hy, hyfamily, hyalign, by exact_mod_cast hlocation⟩
        · have hx : x ∈ (groupsOfFour options family fields).flatMap FieldGroup.fields := by
            rw [← flatMap_pairs, mem_flatMap]
            exact ⟨b, hmem, by rw [hfields]; exact mem_cons_self⟩
          obtain ⟨group, hgroup, hx⟩ := mem_flatMap.mp hx
          exact ((groupsOfFour_spec options family fields).1 group hgroup).ne_eight x hx halign
      obtain ⟨d₃, ⟨-, hd₃⟩, htight₃, -⟩ := blocks_placed hback' he₂ hbudget
      have hpadding := htight₃ (fun _ => hpairs) htight
      rcases hpadding with hpadding | hpadding <;> omega

/-- **The group that is left over** is the last block, unless a block has a location beyond its own. -/
theorem incomplete_last_iff (options : Options) (fields : List Field) (hfamily : family ≠ .other) :
    (∀ g, incomplete options family fields = some g →
        (stableSort (blocks options family fields)).getLast? = some g) ↔
      (fourByteGroups options family fields % 2 = 1 →
        ∀ b ∈ blocks options family fields, b.preferredLocation ≤ fields.length + 1) := by
  have hperm := perm_stableSort (blocks options family fields)
  obtain ⟨-, ⟨heven, -⟩ | ⟨hodd, front, g, back, hsorted, -, hincomplete, hlocation, -, hfront, hback⟩⟩ :=
    sorted_blocks options fields hfamily
  · refine iff_of_true (fun g hg => ?_) fun hodd => absurd (heven.symm.trans hodd) (by decide)
    rw [incomplete, if_neg (by omega)] at hg
    exact absurd hg.symm (Option.some_ne_none g)
  · have hmem : ∀ b, b ∈ blocks options family fields ↔ b ∈ front ++ g :: back := by
      intro b
      rw [← hsorted, hperm.mem_iff]
    rw [hincomplete, hsorted]
    rcases eq_nil_or_concat back with rfl | ⟨init, z, rfl⟩
    · rw [List.getLast?_concat]
      refine iff_of_true (fun _ hg => hg) fun _ b hb => ?_
      rcases mem_append.mp ((hmem b).mp hb) with hb | hb
      · exact hfront b hb
      · rw [mem_singleton.mp hb, hlocation]
    · have hz := hback z (by simp)
      refine iff_of_false (fun hlast => ?_) fun hall => ?_
      · have hg := hlast g rfl
        rw [concat_eq_append, ← cons_append, ← append_assoc, List.getLast?_concat] at hg
        rw [Option.some_inj.mp hg, hlocation] at hz
        exact lt_irrefl _ hz
      · exact not_lt.mpr (hall hodd z ((hmem z).mpr (by simp))) hz

theorem filter_optimizeLayout (options : Options) (fields : List Field) (family : Family) :
    (optimizeLayout options fields).filter (fun field => familyOf options field = family) =
      familyLayout options family fields := by
  have hfamily : ∀ f, ∀ x ∈ familyLayout options f fields, familyOf options x = f := fun f x hx =>
    of_decide_eq_true (mem_filter.mp ((perm_familyLayout options f fields).mem_iff.mp hx)).2
  have hfilter : ∀ f, (familyLayout options f fields).filter (fun field => familyOf options field = family) =
      if f = family then familyLayout options family fields else [] := by
    intro f
    split
    · next heq =>
      subst heq
      exact filter_eq_self.mpr fun x hx => decide_eq_true (hfamily f x hx)
    · next hne =>
      exact filter_eq_nil_iff.mpr fun x hx h => hne ((hfamily f x hx).symm.trans (of_decide_eq_true h))
  rw [optimizeLayout, filter_flatMap]
  simp only [hfilter]
  cases family <;> simp [families]

/-- **The layout that is optimized** has all the fields, and the families in their order.  Of each family but the
last, the padding is at most three bytes unless a field of eight bytes has a number beyond the number of all
fields, and the group of four bytes that is left over is the last block unless one has such a location. -/
theorem optimizeLayout_padding (options : Options) (fields : List Field) :
    (optimizeLayout options fields).Perm fields ∧
      ((optimizeLayout options fields).Pairwise fun x y =>
        families.idxOf (familyOf options x) ≤ families.idxOf (familyOf options y)) ∧
      ∀ family, family ≠ .other →
        (paddingOf ((optimizeLayout options fields).filter fun field => familyOf options field = family) ≤ 3 ↔
          ¬ Displaced options family fields) ∧
        ((∀ g, incomplete options family fields = some g →
            (stableSort (blocks options family fields)).getLast? = some g) ↔
          (fourByteGroups options family fields % 2 = 1 →
            ∀ b ∈ blocks options family fields, b.preferredLocation ≤ fields.length + 1)) := by
  have hfamily : ∀ f, ∀ x ∈ familyLayout options f fields, familyOf options x = f := fun f x hx =>
    of_decide_eq_true (mem_filter.mp ((perm_familyLayout options f fields).mem_iff.mp hx)).2
  refine ⟨?_, ?_, fun family hne => ⟨?_, incomplete_last_iff options fields hne⟩⟩
  · have hall := @perm_flatMap_filter _ _ (familyOf options) families (by decide) fields
      fun field _ => by cases familyOf options field <;> decide
    exact (List.Perm.flatMap_left _ fun family _ => perm_familyLayout options family fields).trans hall
  · refine pairwise_flatMap.mpr ⟨fun f _ => ?_, ?_⟩
    · refine pairwise_of_forall_mem_list fun x hx y hy => ?_
      rw [hfamily f x hx, hfamily f y hy]
    · have horder : families.Pairwise fun f f' => families.idxOf f ≤ families.idxOf f' := by decide
      refine horder.imp fun hle x hx y hy => ?_
      rwa [hfamily _ x hx, hfamily _ y hy]
  · rw [filter_optimizeLayout]
    exact paddingOf_le_iff options fields hne

/-- An `int32` field with that number. -/
def int32Field (number : ℤ) : Field := ⟨number, false, false, .int32, false, false, false, true, 0⟩

/-- An `int64` field with that number. -/
def int64Field (number : ℤ) : Field := ⟨number, false, false, .int64, false, false, false, true, 1⟩

/-- The numbers 1 and 2. -/
theorem optimizeLayout_padding_smallNumbers :
    paddingOf ((optimizeLayout ⟨true⟩ [int32Field 1, int64Field 2]).filter fun field =>
      familyOf ⟨true⟩ field = .zeroInitializable) ≤ 3 := by
  refine ((optimizeLayout_padding ⟨true⟩ [int32Field 1, int64Field 2]).2.2 .zeroInitializable (by decide)).1.mpr ?_
  rintro ⟨-, x, hx, -, halign, hnumber⟩
  rcases mem_cons.mp hx with rfl | hx
  · exact absurd halign (by decide)
  · rw [mem_singleton.mp hx] at hnumber
    exact absurd hnumber (by decide)

/-- The field of four bytes with the number 1 comes before the one of eight bytes with the number 100, and four
bytes are lost. -/
theorem optimizeLayout_padding_largeNumber :
    ¬ paddingOf ((optimizeLayout ⟨true⟩ [int32Field 1, int64Field 100]).filter fun field =>
      familyOf ⟨true⟩ field = .zeroInitializable) ≤ 3 := by
  rw [filter_optimizeLayout, paddingOf_le_iff _ _ (by decide), not_not]
  exact ⟨by decide, int64Field 100, by decide, by decide, by decide, by decide⟩

end Protoc.Compiler.Padding
