import Protoc.Util.FieldMaskRequired

/-!
# Trimming a message by a field mask

`TrimMessage` walks through the tree of the mask and the message at once.  It clears a field
that the tree has no node for, leaves a field with a leaf as it is, and goes down into a
message that is set where the node has children.

A message is the list of its fields' values, in the order of the descriptor.  Only the fields
of the descriptor are looked at: extensions and unknown fields stay and are left out.
-/

namespace Protoc.Util

open Protoc.Lib PathTree
open List Option

variable {D V : Type}

/-! ## Messages -/

/-- The values of these fields, one after the other.  The elements of a repeated field are
not looked into. -/
inductive Fields (types : Descriptors D) (V : Type) : List (FieldDescriptor D) → Type
  | nil : Fields types V []
  /-- A singular field that is not set. -/
  | unset {field : FieldDescriptor D} {fields : List (FieldDescriptor D)}
      (singular : field.isRepeated = false) (next : Fields types V fields) :
      Fields types V (field :: fields)
  /-- A singular field with a value that is no message. -/
  | value {field : FieldDescriptor D} {fields : List (FieldDescriptor D)}
      (singular : field.isRepeated = false) (scalar : field.messageType = none) (v : V)
      (next : Fields types V fields) : Fields types V (field :: fields)
  | repeated {field : FieldDescriptor D} {fields : List (FieldDescriptor D)}
      (isRepeated : field.isRepeated = true) (values : List V) (next : Fields types V fields) :
      Fields types V (field :: fields)
  /-- A singular message field that is set. -/
  | message {field : FieldDescriptor D} {fields : List (FieldDescriptor D)} {d : D}
      (type : field.singularMessageType = some d) (message : Fields types V (types.fields d))
      (next : Fields types V fields) : Fields types V (field :: fields)

abbrev Message (types : Descriptors D) (V : Type) (d : D) := Fields types V (types.fields d)

variable {types : Descriptors D}

variable {d : D}

theorem singular_of_type {field : FieldDescriptor D}
    (h : field.singularMessageType = some d) : field.isRepeated = false := by
  unfold FieldDescriptor.singularMessageType at h
  split at h
  · cases h
  · next hnot => exact eq_false_of_ne_true hnot

/-! ## The walk -/

/-- `TrimMessage` on a node with children and a message: whether it was modified, and the
message.  `none` stands for the failed check in `HasField`, which is for singular fields. -/
def trimFields : {fields : List (FieldDescriptor D)} → Fields types V fields → Node →
    Option (Bool × Fields types V fields)
  | _, .nil, _ => some (false, .nil)
  | _, .unset singular next, node =>
    -- whether the field is in the tree or not, there is nothing to clear and nothing to trim
    (trimFields next node).map fun (modified, next) => (modified, .unset singular next)
  | field :: _, .value singular scalar v next, node =>
    (trimFields next node).map fun (modified, next) =>
      match find field.name node with
      | none => (true, .unset singular next)
      | some _ => (modified, .value singular scalar v next)
  | field :: _, .repeated isRepeated values next, node =>
    (trimFields next node).bind fun (modified, next) =>
      match find field.name node with
      | none => some (!values.isEmpty || modified, .repeated isRepeated [] next)
      | some result =>
        if field.messageType.isSome ∧ result ≠ .empty then none
        else some (modified, .repeated isRepeated values next)
  | field :: _, .message type message next, node =>
    (trimFields next node).bind fun (modified, next) =>
      match find field.name node with
      | none => some (true, .unset (singular_of_type type) next)
      | some result =>
        if result = .empty then some (modified, .message type message next)
        else
          (trimFields message result).map fun (nestedMessageChanged, message) =>
            (nestedMessageChanged || modified, .message type message next)

/-- `TrimMessage` on a tree. -/
def trimTree {d : D} (root : Node) (message : Message types V d) : Option (Bool × Message types V d) :=
  if root = .empty then some (false, message) else trimFields message root

/-- `TrimMessage`. -/
def trimMessage {d : D} (mask : FieldMask) (message : Message types V d) : Option (Bool × Message types V d) :=
  trimTree (mergeFromFieldMask mask .empty) message

/-- `TrimMessage` with `TrimOptions`.  The bound is on the calls of `AddRequiredFieldPath`. -/
def trimMessageWithOptions (fuel : ℕ) {d : D} (mask : FieldMask) (keepRequiredFields : Bool)
    (message : Message types V d) : Option (Bool × Message types V d) :=
  let tree := mergeFromFieldMask mask .empty
  if keepRequiredFields then
    (addRequiredFieldPaths types fuel d tree).bind fun tree => trimTree tree message
  else trimTree tree message

/-! ## What a path leads to -/

/-- What a path of field names leads to. -/
inductive Slot (types : Descriptors D) (V : Type) where
  /-- No field, or a field of a message that is not set. -/
  | absent
  | unset
  | value (v : V)
  | repeated (values : List V)
  | message (d : D) (message : Message types V d)

/-- The field is not set, or has no elements. -/
def Slot.IsCleared : Slot types V → Prop
  | .absent => True
  | .unset => True
  | .value _ => False
  | .repeated values => values = []
  | .message _ _ => False

def Slot.IsMessage : Slot types V → Prop
  | .message _ _ => True
  | _ => False

/-- What the path leads to from a message. -/
def Fields.slot : {fields : List (FieldDescriptor D)} → Fields types V fields → List Str →
    Slot types V
  | _, _, [] => .absent
  | _, .nil, _ :: _ => .absent
  | field :: _, .unset _ next, name :: rest =>
    if name = field.name then (if rest = [] then .unset else .absent)
    else next.slot (name :: rest)
  | field :: _, .value _ _ v next, name :: rest =>
    if name = field.name then (if rest = [] then .value v else .absent)
    else next.slot (name :: rest)
  | field :: _, .repeated _ values next, name :: rest =>
    if name = field.name then (if rest = [] then .repeated values else .absent)
    else next.slot (name :: rest)
  | field :: _, .message _ sub next, name :: rest =>
    if name = field.name then (if rest = [] then .message _ sub else sub.slot rest)
    else next.slot (name :: rest)

/-! ## Every path after the walk -/

/-- What becomes of a field, from the node that its path leads to in the tree: without a node
it is cleared, at a leaf it is kept, and above leaves a message stays a message. -/
def TrimsSlot (node : Option Node) (before after : Slot types V) : Prop :=
  match node with
  | none => after.IsCleared
  | some node =>
    if node = .empty then after = before
    else (after.IsMessage ↔ before.IsMessage) ∧ (¬ before.IsMessage → after = before)

theorem TrimsSlot.of_eq {node : Option Node} {before after : Slot types V} (h : after = before)
    (hcleared : node = none → before.IsCleared) : TrimsSlot node before after := by
  subst h
  cases node with
  | none => exact hcleared rfl
  | some node =>
    by_cases hempty : node = .empty
    · simp [TrimsSlot, hempty]
    · simp [TrimsSlot, hempty]

variable {rest : List Str}

theorem isCleared_of_rest {slot : Slot types V} (h : rest ≠ [] ∨ slot.IsCleared) :
    (if rest = [] then slot else .absent).IsCleared := by
  by_cases hnil : rest = []
  · rw [if_pos hnil]
    exact h.resolve_left fun hne => hne hnil
  · rw [if_neg hnil]
    trivial

variable {name : Str} {node result : Node}

theorem rest_ne_nil_of_reach
    (hfind : find name node = some result) (h : reach (name :: rest) node = none) : rest ≠ [] := by
  rintro rfl
  rw [reach, hfind, bind_some] at h
  cases h

theorem TrimsSlot.ite {p : Prop} [Decidable p] {node : Option Node}
    {before after before' after' : Slot types V} (h : p → TrimsSlot node before after)
    (h' : TrimsSlot node before' after') :
    TrimsSlot node (if p then before else before') (if p then after else after') := by
  by_cases hp : p
  · rw [if_pos hp, if_pos hp]
    exact h hp
  · rw [if_neg hp, if_neg hp]
    exact h'

theorem trimsSlot_of_find_eq_none {node : Node}
    (hfind : find name node = none) {before slot : Slot types V} (h : slot.IsCleared) :
    TrimsSlot (reach (name :: rest) node) before (if rest = [] then slot else .absent) := by
  rw [reach, hfind, bind_none]
  exact isCleared_of_rest (.inr h)

theorem trimsSlot_of_find_eq_some (hfind : find name node = some result) (slot : Slot types V) :
    TrimsSlot (reach (name :: rest) node) (if rest = [] then slot else .absent)
      (if rest = [] then slot else .absent) :=
  .of_eq rfl fun hreach => isCleared_of_rest (.inl (rest_ne_nil_of_reach hfind hreach))

variable {fields : List (FieldDescriptor D)} {modified : Bool}

/-- **Every path after the walk**: what it leads to is decided by the node that it leads to
in the tree. -/
theorem trimFields_slot (before : Fields types V fields) {node : Node} {after : Fields types V fields}
    (h : trimFields before node = some (modified, after)) (name : Str) (rest : List Str) :
    TrimsSlot (reach (name :: rest) node) (before.slot (name :: rest)) (after.slot (name :: rest)) := by
  induction before generalizing node modified name rest with
  | nil =>
    cases h
    exact .of_eq rfl fun _ => trivial
  | unset singular next ih =>
    obtain ⟨⟨modified', next'⟩, hnext, heq⟩ := map_eq_some_iff.mp h
    cases heq
    rw [Fields.slot, Fields.slot]
    refine .ite (fun hname => ?_) (ih hnext name rest)
    exact .of_eq rfl fun _ => isCleared_of_rest (.inr trivial)
  | @value field fields singular scalar v next ih =>
    obtain ⟨⟨modified', next'⟩, hnext, heq⟩ := map_eq_some_iff.mp h
    cases hfind : find field.name node with
    | none =>
      rw [hfind] at heq
      cases heq
      rw [Fields.slot, Fields.slot]
      refine .ite (fun hname => ?_) (ih hnext name rest)
      exact trimsSlot_of_find_eq_none (hname ▸ hfind) trivial
    | some result =>
      rw [hfind] at heq
      cases heq
      rw [Fields.slot, Fields.slot]
      refine .ite (fun hname => ?_) (ih hnext name rest)
      exact trimsSlot_of_find_eq_some (hname ▸ hfind) _
  | @repeated field fields isRepeated values next ih =>
    obtain ⟨⟨modified', next'⟩, hnext, heq⟩ := bind_eq_some_iff.mp h
    cases hfind : find field.name node with
    | none =>
      simp only [hfind] at heq
      cases heq
      rw [Fields.slot, Fields.slot]
      refine .ite (fun hname => ?_) (ih hnext name rest)
      exact trimsSlot_of_find_eq_none (hname ▸ hfind) rfl
    | some result =>
      simp only [hfind] at heq
      split at heq
      · cases heq
      · cases heq
        rw [Fields.slot, Fields.slot]
        refine .ite (fun hname => ?_) (ih hnext name rest)
        exact trimsSlot_of_find_eq_some (hname ▸ hfind) _
  | @message field fields d type sub next ihSub ihNext =>
    obtain ⟨⟨modified', next'⟩, hnext, heq⟩ := bind_eq_some_iff.mp h
    cases hfind : find field.name node with
    | none =>
      simp only [hfind] at heq
      cases heq
      rw [Fields.slot, Fields.slot]
      refine .ite (fun hname => ?_) (ihNext hnext name rest)
      exact trimsSlot_of_find_eq_none (hname ▸ hfind) trivial
    | some result =>
      simp only [hfind] at heq
      by_cases hempty : result = .empty
      · rw [if_pos hempty] at heq
        cases heq
        rw [Fields.slot, Fields.slot]
        refine .ite (fun hname => .of_eq rfl fun hreach => ?_) (ihNext hnext name rest)
        rw [reach, hname, hfind, bind_some, hempty, nodeAt_empty] at hreach
        cases hreach
      · rw [if_neg hempty] at heq
        obtain ⟨⟨nested, sub'⟩, hsub, heq⟩ := map_eq_some_iff.mp heq
        cases heq
        rw [Fields.slot, Fields.slot]
        refine .ite (fun hname => ?_) (ihNext hnext name rest)
        rw [reach, hname, hfind, bind_some]
        cases rest with
        | nil => simp [TrimsSlot, nodeAt, hempty, Slot.IsMessage]
        | cons first rest =>
          rw [if_neg (by simp), if_neg (by simp), nodeAt_eq_reach hempty (by simp)]
          exact ihSub hsub first rest

/-- **The result** says whether the message was modified. -/
theorem trimFields_modified (before : Fields types V fields) {node : Node} {after : Fields types V fields}
    (h : trimFields before node = some (modified, after)) : modified = true ↔ after ≠ before := by
  induction before generalizing node modified with
  | nil =>
    cases h
    simp
  | unset singular next ih =>
    obtain ⟨⟨modified', next'⟩, hnext, heq⟩ := map_eq_some_iff.mp h
    cases heq
    rw [ih hnext]
    simp
  | @value field fields singular scalar v next ih =>
    obtain ⟨⟨modified', next'⟩, hnext, heq⟩ := map_eq_some_iff.mp h
    cases hfind : find field.name node with
    | none =>
      rw [hfind] at heq
      cases heq
      simp
    | some result =>
      rw [hfind] at heq
      cases heq
      rw [ih hnext]
      simp
  | @repeated field fields isRepeated values next ih =>
    obtain ⟨⟨modified', next'⟩, hnext, heq⟩ := bind_eq_some_iff.mp h
    cases hfind : find field.name node with
    | none =>
      simp only [hfind] at heq
      cases heq
      have hnext := ih hnext
      cases values <;> simp [hnext]
    | some result =>
      simp only [hfind] at heq
      split at heq
      · cases heq
      · cases heq
        rw [ih hnext]
        simp
  | @message field fields d type sub next ihSub ihNext =>
    obtain ⟨⟨modified', next'⟩, hnext, heq⟩ := bind_eq_some_iff.mp h
    have hnext := ihNext hnext
    cases hfind : find field.name node with
    | none =>
      simp only [hfind] at heq
      cases heq
      simp
    | some result =>
      simp only [hfind] at heq
      by_cases hempty : result = .empty
      · rw [if_pos hempty] at heq
        cases heq
        rw [hnext]
        simp
      · rw [if_neg hempty] at heq
        obtain ⟨⟨nested, sub'⟩, hsub, heq⟩ := map_eq_some_iff.mp heq
        cases heq
        have hsub := ihSub hsub
        rw [Bool.or_eq_true, hsub, hnext]
        simp only [ne_eq, Fields.message.injEq, heq_eq_eq, true_and]
        tauto

/-! ## Masks that go through singular messages -/

/-- The names are singular message fields, each of the one before it. -/
def throughMessages (types : Descriptors D) : D → List Str → Bool
  | _, [] => true
  | d, name :: parts =>
    match (findFieldByName types d name).bind (·.singularMessageType) with
    | none => false
    | some d => throughMessages types d parts

/-- Every node of the tree with children is a singular message. -/
def ThroughMessages (types : Descriptors D) (d : D) (node : Node) : Prop :=
  ∀ path result, reach path node = some result → result ≠ .empty →
    throughMessages types d path = true

theorem throughMessages_of_prefix {path longer : List Str}
    (h : throughMessages types d longer = true) (hpre : path <+: longer) :
    throughMessages types d path = true := by
  induction path generalizing d longer with
  | nil => rfl
  | cons name path ih =>
    obtain ⟨rest, rfl⟩ := hpre
    rw [cons_append, throughMessages] at h
    rw [throughMessages]
    cases hnext : (findFieldByName types d name).bind (·.singularMessageType) with
    | none => simp [hnext] at h
    | some d' =>
      rw [hnext] at h
      exact ih h (prefix_append path rest)

theorem ThroughMessages.child (h : ThroughMessages types d node)
    {field : FieldDescriptor D} (hmem : field ∈ types.fields d)
    (hfind : find field.name node = some result) (hne : result ≠ .empty) :
    ∃ d', field.singularMessageType = some d' ∧ ThroughMessages types d' result := by
  have hfield : (findFieldByName types d field.name).bind (·.singularMessageType) =
      field.singularMessageType := by rw [findFieldByName_of_mem types hmem, bind_some]
  have hself := h [field.name] result (by rw [reach, hfind, bind_some, nodeAt]) hne
  rw [throughMessages, hfield] at hself
  cases htype : field.singularMessageType with
  | none => simp [htype] at hself
  | some d' =>
    refine ⟨d', rfl, fun path below hreach hbelow => ?_⟩
    have hpath := h (field.name :: path) below (by
      rw [reach, hfind, bind_some, nodeAt_eq_reach hne]
      · exact hreach
      · rintro rfl
        cases hreach) hbelow
    rwa [throughMessages, hfield, htype] at hpath

/-- The walk does not fail on a tree that goes through singular messages. -/
theorem isSome_trimFields (before : Fields types V fields) (hmem : ∀ field ∈ fields, field ∈ types.fields d) {node : Node}
    (h : ThroughMessages types d node) : (trimFields before node).isSome = true := by
  induction before generalizing d node with
  | nil => rfl
  | unset singular next ih =>
    have hnext := ih (fun f hf => hmem f (mem_cons_of_mem _ hf)) h
    rw [trimFields, isSome_map]
    exact hnext
  | value singular scalar v next ih =>
    have hnext := ih (fun f hf => hmem f (mem_cons_of_mem _ hf)) h
    rw [trimFields, isSome_map]
    exact hnext
  | @repeated field fields isRepeated values next ih =>
    obtain ⟨out, hnext⟩ := isSome_iff_exists.mp (ih (fun f hf => hmem f (mem_cons_of_mem _ hf)) h)
    simp only [trimFields, hnext, bind_some]
    cases hfind : find field.name node with
    | none => rfl
    | some result =>
      have hempty : result = .empty := by
        by_contra hne
        obtain ⟨d', htype, -⟩ := h.child (hmem field mem_cons_self) hfind hne
        rw [singular_of_type htype] at isRepeated
        cases isRepeated
      simp [hempty]
  | @message field fields d' type sub next ihSub ihNext =>
    obtain ⟨out, hnext⟩ := isSome_iff_exists.mp
      (ihNext (fun f hf => hmem f (mem_cons_of_mem _ hf)) h)
    simp only [trimFields, hnext, bind_some]
    cases hfind : find field.name node with
    | none => rfl
    | some result =>
      by_cases hempty : result = .empty
      · simp [hempty]
      · obtain ⟨d'', htype, hbelow⟩ := h.child (hmem field mem_cons_self) hfind hempty
        obtain rfl := some.inj (type.symm.trans htype)
        simp only [hempty, if_false, isSome_map]
        exact ihSub (fun f hf => hf) hbelow

/-- These names are the beginning of a longer path of the mask. -/
def OnTheWay (mask : FieldMask) (parts : List Str) : Prop :=
  ∃ path ∈ mask, parts <+: split dot path ∧ parts ≠ split dot path

theorem reach_eq_node_iff (mask : FieldMask) {parts : List Str} (hne : parts ≠ []) :
    (∃ result, reach parts (mergeFromFieldMask mask .empty) = some result ∧ result ≠ .empty) ↔
      ¬ Covered mask parts ∧ OnTheWay mask parts := by
  have hsome : (∃ result, reach parts (mergeFromFieldMask mask .empty) = some result ∧
      result ≠ .empty) ↔ Meets mask parts ∧ ¬ Covered mask parts := by
    rw [← reach_ne_none_iff_meets mask hne, ← reach_eq_empty_iff_covered]
    cases reach parts (mergeFromFieldMask mask .empty) with
    | none => simp
    | some result => simp
  rw [hsome, and_comm]
  refine and_congr_right fun hcovered => ⟨?_, ?_⟩
  · rintro ⟨path, hmem, hpath, hprefix | hprefix⟩
    · exact absurd ⟨path, hmem, hpath, hprefix⟩ hcovered
    · refine ⟨path, hmem, hprefix, fun heq => hcovered ⟨path, hmem, hpath, ?_⟩⟩
      rw [heq]
  · rintro ⟨path, hmem, hprefix, -⟩
    refine ⟨path, hmem, fun hnil => hne ?_, .inr hprefix⟩
    rw [hnil] at hprefix
    exact prefix_nil.mp hprefix

theorem throughMessages_mask {mask : FieldMask}
    (h : ∀ path ∈ mask, throughMessages types d (split dot path).dropLast = true) :
    ThroughMessages types d (mergeFromFieldMask mask .empty) := by
  intro parts result hreach hresult
  have hne : parts ≠ [] := by
    rintro rfl
    cases hreach
  obtain ⟨-, path, hmem, ⟨rest, hrest⟩, hlonger⟩ :=
    (reach_eq_node_iff mask hne).mp ⟨result, hreach, hresult⟩
  have hne : rest ≠ [] := by
    rintro rfl
    rw [append_nil] at hrest
    exact hlonger hrest
  have hpath := h path hmem
  rw [← hrest, dropLast_append_of_ne_nil hne] at hpath
  exact throughMessages_of_prefix hpath (prefix_append parts _)

/-! ## `TrimMessage` keeps the masked fields -/

/-- The fields that the mask covers are as before, and all others are cleared but the
messages on the way of its paths, which are set if they were; the result says whether the
message was modified. -/
structure TrimsTo {d : D} (mask : FieldMask) (before : Message types V d) (modified : Bool)
    (after : Message types V d) : Prop where
  covered : ∀ path, Covered mask path → after.slot path = before.slot path
  cleared : ∀ path, ¬ Covered mask path → ¬ OnTheWay mask path → (after.slot path).IsCleared
  onTheWay : ∀ path, ¬ Covered mask path → OnTheWay mask path →
    throughMessages types d path = true ∧
      ((after.slot path).IsMessage ↔ (before.slot path).IsMessage)
  modified : modified = true ↔ after ≠ before

theorem slot_nil (message : Fields types V fields) : message.slot [] = .absent := by
  cases message <;> rfl

/-- The walk on the tree of a mask. -/
theorem trimFields_trimsTo {mask : FieldMask}
    (hmask : ∀ path ∈ mask, throughMessages types d (split dot path).dropLast = true)
    {before after : Message types V d}
    (h : trimFields before (mergeFromFieldMask mask .empty) = some (modified, after)) :
    TrimsTo mask before modified after := by
  have hslot : ∀ path, path ≠ [] → TrimsSlot (reach path (mergeFromFieldMask mask .empty))
      (before.slot path) (after.slot path) := by
    intro path hne
    obtain ⟨name, rest, rfl⟩ := exists_cons_of_ne_nil hne
    exact trimFields_slot before h name rest
  refine ⟨fun path hcovered => ?_, fun path hcovered hway => ?_, fun path hcovered hway => ?_,
    trimFields_modified before h⟩
  · by_cases hne : path = []
    · rw [hne, slot_nil, slot_nil]
    · have hpath := hslot path hne
      rw [(reach_eq_empty_iff_covered mask path).mpr hcovered] at hpath
      simpa [TrimsSlot] using hpath
  · by_cases hne : path = []
    · rw [hne, slot_nil]
      trivial
    · have hpath := hslot path hne
      cases hreach : reach path (mergeFromFieldMask mask .empty) with
      | none =>
        rw [hreach] at hpath
        exact hpath
      | some result =>
        exfalso
        by_cases hempty : result = .empty
        · rw [hempty] at hreach
          exact hcovered ((reach_eq_empty_iff_covered mask path).mp hreach)
        · exact hway ((reach_eq_node_iff mask hne).mp ⟨result, hreach, hempty⟩).2
  · by_cases hne : path = []
    · subst hne
      rw [slot_nil, slot_nil]
      exact ⟨rfl, .rfl⟩
    · have hpath := hslot path hne
      obtain ⟨result, hreach, hempty⟩ := (reach_eq_node_iff mask hne).mpr ⟨hcovered, hway⟩
      refine ⟨throughMessages_mask hmask path result hreach hempty, ?_⟩
      rw [hreach] at hpath
      simp only [TrimsSlot, hempty, if_false] at hpath
      exact hpath.1

/-- **`TrimMessage` keeps the masked fields.**  On a mask whose paths go through singular
message fields it has a result.  If the tree of the mask is empty the message stays as it
is; else the fields that the mask covers stay, and all others are cleared. -/
theorem trimMessage_trimsTo {d : D} {mask : FieldMask}
    (hmask : ∀ path ∈ mask, throughMessages types d (split dot path).dropLast = true)
    (before : Message types V d) :
    ∃ modified after, trimMessage mask before = some (modified, after) ∧
      (∀ fuel, trimMessageWithOptions fuel mask false before = some (modified, after)) ∧
      (mergeFromFieldMask mask .empty = .empty → modified = false ∧ after = before) ∧
      (mergeFromFieldMask mask .empty ≠ .empty → TrimsTo mask before modified after) := by
  unfold trimMessageWithOptions
  simp only [Bool.false_eq_true, if_false, trimMessage, trimTree]
  by_cases hempty : mergeFromFieldMask mask .empty = .empty
  · rw [if_pos hempty]
    exact ⟨false, before, rfl, fun _ => rfl, fun _ => ⟨rfl, rfl⟩, fun hne => absurd hempty hne⟩
  · obtain ⟨⟨modified, after⟩, hout⟩ := isSome_iff_exists.mp
      (isSome_trimFields before (fun _ hmem => hmem) (throughMessages_mask hmask))
    rw [if_neg hempty]
    exact ⟨modified, after, hout, fun _ => hout, fun h => absurd h hempty,
      fun _ => trimFields_trimsTo hmask hout⟩

/-- `message Outer { optional Inner m = 1; repeated int32 r = 2; }` and
`message Inner { optional int32 x = 1; optional int32 y = 2; }`, `true` for the first. -/
def optionalInner : Descriptors Bool where
  fields
    | true => [⟨[109], .optional, some false⟩, ⟨[114], .repeated, none⟩]
    | false => [⟨[120], .optional, none⟩, ⟨[121], .optional, none⟩]
  isPart_name
    | true => by unfold IsPart; decide
    | false => by unfold IsPart; decide
  nodup_names
    | true => by decide
    | false => by decide

/-- `m { x: first y: 2 }` with the elements `r`. -/
def outerMessage (y : Option ℕ) (r : List ℕ) : Message optionalInner ℕ true :=
  .message (d := false) rfl (.value rfl rfl 1 (y.elim (.unset rfl .nil) (.value rfl rfl · .nil)))
    (.repeated rfl r .nil)

/-- With the mask `m.x` the fields `m.y` and `r` are cleared. -/
theorem trimMessage_trimsTo_inner : trimMessage [[109, 46, 120]] (outerMessage (some 2) [5]) =
        some (true, outerMessage none []) ∧
      TrimsTo [[109, 46, 120]] (outerMessage (some 2) [5]) true (outerMessage none []) := by
  have hparts : ∀ part ∈ [[109], [120]], IsPart dot part := by
    intro part hmem
    rcases mem_cons.mp hmem with rfl | hmem
    · exact ⟨by decide, by decide⟩
    · rw [mem_singleton.mp hmem]
      exact ⟨by decide, by decide⟩
  have hsplit : split dot [109, 46, 120] = [[109], [120]] := split_join hparts
  have hmask : ∀ path ∈ [[109, 46, 120]],
      throughMessages optionalInner true (split dot path).dropLast = true := by
    intro path hmem
    rw [mem_singleton.mp hmem, hsplit]
    decide
  have htree : mergeFromFieldMask [[109, 46, 120]] .empty =
      .child [109] (.child [120] .empty .empty) .empty := by
    simp only [mergeFromFieldMask, foldl_cons, foldl_nil, addPath, hsplit]
    rfl
  have hout : trimMessage [[109, 46, 120]] (outerMessage (some 2) [5]) =
      some (true, outerMessage none []) := by
    rw [trimMessage, htree]
    rfl
  obtain ⟨modified, after, hresult, -, -, htrims⟩ :=
    trimMessage_trimsTo hmask (outerMessage (some 2) [5])
  obtain ⟨rfl, rfl⟩ := Prod.mk.inj (some.inj (hout.symm.trans hresult))
  exact ⟨hout, htrims (by rw [htree]; simp)⟩

end Protoc.Util
