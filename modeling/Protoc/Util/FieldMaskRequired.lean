import Protoc.Lib.Recursion
import Protoc.Util.FieldMaskPath

/-!
# Required fields added to a field mask

With `keep_required_fields`, `TrimMessage` first adds the required fields of every message
in the tree.  `AddRequiredFieldPath` goes down into the message fields that have a node with
children, and into every required message field that it adds.  The first are bounded by the
tree.  The second follow the descriptors alone: a required message field whose type
requires, through any number of message types, that type again is followed without end.
-/

namespace Protoc.Util

open Protoc.Lib PathTree Relation List

variable {D : Type}

/-! ## The recursion -/

/-- The body of the loop over the fields; `recurse` is `AddRequiredFieldPath`. -/
def addRequiredField (recurse : D → Node → Option Node) (node : Node) (field : FieldDescriptor D) :
    Option Node :=
  if field.isRequired then
    match find field.name node with
    | none =>
      -- the required field path is added to the tree, and what its message requires
      match field.messageType with
      | none => some (set field.name .empty node)
      | some d => (recurse d .empty).map fun result => set field.name result node
    | some result =>
      if result = .empty then some node
      else
        match field.messageType with
        | none => some node
        | some d => (recurse d result).map fun result => set field.name result node
  else
    match field.messageType, find field.name node with
    | some d, some result =>
      if result = .empty then some node
      else (recurse d result).map fun result => set field.name result node
    | _, _ => some node

/-- `AddRequiredFieldPath` from a node on, `none` where the calls are nested deeper than the
bound. -/
def addRequiredFieldPath (types : Descriptors D) : ℕ → D → Node → Option Node
  | 0, _, _ => none
  | fuel + 1, descriptor, node =>
    (types.fields descriptor).foldlM (addRequiredField (addRequiredFieldPath types fuel)) node

/-- `AddRequiredFieldPath` on a tree. -/
def addRequiredFieldPaths (types : Descriptors D) (fuel : ℕ) (descriptor : D) (root : Node) : Option Node :=
  if root = .empty then some root else addRequiredFieldPath types fuel descriptor root

/-- The recursion on the tree makes finitely many calls. -/
def Terminates (types : Descriptors D) (descriptor : D) (root : Node) : Prop :=
  ∃ fuel, (addRequiredFieldPaths types fuel descriptor root).isSome = true

/-! ## The calls -/

/-- The call that the loop makes for a field. -/
def callFor (node : Node) (field : FieldDescriptor D) : Option (D × Node) :=
  match field.messageType, find field.name node with
  | none, _ => none
  | some d, none => if field.isRequired then some (d, .empty) else none
  | some d, some result => if result = .empty then none else some (d, result)

def callsOf (types : Descriptors D) (call : D × Node) : List (D × Node) :=
  (types.fields call.1).filterMap (callFor call.2)

theorem addRequiredField_spec (recurse : D → Node → Option Node) (node : Node) (field : FieldDescriptor D) :
    ((addRequiredField recurse node field).isSome = true ↔
        ∀ call, callFor node field = some call → (recurse call.1 call.2).isSome = true) ∧
      ∀ out, addRequiredField recurse node field = some out →
        ∀ name, name ≠ field.name → find name out = find name node := by
  unfold addRequiredField callFor
  cases field.messageType with
  | none =>
    cases find field.name node with
    | none => cases field.isRequired <;> simp +contextual [find_set_of_ne]
    | some result => cases field.isRequired <;> by_cases h : result = .empty <;> simp [h]
  | some d =>
    cases find field.name node with
    | none => cases field.isRequired <;> simp +contextual [find_set_of_ne]
    | some result =>
      cases field.isRequired <;> by_cases h : result = .empty <;>
        simp +contextual [h, find_set_of_ne]

theorem callFor_congr {node node' : Node} {field : FieldDescriptor D}
    (h : find field.name node' = find field.name node) : callFor node' field = callFor node field := by
  unfold callFor
  rw [h]

theorem isSome_foldlM (recurse : D → Node → Option Node) (fields : List (FieldDescriptor D))
    (hnames : (fields.map (·.name)).Nodup) {first node : Node}
    (hsame : ∀ field ∈ fields, find field.name node = find field.name first) :
    (fields.foldlM (addRequiredField recurse) node).isSome = true ↔ ∀ field ∈ fields,
      ∀ call, callFor first field = some call → (recurse call.1 call.2).isSome = true := by
  induction fields generalizing node with
  | nil => simp
  | cons field fields ih =>
    rw [map_cons, nodup_cons] at hnames
    obtain ⟨hisSome, hothers⟩ := addRequiredField_spec recurse node field
    rw [callFor_congr (hsame field mem_cons_self)] at hisSome
    rw [forall_mem_cons, ← hisSome, foldlM_cons]
    cases hout : addRequiredField recurse node field with
    | none => simp
    | some out =>
      have hsame' : ∀ f ∈ fields, find f.name out = find f.name first := by
        intro f hmem
        have hne : f.name ≠ field.name := by
          intro heq
          exact hnames.1 (heq ▸ mem_map_of_mem hmem)
        rw [hothers out hout f.name hne, hsame f (mem_cons_of_mem _ hmem)]
      simpa using ih hnames.2 hsame'

theorem isSome_addRequiredFieldPath (types : Descriptors D) (fuel : ℕ) (call : D × Node) :
    (addRequiredFieldPath types (fuel + 1) call.1 call.2).isSome = true ↔ ∀ next ∈ callsOf types call,
        (addRequiredFieldPath types fuel next.1 next.2).isSome = true := by
  rw [addRequiredFieldPath, isSome_foldlM _ _ (types.nodup_names call.1) fun _ _ => rfl]
  constructor
  · intro h next hmem
    obtain ⟨field, hfield, hcall⟩ := mem_filterMap.mp hmem
    exact h field hfield next hcall
  · intro h field hfield next hcall
    exact h next (mem_filterMap.mpr ⟨field, hfield, hcall⟩)

theorem terminates_iff_acc (types : Descriptors D) (descriptor : D) (root : Node) :
    Terminates types descriptor root ↔ root ≠ .empty → Acc (Calls (callsOf types)) (descriptor, root) := by
  have hacc := exists_isSome_iff_acc (callsOf types)
    (fun fuel call => addRequiredFieldPath types fuel call.1 call.2) (fun _ => rfl)
    (isSome_addRequiredFieldPath types) (descriptor, root)
  unfold Terminates addRequiredFieldPaths
  by_cases hempty : root = .empty
  · simp [hempty]
  · simpa [hempty] using hacc

/-! ## Infinite chains of calls -/

variable (types : Descriptors D)

def Requires (d' d : D) : Prop :=
  ∃ field ∈ types.fields d, field.isRequired = true ∧ field.messageType = some d'

/-- An infinite chain of required message fields starts at the type. -/
def RequiredChain (d : D) : Prop :=
  ∃ chain : ℕ → D, chain 0 = d ∧ ∀ n, Requires types (chain (n + 1)) (chain n)

/-- A message field with a node that has children: the recursion goes down to it. -/
def Descends (p q : D × Node) : Prop :=
  ∃ field ∈ types.fields p.1, field.messageType = some q.1 ∧ find field.name p.2 = some q.2 ∧
    q.2 ≠ .empty

/-- At some node that the recursion goes down to, a required message field is missing whose
type starts an infinite chain. -/
def Overruns (descriptor : D) (root : Node) : Prop :=
  ∃ d node field d', ReflTransGen (Descends types) (descriptor, root) (d, node) ∧
    field ∈ types.fields d ∧ field.isRequired = true ∧ find field.name node = none ∧
    field.messageType = some d' ∧ RequiredChain types d'

variable {types}

/-- The two kinds of calls: down the tree, and along the descriptors. -/
theorem calls_iff (p q : D × Node) : Calls (callsOf types) q p ↔ Descends types p q ∨
      ∃ field ∈ types.fields p.1, field.isRequired = true ∧ find field.name p.2 = none ∧
        field.messageType = some q.1 ∧ q.2 = .empty := by
  have hfield : ∀ field : FieldDescriptor D, callFor p.2 field = some q ↔
      (field.messageType = some q.1 ∧ find field.name p.2 = some q.2 ∧ q.2 ≠ .empty) ∨
      (field.isRequired = true ∧ find field.name p.2 = none ∧ field.messageType = some q.1 ∧
        q.2 = .empty) := by
    intro field
    obtain ⟨d, node⟩ := q
    unfold callFor
    cases field.messageType with
    | none => simp
    | some d' =>
      cases find field.name p.2 with
      | none =>
        by_cases h : field.isRequired = true
        · simp [h, eq_comm]
        · simp [h]
      | some result =>
        by_cases h : result = .empty
        · subst h
          simp only [if_true, reduceCtorEq, false_iff, Option.some.injEq, false_and, and_false,
            or_false, not_and, not_not]
          rintro - rfl
          rfl
        · simp only [h, if_false, Option.some.injEq, Prod.mk.injEq, reduceCtorEq, false_and,
            and_false, or_false]
          constructor
          · rintro ⟨rfl, rfl⟩
            exact ⟨rfl, rfl, h⟩
          · rintro ⟨rfl, rfl, -⟩
            exact ⟨rfl, rfl⟩
  simp only [Calls, callsOf, mem_filterMap, hfield, and_or_left, exists_or, Descends]

theorem calls_empty_iff (d : D) (q : D × Node) :
    Calls (callsOf types) q (d, .empty) ↔ q.2 = .empty ∧ Requires types q.1 d := by
  rw [calls_iff]
  constructor
  · rintro (⟨field, -, -, hfind, -⟩ | ⟨field, hmem, hrequired, -, htype, hempty⟩)
    · cases hfind
    · exact ⟨hempty, field, hmem, hrequired, htype⟩
  · rintro ⟨hempty, field, hmem, hrequired, htype⟩
    exact .inr ⟨field, hmem, hrequired, rfl, htype, hempty⟩

theorem acc_empty_iff (d : D) : Acc (Calls (callsOf types)) (d, .empty) ↔ Acc (Requires types) d := by
  constructor
  · intro h
    generalize hp : (d, (.empty : Node)) = p at h
    induction h generalizing d with
    | intro p _ ih =>
      subst hp
      exact ⟨d, fun d' hd' => ih (d', .empty) ((calls_empty_iff d _).mpr ⟨rfl, hd'⟩) d' rfl⟩
  · intro h
    induction h with
    | intro d _ ih =>
      refine ⟨_, fun q hq => ?_⟩
      obtain ⟨hempty, hrequires⟩ := (calls_empty_iff d q).mp hq
      obtain ⟨d', node⟩ := q
      subst hempty
      exact ih d' hrequires

/-- **A new node** is left by finitely many calls if and only if no infinite chain of
required message fields starts at its type. -/
theorem acc_empty_iff_not_chain (d : D) :
    Acc (Calls (callsOf types)) (d, .empty) ↔ ¬ RequiredChain types d := by
  rw [acc_empty_iff, RequiredChain, ← not_acc_iff_exists_descending_chain, not_not]

theorem sizeOf_lt_of_find {name : Str} {t node : Node} (h : find name t = some node) :
    sizeOf node < sizeOf t := by
  induction t with
  | empty => cases h
  | child n node' next ihNode ihNext =>
    by_cases heq : name = n
    · subst heq
      rw [find_child_self] at h
      cases h
      simp only [child.sizeOf_spec]
      omega
    · rw [find_child_of_ne heq] at h
      have := ihNext h
      simp only [child.sizeOf_spec]
      omega

theorem acc_of_descends {p q : D × Node} (h : Acc (Calls (callsOf types)) p)
    (hdescends : ReflTransGen (Descends types) p q) : Acc (Calls (callsOf types)) q := by
  induction hdescends with
  | refl => exact h
  | tail _ hstep ih => exact ih.inv ((calls_iff _ _).mpr (.inl hstep))

/-- **The calls from a node** are finitely many if and only if it does not overrun. -/
theorem acc_iff_not_overruns (descriptor : D) (root : Node) :
    Acc (Calls (callsOf types)) (descriptor, root) ↔ ¬ Overruns types descriptor root := by
  constructor
  · rintro h ⟨d, node, field, d', hreach, hmem, hrequired, hfind, htype, hchain⟩
    have hacc := acc_of_descends h hreach
    have hcall : Calls (callsOf types) (d', .empty) (d, node) :=
      (calls_iff _ _).mpr (.inr ⟨field, hmem, hrequired, hfind, htype, rfl⟩)
    exact (acc_empty_iff_not_chain d').mp (hacc.inv hcall) hchain
  · intro h
    -- by induction on the tree: a call goes down in it, or to a new node
    induction hsize : sizeOf root using Nat.strong_induction_on generalizing descriptor root with
    | _ n ih =>
      refine ⟨_, fun q hq => ?_⟩
      obtain ⟨d', node⟩ := q
      rcases (calls_iff _ _).mp hq with hdescends | ⟨field, hmem, hrequired, hfind, htype, hempty⟩
      · obtain ⟨field, -, -, hfind, -⟩ := id hdescends
        refine ih (sizeOf node) ?_ d' node ?_ rfl
        · rw [← hsize]
          exact sizeOf_lt_of_find hfind
        · rintro ⟨d, below, field, d'', hreach, hrest⟩
          exact h ⟨d, below, field, d'', hreach.head hdescends, hrest⟩
      · simp only at hempty
        subst hempty
        rw [acc_empty_iff_not_chain]
        intro hchain
        exact h ⟨descriptor, root, field, d', .refl, hmem, hrequired, hfind, htype, hchain⟩

/-! ## When the recursion comes to an end -/

/-- **`AddRequiredFieldPath` terminates** if and only if the tree is empty, or no required
message field that it lacks at a node it goes down to starts an infinite chain of required
message fields. -/
theorem terminates_iff (types : Descriptors D) (descriptor : D) (root : Node) :
    Terminates types descriptor root ↔ root = .empty ∨ ¬ Overruns types descriptor root := by
  rw [terminates_iff_acc, acc_iff_not_overruns]
  tauto

/-- `message Link { required Link next = 1; optional int32 x = 2; }`. -/
def requiredLink : Descriptors Unit where
  fields _ := [⟨[110], .required, some ()⟩, ⟨[120], .optional, none⟩]
  isPart_name _ := by unfold IsPart; decide
  nodup_names _ := by decide

/-- With the mask `x` the field `next` is added, and below it without end. -/
theorem not_terminates : ¬ Terminates requiredLink () (mergeFromFieldMask [[120]] .empty) := by
  have hx : split dot [120] = [[120]] := split_part ⟨by decide, by decide⟩
  have htree : mergeFromFieldMask [[120]] .empty = .child [120] .empty .empty := by
    simp only [mergeFromFieldMask, foldl_cons, foldl_nil, addPath, hx]
    rfl
  rw [terminates_iff_acc, htree]
  intro h
  have hcall : Calls (callsOf requiredLink) ((), .empty) ((), .child [120] .empty .empty) :=
    (calls_iff _ _).mpr (.inr ⟨_, mem_cons_self, rfl, rfl, rfl, rfl⟩)
  have hacc := (h (by simp)).inv hcall
  exact (acc_empty_iff_not_chain ()).mp hacc
    ⟨fun _ => (), rfl, fun _ => ⟨_, mem_cons_self, rfl, rfl⟩⟩

end Protoc.Util
