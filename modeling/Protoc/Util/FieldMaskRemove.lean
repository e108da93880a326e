import Protoc.Util.FieldMaskPath

/-!
# The removal of a path from a field mask

`RemovePath` walks down a path of the tree, turns a leaf on its way into all fields of its
message, and erases the node at the end with the parents that become empty.  When a name
turns out not to be a field, the first node that was expanded is cleared again.

The walk goes through every message field, also a repeated one.
-/

namespace Protoc.Util

open Protoc.Lib PathTree
open List Option

variable {D : Type} (types : Descriptors D)

/-! ## The removal of a path -/

/-- How the walk of `RemovePath` goes on above a node. -/
inductive Removal where
  /-- The path is not valid. -/
  | invalid
  /-- The path does not exist in the tree. -/
  | notFound
  /-- The node is the end of the path or has become empty: its parent erases it. -/
  | erase
  /-- Nothing is left to erase. -/
  | done
  deriving DecidableEq

def expand (descriptor : D) (node : Node) : Node :=
  if node = .empty then
    (fieldNames types descriptor).foldl (fun node name => set name .empty node) node
  else node

/-- A node after the walk has come back from its child `name`.  `isNewBranchNode` says that
it is the one whose children are cleared. -/
def afterChild (isNewBranchNode : Bool) (name : Str) (expanded : Node) :
    Node × Removal → Node × Removal
  | (result, .invalid) => (if isNewBranchNode then .empty else set name result expanded, .invalid)
  | (result, .notFound) => (set name result expanded, .notFound)
  | (_, .erase) =>
    (erase name expanded, if erase name expanded = .empty then .erase else .done)
  | (result, .done) => (set name result expanded, .done)

/-- The loop of `RemovePath` from a node on, and the loop that erases on the way back.
`newBranch` says that `new_branch_node` is set, to a node above this one. -/
def removeParts : Bool → D → List Str → Node → Node × Removal
  | _, _, [], node => (node, .erase)
  | newBranch, descriptor, name :: parts, node =>
    match findFieldByName types descriptor name with
    | none => (node, .invalid)
    | some field =>
      if field.messageType.isNone ∧ parts ≠ [] then (node, .invalid)
      else
        let isNewBranchNode := decide (newBranch = false ∧ node = .empty)
        let expanded := expand types descriptor node
        match find name expanded with
        | none => (expanded, .notFound)
        | some result =>
          afterChild isNewBranchNode name expanded
            (removeParts (newBranch || isNewBranchNode) (field.messageType.getD descriptor)
              parts result)

/-- `RemovePath`. -/
def removePath (descriptor : D) (path : Str) (root : Node) : Node :=
  if root = .empty then root
  else
    let parts := split dot path
    if parts = [] then root else (removeParts types false descriptor parts root).1

variable {types}

/-! ## Expanding a leaf -/

theorem find_foldl_set (names : List Str) {t : Node} (h : Ordered t) (m : Str) :
    Ordered (names.foldl (fun node name => set name .empty node) t) ∧
      find m (names.foldl (fun node name => set name .empty node) t) =
        if m ∈ names then some .empty else find m t := by
  induction names generalizing t with
  | nil => exact ⟨h, by simp⟩
  | cons name names ih =>
    have hnew : Ordered (.empty : Node) := trivial
    obtain ⟨hordered, hfind⟩ := ih (h.set hnew)
    refine ⟨hordered, ?_⟩
    rw [foldl_cons, hfind, find_set h]
    by_cases hmem : m ∈ names
    · simp [hmem]
    · by_cases heq : m = name <;> simp [hmem, heq]

variable {node : Node}

theorem ordered_expand (types : Descriptors D) (descriptor : D) (h : Ordered node) :
    Ordered (expand types descriptor node) := by
  unfold expand
  split
  · exact (find_foldl_set _ h []).1
  · exact h

theorem expand_of_ne (descriptor : D) (h : node ≠ .empty) :
    expand types descriptor node = node := if_neg h

variable {descriptor : D} {name : Str}

section
variable (hname : name ∈ fieldNames types descriptor)
include hname

theorem find_expand (node : Node) : find name (expand types descriptor node) =
      if node = .empty then some .empty else find name node := by
  by_cases hempty : node = .empty
  · subst hempty
    have hordered : Ordered (.empty : Node) := trivial
    rw [expand, if_pos rfl, if_pos rfl, (find_foldl_set _ hordered name).2, if_pos hname]
  · rw [expand_of_ne descriptor hempty, if_neg hempty]

theorem reach_expand (rest : List Str) (node : Node) :
    reach (name :: rest) (expand types descriptor node) = nodeAt (name :: rest) node := by
  rw [reach, find_expand hname, nodeAt]
  split
  · rw [bind_some, nodeAt_empty]
  · rfl

theorem nodeAt_cons_of_expand {node child : Node}
    (hchild : find name (expand types descriptor node) = some child) (rest : List Str) :
    nodeAt (name :: rest) node = nodeAt rest child := by
  rw [← reach_expand hname, reach, hchild, bind_some]

end

/-! ## A path that is rejected -/

variable {out : Node × Removal}

theorem exists_eq_of_snd {outcome : Removal} (h : out.2 = outcome) :
    ∃ result, out = (result, outcome) := ⟨out.1, Prod.ext rfl h⟩

variable {parts : List Str}

theorem removeParts_cons {field : FieldDescriptor D}
    (hfind : findFieldByName types descriptor name = some field)
    (hgo : field.messageType ≠ none ∨ parts = []) {node result : Node}
    (hresult : find name (expand types descriptor node) = some result) (newBranch : Bool) :
    removeParts types newBranch descriptor (name :: parts) node =
      afterChild (decide (newBranch = false ∧ node = .empty)) name (expand types descriptor node)
        (removeParts types (newBranch || decide (newBranch = false ∧ node = .empty))
          (field.messageType.getD descriptor) parts result) := by
  have hgo : ¬ (field.messageType.isNone ∧ parts ≠ []) := by
    rintro ⟨hnone, hne⟩
    exact hgo.elim (fun h => h (isNone_iff_eq_none.mp hnone)) hne
  simp only [removeParts, hfind, if_neg hgo, hresult]

theorem removeParts_notFound {field : FieldDescriptor D}
    (hfind : findFieldByName types descriptor name = some field) (hgo : field.messageType ≠ none ∨ parts = [])
    (hresult : find name (expand types descriptor node) = none) (newBranch : Bool) :
    removeParts types newBranch descriptor (name :: parts) node =
      (expand types descriptor node, .notFound) := by
  have hgo : ¬ (field.messageType.isNone ∧ parts ≠ []) := by
    rintro ⟨hnone, hne⟩
    exact hgo.elim (fun h => h (isNone_iff_eq_none.mp hnone)) hne
  simp only [removeParts, hfind, if_neg hgo, hresult]

theorem removeParts_cases_of_not_walks (h : walks types (·.messageType) descriptor (name :: parts) = false) :
    (∀ newBranch node, removeParts types newBranch descriptor (name :: parts) node = (node, .invalid)) ∨
    ∃ field d, findFieldByName types descriptor name = some field ∧ field.messageType = some d ∧
      walks types (·.messageType) d parts = false := by
  cases hfind : findFieldByName types descriptor name with
  | none => exact .inl fun newBranch node => by simp only [removeParts, hfind]
  | some field =>
    rw [walks_cons hfind] at h
    cases hnext : field.messageType with
    | none =>
      rw [hnext] at h
      have hgo : field.messageType.isNone ∧ parts ≠ [] :=
        ⟨by rw [hnext]; rfl, of_decide_eq_false h⟩
      exact .inl fun newBranch node => by simp only [removeParts, hfind, if_pos hgo]
    | some d =>
      rw [hnext] at h
      exact .inr ⟨field, d, rfl, hnext, h⟩

theorem removeParts_empty_of_not_walks
    (h : walks types (·.messageType) descriptor parts = false) (newBranch : Bool) :
    (removeParts types newBranch descriptor parts .empty).2 = .invalid := by
  induction parts generalizing descriptor newBranch with
  | nil => cases h
  | cons name parts ih =>
    rcases removeParts_cases_of_not_walks h with hout | ⟨field, d, hfind, hnext, hrest⟩
    · rw [hout]
    · have hresult := find_expand (mem_fieldNames_of_find types hfind) .empty
      rw [if_pos rfl] at hresult
      rw [removeParts_cons hfind (.inl (by simp [hnext])) hresult, hnext, getD_some]
      obtain ⟨result, hout⟩ := exists_eq_of_snd (ih hrest (newBranch ||
        decide (newBranch = false ∧ (.empty : Node) = .empty)))
      rw [hout]
      rfl

/-- **The rollback.**  A walk that is rejected ends with the node as it was, whether it
leaves the tree before the place where it is rejected or expands leaves on the way there. -/
theorem removeParts_of_not_walks (h : walks types (·.messageType) descriptor parts = false)
    (hnode : Ordered node) : removeParts types false descriptor parts node = (node, .invalid) ∨
      removeParts types false descriptor parts node = (node, .notFound) := by
  induction parts generalizing descriptor node with
  | nil => cases h
  | cons name parts ih =>
    rcases removeParts_cases_of_not_walks h with hout | ⟨field, d, hfind, hnext, hrest⟩
    · exact .inl (hout false node)
    · have hgo : field.messageType ≠ none ∨ parts = [] := .inl (by simp [hnext])
      have hfound := find_expand (mem_fieldNames_of_find types hfind) node
      by_cases hempty : node = .empty
      · -- the leaf is expanded here and cleared again
        rw [if_pos hempty] at hfound
        obtain ⟨result, hout⟩ := exists_eq_of_snd (removeParts_empty_of_not_walks hrest true)
        rw [removeParts_cons hfind hgo hfound, hnext, getD_some]
        simp only [hempty, and_self, decide_true, Bool.or_true, hout, afterChild, if_true, true_or]
      · rw [if_neg hempty] at hfound
        cases hresult : find name node with
        | none =>
          rw [hresult] at hfound
          rw [removeParts_notFound hfind hgo hfound, expand_of_ne descriptor hempty]
          exact .inr rfl
        | some result =>
          rw [hresult] at hfound
          rw [removeParts_cons hfind hgo hfound, hnext, getD_some, expand_of_ne descriptor hempty]
          simp only [hempty, and_false, decide_false, Bool.or_false]
          rcases ih hrest (hnode.find hresult) with hout | hout
          · rw [hout]
            left
            simp only [afterChild, Bool.false_eq_true, if_false, set_find_self hnode hresult]
          · rw [hout]
            right
            simp only [afterChild, set_find_self hnode hresult]

/-! ## A path that is followed -/

theorem walks_cons_cases (h : walks types (·.messageType) descriptor (name :: parts) = true) :
    ∃ field, findFieldByName types descriptor name = some field ∧ (parts = [] ∨
      ∃ d, field.messageType = some d ∧ walks types (·.messageType) d parts = true) := by
  obtain ⟨field, hfind⟩ := find_of_walks h
  rw [walks_cons hfind] at h
  refine ⟨field, hfind, ?_⟩
  cases hnext : field.messageType with
  | none =>
    rw [hnext] at h
    exact .inl (of_decide_eq_true h)
  | some d =>
    rw [hnext] at h
    exact .inr ⟨d, rfl, h⟩

/-- A path that leads to no node of the tree is not found, and nothing is expanded. -/
theorem removeParts_of_nodeAt_eq_none
    (h : walks types (·.messageType) descriptor parts = true) (hnode : Ordered node)
    (hat : nodeAt parts node = none) : removeParts types false descriptor parts node = (node, .notFound) := by
  induction parts generalizing descriptor node with
  | nil => cases hat
  | cons name parts ih =>
    obtain ⟨field, hfind, hrest⟩ := walks_cons_cases h
    have hmem := mem_fieldNames_of_find types hfind
    have hgo : field.messageType ≠ none ∨ parts = [] :=
      hrest.symm.imp_left fun ⟨d, hnext, _⟩ => by simp [hnext]
    have hempty : node ≠ .empty := by
      rintro rfl
      simp [nodeAt_empty] at hat
    cases hresult : find name (expand types descriptor node) with
    | none =>
      rw [removeParts_notFound hfind hgo hresult, expand_of_ne descriptor hempty]
    | some result =>
      rw [nodeAt_cons_of_expand hmem hresult] at hat
      have hfound := hresult
      rw [expand_of_ne descriptor hempty] at hfound
      rcases hrest with rfl | ⟨d, hnext, hrest⟩
      · cases hat
      · rw [removeParts_cons hfind hgo hresult, hnext, getD_some, expand_of_ne descriptor hempty]
        simp only [hempty, and_false, decide_false, Bool.or_false]
        rw [ih hrest (hnode.find hfound) hat]
        simp only [afterChild, set_find_self hnode hfound]

def Apart (first parts : List Str) : Prop := ¬ first <+: parts ∧ ¬ parts <+: first

/-- What is left of a node after a path has been removed below it: the node is to be erased
if it is empty, the path leads nowhere, and a path through fields that is apart from it
leads where it led. -/
structure Removed (types : Descriptors D) (descriptor : D) (parts : List Str) (node : Node)
    (out : Node × Removal) : Prop where
  ordered : Ordered out.1
  outcome : out.2 = if out.1 = .empty then .erase else .done
  gone : ∀ rest, reach (parts ++ rest) out.1 = none
  kept : ∀ first rest, walks types (·.messageType) descriptor first = true → Apart first parts →
    reach (first ++ rest) out.1 = nodeAt (first ++ rest) node

theorem removed_erase {node result : Node}
    (hnode : Ordered node) (hresult : find name (expand types descriptor node) = some result)
    (hnone : ∀ first rest, walks types (·.messageType) descriptor (name :: first) = true →
      Apart first parts → nodeAt (first ++ rest) result = none) (out : Node) :
    Removed types descriptor (name :: parts) node
      (afterChild false name (expand types descriptor node) (out, .erase)) := by
  have hexpand := ordered_expand types descriptor hnode
  refine ⟨hexpand.erase name, rfl, fun rest => ?_, fun first rest hwalks hapart => ?_⟩
  · rw [afterChild, cons_append, reach, find_erase hexpand, if_pos rfl, bind_none]
  · cases first with
    | nil => exact absurd nil_prefix hapart.1
    | cons m first =>
      obtain ⟨field, hfind, -⟩ := walks_cons_cases hwalks
      have hmem := mem_fieldNames_of_find types hfind
      rw [afterChild, cons_append]
      by_cases heq : m = name
      · subst heq
        have hapart : Apart first parts := by
          simpa only [Apart, cons_prefix_cons, true_and] using hapart
        rw [reach, find_erase hexpand, if_pos rfl, bind_none,
          nodeAt_cons_of_expand hmem hresult, hnone first rest hwalks hapart]
      · have hsame : find m (erase name (expand types descriptor node)) =
            find m (expand types descriptor node) := by rw [find_erase hexpand, if_neg heq]
        rw [reach_congr hsame, reach_expand hmem]

/-- Putting a child back. -/
theorem removed_set {node result out : Node}
    (hnode : Ordered node) (hresult : find name (expand types descriptor node) = some result)
    (hout : Ordered out) (hne : out ≠ .empty) (hparts : parts ≠ [])
    (hgone : ∀ rest, reach (parts ++ rest) out = none)
    (hkept : ∀ first rest, walks types (·.messageType) descriptor (name :: first) = true →
      Apart first parts → reach (first ++ rest) out = nodeAt (first ++ rest) result) :
    Removed types descriptor (name :: parts) node
      (afterChild false name (expand types descriptor node) (out, .done)) := by
  have hexpand := ordered_expand types descriptor hnode
  have hset : set name out (expand types descriptor node) ≠ .empty := set_ne_empty _ _ _
  refine ⟨hexpand.set hout, (if_neg hset).symm, fun rest => ?_, fun first rest hwalks hapart => ?_⟩
  · rw [afterChild, cons_append, reach, find_set hexpand, if_pos rfl, bind_some,
      nodeAt_eq_reach hne (append_ne_nil_of_left_ne_nil hparts rest), hgone]
  · cases first with
    | nil => exact absurd nil_prefix hapart.1
    | cons m first =>
      obtain ⟨field, hfind, -⟩ := walks_cons_cases hwalks
      have hmem := mem_fieldNames_of_find types hfind
      rw [afterChild, cons_append]
      by_cases heq : m = name
      · subst heq
        have hapart : Apart first parts := by
          simpa only [Apart, cons_prefix_cons, true_and] using hapart
        have hfirst : first ++ rest ≠ [] := by
          refine append_ne_nil_of_left_ne_nil ?_ rest
          rintro rfl
          exact hapart.1 nil_prefix
        rw [reach, find_set hexpand, if_pos rfl, bind_some, nodeAt_eq_reach hne hfirst,
          hkept first rest hwalks hapart, nodeAt_cons_of_expand hmem hresult]
      · have hsame : find m (set name out (expand types descriptor node)) =
            find m (expand types descriptor node) := by rw [find_set hexpand, if_neg heq]
        rw [reach_congr hsame, reach_expand hmem]

theorem afterChild_of_removed (isNewBranchNode : Bool) (name : Str) (expanded : Node) (h : out.2 = if out.1 = .empty then .erase else .done) :
    afterChild isNewBranchNode name expanded out = afterChild false name expanded
      (out.1, if out.1 = .empty then .erase else .done) := by
  obtain ⟨result, outcome⟩ := out
  by_cases hempty : result = .empty
  · obtain rfl : outcome = .erase := h.trans (if_pos hempty)
    rw [if_pos hempty]
    rfl
  · obtain rfl : outcome = .done := h.trans (if_neg hempty)
    rw [if_neg hempty]
    rfl

/-- **The removal** of a path that leads to a node of the tree. -/
theorem removeParts_removed (h : walks types (·.messageType) descriptor parts = true) (hne : parts ≠ [])
    (hnode : Ordered node) (hat : nodeAt parts node ≠ none) (newBranch : Bool) :
    Removed types descriptor parts node (removeParts types newBranch descriptor parts node) := by
  induction parts generalizing descriptor node newBranch with
  | nil => exact absurd rfl hne
  | cons name parts ih =>
    obtain ⟨field, hfind, hrest⟩ := walks_cons_cases h
    have hmem := mem_fieldNames_of_find types hfind
    have hgo : field.messageType ≠ none ∨ parts = [] :=
      hrest.symm.imp_left fun ⟨d, hnext, _⟩ => by simp [hnext]
    cases hresult : find name (expand types descriptor node) with
    | none =>
      exfalso
      apply hat
      rw [← reach_expand hmem, reach, hresult, bind_none]
    | some result =>
      rw [nodeAt_cons_of_expand hmem hresult] at hat
      have hordered : Ordered result := (ordered_expand types descriptor hnode).find hresult
      rw [removeParts_cons hfind hgo hresult]
      by_cases hnil : parts = []
      · -- the end of the path
        subst hnil
        exact removed_erase hnode hresult
          (fun first rest hwalks hapart => absurd nil_prefix hapart.2) result
      · obtain ⟨d, hnext, hwalks⟩ := hrest.resolve_left hnil
        rw [hnext, getD_some]
        have hchild := ih hwalks hnil hordered hat
          (newBranch || decide (newBranch = false ∧ node = .empty))
        have hbelow : ∀ first, walks types (·.messageType) descriptor (name :: first) = true →
            Apart first parts → walks types (·.messageType) d first = true := by
          intro first hfirst hapart
          rw [walks_cons hfind, hnext] at hfirst
          exact hfirst
        rw [afterChild_of_removed _ _ _ hchild.outcome]
        by_cases hempty : (removeParts types
            (newBranch || decide (newBranch = false ∧ node = .empty)) d parts result).1 = .empty
        · -- the child has become empty and goes too
          rw [if_pos hempty]
          refine removed_erase hnode hresult (fun first rest hfirst hapart => ?_) _
          rw [← hchild.kept first rest (hbelow first hfirst hapart) hapart, hempty, reach_empty]
        · rw [if_neg hempty]
          exact removed_set hnode hresult hchild.ordered hempty hnil hchild.gone
            fun first rest hfirst hapart =>
              hchild.kept first rest (hbelow first hfirst hapart) hapart

/-! ## The tree stays a tree of field names -/

theorem Named.erase {t : Node} (h : Named t) (name : Str) : Named (erase name t) := by
  induction t with
  | empty => trivial
  | child n node next ihNode ihNext =>
    rw [PathTree.erase]
    split
    · exact h.2.2
    · exact ⟨h.1, h.2.1, ihNext h.2.2⟩

theorem named_expand (types : Descriptors D) (descriptor : D) (h : Named node) :
    Named (expand types descriptor node) := by
  have hadd : ∀ (names : List Str) (t : Node), (∀ name ∈ names, IsPart dot name) → Named t →
      Named (names.foldl (fun node name => set name .empty node) t) := by
    intro names
    induction names with
    | nil => exact fun t _ ht => ht
    | cons name names ih =>
      intro t hnames ht
      exact ih _ (fun m hm => hnames m (mem_cons_of_mem _ hm))
        (ht.set (hnames name mem_cons_self) trivial)
  unfold expand
  split
  · refine hadd _ _ (fun name hmem => ?_) h
    obtain ⟨field, hfield, rfl⟩ := List.mem_map.mp hmem
    exact types.isPart_name descriptor field hfield
  · exact h

theorem named_afterChild {isNewBranchNode : Bool} (hname : IsPart dot name)
    {expanded : Node} (h : Named expanded) (hout : Named out.1) :
    Named (afterChild isNewBranchNode name expanded out).1 := by
  obtain ⟨result, outcome⟩ := out
  cases outcome with
  | invalid =>
    rw [afterChild]
    split
    · trivial
    · exact h.set hname hout
  | notFound => exact h.set hname hout
  | erase => exact h.erase name
  | done => exact h.set hname hout

theorem named_removeParts (newBranch : Bool) (descriptor : D) (parts : List Str)
    (h : Named node) : Named (removeParts types newBranch descriptor parts node).1 := by
  induction parts generalizing newBranch descriptor node with
  | nil => exact h
  | cons name parts ih =>
    have hexpand := named_expand types descriptor h
    rw [removeParts]
    cases hfind : findFieldByName types descriptor name with
    | none => exact h
    | some field =>
      obtain ⟨hmem, rfl⟩ := mem_of_findFieldByName types hfind
      simp only
      split
      · exact h
      · cases hresult : find field.name (expand types descriptor node) with
        | none => exact hexpand
        | some result =>
          exact named_afterChild (types.isPart_name descriptor field hmem) hexpand
            (ih _ _ (hexpand.find hresult))

/-! ## One call of `RemovePath` -/

variable {path : Str} {root : Node}

theorem removePath_of_not_walks (h : walks types (·.messageType) descriptor (split dot path) = false)
    (hroot : Ordered root) : removePath types descriptor path root = root := by
  unfold removePath
  split
  · rfl
  · simp only
    split
    · rfl
    · rcases removeParts_of_not_walks h hroot with hout | hout
      · rw [hout]
      · rw [hout]

theorem removePath_of_reach_eq_none (h : walks types (·.messageType) descriptor (split dot path) = true)
    (hroot : Ordered root) (hreach : reach (split dot path) root = none) :
    removePath types descriptor path root = root := by
  unfold removePath
  by_cases hempty : root = .empty
  · rw [if_pos hempty]
  · rw [if_neg hempty]
    by_cases hnil : split dot path = []
    · exact if_pos hnil
    · rw [← nodeAt_eq_reach hempty hnil] at hreach
      simp only [hnil, if_false, removeParts_of_nodeAt_eq_none h hroot hreach]

/-- **What a removal leaves**: nothing at the path, and the paths through fields that are
apart from it lead where they led. -/
theorem reach_removePath (h : walks types (·.messageType) descriptor (split dot path) = true)
    (hne : split dot path ≠ []) (hroot : Ordered root) :
    (∀ rest, reach (split dot path ++ rest) (removePath types descriptor path root) = none) ∧
      ∀ first rest, walks types (·.messageType) descriptor first = true → Apart first (split dot path) →
        reach (first ++ rest) (removePath types descriptor path root) = reach (first ++ rest) root := by
  by_cases hreach : reach (split dot path) root = none
  · rw [removePath_of_reach_eq_none h hroot hreach]
    refine ⟨fun rest => ?_, fun first rest hwalks hapart => rfl⟩
    rw [reach_append hne, hreach, bind_none]
  · have hempty : root ≠ .empty := by
      rintro rfl
      exact hreach (reach_empty _)
    rw [← nodeAt_eq_reach hempty hne] at hreach
    have hremoved := removeParts_removed h hne hroot hreach false
    have hpath : removePath types descriptor path root =
        (removeParts types false descriptor (split dot path) root).1 := by
      rw [removePath, if_neg hempty]
      exact if_neg hne
    rw [hpath]
    refine ⟨hremoved.gone, fun first rest hwalks hapart => ?_⟩
    have hfirst : first ++ rest ≠ [] := by
      refine append_ne_nil_of_left_ne_nil ?_ rest
      rintro rfl
      exact hapart.1 nil_prefix
    rw [hremoved.kept first rest hwalks hapart, nodeAt_eq_reach hempty hfirst]

theorem valid_removePath (descriptor : D) (path : Str) (h : Valid root) :
    Valid (removePath types descriptor path root) := by
  refine ⟨?_, ?_⟩
  · cases hwalks : walks types (·.messageType) descriptor (split dot path) with
    | false =>
      rw [removePath_of_not_walks hwalks h.ordered]
      exact h.ordered
    | true =>
      unfold removePath
      by_cases hempty : root = .empty
      · rw [if_pos hempty]
        exact h.ordered
      · rw [if_neg hempty]
        simp only
        split
        · exact h.ordered
        · next hne =>
          by_cases hat : nodeAt (split dot path) root = none
          · rw [removeParts_of_nodeAt_eq_none hwalks h.ordered hat]
            exact h.ordered
          · exact (removeParts_removed hwalks hne h.ordered hat false).ordered
  · unfold removePath
    split
    · exact h.named
    · simp only
      split
      · exact h.named
      · exact named_removeParts false descriptor _ h.named

end Protoc.Util
