import Mathlib.Data.List.Infix
import Mathlib.Order.Lattice

/-!
# Trees of paths

A tree of names, the children of each node in the order of their names.  A tree stands for
a set of paths: those that run through a leaf.  The set decides the tree.
-/

namespace Protoc.Lib

open Option

/-- A node: its first child with that child's children, and the children behind it. -/
inductive PathTree (α : Type) where
  | empty
  | child (name : α) (node next : PathTree α)
  deriving DecidableEq

namespace PathTree

variable {α : Type} [LinearOrder α]

/-! ## The children as a map -/

def find (name : α) : PathTree α → Option (PathTree α)
  | empty => none
  | child n node next => if name = n then some node else find name next

/-- The child of that name is `new`. -/
def set (name : α) (new : PathTree α) : PathTree α → PathTree α
  | empty => child name new empty
  | child n node next =>
    if name < n then child name new (child n node next)
    else if name = n then child n new next
    else child n node (set name new next)

theorem set_ne_empty (name : α) (new t : PathTree α) : set name new t ≠ empty := by
  cases t with
  | empty => simp [set]
  | child n node next =>
    rw [set]
    split
    · simp
    · split <;> simp

def erase (name : α) : PathTree α → PathTree α
  | empty => empty
  | child n node next => if name = n then next else child n node (erase name next)

def Above (name : α) : PathTree α → Prop
  | empty => True
  | child n _ next => name < n ∧ Above name next

/-- At every node the children are in the order of their names. -/
def Ordered : PathTree α → Prop
  | empty => True
  | child n node next => Ordered node ∧ Above n next ∧ Ordered next

@[simp] theorem find_empty (name : α) : find name empty = none := rfl

@[simp] theorem find_child_self (name : α) (node next : PathTree α) :
    find name (child name node next) = some node := if_pos rfl

theorem find_child_of_ne {name n : α} (h : name ≠ n) (node next : PathTree α) :
    find name (child n node next) = find name next := if_neg h

variable {t : PathTree α}

theorem Above.mono {name n : α} (h : Above n t) (hlt : name < n) : Above name t := by
  induction t with
  | empty => trivial
  | child m node next ihNode ihNext => exact ⟨lt_trans hlt h.1, ihNext h.2⟩

theorem Above.find {name m : α} (h : Above name t) (hle : m ≤ name) : find m t = none := by
  induction t with
  | empty => rfl
  | child n node next ihNode ihNext =>
    rw [find_child_of_ne (ne_of_lt (lt_of_le_of_lt hle h.1)), ihNext h.2]

theorem Above.set {name m : α} {t new : PathTree α} (h : Above name t) (hlt : name < m) :
    Above name (set m new t) := by
  induction t with
  | empty => exact ⟨hlt, trivial⟩
  | child n node next ihNode ihNext =>
    rw [PathTree.set]
    split
    · exact ⟨hlt, h⟩
    · split
      · exact h
      · exact ⟨h.1, ihNext h.2⟩

variable {name : α}

theorem Ordered.set {t new : PathTree α} (h : Ordered t) (hnew : Ordered new) : Ordered (set name new t) := by
  induction t with
  | empty => exact ⟨hnew, trivial, trivial⟩
  | child n node next ihNode ihNext =>
    obtain ⟨hnode, habove, hnext⟩ := h
    rw [PathTree.set]
    split
    · next hlt => exact ⟨hnew, ⟨hlt, habove.mono hlt⟩, hnode, habove, hnext⟩
    · next hge =>
      split
      · exact ⟨hnew, habove, hnext⟩
      · next hne =>
        have hlt : n < name := lt_of_le_of_ne (not_lt.mp hge) (Ne.symm hne)
        exact ⟨hnode, habove.set hlt, ihNext hnext⟩

theorem Ordered.find {t node : PathTree α} (h : Ordered t)
    (hfind : find name t = some node) : Ordered node := by
  induction t with
  | empty => cases hfind
  | child n node' next ihNode ihNext =>
    by_cases heq : name = n
    · subst heq
      rw [find_child_self] at hfind
      cases hfind
      exact h.1
    · rw [find_child_of_ne heq] at hfind
      exact ihNext h.2.2 hfind

theorem find_set_of_ne {m name : α} (h : m ≠ name) (new t : PathTree α) :
    find m (set name new t) = find m t := by
  induction t with
  | empty => exact find_child_of_ne h _ _
  | child n node next ihNode ihNext =>
    rw [set]
    split
    · exact find_child_of_ne h _ _
    · split
      · next heq =>
        subst heq
        rw [find_child_of_ne h, find_child_of_ne h]
      · by_cases hm : m = n
        · rw [hm, find_child_self, find_child_self]
        · rw [find_child_of_ne hm, find_child_of_ne hm, ihNext]

theorem find_set (h : Ordered t) (name m : α) (new : PathTree α) :
    find m (set name new t) = if m = name then some new else find m t := by
  induction t with
  | empty => simp only [set, find]
  | child n node next ihNode ihNext =>
    obtain ⟨-, habove, hnext⟩ := h
    rw [set]
    split
    · rfl
    · next hge =>
      split
      · next heq =>
        subst heq
        by_cases hm : m = name
        · rw [if_pos hm, hm, find_child_self]
        · rw [if_neg hm, find_child_of_ne hm, find_child_of_ne hm]
      · next hne =>
        by_cases hm : m = n
        · subst hm
          rw [find_child_self, if_neg (Ne.symm hne), find_child_self]
        · rw [find_child_of_ne hm, find_child_of_ne hm, ihNext hnext]

theorem set_find_self {t node : PathTree α} (h : Ordered t)
    (hfind : find name t = some node) : set name node t = t := by
  induction t with
  | empty => cases hfind
  | child n node' next ihNode ihNext =>
    by_cases heq : name = n
    · subst heq
      rw [find_child_self] at hfind
      cases hfind
      rw [set, if_neg (lt_irrefl _), if_pos rfl]
    · rw [find_child_of_ne heq] at hfind
      have hge : ¬ name < n := by
        intro hlt
        rw [(h.2.1.mono hlt).find le_rfl] at hfind
        cases hfind
      rw [set, if_neg hge, if_neg heq, ihNext h.2.2 hfind]

theorem Above.erase (h : Above name t) (m : α) : Above name (erase m t) := by
  induction t with
  | empty => trivial
  | child n node next ihNode ihNext =>
    rw [PathTree.erase]
    split
    · exact h.2
    · exact ⟨h.1, ihNext h.2⟩

theorem Ordered.erase (h : Ordered t) (name : α) : Ordered (erase name t) := by
  induction t with
  | empty => trivial
  | child n node next ihNode ihNext =>
    rw [PathTree.erase]
    split
    · exact h.2.2
    · exact ⟨h.1, h.2.1.erase name, ihNext h.2.2⟩

theorem find_erase (h : Ordered t) (name m : α) :
    find m (erase name t) = if m = name then none else find m t := by
  induction t with
  | empty => simp [erase]
  | child n node next ihNode ihNext =>
    rw [erase]
    by_cases heq : name = n
    · subst heq
      rw [if_pos rfl]
      by_cases hm : m = name
      · rw [if_pos hm, hm, h.2.1.find le_rfl]
      · rw [if_neg hm, find_child_of_ne hm]
    · rw [if_neg heq]
      by_cases hm : m = n
      · have hne : m ≠ name := fun h => heq (h.symm.trans hm)
        rw [hm, find_child_self, if_neg (hm ▸ hne), find_child_self]
      · rw [find_child_of_ne hm, find_child_of_ne hm, ihNext h.2.2]

/-! ## The paths through a leaf -/

/-- The path runs through a leaf of the tree.  The root itself is none. -/
def Covers (t : PathTree α) : List α → Prop
  | [] => False
  | name :: rest => ∃ node, find name t = some node ∧ (node = empty ∨ Covers node rest)

/-- The path runs through a leaf, the node itself included. -/
def NodeCovers (t : PathTree α) (path : List α) : Prop := t = empty ∨ Covers t path

theorem not_covers_empty (path : List α) : ¬ Covers empty path := by
  cases path with
  | nil => exact id
  | cons name rest =>
    rintro ⟨node, hfind, -⟩
    cases hfind

theorem covers_cons {node : PathTree α} (h : find name t = some node) (rest : List α) :
    Covers t (name :: rest) ↔ NodeCovers node rest := by
  constructor
  · rintro ⟨node', hfind, hcovers⟩
    rw [h] at hfind
    cases hfind
    exact hcovers
  · intro hcovers
    exact ⟨node, h, hcovers⟩

theorem not_covers_of_find (h : find name t = none) (rest : List α) : ¬ Covers t (name :: rest) := by
  rintro ⟨node, hfind, -⟩
  simp [h] at hfind

theorem covers_set (h : Ordered t) (name m : α) (new : PathTree α) (rest : List α) :
    Covers (set name new t) (m :: rest) ↔
      if m = name then NodeCovers new rest else Covers t (m :: rest) := by
  by_cases heq : m = name
  · rw [if_pos heq, covers_cons (by rw [find_set h, if_pos heq])]
  · rw [if_neg heq]
    simp only [Covers, find_set h, if_neg heq]

def paths : PathTree α → List (List α)
  | empty => []
  | child name node next =>
    (if node = empty then [[name]] else (paths node).map (name :: ·)) ++ paths next

theorem paths_ne_nil (h : t ≠ empty) : paths t ≠ [] := by
  induction t with
  | empty => exact absurd rfl h
  | child name node next ihNode ihNext =>
    rw [paths]
    by_cases hnode : node = empty
    · simp [hnode]
    · simp [hnode, ihNode hnode]

theorem nil_notMem_paths (t : PathTree α) : [] ∉ paths t := by
  induction t with
  | empty => simp [paths]
  | child name node next ihNode ihNext =>
    by_cases hnode : node = empty <;> simp [paths, hnode, ihNext]

/-- The paths through the leaves. -/
theorem covers_iff_paths (h : Ordered t) (path : List α) : Covers t path ↔ ∃ q ∈ paths t, q <+: path := by
  induction t generalizing path with
  | empty =>
    constructor
    · intro hcovers
      exact absurd hcovers (not_covers_empty path)
    · rintro ⟨q, hmem, -⟩
      cases hmem
  | child n node next ihNode ihNext =>
    obtain ⟨hnode, habove, hnext⟩ := h
    cases path with
    | nil =>
      constructor
      · exact False.elim
      · rintro ⟨q, hmem, hprefix⟩
        rw [List.prefix_nil.mp hprefix] at hmem
        exact absurd hmem (nil_notMem_paths _)
    | cons name rest =>
      rw [paths]
      simp only [List.mem_append, or_and_right, exists_or]
      by_cases heq : name = n
      · subst heq
        rw [covers_cons (find_child_self name node next)]
        have hnone : ¬ ∃ q ∈ paths next, q <+: name :: rest := by
          rw [← ihNext hnext]
          exact not_covers_of_find (habove.find le_rfl) rest
        rw [or_iff_left hnone, NodeCovers]
        by_cases hempty : node = empty
        · simp [hempty]
        · rw [or_iff_right hempty, ihNode hnode, if_neg hempty]
          simp [List.cons_prefix_cons]
      · have hother : ¬ ∃ q ∈ (if node = empty then [[n]] else (paths node).map (n :: ·)),
            q <+: name :: rest := by
          rintro ⟨q, hmem, hprefix⟩
          have hhead : ∃ tail, q = n :: tail := by
            by_cases hempty : node = empty
            · rw [if_pos hempty] at hmem
              exact ⟨[], List.mem_singleton.mp hmem⟩
            · rw [if_neg hempty] at hmem
              obtain ⟨tail, -, hq⟩ := List.mem_map.mp hmem
              exact ⟨tail, hq.symm⟩
          obtain ⟨tail, rfl⟩ := hhead
          exact heq (List.cons_prefix_cons.mp hprefix).1.symm
        rw [or_iff_right hother, ← ihNext hnext]
        simp only [Covers, find_child_of_ne heq]

theorem exists_covers (h : Ordered t) (hne : t ≠ empty) : ∃ path, Covers t path := by
  obtain ⟨q, hmem⟩ := List.exists_mem_of_ne_nil _ (paths_ne_nil hne)
  exact ⟨q, (covers_iff_paths h q).mpr ⟨q, hmem, List.prefix_rfl⟩⟩

theorem exists_nodeCovers (h : Ordered t) : ∃ path, NodeCovers t path := by
  by_cases hempty : t = empty
  · exact ⟨[], .inl hempty⟩
  · obtain ⟨path, hcovers⟩ := exists_covers h hempty
    exact ⟨path, .inr hcovers⟩

theorem le_of_covers {n name : α} {node next : PathTree α} (h : Ordered (child n node next))
    {rest : List α} (hcovers : Covers (child n node next) (name :: rest)) : n ≤ name := by
  by_contra hlt
  have hlt := not_le.mp hlt
  have habove : Above name (child n node next) := ⟨hlt, h.2.1.mono hlt⟩
  exact not_covers_of_find (habove.find le_rfl) rest hcovers

/-- **The paths decide the tree.** -/
theorem eq_of_covers {s t : PathTree α} (hs : Ordered s) (ht : Ordered t)
    (h : ∀ path, Covers s path ↔ Covers t path) : s = t := by
  induction s generalizing t with
  | empty =>
    by_contra hne
    obtain ⟨path, hcovers⟩ := exists_covers ht (Ne.symm hne)
    exact not_covers_empty path ((h path).mpr hcovers)
  | child n node next ihNode ihNext =>
    cases t with
    | empty =>
      obtain ⟨path, hcovers⟩ := exists_covers hs (by simp)
      exact absurd ((h path).mp hcovers) (not_covers_empty path)
    | child m node' next' =>
      have hle : m ≤ n := by
        obtain ⟨path, hcovers⟩ := exists_nodeCovers hs.1
        have hfirst := (covers_cons (find_child_self n node next) path).mpr hcovers
        exact le_of_covers ht ((h _).mp hfirst)
      have hge : n ≤ m := by
        obtain ⟨path, hcovers⟩ := exists_nodeCovers ht.1
        have hfirst := (covers_cons (find_child_self m node' next') path).mpr hcovers
        exact le_of_covers hs ((h _).mpr hfirst)
      obtain rfl : n = m := le_antisymm hge hle
      have hnodes : ∀ path, NodeCovers node path ↔ NodeCovers node' path := by
        intro path
        rw [← covers_cons (find_child_self n node next), ← covers_cons (find_child_self n node' next'), h]
      have hnode : node = node' := by
        by_cases hempty : node = empty
        · have hnil := (hnodes []).mp (.inl hempty)
          rw [hempty, hnil.resolve_right id]
        · have hempty' : node' ≠ empty := by
            intro heq
            have hnil := (hnodes []).mpr (.inl heq)
            exact hempty (hnil.resolve_right id)
          apply ihNode hs.1 ht.1
          intro path
          have hpath := hnodes path
          rwa [NodeCovers, NodeCovers, or_iff_right hempty, or_iff_right hempty'] at hpath
      have hnext : next = next' := by
        apply ihNext hs.2.2 ht.2.2
        intro path
        cases path with
        | nil => exact Iff.rfl
        | cons name rest =>
          by_cases heq : name = n
          · subst heq
            exact iff_of_false (not_covers_of_find (hs.2.1.find le_rfl) rest)
              (not_covers_of_find (ht.2.1.find le_rfl) rest)
          · have hrest := h (name :: rest)
            simp only [Covers, find_child_of_ne heq] at hrest
            exact hrest
      rw [hnode, hnext]

/-! ## The node that a path leads to -/

/-- The node at the end of a path from a node.  A leaf is all that is below it. -/
def nodeAt : List α → PathTree α → Option (PathTree α)
  | [], t => some t
  | name :: rest, t => if t = empty then some empty else (find name t).bind (nodeAt rest)

/-- The node at the end of a path from the root, which is no leaf. -/
def reach : List α → PathTree α → Option (PathTree α)
  | [], _ => none
  | name :: rest, t => (find name t).bind (nodeAt rest)

theorem nodeAt_empty (path : List α) : nodeAt path (empty : PathTree α) = some empty := by
  cases path with
  | nil => rfl
  | cons name rest => exact if_pos rfl

variable {path : List α}

theorem nodeAt_eq_reach (h : t ≠ empty) (hpath : path ≠ []) : nodeAt path t = reach path t := by
  cases path with
  | nil => exact absurd rfl hpath
  | cons name rest => exact if_neg h

theorem reach_empty (path : List α) : reach path (empty : PathTree α) = none := by
  cases path with
  | nil => rfl
  | cons name rest => rfl

theorem reach_congr {s t : PathTree α} (h : find name s = find name t) (rest : List α) :
    reach (name :: rest) s = reach (name :: rest) t := by rw [reach, reach, h]

theorem nodeCovers_iff_nodeAt (path : List α) (t : PathTree α) :
    NodeCovers t path ↔ nodeAt path t = some empty := by
  induction path generalizing t with
  | nil => simp [NodeCovers, Covers, nodeAt]
  | cons name rest ih =>
    by_cases hempty : t = empty
    · simp [NodeCovers, hempty, nodeAt_empty]
    · rw [NodeCovers, or_iff_right hempty, nodeAt, if_neg hempty]
      cases hfind : find name t with
      | none => simp [not_covers_of_find hfind]
      | some node => rw [covers_cons hfind, bind_some, ih]

theorem covers_iff_reach (path : List α) (t : PathTree α) : Covers t path ↔ reach path t = some empty := by
  cases path with
  | nil => simp [Covers, reach]
  | cons name rest =>
    rw [reach]
    cases hfind : find name t with
    | none => simp [not_covers_of_find hfind]
    | some node => rw [covers_cons hfind, bind_some, nodeCovers_iff_nodeAt]

theorem nodeAt_append (path rest : List α) (t : PathTree α) :
    nodeAt (path ++ rest) t = (nodeAt path t).bind (nodeAt rest) := by
  induction path generalizing t with
  | nil => rfl
  | cons name path ih =>
    rw [List.cons_append, nodeAt, nodeAt]
    split
    · rw [bind_some, nodeAt_empty]
    · cases find name t with
      | none => rfl
      | some node => exact ih node

theorem reach_append (h : path ≠ []) (rest : List α) (t : PathTree α) :
    reach (path ++ rest) t = (reach path t).bind (nodeAt rest) := by
  cases path with
  | nil => exact absurd rfl h
  | cons name path =>
    rw [List.cons_append, reach, reach]
    cases find name t with
    | none => rfl
    | some node => exact nodeAt_append path rest node

theorem Ordered.nodeAt {t node : PathTree α} (h : Ordered t)
    (hnode : nodeAt path t = some node) : Ordered node := by
  induction path generalizing t with
  | nil =>
    cases hnode
    exact h
  | cons name rest ih =>
    rw [PathTree.nodeAt] at hnode
    split at hnode
    · cases hnode
      trivial
    · obtain ⟨next, hfind, hnode⟩ := bind_eq_some_iff.mp hnode
      exact ih (h.find hfind) hnode

theorem reach_ne_none_iff (h : Ordered t) (path : List α) :
    reach path t ≠ none ↔ path ≠ [] ∧ ∃ rest, Covers t (path ++ rest) := by
  constructor
  · intro hreach
    have hne : path ≠ [] := by
      rintro rfl
      exact hreach rfl
    obtain ⟨node, hnode⟩ := ne_none_iff_exists'.mp hreach
    have hordered : Ordered node := by
      cases path with
      | nil => exact absurd rfl hne
      | cons name rest =>
        obtain ⟨next, hfind, hnode⟩ := bind_eq_some_iff.mp hnode
        exact (h.find hfind).nodeAt hnode
    obtain ⟨rest, hcovers⟩ := exists_nodeCovers hordered
    refine ⟨hne, rest, ?_⟩
    rw [covers_iff_reach, reach_append hne, hnode, bind_some]
    exact (nodeCovers_iff_nodeAt rest node).mp hcovers
  · rintro ⟨hne, rest, hcovers⟩ hnone
    simp [covers_iff_reach, reach_append hne, hnone] at hcovers

end PathTree

end Protoc.Lib
