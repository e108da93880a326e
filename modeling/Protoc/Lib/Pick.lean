import Mathlib.Algebra.GroupWithZero.Nat
import Mathlib.Data.List.Count
import Mathlib.Data.List.Perm.Basic

/-!
# One element of a list and the rest

A step of one party among many changes one element of a list.  Up to the order the
list is that element and the rest, before the step and after it, so an invariant that
does not depend on the order is shown for `a :: rest`.
-/

namespace Protoc.Lib.Pick

open List

variable {α : Type} {l : List α} {i : ℕ} {a : α}

section
variable (h : l[i]? = some a)
include h

theorem perm_of_getElem? : l.Perm (a :: l.eraseIdx i) := by
  obtain ⟨hlt, rfl⟩ := List.getElem?_eq_some_iff.mp h
  exact (getElem_cons_eraseIdx_perm hlt).symm

theorem set_perm (b : α) : (l.set i b).Perm (b :: l.eraseIdx i) := by
  obtain ⟨hlt, -⟩ := List.getElem?_eq_some_iff.mp h
  exact set_perm_cons_eraseIdx hlt b

theorem mem_set {b c : α} : c ∈ l.set i b ↔ c = b ∨ c ∈ l.eraseIdx i := by
  rw [(set_perm h b).mem_iff, mem_cons]

theorem countP_pick (p : α → Bool) :
    l.countP p = (l.eraseIdx i).countP p + if p a then 1 else 0 := by
  rw [(perm_of_getElem? h).countP_eq, countP_cons]

theorem countP_set (b : α) (p : α → Bool) :
    (l.set i b).countP p = (l.eraseIdx i).countP p + if p b then 1 else 0 := by
  rw [(set_perm h b).countP_eq, countP_cons]

theorem sum_map_pick (f : α → ℕ) : (l.map f).sum = f a + ((l.eraseIdx i).map f).sum := by
  rw [((perm_of_getElem? h).map f).sum_nat, map_cons, sum_cons]

theorem sum_map_set (b : α) (f : α → ℕ) : ((l.set i b).map f).sum = f b + ((l.eraseIdx i).map f).sum := by
  rw [((set_perm h b).map f).sum_nat, map_cons, sum_cons]

end

end Protoc.Lib.Pick
