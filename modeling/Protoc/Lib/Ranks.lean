import Mathlib.Data.List.Basic

/-!
# The ranks of equal elements

The rank of an element is the number of the elements before it that are equal to it, up to an
equivalence relation.
-/

namespace Protoc.Lib

open List

variable {α : Type*} (same : α → α → Bool)

/-- The number of the first `k` elements that are equal to `e`. -/
def before (e : α) (zs : List α) (k : ℕ) : ℕ := (zs.take k).countP (same e)

variable {e e' : α} {zs : List α} {k k' : ℕ}

theorem before_le (e : α) (zs : List α) (h : k ≤ k') : before same e zs k ≤ before same e zs k' :=
  (take_sublist_take_left h).countP_le

theorem before_length (hk : zs.length ≤ k) : before same e zs k = zs.countP (same e) := by
  rw [before, take_of_length_le hk]

theorem before_succ (e : α) (i : Fin zs.length) :
    before same e zs (i + 1) = before same e zs i + if same e (zs.get i) then 1 else 0 := by
  rw [before, take_succ_eq_append_getElem i.isLt, countP_append, countP_singleton]
  rfl

theorem before_lt {i : Fin zs.length} (hsame : same e (zs.get i) = true) (hlt : i < k) :
    before same e zs i < before same e zs k := by
  refine Nat.lt_of_lt_of_le ?_ (before_le _ _ _ hlt)
  rw [before_succ, if_pos hsame]
  exact Nat.lt_succ_self _

variable {same}

/-- **Each rank below the number of equal elements** is the rank of one of them. -/
theorem exists_rank {n : ℕ} (hn : n < zs.countP (same e)) :
    ∃ i : Fin zs.length, same e (zs.get i) = true ∧ before same e zs i = n := by
  induction zs generalizing n with
  | nil => exact absurd hn (Nat.not_lt_zero n)
  | cons z zs ih =>
    rw [countP_cons] at hn
    by_cases hz : same e z = true
    · rw [if_pos hz] at hn
      cases n with
      | zero => exact ⟨⟨0, Nat.succ_pos _⟩, hz, rfl⟩
      | succ n =>
        obtain ⟨i, hi, hrank⟩ := ih (Nat.lt_of_succ_lt_succ hn)
        refine ⟨i.succ, hi, ?_⟩
        rw [← hrank]
        simp [before, hz]
    · rw [if_neg hz] at hn
      obtain ⟨i, hi, hrank⟩ := ih hn
      refine ⟨i.succ, hi, ?_⟩
      rw [← hrank]
      simp [before, hz]

theorem before_congr (heq : Equivalence fun a b => same a b = true) (h : same e e' = true) :
    before same e zs k = before same e' zs k :=
  countP_congr fun _ _ => ⟨heq.trans (heq.symm h), heq.trans h⟩

end Protoc.Lib
