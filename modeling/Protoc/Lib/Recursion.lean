import Mathlib.Data.Finset.Card
import Mathlib.Order.WellFounded

/-!
# Loops and recursions that come to an end

A recursion whose calls from an argument are a list, run with a bound on its depth.  It has
a result for some bound if and only if its argument is accessible: the calls make no
infinite chain.  Since each list of calls is finite, the calls are then finitely many.
-/

namespace Protoc.Lib

/-! ## Loops that may not end -/

universe u
variable {α : Type u}

def doWhile (step : α → α) (again : α → Bool) : ℕ → α → Option α
  | 0, _ => none
  | n + 1, a => if again (step a) then doWhile step again n (step a) else some (step a)

variable {step : α → α} {again : α → Bool} {n : ℕ} {a b : α}

theorem doWhile_eq_none_iff : doWhile step again n a = none ↔ ∀ m < n, again (step^[m + 1] a) = true := by
  induction n generalizing a with
  | zero => simp [doWhile]
  | succ n ih =>
    rw [doWhile]
    constructor
    · intro h m hm
      split_ifs at h with hagain
      cases m with
      | zero => exact hagain
      | succ m => exact ih.mp h m (Nat.lt_of_succ_lt_succ hm)
    · intro h
      have hfirst : again (step a) = true := h 0 (Nat.succ_pos n)
      rw [if_pos hfirst, ih]
      exact fun m hm => h (m + 1) (Nat.succ_lt_succ hm)

theorem doWhile_eq_some (h : doWhile step again n a = some b) : again b = false ∧ ∃ m, b = step^[m + 1] a := by
  induction n generalizing a with
  | zero => exact absurd h (by simp [doWhile])
  | succ n ih =>
    rw [doWhile] at h
    split_ifs at h with hagain
    · obtain ⟨hend, m, rfl⟩ := ih h
      exact ⟨hend, m + 1, rfl⟩
    · cases h
      exact ⟨Bool.eq_false_iff.mpr hagain, 0, rfl⟩

/-- **A loop over values below a bound** that has not ended after as many rounds goes on forever. -/
theorem doWhile_forever {step : ℕ → ℕ} {again : ℕ → Bool} {bound a : ℕ} (hstep : ∀ a, step a < bound) :
    doWhile step again bound a = none ↔ ∀ m, again (step^[m + 1] a) = true := by
  rw [doWhile_eq_none_iff]
  refine ⟨fun h => ?_, fun h m _ => h m⟩
  have hbelow : ∀ m, step^[m + 1] a < bound := fun m => by
    rw [Function.iterate_succ_apply']
    exact hstep _
  -- two rounds end with one value, so all that follows was there before
  obtain ⟨i, hi, j, hj, hne, hsame⟩ := Finset.exists_ne_map_eq_of_card_lt_of_maps_to
    (s := Finset.range (bound + 1)) (t := Finset.range bound) (f := fun m => step^[m + 1] a)
    (by simp) (fun m _ => by simpa using hbelow m)
  obtain ⟨i, j, hlt, hj, hsame⟩ : ∃ i j, i < j ∧ j ≤ bound ∧ step^[i + 1] a = step^[j + 1] a := by
    rw [Finset.mem_range, Nat.lt_succ_iff] at hi hj
    rcases Nat.lt_or_gt_of_ne hne with hlt | hlt
    · exact ⟨i, j, hlt, hj, hsame⟩
    · exact ⟨j, i, hlt, hi, hsame.symm⟩
  intro m
  induction m using Nat.strong_induction_on with
  | _ m ih =>
    by_cases hm : m < j
    · exact h m (lt_of_lt_of_le hm hj)
    · have hback : step^[m + 1] a = step^[(m - j + i) + 1] a := by
        have hleft : m + 1 = (m - j) + (j + 1) := by omega
        have hright : (m - j + i) + 1 = (m - j) + (i + 1) := by omega
        rw [hleft, hright, Function.iterate_add_apply _ (m - j), Function.iterate_add_apply _ (m - j), hsame]
      rw [hback]
      exact ih _ (by omega)

end Protoc.Lib

namespace Protoc.Lib

/-! ## Recursions that come to an end -/

variable {α β : Type}

/-- `y` is called from `x`. -/
def Calls (calls : α → List α) (y x : α) : Prop := y ∈ calls x

section
variable (calls : α → List α) (run : ℕ → α → Option β)
  (hzero : ∀ x, run 0 x = none)
  (hsucc : ∀ n x, (run (n + 1) x).isSome = true ↔ ∀ y ∈ calls x, (run n y).isSome = true)

include hzero hsucc

theorem isSome_succ {n : ℕ} {x : α} (h : (run n x).isSome = true) : (run (n + 1) x).isSome = true := by
  induction n generalizing x with
  | zero => simp [hzero] at h
  | succ n ih =>
    rw [hsucc] at h ⊢
    exact fun y hy => ih (h y hy)

theorem isSome_of_le {m n : ℕ} {x : α} (hle : m ≤ n) (h : (run m x).isSome = true) :
    (run n x).isSome = true := by
  induction hle with
  | refl => exact h
  | step _ ih => exact isSome_succ calls run hzero hsucc ih

theorem exists_bound {xs : List α} (h : ∀ x ∈ xs, ∃ n, (run n x).isSome = true) :
    ∃ n, ∀ x ∈ xs, (run n x).isSome = true := by
  induction xs with
  | nil => exact ⟨0, by simp⟩
  | cons x xs ih =>
    obtain ⟨m, hm⟩ := h x List.mem_cons_self
    obtain ⟨n, hn⟩ := ih fun y hy => h y (List.mem_cons_of_mem _ hy)
    refine ⟨max m n, fun y hy => ?_⟩
    rcases List.mem_cons.mp hy with rfl | hy
    · exact isSome_of_le calls run hzero hsucc (Nat.le_max_left m n) hm
    · exact isSome_of_le calls run hzero hsucc (Nat.le_max_right m n) (hn y hy)

/-- **A recursion comes to an end** if and only if its argument is accessible. -/
theorem exists_isSome_iff_acc (x : α) : (∃ n, (run n x).isSome = true) ↔ Acc (Calls calls) x := by
  constructor
  · rintro ⟨n, h⟩
    induction n generalizing x with
    | zero => simp [hzero] at h
    | succ n ih =>
      rw [hsucc] at h
      exact ⟨x, fun y hy => ih y (h y hy)⟩
  · intro h
    induction h with
    | intro x _ ih =>
      obtain ⟨n, hn⟩ := exists_bound calls run hzero hsucc ih
      exact ⟨n + 1, (hsucc n x).mpr hn⟩

end

end Protoc.Lib
