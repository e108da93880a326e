import Mathlib.Data.Nat.Count

/-!
# A counter that wraps

A counter takes the values `start`, `start + 1`, ... modulo `period`.  How often is it at most
`bound`?
-/

namespace Protoc.Lib

variable {period bound : ℕ}

theorem count_shift (p : ℕ → Prop) [DecidablePred p] (hp : ∀ k, p (k + period) ↔ p k)
    (start : ℕ) : Nat.count (fun k => p (start + k)) period = Nat.count p period := by
  induction start with
  | zero => simp only [Nat.zero_add]
  | succ start ih =>
    have hends : p (start + period) ↔ p (start + 0) := hp start
    have hfront := Nat.count_succ' (fun k => p (start + k)) period
    have hback := Nat.count_succ (fun k => p (start + k)) period
    have hshift : (fun k => p (start + 1 + k)) = fun k => p (start + (k + 1)) := by
      funext k
      rw [Nat.add_right_comm, Nat.add_assoc]
    simp only [hends] at hback
    simp only [hshift]
    omega

theorem count_first {n : ℕ} (h : n ≤ period) :
    Nat.count (fun k => k % period ≤ bound) n = min n (bound + 1) := by
  induction n with
  | zero => rw [Nat.count_zero, Nat.zero_min]
  | succ n ih =>
    rw [Nat.count_succ, ih (by omega), Nat.mod_eq_of_lt (by omega)]
    split
    · omega
    · omega

/-- **One period** has `bound + 1` small values. -/
theorem count_small (hbound : bound < period) (start : ℕ) :
    Nat.count (fun k => (start + k) % period ≤ bound) period = bound + 1 := by
  have hperiodic : ∀ k, (k + period) % period ≤ bound ↔ k % period ≤ bound := by
    intro k
    rw [Nat.add_mod_right]
  rw [count_shift (fun k => k % period ≤ bound) hperiodic start, count_first (Nat.le_refl period),
    min_eq_right hbound]

/-- In a longer stretch there are no more if and only if all values before the last period are
large. -/
theorem count_small_le_iff (hbound : bound < period) (start n : ℕ) :
    Nat.count (fun k => (start + k) % period ≤ bound) n ≤ bound + 1 ↔
      ∀ k < n - period, bound < (start + k) % period := by
  rcases le_total n period with hle | hge
  · have hmono := Nat.count_monotone (fun k => (start + k) % period ≤ bound) hle
    rw [count_small hbound] at hmono
    exact iff_of_true hmono fun k hk => by omega
  · obtain ⟨m, rfl⟩ := Nat.exists_eq_add_of_le' hge
    have hlast : Nat.count (fun k => (start + (m + k)) % period ≤ bound) period = bound + 1 := by
      simp only [← Nat.add_assoc]
      exact count_small hbound (start + m)
    rw [Nat.count_add, hlast, Nat.add_sub_cancel]
    constructor
    · intro h k hk
      have hzero : Nat.count (fun k => (start + k) % period ≤ bound) m = 0 := by omega
      exact Nat.lt_of_not_le ((Nat.count_iff_forall_not.mp hzero) k hk)
    · intro h
      have hzero : Nat.count (fun k => (start + k) % period ≤ bound) m = 0 :=
        Nat.count_iff_forall_not.mpr fun k hk => Nat.not_le_of_lt (h k hk)
      omega

end Protoc.Lib
