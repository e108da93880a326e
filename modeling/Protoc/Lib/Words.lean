import Mathlib.Data.List.Basic
import Mathlib.Data.Nat.Bitwise

/-!
# Bytes and words

The bytes of a number, least significant first.  Masks, shifts and the union of disjoint bits, as arithmetic on the numbers.
-/

namespace Protoc.Lib

/-! ## Bytes -/

/-- The `n` low bytes of `v`, least significant first. -/
def leBytes : ℕ → ℕ → List UInt8
  | 0, _ => []
  | n + 1, v => UInt8.ofNat v :: leBytes n (v / 256)

@[simp] theorem length_leBytes (n v : ℕ) : (leBytes n v).length = n := by
  induction n generalizing v with
  | zero => rfl
  | succ n ih => simp [leBytes, ih]

/-- The number whose bytes are these, least significant first. -/
def leValue : List UInt8 → ℕ
  | [] => 0
  | b :: rest => b.toNat + 256 * leValue rest

theorem leValue_leBytes {n v : ℕ} (h : v < 256 ^ n) : leValue (leBytes n v) = v := by
  induction n generalizing v with
  | zero => exact (Nat.lt_one_iff.mp h).symm
  | succ n ih =>
    have hquot : v / 256 < 256 ^ n := by
      rw [pow_succ] at h
      omega
    rw [leBytes, leValue, ih hquot, UInt8.toNat_ofNat']
    omega

theorem forall_byte {P : UInt8 → Prop} (h : ∀ n < 256, P (UInt8.ofNat n)) (c : UInt8) : P c := by
  have hc := h c.toNat c.toNat_lt
  rwa [UInt8.ofNat_toNat] at hc

end Protoc.Lib

namespace Protoc.Lib

/-! ## Bits of 32-bit words -/

variable {n : ℕ}

theorem toNat_and_of {x m : UInt32} (hm : m.toNat = 2 ^ n - 1) : (x &&& m).toNat = x.toNat % 2 ^ n := by
  rw [UInt32.toNat_and, hm]
  exact Nat.and_two_pow_sub_one_eq_mod _ _

theorem toNat_shiftRight_of {x k : UInt32} (hk : k.toNat % 32 = n) : (x >>> k).toNat = x.toNat / 2 ^ n := by
  rw [UInt32.toNat_shiftRight, hk, Nat.shiftRight_eq_div_pow]

theorem toNat_shiftLeft_of {x k : UInt32} (hk : k.toNat % 32 = n)
    (hx : x.toNat * 2 ^ n < 2 ^ 32) : (x <<< k).toNat = x.toNat * 2 ^ n := by
  rw [UInt32.toNat_shiftLeft, hk, Nat.shiftLeft_eq, Nat.mod_eq_of_lt hx]

theorem toNat_and_mid {x m : UInt32} {n k : ℕ} (hm : m.toNat = (2 ^ n - 1) * 2 ^ k) :
    (x &&& m).toNat = x.toNat / 2 ^ k % 2 ^ n * 2 ^ k := by
  rw [UInt32.toNat_and, hm]
  refine Nat.eq_of_testBit_eq fun i => ?_
  rw [Nat.testBit_and, Nat.testBit_mul_two_pow, Nat.testBit_mul_two_pow, Nat.testBit_mod_two_pow,
    Nat.testBit_div_two_pow, Nat.testBit_two_pow_sub_one]
  by_cases hk : k ≤ i
  · simp [hk, Bool.and_comm]
  · simp [hk]

theorem toNat_mid_shiftLeft {x m shift : UInt32} {n k j : ℕ} (hm : m.toNat = (2 ^ n - 1) * 2 ^ k)
    (hshift : shift.toNat % 32 = j) (hle : n + k + j ≤ 32) :
    ((x &&& m) <<< shift).toNat = x.toNat / 2 ^ k % 2 ^ n * 2 ^ (k + j) := by
  have hmid := toNat_and_mid (x := x) hm
  have hlt : x.toNat / 2 ^ k % 2 ^ n < 2 ^ n := Nat.mod_lt _ (Nat.two_pow_pos n)
  have hfits : x.toNat / 2 ^ k % 2 ^ n * 2 ^ k * 2 ^ j < 2 ^ 32 := by
    calc x.toNat / 2 ^ k % 2 ^ n * 2 ^ k * 2 ^ j
        = x.toNat / 2 ^ k % 2 ^ n * 2 ^ (k + j) := by rw [mul_assoc, ← pow_add]
      _ < 2 ^ n * 2 ^ (k + j) := Nat.mul_lt_mul_of_pos_right hlt (Nat.two_pow_pos _)
      _ = 2 ^ (n + k + j) := by rw [← pow_add, add_assoc]
      _ ≤ 2 ^ 32 := Nat.pow_le_pow_right (by decide) hle
  rw [toNat_shiftLeft_of hshift (by rwa [hmid]), hmid, mul_assoc, ← pow_add]

theorem toNat_or_of_dvd {x y : UInt32} (hx : 2 ^ n ∣ x.toNat) (hy : y.toNat < 2 ^ n) :
    (x ||| y).toNat = x.toNat + y.toNat := by
  obtain ⟨a, ha⟩ := hx
  rw [UInt32.toNat_or, ha, Nat.two_pow_add_eq_or_of_lt hy]

end Protoc.Lib
