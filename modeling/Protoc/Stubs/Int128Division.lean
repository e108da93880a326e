import Protoc.Stubs.Int128

/-!
# Division of unsigned integers of 128 bits

The quotient is built bit by bit: the divisor is shifted until its highest bit stands below that
of the dividend, and is subtracted where it fits.
-/

namespace Protoc.Stubs

open Nat

/-- `STEP`, on a word and the position found so far. -/
def flsStep (sh : ℕ) (s : ℕ × ℕ) : ℕ × ℕ := if 1 <<< sh ≤ s.1 then (s.1 >>> sh, s.2 ||| sh) else s

/-- `Fls64`. -/
def fls64 (n : UInt64) : ℕ :=
  let s := flsStep 0x20 (n.toNat, 0)
  -- `n32`
  let s := (s.1 % 2 ^ 32, s.2)
  let s := flsStep 0x10 s
  let s := flsStep 0x08 s
  let s := flsStep 0x04 s
  s.2 + ((0x3333333322221100 >>> (s.1 <<< 2)) &&& 0x3)

namespace Uint128

/-- `Fls128`. -/
def fls128 (n : Uint128) : ℕ := if n.hi ≠ 0 then fls64 n.hi + 64 else fls64 n.lo

/-- The loop of `DivModImpl`: the quotient, and what is left of the dividend. -/
def divModLoop (divisor : Uint128) (difference : ℤ) (quotient dividend : Uint128) : Uint128 × Uint128 :=
  if 0 ≤ difference then
    let quotient := quotient.shiftLeftAssign 1
    let shiftedDivisor := divisor.shiftLeft difference.toNat
    if shiftedDivisor.le dividend then
      divModLoop divisor (difference - 1) (quotient.add (ofUInt64 1)) (dividend.sub shiftedDivisor)
    else divModLoop divisor (difference - 1) quotient dividend
  else (quotient, dividend)
termination_by (difference + 1).toNat

/-- `DivModImpl`; a division by zero is fatal. -/
def divModImpl (dividend divisor : Uint128) : Option (Uint128 × Uint128) :=
  if divisor.eq ⟨0, 0⟩ then none
  else if dividend.lt divisor then some (⟨0, 0⟩, dividend)
  else
    let dividendBitLength := dividend.fls128
    let divisorBitLength := divisor.fls128
    some (divModLoop divisor ((dividendBitLength : ℤ) - divisorBitLength) ⟨0, 0⟩ dividend)

/-- `operator /=`. -/
def div (a divisor : Uint128) : Option Uint128 := (divModImpl a divisor).map Prod.fst

/-- `operator %=`. -/
def mod (a divisor : Uint128) : Option Uint128 := (divModImpl a divisor).map Prod.snd

end Uint128

/-! ## The last set bit -/

theorem log2_div_two_pow {n sh : ℕ} (h : 2 ^ sh ≤ n) : n.log2 = (n / 2 ^ sh).log2 + sh := by
  have hpos := Nat.two_pow_pos sh
  have hn : n ≠ 0 := by omega
  have hdiv : n / 2 ^ sh ≠ 0 := (Nat.div_pos h hpos).ne'
  obtain ⟨hle, hlt⟩ := (log2_eq_iff hdiv).mp rfl
  rw [log2_eq_iff hn]
  generalize (n / 2 ^ sh).log2 = k at hle hlt ⊢
  constructor
  · rw [pow_add]
    exact (Nat.le_div_iff_mul_le hpos).mp hle
  · rw [add_right_comm, pow_add]
    exact (Nat.div_lt_iff_lt_mul hpos).mp hlt

theorem flsStep_spec {k : ℕ} {s : ℕ × ℕ} (hn : s.1 ≠ 0) (hlt : s.1 < 2 ^ (2 ^ k * 2)) (hpos : 2 ^ (k + 1) ∣ s.2) :
    (flsStep (2 ^ k) s).1 ≠ 0 ∧ (flsStep (2 ^ k) s).1 < 2 ^ 2 ^ k ∧ 2 ^ k ∣ (flsStep (2 ^ k) s).2 ∧
      (flsStep (2 ^ k) s).2 + (flsStep (2 ^ k) s).1.log2 = s.2 + s.1.log2 := by
  obtain ⟨n, pos⟩ := s
  dsimp only at hn hlt hpos
  have hone : 1 <<< 2 ^ k = 2 ^ 2 ^ k := by rw [shiftLeft_eq, one_mul]
  have hdvd : 2 ^ k ∣ pos := Nat.dvd_trans (Nat.pow_dvd_pow 2 (le_succ k)) hpos
  rw [flsStep, hone]
  dsimp only
  split
  · next hle =>
    obtain ⟨c, rfl⟩ := hpos
    have hbit : 2 ^ (k + 1) * c ||| 2 ^ k = 2 ^ (k + 1) * c + 2 ^ k :=
      (two_pow_add_eq_or_of_lt (Nat.pow_lt_pow_right Nat.one_lt_two (lt_succ_self k)) c).symm
    rw [shiftRight_eq_div_pow, hbit]
    refine ⟨(Nat.div_pos hle (Nat.two_pow_pos _)).ne', ?_, Nat.dvd_add hdvd (Nat.dvd_refl _), ?_⟩
    · rw [Nat.div_lt_iff_lt_mul (Nat.two_pow_pos _), ← pow_add, ← Nat.mul_two]
      exact hlt
    · dsimp only
      rw [log2_div_two_pow hle]
      omega
  · next hsmall => exact ⟨hn, not_le.mp hsmall, hdvd, rfl⟩

theorem flsTable : ∀ n < 16, n ≠ 0 → (0x3333333322221100 >>> (n <<< 2)) &&& 0x3 = n.log2 := by
  decide

theorem fls64_eq {n : UInt64} (hn : n ≠ 0) : fls64 n = n.toNat.log2 := by
  have hne : (n.toNat, 0).1 ≠ 0 := fun h => hn (UInt64.toNat_inj.mp h)
  obtain ⟨hne₁, hlt₁, hdvd₁, hsum₁⟩ := flsStep_spec (k := 5) hne n.toNat_lt (Nat.dvd_zero _)
  have hwidths : (4 : ℕ) = 2 ^ 2 ∧ (8 : ℕ) = 2 ^ 3 ∧ (16 : ℕ) = 2 ^ 4 ∧ (32 : ℕ) = 2 ^ 5 := by decide
  rw [fls64, hwidths.1, hwidths.2.1, hwidths.2.2.1, hwidths.2.2.2]
  generalize flsStep (2 ^ 5) (n.toNat, 0) = s at *
  rw [mod_eq_of_lt hlt₁]
  obtain ⟨hne₂, hlt₂, hdvd₂, hsum₂⟩ := flsStep_spec (k := 4) hne₁ hlt₁ hdvd₁
  generalize flsStep (2 ^ 4) (s.1, s.2) = s₂ at *
  obtain ⟨hne₃, hlt₃, hdvd₃, hsum₃⟩ := flsStep_spec (k := 3) hne₂ hlt₂ hdvd₂
  generalize flsStep (2 ^ 3) s₂ = s₃ at *
  obtain ⟨hne₄, hlt₄, hdvd₄, hsum₄⟩ := flsStep_spec (k := 2) hne₃ hlt₃ hdvd₃
  generalize flsStep (2 ^ 2) s₃ = s₄ at *
  rw [flsTable s₄.1 hlt₄ hne₄, hsum₄, hsum₃, hsum₂, hsum₁]
  exact zero_add _

namespace Uint128
variable {a b : Uint128}

theorem fls128_eq (h : a.toNat ≠ 0) : a.fls128 = a.toNat.log2 := by
  have hlo := a.lo.toNat_lt
  rw [fls128]
  split
  · next hhi =>
    have hpos : a.hi.toNat ≠ 0 := fun hzero => hhi (UInt64.toNat_inj.mp hzero)
    have hdiv : a.toNat / 2 ^ 64 = a.hi.toNat := by
      rw [toNat]
      omega
    have hle : 2 ^ 64 ≤ a.toNat := by
      rw [toNat]
      omega
    rw [fls64_eq hhi, log2_div_two_pow hle, hdiv]
  · next hhi =>
    have hzero : a.hi.toNat = 0 := congrArg UInt64.toNat (not_not.mp hhi)
    have hsame : a.toNat = a.lo.toNat := by rw [toNat, hzero, zero_mul, zero_add]
    rw [hsame] at h ⊢
    exact fls64_eq fun heq => h (congrArg UInt64.toNat heq)

/-! ## Division -/

/-- **The loop divides.**  With `n` bits of the quotient to go, the quotient so far stands for as
many times the shifted divisor, and what is left is below it. -/
theorem divModLoop_spec {divisor quotient dividend : Uint128} {n total : ℕ} (hdivisor : 0 < divisor.toNat)
    (hfits : ∀ d < n, divisor.toNat * 2 ^ d < 2 ^ 128) (htotal : total < 2 ^ 128)
    (hleft : dividend.toNat < divisor.toNat * 2 ^ n)
    (hsum : quotient.toNat * (divisor.toNat * 2 ^ n) + dividend.toNat = total) :
    (divModLoop divisor ((n : ℤ) - 1) quotient dividend).1.toNat * divisor.toNat +
        (divModLoop divisor ((n : ℤ) - 1) quotient dividend).2.toNat = total ∧
      (divModLoop divisor ((n : ℤ) - 1) quotient dividend).2.toNat < divisor.toNat := by
  induction n generalizing quotient dividend with
  | zero =>
    rw [divModLoop, if_neg (by decide)]
    rw [Nat.pow_zero, mul_one] at hleft hsum
    exact ⟨hsum, hleft⟩
  | succ n ih =>
    have hdifference : ((n + 1 : ℕ) : ℤ) - 1 = n := by omega
    have hshift : (divisor.shiftLeft n).toNat = divisor.toNat * 2 ^ n := by
      rw [toNat_shiftLeft, mod_eq_of_lt (hfits n (lt_succ_self n))]
    have hpos : 0 < divisor.toNat * 2 ^ n := Nat.mul_pos hdivisor (Nat.two_pow_pos n)
    have hdouble : divisor.toNat * 2 ^ (n + 1) = 2 * (divisor.toNat * 2 ^ n) := by
      rw [pow_succ]
      ring
    rw [hdouble] at hleft hsum
    have hquotient : (quotient.shiftLeftAssign 1).toNat = 2 * quotient.toNat := by
      have hle : quotient.toNat * 2 ≤ quotient.toNat * (2 * (divisor.toNat * 2 ^ n)) :=
        Nat.mul_le_mul_left _ (by omega)
      rw [shiftLeftAssign_eq, toNat_shiftLeft, Nat.pow_one, mod_eq_of_lt (by omega), mul_comm]
    have hnext : 2 * quotient.toNat * (divisor.toNat * 2 ^ n) + dividend.toNat = total := by
      rw [← hsum]
      ring
    have hfits' : ∀ d < n, divisor.toNat * 2 ^ d < 2 ^ 128 := fun d hd => hfits d (lt_succ_of_lt hd)
    rw [hdifference, divModLoop, if_pos (Int.natCast_nonneg n), Int.toNat_natCast]
    dsimp only
    split
    · next hfit =>
      rw [le_iff, hshift] at hfit
      have hrest : (dividend.sub (divisor.shiftLeft n)).toNat = dividend.toNat - divisor.toNat * 2 ^ n := by
        rw [toNat_sub, hshift]
        omega
      have hmore : ((quotient.shiftLeftAssign 1).add (ofUInt64 1)).toNat = 2 * quotient.toNat + 1 := by
        have hle : 2 * quotient.toNat * 1 ≤ 2 * quotient.toNat * (divisor.toNat * 2 ^ n) :=
          Nat.mul_le_mul_left _ hpos
        rw [toNat_add, hquotient, toNat_ofUInt64, UInt64.toNat_one, mod_eq_of_lt (by omega)]
      refine ih hfits' (by omega) ?_
      rw [hmore, hrest, Nat.add_mul, one_mul]
      omega
    · next hnot =>
      rw [Bool.not_eq_true, ← Bool.not_eq_true, le_iff, hshift, not_le] at hnot
      refine ih hfits' hnot ?_
      rw [hquotient]
      exact hnext

theorem toNat_zero : (⟨0, 0⟩ : Uint128).toNat = 0 := rfl

/-- **`DivModImpl` divides**, except by zero. -/
theorem divModImpl_spec (h : b.toNat ≠ 0) : ∃ quotient remainder, divModImpl a b = some (quotient, remainder) ∧
      quotient.toNat * b.toNat + remainder.toNat = a.toNat ∧ remainder.toNat < b.toNat := by
  have hzero : b.eq ⟨0, 0⟩ ≠ true := by
    rw [Ne, eq_iff]
    exact h
  rw [divModImpl, if_neg hzero]
  split
  · next hlt => exact ⟨_, _, rfl, by rw [toNat_zero, zero_mul, zero_add], (lt_iff a b).mp hlt⟩
  · next hge =>
    rw [lt_iff, not_lt] at hge
    have ha : a.toNat ≠ 0 := by omega
    obtain ⟨hble, hblt⟩ := (log2_eq_iff h).mp rfl
    obtain ⟨hale, halt⟩ := (log2_eq_iff ha).mp rfl
    have hlog : b.toNat.log2 ≤ a.toNat.log2 := (le_log2 ha).mpr (le_trans hble hge)
    have halog : a.toNat.log2 < 128 := (log2_lt ha).mpr a.toNat_lt
    obtain ⟨n, hn⟩ := Nat.le.dest hlog
    have hdifference : (a.toNat.log2 : ℤ) - b.toNat.log2 = ((n + 1 : ℕ) : ℤ) - 1 := by omega
    have hfits : ∀ d < n + 1, b.toNat * 2 ^ d < 2 ^ 128 := by
      intro d hd
      calc b.toNat * 2 ^ d < 2 ^ (b.toNat.log2 + 1) * 2 ^ d :=
            Nat.mul_lt_mul_of_pos_right hblt (Nat.two_pow_pos d)
        _ = 2 ^ (b.toNat.log2 + 1 + d) := (pow_add ..).symm
        _ ≤ 2 ^ 128 := Nat.pow_le_pow_right Nat.two_pos (by omega)
    have hleft : a.toNat < b.toNat * 2 ^ (n + 1) := by
      calc a.toNat < 2 ^ (a.toNat.log2 + 1) := halt
        _ = 2 ^ b.toNat.log2 * 2 ^ (n + 1) := by rw [← pow_add, ← hn, add_assoc]
        _ ≤ b.toNat * 2 ^ (n + 1) := Nat.mul_le_mul_right _ hble
    have hsum : (⟨0, 0⟩ : Uint128).toNat * (b.toNat * 2 ^ (n + 1)) + a.toNat = a.toNat := by
      rw [toNat_zero, zero_mul, zero_add]
    dsimp only
    rw [fls128_eq ha, fls128_eq h, hdifference]
    exact ⟨_, _, rfl, divModLoop_spec (Nat.pos_of_ne_zero h) hfits a.toNat_lt hleft hsum⟩

/-! ## The operators -/

/-- **`uint128` is arithmetic modulo `2 ^ 128`.** -/
theorem arithmetic (a b : Uint128) (amount : ℕ) : (a.add b).toNat = (a.toNat + b.toNat) % 2 ^ 128 ∧
      (a.sub b).toNat = (a.toNat + (2 ^ 128 - b.toNat)) % 2 ^ 128 ∧
      a.neg.toNat = (2 ^ 128 - a.toNat) % 2 ^ 128 ∧
      (a.mul b).toNat = a.toNat * b.toNat % 2 ^ 128 ∧
      ((a.shiftLeft amount).toNat = a.toNat * 2 ^ amount % 2 ^ 128 ∧
        a.shiftLeftAssign amount = a.shiftLeft amount) ∧
      ((a.shiftRight amount).toNat = a.toNat / 2 ^ amount ∧
        a.shiftRightAssign amount = a.shiftRight amount) ∧
      ((a.lt b = true ↔ a.toNat < b.toNat) ∧ (a.gt b = true ↔ b.toNat < a.toNat) ∧
        (a.le b = true ↔ a.toNat ≤ b.toNat) ∧ (a.ge b = true ↔ b.toNat ≤ a.toNat) ∧
        (a.eq b = true ↔ a.toNat = b.toNat)) ∧
      (b.toNat ≠ 0 → ∃ quotient remainder, divModImpl a b = some (quotient, remainder) ∧
        quotient.toNat * b.toNat + remainder.toNat = a.toNat ∧ remainder.toNat < b.toNat) := by
  refine ⟨toNat_add a b, toNat_sub a b, toNat_neg a, toNat_mul a b,
    ⟨toNat_shiftLeft a amount, shiftLeftAssign_eq a amount⟩,
    ⟨toNat_shiftRight a amount, shiftRightAssign_eq a amount⟩, ⟨lt_iff a b, ?_, le_iff a b, ?_, eq_iff a b⟩,
    fun h => divModImpl_spec h⟩
  · rw [gt_eq, lt_iff]
  · rw [ge_eq, le_iff]

/-- `2 ^ 64 + 5` by `3`. -/
theorem arithmetic_aboveWord :
    ∃ quotient remainder, divModImpl ⟨1, 5⟩ ⟨0, 3⟩ = some (quotient, remainder) ∧
      quotient.toNat * 3 + remainder.toNat = 2 ^ 64 + 5 ∧ remainder.toNat < 3 :=
  (arithmetic ⟨1, 5⟩ ⟨0, 3⟩ 0).2.2.2.2.2.2.2 (by decide)

end Uint128

end Protoc.Stubs
