import Mathlib.Algebra.Group.Nat.Defs
import Mathlib.Data.List.Basic

/-!
# Cyclic redundancy checks

The checksum of a reflected polynomial, one bit at a time, and by a table of the remainders of
all low parts.
-/

namespace Protoc.Lib.Crc

open BitVec

variable {w : ℕ} (poly : BitVec w)

def bitStep (x : BitVec w) : BitVec w := if x.getLsbD 0 then (x >>> 1) ^^^ poly else x >>> 1

def steps : ℕ → BitVec w → BitVec w
  | 0, x => x
  | n + 1, x => bitStep poly (steps n x)

variable {poly}

theorem bitStep_xor (x y : BitVec w) : bitStep poly (x ^^^ y) = bitStep poly x ^^^ bitStep poly y := by
  have hswap : ∀ a b : BitVec w, a ^^^ b ^^^ poly = a ^^^ poly ^^^ b := fun a b => by
    rw [BitVec.xor_assoc, BitVec.xor_comm b, BitVec.xor_assoc]
  have hcancel : ∀ a b : BitVec w, a ^^^ poly ^^^ (b ^^^ poly) = a ^^^ b := fun a b => by
    rw [← BitVec.xor_assoc, ← hswap a b, BitVec.xor_assoc _ poly poly, BitVec.xor_self, xor_zero]
  rw [bitStep, bitStep, bitStep, getLsbD_xor, ushiftRight_xor_distrib]
  cases x.getLsbD 0 <;> cases y.getLsbD 0
  · rfl
  · exact BitVec.xor_assoc _ _ _
  · exact hswap _ _
  · exact (hcancel _ _).symm

theorem steps_xor (n : ℕ) (x y : BitVec w) : steps poly n (x ^^^ y) = steps poly n x ^^^ steps poly n y := by
  induction n with
  | zero => rfl
  | succ n ih => rw [steps, steps, steps, ih, bitStep_xor]

theorem steps_of_low {n : ℕ} {x : BitVec w} (h : ∀ i < n, x.getLsbD i = false) : steps poly n x = x >>> n := by
  induction n with
  | zero => exact (ushiftRight_zero x).symm
  | succ n ih =>
    have hlow : (x >>> n).getLsbD 0 = false := by
      rw [getLsbD_ushiftRight]
      exact h n (Nat.lt_succ_self n)
    rw [steps, ih fun i hi => h i (Nat.lt_succ_of_lt hi), bitStep, hlow, if_neg Bool.false_ne_true,
      shiftRight_add]

/-- **A table** of the remainders of the low bits is enough. -/
theorem steps_eq {n : ℕ} {x low : BitVec w} (h : ∀ i < n, low.getLsbD i = x.getLsbD i)
    (hlow : low >>> n = 0) : steps poly n x = steps poly n low ^^^ (x >>> n) := by
  have hsplit : x = low ^^^ (low ^^^ x) := by
    rw [← xor_assoc, BitVec.xor_self, BitVec.zero_xor]
  have hrest : ∀ i < n, (low ^^^ x).getLsbD i = false := fun i hi => by
    rw [getLsbD_xor, h i hi, Bool.xor_self]
  conv_lhs => rw [hsplit, steps_xor, steps_of_low hrest, ushiftRight_xor_distrib, hlow]
  congr 1
  exact BitVec.zero_xor

def remainder (poly : BitVec 32) : BitVec 32 → List UInt8 → BitVec 32
  | x, [] => x
  | x, c :: bytes => remainder poly (steps poly 8 (x ^^^ c.toBitVec.setWidth 32)) bytes

def crc32 (bytes : List UInt8) : BitVec 32 := ~~~ remainder 0xEDB88320 (allOnes 32) bytes

end Protoc.Lib.Crc
