import Mathlib.Algebra.BigOperators.Ring.List
import Protoc.Io.CodedInput

/-!
# The varints read from an array

`ReadVarint32FromArray` and `ReadVarint64FromArray` read a varint whose first byte is
known to continue.  Both decode it as the general definition does, up to the width.
-/

namespace Protoc.Io.CodedInputStream

open Protoc.Lib
open List Nat

/-! ## The bits of a byte -/

theorem and_0x80_eq_zero {b : ℕ} (h : b < 256) : b &&& 0x80 = 0 ↔ b < 0x80 := by
  rw [show 0x80 = 2 ^ 7 by rfl, and_two_pow, testBit_eq_decide_div_mod_eq]
  by_cases hb : b / 2 ^ 7 % 2 = 1
  · simp only [hb, decide_true, Bool.toNat_true]
    omega
  · simp only [hb, decide_false, Bool.toNat_false]
    omega

theorem and_0x7F (b : ℕ) : b &&& 0x7F = b % 128 := and_two_pow_sub_one_eq_mod b 7

theorem byteAt_zero_cons (b : UInt8) (rest : List UInt8) : byteAt (b :: rest) 0 = b.toNat := rfl

theorem byteAt_succ_cons (b : UInt8) (rest : List UInt8) (i : ℕ) :
    byteAt (b :: rest) (i + 1) = byteAt rest i := rfl

theorem byteAt_lt (buffer : List UInt8) (i : ℕ) : byteAt buffer i < 256 := by
  rw [byteAt]
  cases buffer[i]? with
  | none => simp
  | some b => exact b.toNat_lt

variable {buffer : List UInt8}

theorem byteAt_eq {i : ℕ} (h : i < buffer.length) : byteAt buffer i = (buffer[i]).toNat := by
  simp [byteAt, h]

/-! ## Sixty-four bits -/

/-- The sum of the continuing bytes of a varint, at their shifts. -/
def continued (buffer : List UInt8) (n : ℕ) : ℕ :=
  ((List.range n).map fun i => (byteAt buffer i - 0x80) <<< (7 * i)).sum

theorem continued_succ (b : UInt8) (rest : List UInt8) (n : ℕ) :
    continued (b :: rest) (n + 1) = b.toNat - 0x80 + 2 ^ 7 * continued rest n := by
  rw [continued, range_succ_eq_map, map_cons, sum_cons, map_map, continued, ← sum_map_mul_left]
  congr 1
  apply congrArg sum
  apply map_congr_left
  intro i _
  simp only [Function.comp_apply, succ_eq_add_one, byteAt_succ_cons, shiftLeft_eq]
  rw [show 7 * (i + 1) = 7 * i + 7 by ring, pow_add]
  ring

theorem varintValue_eq {k : ℕ} (h : k < buffer.length) :
    varintValue k buffer = continued buffer k + byteAt buffer k <<< (7 * k) := by
  induction k generalizing buffer with
  | zero =>
    cases buffer with
    | nil => simp at h
    | cons b rest => simp [varintValue, continued, byteAt_zero_cons]
  | succ k ih =>
    cases buffer with
    | nil => simp at h
    | cons b rest =>
      rw [varintValue, ih (by simpa using h), continued_succ, byteAt_succ_cons,
        shiftLeft_eq, shiftLeft_eq, show 7 * (k + 1) = 7 * k + 7 by ring, pow_add]
      ring

theorem foldl_add (f : ℕ → ℕ) (l : List ℕ) (a : ℕ) :
    l.foldl (fun result i => result + f i) a = a + (l.map f).sum := by
  induction l generalizing a with
  | nil => simp
  | cons i l ih =>
    rw [foldl_cons, ih, map_cons, sum_cons]
    ring

theorem sum_wrapped {k : ℕ} (h : ∀ i, i < k → 0x80 ≤ byteAt buffer i) :
    ((List.range k).map fun i => (byteAt buffer i + (2 ^ 64 - 0x80)) <<< (7 * i)).sum =
      continued buffer k + 2 ^ 64 * ((List.range k).map fun i => 2 ^ (7 * i)).sum := by
  rw [continued, ← sum_map_mul_left, ← sum_map_add]
  apply congrArg sum
  apply map_congr_left
  intro i hi
  have hcontinues := h i (mem_range.mp hi)
  rw [shiftLeft_eq, shiftLeft_eq,
    show byteAt buffer i + (2 ^ 64 - 0x80) = byteAt buffer i - 0x80 + 2 ^ 64 by omega, Nat.add_mul]

theorem decodeVarint64KnownSize_eq {k : ℕ} (h : k < buffer.length)
    (hcontinues : ∀ i, i < k → 0x80 ≤ byteAt buffer i) :
    decodeVarint64KnownSize (k + 1) buffer = varintValue k buffer % 2 ^ 64 := by
  rw [decodeVarint64KnownSize, Nat.add_sub_cancel, foldl_add, sum_wrapped hcontinues,
    varintValue_eq h, ← add_assoc, add_mul_mod_self_left, add_comm]

/-- `ReadVarint64FromArray`, where the array holds the varint. -/
theorem readVarint64FromArray_eq (hfirst : 0x80 ≤ byteAt buffer 0)
    (hholds : kMaxVarintBytes ≤ buffer.length ∨ ∃ b ∈ buffer, b.toNat < 0x80) : readVarint64FromArray buffer =
      (readVarint kMaxVarintBytes buffer).map fun r => (r.1 % 2 ^ 64, r.2) := by
  rw [readVarint64FromArray]
  cases hfind : (range' 1 (kMaxVarintBytes - 1)).find? fun i => byteAt buffer i < 128 with
  | some k =>
    obtain ⟨hk, hrange, hbefore⟩ := List.find?_range'_eq_some.mp hfind
    simp only [decide_eq_true_eq, mem_range'_1, kMaxVarintBytes] at hk hrange hbefore
    have hcontinues : ∀ i, i < k → 0x80 ≤ byteAt buffer i := by
      intro i hi
      cases i with
      | zero => exact hfirst
      | succ i => simpa using hbefore (i + 1) (by omega) hi
    have hlen : k < buffer.length := by
      by_contra hge
      rcases hholds with hten | ⟨b, hmem, hb⟩
      · simp only [kMaxVarintBytes] at hten
        omega
      · obtain ⟨j, hj, rfl⟩ := mem_iff_getElem.mp hmem
        have := hcontinues j (by omega)
        rw [byteAt_eq hj] at this
        omega
    rw [readVarint_of_terminator (k := k) (by simp only [kMaxVarintBytes]; omega) hlen
      (by rw [← byteAt_eq hlen]; exact hk)
      (fun i hi => by rw [← byteAt_eq (by omega)]; exact hcontinues i hi)]
    simp [decodeVarint64KnownSize_eq hlen hcontinues]
  | none =>
    have hnone := List.find?_range'_eq_none.mp hfind
    rw [readVarint_of_unterminated]
    · rfl
    · intro i hi hin
      rw [← byteAt_eq hi]
      cases i with
      | zero => exact hfirst
      | succ i => simpa using hnone (i + 1) (by omega) (by simp only [kMaxVarintBytes] at hin ⊢; omega)

/-! ## Thirty-two bits -/

theorem add_high_mod (result x : ℕ) {i : ℕ} (h : 5 ≤ i) :
    (result + x * 2 ^ (7 * i)) % 2 ^ 32 = result % 2 ^ 32 := by
  obtain ⟨j, hj⟩ : ∃ j, 7 * i = 32 + j := ⟨7 * i - 32, by omega⟩
  rw [hj, pow_add, show x * (2 ^ 32 * 2 ^ j) = 2 ^ 32 * (x * 2 ^ j) by ring,
    add_mul_mod_self_left]

/-- A byte that continues adds its low bits, whether or not its high bit is taken off. -/
theorem varint32Bytes_eq {i : ℕ} (hi : i ≤ kMaxVarintBytes) (result : ℕ) (buffer : List UInt8) :
    varint32Bytes i result buffer = (readVarint (kMaxVarintBytes - i) buffer).map fun r =>
        ((result + r.1 * 2 ^ (7 * i)) % 2 ^ 32, i + r.2) := by
  induction buffer generalizing i result with
  | nil => cases kMaxVarintBytes - i <;> rfl
  | cons b rest ih =>
    have hb := b.toNat_lt
    by_cases hten : i = kMaxVarintBytes
    · subst hten
      simp [varint32Bytes, readVarint]
    · have hlt : i < kMaxVarintBytes := by omega
      obtain ⟨n, hn⟩ : ∃ n, kMaxVarintBytes - i = n + 1 := ⟨kMaxVarintBytes - (i + 1), by omega⟩
      have hn' : kMaxVarintBytes - (i + 1) = n := by omega
      rw [varint32Bytes, if_pos hlt, hn]
      simp only [and_0x80_eq_zero hb, shiftLeft_eq]
      by_cases hend : b.toNat < 0x80
      · rw [if_pos hend, readVarint_cons_of_lt rest hend]
        by_cases hfive : i < 5
        · simp [hfive]
        · rw [if_neg hfive, Option.map_some, add_high_mod result b.toNat (not_lt.mp hfive)]
      · have hcontinues : 0x80 ≤ b.toNat := by omega
        rw [if_neg hend, readVarint_cons_of_le rest hcontinues, ih (by omega), hn', Option.map_map]
        congr 1
        funext r
        simp only [Function.comp_apply, Prod.mk.injEq]
        refine ⟨?_, by omega⟩
        have hpow : 2 ^ (7 * (i + 1)) = 0x80 * 2 ^ (7 * i) := by
          rw [show 7 * (i + 1) = 7 * i + 7 by ring, pow_add]
          ring
        have hsplit : b.toNat * 2 ^ (7 * i) =
            (b.toNat - 0x80) * 2 ^ (7 * i) + 0x80 * 2 ^ (7 * i) := by
          rw [← Nat.add_mul, Nat.sub_add_cancel hcontinues]
        have hvalue : (b.toNat - 0x80 + 0x80 * r.1) * 2 ^ (7 * i) =
            (b.toNat - 0x80) * 2 ^ (7 * i) + r.1 * 2 ^ (7 * (i + 1)) := by
          rw [hpow]
          ring
        rw [hvalue]
        rcases Nat.lt_trichotomy i 4 with hfour | rfl | hfour
        · rw [if_pos hfour, if_pos (show i < 5 by omega), hsplit, ← add_assoc, Nat.add_sub_cancel,
            add_assoc]
        · -- the high bit of the fifth byte stays, above the low 32 bits
          rw [if_neg (show ¬4 < 4 by omega), if_pos (show 4 < 5 by omega), hsplit]
          omega
        · rw [if_neg (show ¬i < 4 by omega), if_neg (show ¬i < 5 by omega), ← hvalue,
            add_high_mod result _ (succ_le_of_lt hfour),
            add_high_mod result _ (show 5 ≤ i + 1 by omega)]

theorem readVarint32FromArray_eq (hfirst : 0x80 ≤ byteAt buffer 0) :
    readVarint32FromArray (byteAt buffer 0) buffer =
      (readVarint kMaxVarintBytes buffer).map fun r => (r.1 % 2 ^ 32, r.2) := by
  cases buffer with
  | nil => simp [byteAt] at hfirst
  | cons b rest =>
    rw [byteAt_zero_cons] at hfirst ⊢
    rw [readVarint32FromArray, drop_one, tail_cons, varint32Bytes_eq (by decide),
      show kMaxVarintBytes = 9 + 1 by rfl, readVarint_cons_of_le rest hfirst, Option.map_map]
    refine congrArg (Option.map · (readVarint 9 rest)) (funext fun r => ?_)
    have hwrapped : b.toNat + (2 ^ 32 - 0x80) + r.1 * 2 ^ (7 * 1) =
        b.toNat - 0x80 + 0x80 * r.1 + 2 ^ 32 := by omega
    simp only [Function.comp_apply, hwrapped, add_mod_right, add_comm 1]

end Protoc.Io.CodedInputStream
