import Protoc.Lib.Decimal
import Protoc.Stubs.IntText

/-!
# The printers at the end of the buffer

These printers write the digits from the last one on.
-/

namespace Protoc.Stubs

open Protoc.Lib
open List Option UInt8 Int

variable {front back text : List UInt8} {r : UInt8}

/-! ## Pointers -/

/-- A pointer to the first byte of `back`. -/
def Cursor.at (front back : List UInt8) : Cursor := ⟨front ++ back, front.length⟩

theorem Cursor.poke_at (c : ℤ) (front back : List UInt8) (r : UInt8) :
    (Cursor.at front (r :: back)).poke c = some (.at front (ofInt c :: back)) := by
  have hin : (0 : ℤ) ≤ front.length ∧ (front.length : ℤ) < (front ++ r :: back).length := by
    rw [length_append, length_cons]
    omega
  rw [Cursor.poke]
  simp only [Cursor.at, if_pos hin, toNat_natCast, set_append_right _ _ le_rfl, Nat.sub_self, set_cons_zero]

theorem Cursor.put_at (c : ℤ) (front back : List UInt8) (r : UInt8) :
    (Cursor.at front (r :: back)).put c = some (.at (front ++ [ofInt c]) back) := by
  rw [Cursor.put, poke_at]
  simp [Cursor.at]

theorem Cursor.putBack_at (c : ℤ) (front back : List UInt8) (x r : UInt8) :
    (Cursor.at (front ++ [x]) (r :: back)).putBack c = some (.at front (x :: ofInt c :: back)) := by
  rw [Cursor.putBack, poke_at]
  simp [Cursor.at]

theorem ofInt_digitByte (d : ℕ) : ofInt (48 + (d : ℤ)) = digitByte d := by
  have htoNat : ((48 + (d : ℤ)) % 2 ^ 8).toNat = (48 + d) % 2 ^ 8 := by omega
  rw [ofInt, htoNat, ofNat_mod_size, digitByte]

theorem ofInt_digit (n : ℕ) : ofInt (48 + (n : ℤ).tmod 10) = digitByte (n % 10) := by
  rw [← ofInt_digitByte, tmod_eq_emod_of_nonneg (natCast_nonneg n)]
  rfl

theorem ofInt_zero : ofInt 0 = 0 := rfl

theorem ofInt_minus : ofInt 45 = 45 := rfl

/-! ## The digits from the last one on -/

/-- The text ends in front of the zero byte, and has none. -/
structure CStringAt (buffer : List UInt8) (p : ℤ) (text : List UInt8) : Prop where
  holds : ∃ front back, buffer = front ++ text ++ 0 :: back ∧ p = front.length
  no_zero : 0 ∉ text

theorem digitsLoop_at (n : ℕ) (front back : List UInt8) (r : UInt8)
    (hroom : (decimal n).length ≤ front.length) :
    ∃ front' x, digitsLoop n (.at front (r :: back)) = some (.at front' (x :: (decimal n ++ back))) ∧
      front'.length + (decimal n).length = front.length := by
  induction n using Nat.strongRecOn generalizing front back r with
  | ind n ih =>
    have hne : front ≠ [] := by
      rintro rfl
      exact decimal_ne_nil n (List.length_eq_zero_iff.mp (Nat.le_zero.mp hroom))
    obtain ⟨front, x, rfl⟩ := eq_nil_or_concat front |>.resolve_left hne
    have hdiv : (n : ℤ).tdiv 10 = (n / 10 : ℕ) := by
      rw [tdiv_eq_ediv_of_nonneg (natCast_nonneg n)]
      rfl
    rw [digitsLoop, concat_eq_append, Cursor.putBack_at, bind_some, hdiv, ofInt_digit]
    by_cases hlt : n < 10
    · have hzero : ¬ (0 : ℤ) < (n / 10 : ℕ) := by omega
      refine ⟨front, x, ?_, ?_⟩
      · rw [if_neg hzero, decimal_of_lt hlt, Nat.mod_eq_of_lt hlt]
        rfl
      · rw [decimal_of_lt hlt]
        simp
    · have hpos : (0 : ℤ) < (n / 10 : ℕ) := by omega
      rw [decimal_step (not_lt.mp hlt)] at hroom ⊢
      simp only [length_append, concat_eq_append, length_singleton] at hroom ⊢
      obtain ⟨front', x', hloop, hlength⟩ :=
        ih (n / 10) (by omega) front (digitByte (n % 10) :: back) x (by omega)
      refine ⟨front', x', ?_, by omega⟩
      rw [if_pos hpos, hloop, append_assoc]
      rfl

theorem zero_not_mem_decimal (n : ℕ) : 0 ∉ decimal n := fun h =>
  absurd (isDecimal_decimal n 0 h) (by decide)

theorem zero_not_mem_decimalInt (i : ℤ) : 0 ∉ decimalInt i := by
  rw [decimalInt]
  split
  · simpa using zero_not_mem_decimal i.natAbs
  · exact zero_not_mem_decimal i.natAbs

theorem check_eq {t : IntType} {n : ℤ} (h : t.min ≤ n ∧ n ≤ t.max) : t.check n = some n := if_pos h

theorem exists_at {buffer : List UInt8} {offset : ℕ} (h : offset < buffer.length) :
    ∃ front r back, front.length = offset ∧ (⟨buffer, offset⟩ : Cursor) = .at front (r :: back) := by
  have hsplit : buffer = buffer.take offset ++ buffer[offset] :: buffer.drop (offset + 1) := by
    rw [← drop_eq_getElem_cons h, take_append_drop]
  have hlength : (buffer.take offset).length = offset := length_take_of_le (le_of_lt h)
  refine ⟨buffer.take offset, buffer[offset], buffer.drop (offset + 1), hlength, ?_⟩
  rw [Cursor.at, ← hsplit, hlength]

theorem Cursor.putBack_some (c : ℤ) (front : List UInt8) (hfront : front ≠ []) (back : List UInt8)
    (r : UInt8) : ∃ front' x, (Cursor.at front (r :: back)).putBack c =
      some (.at front' (x :: ofInt c :: back)) ∧ front'.length + 1 = front.length := by
  obtain ⟨front, x, rfl⟩ := eq_nil_or_concat front |>.resolve_left hfront
  rw [concat_eq_append]
  exact ⟨front, x, putBack_at c front back x r, by simp⟩

theorem cString_at {front back text : List UInt8} (hzero : 0 ∉ text) :
    CStringAt (Cursor.at front (text ++ 0 :: back)).buffer (Cursor.at front (text ++ 0 :: back)).p text :=
  ⟨⟨front, back, by simp [Cursor.at], rfl⟩, hzero⟩

/-- **The printers to the end of the buffer.** -/
theorem fastIntToBuffer_prints {t : IntType} (k offset : ℕ) (hneg : t.min + t.max = -1)
    (hten : 10 ≤ t.max) (hk : 0 < k) (hoffset : k + 1 ≤ offset) {i : ℤ} (hi : t.min ≤ i ∧ i ≤ t.max)
    (hsize : i.natAbs < 10 ^ k) {buffer : List UInt8} (hbuffer : offset < buffer.length) :
    ∃ buffer' p, fastIntToBuffer t offset i buffer = some (buffer', p) ∧
      CStringAt buffer' p (decimalInt i) := by
  have hzero := zero_not_mem_decimalInt i
  have hlength := length_decimal_le hk hsize
  obtain ⟨front₀, r, back, hfront₀, hat⟩ := exists_at hbuffer
  obtain ⟨front, x, hput, hfront⟩ := Cursor.putBack_some 0 front₀
    (by rintro rfl; rw [length_nil] at hfront₀; omega) back r
  rw [fastIntToBuffer, hat, hput, ofInt_zero]
  simp only [bind_eq_bind, bind_some]
  by_cases hnonneg : 0 ≤ i
  · obtain ⟨n, rfl⟩ := eq_ofNat_of_zero_le hnonneg
    rw [natAbs_natCast] at hlength
    obtain ⟨front', x', hloop, hlength'⟩ := digitsLoop_at n front (0 :: back) x (by omega)
    rw [if_pos hnonneg, hloop]
    refine ⟨_, _, rfl, ⟨⟨front' ++ [x'], back, ?_, ?_⟩, hzero⟩⟩
    · rw [decimalInt, if_neg (by omega), natAbs_natCast]
      simp [Cursor.at]
    · simp [Cursor.at]
  · obtain ⟨n, rfl⟩ : ∃ n : ℕ, i = -(n + 1 : ℕ) := ⟨i.natAbs - 1, by omega⟩
    rw [if_neg hnonneg]
    have htext : decimalInt (-(n + 1 : ℕ)) = 45 :: decimal (n + 1) := by
      rw [decimalInt, if_pos (by omega), natAbs_neg, natAbs_natCast]
    rw [htext] at hzero ⊢
    rw [natAbs_neg, natAbs_natCast] at hlength
    have hpos := length_pos_of_ne_nil (decimal_ne_nil (n + 1))
    by_cases hsmall : (-10 : ℤ) < -(n + 1 : ℕ)
    · have hlt : n + 1 < 10 := by omega
      rw [if_pos hsmall, check_eq (by omega), bind_some, neg_neg]
      obtain ⟨front', x', hput', hfront'⟩ := Cursor.putBack_some (48 + (n + 1 : ℕ)) front
        (by rintro rfl; rw [length_nil] at hfront; omega) (0 :: back) x
      rw [hput', bind_some, Cursor.poke_at, ofInt_minus]
      refine ⟨_, _, rfl, ?_⟩
      have hdigit := ofInt_digit (n + 1)
      rw [tmod_eq_of_lt (by omega) (by omega), Nat.mod_eq_of_lt hlt] at hdigit
      rw [hdigit]
      rw [decimal_of_lt hlt] at hzero ⊢
      exact cString_at hzero
    · have hge : 10 ≤ n + 1 := by omega
      -- ten is taken off before the sign, and put back behind the first division
      obtain ⟨m, hm⟩ : ∃ m, n + 1 = m + 10 := ⟨n - 9, by omega⟩
      rw [hm] at hlength htext hi hnonneg hsmall hzero hpos ⊢
      have hadd : -((m + 10 : ℕ) : ℤ) + 10 = -(m : ℤ) := by omega
      have hdiv : (m : ℤ).tdiv 10 + 1 = ((m + 10) / 10 : ℕ) := by
        rw [tdiv_eq_ediv_of_nonneg (natCast_nonneg m)]
        omega
      rw [if_neg hsmall, hadd, check_eq (by omega), bind_some, neg_neg,
        check_eq (by omega), bind_some]
      obtain ⟨front', x', hput', hfront'⟩ := Cursor.putBack_some (48 + (m : ℤ).tmod 10) front
        (by rintro rfl; rw [length_nil] at hfront; omega) (0 :: back) x
      have hstep := decimal_step (show 10 ≤ m + 10 by omega)
      have hfits := congrArg List.length hstep
      rw [length_append, length_singleton] at hfits
      obtain ⟨front'', x'', hloop, hlength''⟩ := digitsLoop_at ((m + 10) / 10) front'
        (digitByte (m % 10) :: 0 :: back) x' (by omega)
      rw [hput', bind_some, hdiv, check_eq (by omega), bind_some, ofInt_digit, hloop,
        bind_some, Cursor.poke_at, ofInt_minus]
      have hlast : decimal ((m + 10) / 10) ++ digitByte (m % 10) :: 0 :: back =
          decimal (m + 10) ++ 0 :: back := by
        rw [hstep, Nat.add_mod_right, append_assoc]
        rfl
      rw [hlast]
      exact ⟨_, _, rfl, cString_at hzero⟩

end Protoc.Stubs
