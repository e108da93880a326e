import Mathlib.Data.Nat.Bitwise
import Mathlib.Tactic.Ring

/-!
# Unsigned integers of 128 bits

`uint128` is a pair of words.  Addition and subtraction carry by a comparison, the shifts have
a case for each word, and multiplication goes by limbs of 32 bits.
-/

namespace Protoc.Stubs

open Nat

/-- `uint128`. -/
structure Uint128 where
  hi : UInt64
  lo : UInt64
  deriving DecidableEq

namespace Uint128

def toNat (v : Uint128) : ℕ := v.hi.toNat * 2 ^ 64 + v.lo.toNat

/-- The constructor from a `uint64`, and from a smaller type that is not negative. -/
def ofUInt64 (bottom : UInt64) : Uint128 := ⟨0, bottom⟩

/-! ## Operators -/

/-- `CMP128`, for a comparison of words. -/
def cmp (op : UInt64 → UInt64 → Bool) (lhs rhs : Uint128) : Bool :=
  if lhs.hi = rhs.hi then op lhs.lo rhs.lo else op lhs.hi rhs.hi

/-- `operator <`. -/
def lt : Uint128 → Uint128 → Bool := cmp fun a b => decide (a < b)

/-- `operator >`. -/
def gt : Uint128 → Uint128 → Bool := cmp fun a b => decide (b < a)

/-- `operator <=`. -/
def le : Uint128 → Uint128 → Bool := cmp fun a b => decide (a ≤ b)

/-- `operator >=`. -/
def ge : Uint128 → Uint128 → Bool := cmp fun a b => decide (b ≤ a)

/-- `operator ==`. -/
def eq (lhs rhs : Uint128) : Bool := decide (lhs.lo = rhs.lo) && decide (lhs.hi = rhs.hi)

/-- The unary `operator -`. -/
def neg (val : Uint128) : Uint128 :=
  let hiFlip := ~~~val.hi
  let loFlip := ~~~val.lo
  let loAdd := loFlip + 1
  if loAdd < loFlip then ⟨hiFlip + 1, loAdd⟩ else ⟨hiFlip, loAdd⟩

/-- `operator +=`. -/
def add (a b : Uint128) : Uint128 :=
  let hi := a.hi + b.hi
  let lolo := a.lo + b.lo
  ⟨if lolo < a.lo then hi + 1 else hi, lolo⟩

/-- `operator -=`. -/
def sub (a b : Uint128) : Uint128 :=
  let hi := a.hi - b.hi
  ⟨if a.lo < b.lo then hi - 1 else hi, a.lo - b.lo⟩

/-- `operator <<`. -/
def shiftLeft (val : Uint128) (amount : ℕ) : Uint128 :=
  if amount < 64 then
    if amount = 0 then val
    else
      let newHi := val.hi <<< UInt64.ofNat amount ||| val.lo >>> UInt64.ofNat (64 - amount)
      let newLo := val.lo <<< UInt64.ofNat amount
      ⟨newHi, newLo⟩
  else if amount < 128 then ⟨val.lo <<< UInt64.ofNat (amount - 64), 0⟩
  else ⟨0, 0⟩

/-- `operator >>`. -/
def shiftRight (val : Uint128) (amount : ℕ) : Uint128 :=
  if amount < 64 then
    if amount = 0 then val
    else
      let newHi := val.hi >>> UInt64.ofNat amount
      let newLo := val.lo >>> UInt64.ofNat amount ||| val.hi <<< UInt64.ofNat (64 - amount)
      ⟨newHi, newLo⟩
  else if amount < 128 then ⟨0, val.hi >>> UInt64.ofNat (amount - 64)⟩
  else ⟨0, 0⟩

/-- `operator <<=`, which sets the words in place. -/
def shiftLeftAssign (val : Uint128) (amount : ℕ) : Uint128 :=
  if amount < 64 then
    if amount ≠ 0 then
      let val := { val with hi := val.hi <<< UInt64.ofNat amount ||| val.lo >>> UInt64.ofNat (64 - amount) }
      { val with lo := val.lo <<< UInt64.ofNat amount }
    else val
  else if amount < 128 then
    let val := { val with hi := val.lo <<< UInt64.ofNat (amount - 64) }
    { val with lo := 0 }
  else ⟨0, 0⟩

/-- `operator >>=`, which sets the words in place. -/
def shiftRightAssign (val : Uint128) (amount : ℕ) : Uint128 :=
  if amount < 64 then
    if amount ≠ 0 then
      let val := { val with lo := val.lo >>> UInt64.ofNat amount ||| val.hi <<< UInt64.ofNat (64 - amount) }
      { val with hi := val.hi >>> UInt64.ofNat amount }
    else val
  else if amount < 128 then
    let val := { val with lo := val.hi >>> UInt64.ofNat (amount - 64) }
    { val with hi := 0 }
  else ⟨0, 0⟩

/-- `operator *=`. -/
def mul (a b : Uint128) : Uint128 :=
  let a96 := a.hi >>> 32
  let a64 := a.hi &&& 0xFFFFFFFF
  let a32 := a.lo >>> 32
  let a00 := a.lo &&& 0xFFFFFFFF
  let b96 := b.hi >>> 32
  let b64 := b.hi &&& 0xFFFFFFFF
  let b32 := b.lo >>> 32
  let b00 := b.lo &&& 0xFFFFFFFF
  -- terms higher than `c96` disappear off the high side, and no carry of `c96` and `c64` matters
  let c96 := a96 * b00 + a64 * b32 + a32 * b64 + a00 * b96
  let c64 := a64 * b00 + a32 * b32 + a00 * b64
  let v : Uint128 := ⟨c96 <<< 32 + c64, 0⟩
  let v := v.add ((ofUInt64 (a32 * b00)).shiftLeft 32)
  let v := v.add ((ofUInt64 (a00 * b32)).shiftLeft 32)
  v.add (ofUInt64 (a00 * b00))

/-! ## The numbers -/

variable (a b : Uint128) (amount : ℕ)

theorem toNat_lt : a.toNat < 2 ^ 128 := by
  have hhi := a.hi.toNat_lt
  have hlo := a.lo.toNat_lt
  rw [toNat]
  omega

variable {a b} in
theorem toNat_inj : a.toNat = b.toNat ↔ a = b := by
  have halo := a.lo.toNat_lt
  have hblo := b.lo.toNat_lt
  constructor
  · intro h
    obtain ⟨ahi, alo⟩ := a
    obtain ⟨bhi, blo⟩ := b
    simp only [toNat] at h halo hblo
    have hhi : ahi.toNat = bhi.toNat := by omega
    have hlo : alo.toNat = blo.toNat := by omega
    rw [UInt64.toNat_inj.mp hhi, UInt64.toNat_inj.mp hlo]
  · exact fun h => congrArg toNat h

theorem toNat_ofUInt64 (bottom : UInt64) : (ofUInt64 bottom).toNat = bottom.toNat := by
  rw [toNat, ofUInt64, UInt64.toNat_zero, zero_mul, zero_add]

/-! ### Comparisons -/

theorem lt_iff : a.lt b = true ↔ a.toNat < b.toNat := by
  have halo := a.lo.toNat_lt
  have hblo := b.lo.toNat_lt
  rw [lt, cmp, toNat, toNat]
  split
  · next hhi => rw [hhi, decide_eq_true_iff, UInt64.lt_iff_toNat_lt, Nat.add_lt_add_iff_left]
  · next hhi =>
    rw [← UInt64.toNat_inj] at hhi
    rw [decide_eq_true_iff, UInt64.lt_iff_toNat_lt]
    omega

theorem le_iff : a.le b = true ↔ a.toNat ≤ b.toNat := by
  have halo := a.lo.toNat_lt
  have hblo := b.lo.toNat_lt
  rw [le, cmp, toNat, toNat]
  split
  · next hhi => rw [hhi, decide_eq_true_iff, UInt64.le_iff_toNat_le, Nat.add_le_add_iff_left]
  · next hhi =>
    rw [← UInt64.toNat_inj] at hhi
    rw [decide_eq_true_iff, UInt64.le_iff_toNat_le]
    omega

theorem gt_eq : a.gt b = b.lt a := by
  rw [gt, lt, cmp, cmp]
  by_cases hhi : a.hi = b.hi
  · rw [if_pos hhi, if_pos hhi.symm]
  · rw [if_neg hhi, if_neg fun h => hhi h.symm]

theorem ge_eq : a.ge b = b.le a := by
  rw [ge, le, cmp, cmp]
  by_cases hhi : a.hi = b.hi
  · rw [if_pos hhi, if_pos hhi.symm]
  · rw [if_neg hhi, if_neg fun h => hhi h.symm]

theorem eq_iff : a.eq b = true ↔ a.toNat = b.toNat := by
  rw [toNat_inj, eq, Bool.and_eq_true, decide_eq_true_iff, decide_eq_true_iff, Uint128.mk.injEq, and_comm]

/-! ### Sums and differences -/

theorem toNat_add : (a.add b).toNat = (a.toNat + b.toNat) % 2 ^ 128 := by
  have halo := a.lo.toNat_lt
  have hblo := b.lo.toNat_lt
  simp only [add, toNat]
  split
  · next hcarry =>
    rw [UInt64.lt_iff_toNat_lt, UInt64.toNat_add] at hcarry
    rw [UInt64.toNat_add, UInt64.toNat_add, UInt64.toNat_add, UInt64.toNat_one]
    omega
  · next hcarry =>
    rw [UInt64.lt_iff_toNat_lt, UInt64.toNat_add] at hcarry
    rw [UInt64.toNat_add, UInt64.toNat_add]
    omega

theorem toNat_sub : (a.sub b).toNat = (a.toNat + (2 ^ 128 - b.toNat)) % 2 ^ 128 := by
  have halo := a.lo.toNat_lt
  have hbhi := b.hi.toNat_lt
  have hblo := b.lo.toNat_lt
  simp only [sub, toNat]
  split
  · next hborrow =>
    rw [UInt64.lt_iff_toNat_lt] at hborrow
    rw [UInt64.toNat_sub, UInt64.toNat_sub, UInt64.toNat_sub, UInt64.toNat_one]
    omega
  · next hborrow =>
    rw [UInt64.lt_iff_toNat_lt] at hborrow
    rw [UInt64.toNat_sub, UInt64.toNat_sub]
    omega

theorem toNat_neg : a.neg.toNat = (2 ^ 128 - a.toNat) % 2 ^ 128 := by
  have hahi := a.hi.toNat_lt
  have halo := a.lo.toNat_lt
  have hsize : UInt64.size = 2 ^ 64 := rfl
  simp only [neg, toNat]
  split
  · next hcarry =>
    rw [UInt64.lt_iff_toNat_lt, UInt64.toNat_add, UInt64.toNat_not, UInt64.toNat_one, hsize] at hcarry
    rw [UInt64.toNat_add, UInt64.toNat_add, UInt64.toNat_not, UInt64.toNat_not, UInt64.toNat_one, hsize]
    omega
  · next hcarry =>
    rw [UInt64.lt_iff_toNat_lt, UInt64.toNat_add, UInt64.toNat_not, UInt64.toNat_one, hsize] at hcarry
    rw [UInt64.toNat_add, UInt64.toNat_not, UInt64.toNat_not, UInt64.toNat_one, hsize]
    omega

/-! ### Shifts -/

theorem toNat_wordLeft (x : UInt64) {n : ℕ} (h : n < 64) :
    (x <<< UInt64.ofNat n).toNat = x.toNat * 2 ^ n % 2 ^ 64 := by
  have hn : n % 2 ^ 64 % 64 = n := by omega
  rw [UInt64.toNat_shiftLeft, UInt64.toNat_ofNat', hn, shiftLeft_eq]

theorem toNat_wordRight (x : UInt64) {n : ℕ} (h : n < 64) : (x >>> UInt64.ofNat n).toNat = x.toNat / 2 ^ n := by
  have hn : n % 2 ^ 64 % 64 = n := by omega
  rw [UInt64.toNat_shiftRight, UInt64.toNat_ofNat', hn, shiftRight_eq_div_pow]

theorem toNat_wordOr {x y : UInt64} {n k : ℕ} (hx : x.toNat = 2 ^ n * k) (hy : y.toNat < 2 ^ n) :
    (x ||| y).toNat = x.toNat + y.toNat := by
  rw [UInt64.toNat_or, hx, two_pow_add_eq_or_of_lt hy]

theorem mul_two_pow_split {amount : ℕ} (h : amount < 64) (x : ℕ) :
    x * 2 ^ amount = x / 2 ^ (64 - amount) * 2 ^ 64 + 2 ^ amount * (x % 2 ^ (64 - amount)) ∧
      2 ^ amount * (x % 2 ^ (64 - amount)) + 2 ^ amount ≤ 2 ^ 64 := by
  have hpow : 2 ^ 64 = 2 ^ amount * 2 ^ (64 - amount) := by
    rw [← pow_add, Nat.add_sub_cancel' h.le]
  have hdiv := div_add_mod x (2 ^ (64 - amount))
  have hmod := mod_lt x (Nat.two_pow_pos (64 - amount))
  constructor
  · calc x * 2 ^ amount
        = (2 ^ (64 - amount) * (x / 2 ^ (64 - amount)) + x % 2 ^ (64 - amount)) * 2 ^ amount := by rw [hdiv]
      _ = x / 2 ^ (64 - amount) * 2 ^ 64 + 2 ^ amount * (x % 2 ^ (64 - amount)) := by rw [hpow]; ring
  · rw [hpow, ← mul_succ]
    exact Nat.mul_le_mul_left _ hmod

theorem toNat_shiftLeft : (a.shiftLeft amount).toNat = a.toNat * 2 ^ amount % 2 ^ 128 := by
  have hlt := a.toNat_lt
  have hlo := a.lo.toNat_lt
  rw [shiftLeft]
  split
  · next hshort =>
    split
    · next hzero => rw [hzero, Nat.pow_zero, mul_one, mod_eq_of_lt hlt]
    · next hpos =>
      have hrest : 64 - amount < 64 := by omega
      obtain ⟨hhiSplit, hhiLe⟩ := mul_two_pow_split hshort a.hi.toNat
      obtain ⟨hloSplit, hloLe⟩ := mul_two_pow_split hshort a.lo.toNat
      have hleft := toNat_wordLeft a.hi hshort
      have hright := toNat_wordRight a.lo hrest
      have hlow := toNat_wordLeft a.lo hshort
      have hcarried : a.lo.toNat / 2 ^ (64 - amount) < 2 ^ amount := by
        rw [Nat.div_lt_iff_lt_mul (Nat.two_pow_pos _), ← pow_add, Nat.add_sub_cancel' hshort.le]
        exact hlo
      have hupper : (a.hi <<< UInt64.ofNat amount).toNat = 2 ^ amount * (a.hi.toNat % 2 ^ (64 - amount)) := by
        rw [hleft, hhiSplit]
        omega
      have hproduct : a.toNat * 2 ^ amount = a.hi.toNat * 2 ^ amount * 2 ^ 64 + a.lo.toNat * 2 ^ amount := by
        rw [toNat]
        ring
      rw [hproduct, toNat, toNat_wordOr hupper (by rwa [hright]), hupper, hright, hlow, hhiSplit, hloSplit]
      generalize 2 ^ amount * (a.hi.toNat % 2 ^ (64 - amount)) = upper at *
      generalize 2 ^ amount * (a.lo.toNat % 2 ^ (64 - amount)) = lower at *
      omega
  · next hlong =>
    split
    · next hword =>
      have hword' : amount - 64 < 64 := by omega
      have hpow : 2 ^ amount = 2 ^ (amount - 64) * 2 ^ 64 := by
        rw [← pow_add, Nat.sub_add_cancel (not_lt.mp hlong)]
      have hproduct : a.toNat * 2 ^ amount =
          a.hi.toNat * 2 ^ (amount - 64) * 2 ^ 128 + a.lo.toNat * 2 ^ (amount - 64) * 2 ^ 64 := by
        rw [toNat, hpow]
        ring
      rw [hproduct, toNat, toNat_wordLeft _ hword', UInt64.toNat_zero]
      omega
    · next hgone =>
      have hpow : 2 ^ amount = 2 ^ (amount - 128) * 2 ^ 128 := by
        rw [← pow_add, Nat.sub_add_cancel (not_lt.mp hgone)]
      rw [hpow, ← mul_assoc, mul_mod_left]
      rfl

theorem toNat_shiftRight : (a.shiftRight amount).toNat = a.toNat / 2 ^ amount := by
  have hlo := a.lo.toNat_lt
  rw [shiftRight]
  split
  · next hshort =>
    split
    · next hzero => rw [hzero, Nat.pow_zero, Nat.div_one]
    · next hpos =>
      have hrest : 64 - amount < 64 := by omega
      have hback : 64 - (64 - amount) = amount := by omega
      obtain ⟨hhiSplit, hhiLe⟩ := mul_two_pow_split hrest a.hi.toNat
      rw [hback] at hhiSplit hhiLe
      have hright := toNat_wordRight a.hi hshort
      have hlow := toNat_wordRight a.lo hshort
      have hleft := toNat_wordLeft a.hi hrest
      have hmoved : (a.hi <<< UInt64.ofNat (64 - amount)).toNat =
          2 ^ (64 - amount) * (a.hi.toNat % 2 ^ amount) := by
        have hpos := Nat.two_pow_pos (64 - amount)
        rw [hleft, hhiSplit]
        omega
      have hlowLt : a.lo.toNat / 2 ^ amount < 2 ^ (64 - amount) := by
        rw [Nat.div_lt_iff_lt_mul (Nat.two_pow_pos _), ← pow_add, Nat.sub_add_cancel hshort.le]
        exact hlo
      have hor : (a.lo >>> UInt64.ofNat amount ||| a.hi <<< UInt64.ofNat (64 - amount)).toNat =
          2 ^ (64 - amount) * (a.hi.toNat % 2 ^ amount) + a.lo.toNat / 2 ^ amount := by
        rw [UInt64.or_comm, toNat_wordOr hmoved (by rwa [hlow]), hmoved, hlow]
      have hpow : 2 ^ 64 = 2 ^ (64 - amount) * 2 ^ amount := by
        rw [← pow_add, Nat.sub_add_cancel hshort.le]
      have hsum : a.toNat = (a.hi.toNat * 2 ^ (64 - amount)) * 2 ^ amount + a.lo.toNat := by
        rw [toNat, hpow]
        ring
      rw [hsum, mul_comm _ (2 ^ amount), mul_add_div (Nat.two_pow_pos _), toNat, hor, hright, hhiSplit]
      omega
  · next hlong =>
    split
    · next hword =>
      have hword' : amount - 64 < 64 := by omega
      have hpow : 2 ^ amount = 2 ^ 64 * 2 ^ (amount - 64) := by
        rw [← pow_add, Nat.add_sub_cancel' (not_lt.mp hlong)]
      have hhigh : a.toNat / 2 ^ 64 = a.hi.toNat := by
        rw [toNat]
        omega
      rw [toNat, toNat_wordRight _ hword', UInt64.toNat_zero, hpow, ← Nat.div_div_eq_div_mul, hhigh,
        zero_mul, zero_add]
    · next hgone =>
      have hlt : a.toNat < 2 ^ amount :=
        lt_of_lt_of_le a.toNat_lt (Nat.pow_le_pow_right Nat.two_pos (not_lt.mp hgone))
      rw [div_eq_of_lt hlt]
      rfl

theorem shiftLeftAssign_eq : a.shiftLeftAssign amount = a.shiftLeft amount := by
  rw [shiftLeftAssign, shiftLeft, ite_not]

theorem shiftRightAssign_eq : a.shiftRightAssign amount = a.shiftRight amount := by
  rw [shiftRightAssign, shiftRight, ite_not]

/-! ### Products -/

theorem toNat_limbs (x : UInt64) :
    (x >>> 32).toNat = x.toNat / 2 ^ 32 ∧ (x &&& 0xFFFFFFFF).toNat = x.toNat % 2 ^ 32 := by
  constructor
  · rw [UInt64.toNat_shiftRight]
    exact shiftRight_eq_div_pow _ _
  · rw [UInt64.toNat_and]
    exact and_two_pow_sub_one_eq_mod _ 32

theorem toNat_mul_limbs {x y : UInt64} (hx : x.toNat < 2 ^ 32) (hy : y.toNat < 2 ^ 32) :
    (x * y).toNat = x.toNat * y.toNat ∧ x.toNat * y.toNat < 2 ^ 64 := by
  have hlt : x.toNat * y.toNat < 2 ^ 32 * 2 ^ 32 := Nat.mul_lt_mul'' hx hy
  rw [UInt64.toNat_mul, mod_eq_of_lt (by omega)]
  exact ⟨rfl, by omega⟩

theorem toNat_mul : (a.mul b).toNat = a.toNat * b.toNat % 2 ^ 128 := by
  obtain ⟨ha96, ha64⟩ := toNat_limbs a.hi
  obtain ⟨ha32, ha00⟩ := toNat_limbs a.lo
  obtain ⟨hb96, hb64⟩ := toNat_limbs b.hi
  obtain ⟨hb32, hb00⟩ := toNat_limbs b.lo
  have halo := a.lo.toNat_lt
  have hblo := b.lo.toNat_lt
  have ha : a.toNat = (a.hi.toNat / 2 ^ 32) * 2 ^ 96 + (a.hi.toNat % 2 ^ 32) * 2 ^ 64 +
      (a.lo.toNat / 2 ^ 32) * 2 ^ 32 + a.lo.toNat % 2 ^ 32 := by
    rw [toNat]
    omega
  have hb : b.toNat = (b.hi.toNat / 2 ^ 32) * 2 ^ 96 + (b.hi.toNat % 2 ^ 32) * 2 ^ 64 +
      (b.lo.toNat / 2 ^ 32) * 2 ^ 32 + b.lo.toNat % 2 ^ 32 := by
    rw [toNat]
    omega
  rw [← ha96, ← ha64, ← ha32, ← ha00] at ha
  rw [← hb96, ← hb64, ← hb32, ← hb00] at hb
  have ha32Lt : (a.lo >>> 32).toNat < 2 ^ 32 := by omega
  have ha00Lt : (a.lo &&& 0xFFFFFFFF).toNat < 2 ^ 32 := by omega
  have hb32Lt : (b.lo >>> 32).toNat < 2 ^ 32 := by omega
  have hb00Lt : (b.lo &&& 0xFFFFFFFF).toNat < 2 ^ 32 := by omega
  rw [ha, hb]
  clear ha hb ha96 ha64 ha32 ha00 hb96 hb64 hb32 hb00 halo hblo
  simp only [mul]
  generalize a.hi >>> 32 = a96 at *
  generalize a.hi &&& 0xFFFFFFFF = a64 at *
  generalize a.lo >>> 32 = a32 at *
  generalize a.lo &&& 0xFFFFFFFF = a00 at *
  generalize b.hi >>> 32 = b96 at *
  generalize b.hi &&& 0xFFFFFFFF = b64 at *
  generalize b.lo >>> 32 = b32 at *
  generalize b.lo &&& 0xFFFFFFFF = b00 at *
  obtain ⟨hlow, hlowLt⟩ := toNat_mul_limbs ha00Lt hb00Lt
  obtain ⟨hleft, hleftLt⟩ := toNat_mul_limbs ha32Lt hb00Lt
  obtain ⟨hright, hrightLt⟩ := toNat_mul_limbs ha00Lt hb32Lt
  -- the product by powers of `2 ^ 32`; from the fourth on they are multiples of `2 ^ 128`
  have hproduct : (a96.toNat * 2 ^ 96 + a64.toNat * 2 ^ 64 + a32.toNat * 2 ^ 32 + a00.toNat) *
        (b96.toNat * 2 ^ 96 + b64.toNat * 2 ^ 64 + b32.toNat * 2 ^ 32 + b00.toNat) =
      2 ^ 128 * (a96.toNat * b96.toNat * 2 ^ 64 + (a96.toNat * b64.toNat + a64.toNat * b96.toNat) * 2 ^ 32 +
        (a96.toNat * b32.toNat + a64.toNat * b64.toNat + a32.toNat * b96.toNat)) +
      ((a96.toNat * b00.toNat + a64.toNat * b32.toNat + a32.toNat * b64.toNat + a00.toNat * b96.toNat) * 2 ^ 96 +
        (a64.toNat * b00.toNat + a32.toNat * b32.toNat + a00.toNat * b64.toNat) * 2 ^ 64 +
        (a32.toNat * b00.toNat + a00.toNat * b32.toNat) * 2 ^ 32 + a00.toNat * b00.toNat) := by
    ring
  rw [hproduct, mul_add_mod, toNat_add, toNat_add, toNat_add, toNat_shiftLeft, toNat_shiftLeft, toNat_ofUInt64,
    toNat_ofUInt64, toNat_ofUInt64, hlow, hleft, hright, toNat]
  dsimp only
  have hshift : (32 : UInt64).toNat % 64 = 32 := rfl
  have hzero : (0 : UInt64).toNat = 0 := rfl
  simp only [UInt64.toNat_add, UInt64.toNat_mul, UInt64.toNat_shiftLeft, shiftLeft_eq, hshift, hzero]
  omega

end Uint128

end Protoc.Stubs
