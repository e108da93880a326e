import Mathlib.Data.Nat.Digits.Defs

/-!
# Numerals and decimal texts

The canonical decimal text of a number, and its digits in a field of fixed width.
-/

namespace Protoc.Lib

/-! ## Numerals, read from the left -/

variable {base value limit : ℕ}

def numeral (base value : ℕ) (digits : List ℕ) : ℕ :=
  digits.foldl (fun value digit => value * base + digit) value

@[simp] theorem numeral_nil : numeral base value [] = value := rfl

@[simp] theorem numeral_cons (digit : ℕ) (digits : List ℕ) :
    numeral base value (digit :: digits) = numeral base (value * base + digit) digits := rfl

theorem numeral_append (digits digits' : List ℕ) :
    numeral base value (digits ++ digits') = numeral base (numeral base value digits) digits' :=
  List.foldl_append

theorem numeral_eq_ofDigits (digits : List ℕ) : numeral base value digits =
      value * base ^ digits.length + Nat.ofDigits base digits.reverse := by
  induction digits generalizing value with
  | nil => simp
  | cons digit digits ih =>
    rw [numeral_cons, ih, Nat.ofDigits_reverse_cons, List.length_cons, pow_succ]
    ring

theorem le_numeral (hbase : 0 < base) (digits : List ℕ) : value ≤ numeral base value digits := by
  induction digits generalizing value with
  | nil => exact le_rfl
  | cons digit digits ih =>
    have hmul : value ≤ value * base := Nat.le_mul_of_pos_right _ hbase
    exact (hmul.trans (Nat.le_add_right _ _)).trans ih

theorem numeral_lt_succ (hbase : 1 < base) {digits : List ℕ} (hdigits : ∀ d ∈ digits, d < base) :
    numeral base value digits < (value + 1) * base ^ digits.length := by
  have hlt := Nat.ofDigits_lt_base_pow_length hbase
    (fun d hmem => hdigits d (List.mem_reverse.mp hmem))
  rw [List.length_reverse] at hlt
  rw [numeral_eq_ofDigits, Nat.succ_mul]
  exact Nat.add_lt_add_left hlt _

theorem numeral_lt (hbase : 1 < base) {digits : List ℕ} (hdigits : ∀ d ∈ digits, d < base) :
    numeral base 0 digits < base ^ digits.length := by
  have hlt : numeral base 0 digits < (0 + 1) * base ^ digits.length := numeral_lt_succ hbase hdigits
  simpa using hlt

theorem numeral_digit (hbase : 1 < base) (front : List ℕ) {digit : ℕ} {back : List ℕ}
    (hdigit : digit < base) (hback : ∀ d ∈ back, d < base) :
    numeral base 0 (front ++ digit :: back) / base ^ back.length % base = digit := by
  have hlt := numeral_lt hbase hback
  have hvalue : numeral base 0 (front ++ digit :: back) =
      numeral base 0 back + (numeral base 0 front * base + digit) * base ^ back.length := by
    rw [numeral_append, numeral_cons, numeral_eq_ofDigits back, numeral_eq_ofDigits back,
      zero_mul, zero_add, add_comm]
  rw [hvalue, Nat.add_mul_div_right _ _ (Nat.pow_pos (Nat.zero_lt_of_lt hbase)),
    Nat.div_eq_of_lt hlt, zero_add, Nat.mul_add_mod_self_right, Nat.mod_eq_of_lt hdigit]

theorem room_iff {digit : ℕ} (hbase : 0 < base) (hdigit : digit ≤ limit) :
    value ≤ (limit - digit) / base ↔ value * base + digit ≤ limit := by
  rw [Nat.le_div_iff_mul_le hbase]
  omega

/-- The value of the digits, unless it gets over the limit on the way. -/
def limited (base limit : ℕ) : ℕ → List ℕ → Option ℕ
  | value, [] => some value
  | value, digit :: digits =>
    if value * base + digit ≤ limit then limited base limit (value * base + digit) digits
    else none

theorem limited_eq (hbase : 0 < base) (digits : List ℕ) (hvalue : value ≤ limit) :
    limited base limit value digits =
      if numeral base value digits ≤ limit then some (numeral base value digits) else none := by
  induction digits generalizing value with
  | nil => rw [numeral_nil, if_pos hvalue, limited]
  | cons digit digits ih =>
    rw [limited, numeral_cons]
    split
    · next hroom => exact ih hroom
    · next hfull =>
      have hle : value * base + digit ≤ numeral base (value * base + digit) digits :=
        le_numeral hbase digits
      rw [if_neg (by omega)]

end Protoc.Lib

namespace Protoc.Lib

/-! ## Decimal texts -/

def digitByte (d : ℕ) : UInt8 := UInt8.ofNat (48 + d)

def decimal (n : ℕ) : List UInt8 := (Nat.toDigits 10 n).map fun c => UInt8.ofNat c.toNat

def decimalInt (i : ℤ) : List UInt8 := if i < 0 then 45 :: decimal i.natAbs else decimal i.natAbs

/-- The last `n` digits. -/
def padded : ℕ → ℕ → List UInt8
  | 0, _ => []
  | n + 1, v => padded n (v / 10) ++ [digitByte (v % 10)]

/-! ## The digits -/

theorem digitByte_digitChar {d : ℕ} (hd : d < 10) : UInt8.ofNat (Nat.digitChar d).toNat = digitByte d := by
  rw [Nat.toNat_digitChar_of_lt_ten hd, digitByte]

theorem decimal_of_lt {n : ℕ} (h : n < 10) : decimal n = [digitByte n] := by
  rw [decimal, Nat.toDigits_of_lt_base h, List.map_singleton, digitByte_digitChar h]

theorem decimal_step {n : ℕ} (h : 10 ≤ n) : decimal n = decimal (n / 10) ++ [digitByte (n % 10)] := by
  rw [decimal, Nat.toDigits_eq_if (by decide), if_neg (not_lt.mpr h), List.map_append,
    List.map_singleton, digitByte_digitChar (Nat.mod_lt _ (by decide)), decimal]

theorem padded_mod (n v : ℕ) : padded n (v % 10 ^ n) = padded n v := by
  induction n generalizing v with
  | zero => rfl
  | succ n ih =>
    have hlast : v % 10 ^ (n + 1) % 10 = v % 10 := Nat.mod_mod_of_dvd _ (Dvd.intro_left _ rfl)
    have hfirst : v % 10 ^ (n + 1) / 10 = v / 10 % 10 ^ n := by
      rw [Nat.pow_succ', Nat.mod_mul_right_div_self]
    rw [padded, padded, hlast, hfirst, ih]

theorem padded_append (n m v : ℕ) : padded (n + m) v = padded n (v / 10 ^ m) ++ padded m v := by
  induction m generalizing v with
  | zero => simp [padded]
  | succ m ih => rw [← add_assoc, padded, ih, padded, Nat.div_div_eq_div_mul, ← Nat.pow_succ',
      List.append_assoc]

/-- **The first digits and the last.** -/
theorem decimal_append {m v : ℕ} (h : 10 ^ m ≤ v) : decimal v = decimal (v / 10 ^ m) ++ padded m v := by
  induction m generalizing v with
  | zero => simp [padded]
  | succ m ih =>
    have hpos := Nat.pow_pos (n := m) (show 0 < 10 by decide)
    rw [pow_succ] at h
    have hten : 10 ≤ v := by nlinarith
    have hle : 10 ^ m ≤ v / 10 := (Nat.le_div_iff_mul_le (by decide)).mpr h
    rw [decimal_step hten, ih hle, padded, Nat.div_div_eq_div_mul, ← Nat.pow_succ', List.append_assoc]

theorem decimal_eq_padded {m v : ℕ} (hle : 10 ^ m ≤ v) (hlt : v < 10 ^ (m + 1)) :
    decimal v = padded (m + 1) v := by
  have hfirst : v / 10 ^ m < 10 := Nat.div_lt_of_lt_mul (pow_succ 10 m ▸ hlt)
  have hone : padded 1 (v / 10 ^ m) = decimal (v / 10 ^ m) := by
    rw [decimal_of_lt hfirst, padded, padded, Nat.mod_eq_of_lt hfirst, List.nil_append]
  rw [decimal_append hle, add_comm, padded_append, hone]

theorem decimal_ne_nil (n : ℕ) : decimal n ≠ [] := by
  by_cases h : n < 10
  · simp [decimal_of_lt h]
  · simp [decimal_step (not_lt.mp h)]

theorem decimalInt_natCast (n : ℕ) : decimalInt n = decimal n := by
  rw [decimalInt, if_neg (not_lt.mpr (Int.natCast_nonneg n)), Int.natAbs_natCast]

theorem length_decimal_le {n k : ℕ} (hk : 0 < k) (h : n < 10 ^ k) : (decimal n).length ≤ k := by
  induction k generalizing n with
  | zero => exact absurd hk (lt_irrefl 0)
  | succ k ih =>
    by_cases hlt : n < 10
    · rw [decimal_of_lt hlt]
      exact Nat.succ_le_succ (Nat.zero_le k)
    · rw [decimal_step (not_lt.mp hlt), List.length_append, List.length_singleton]
      rw [pow_succ] at h
      have hdiv : n / 10 < 10 ^ k := (Nat.div_lt_iff_lt_mul (by decide)).mpr h
      cases k with
      | zero => omega
      | succ k => exact Nat.succ_le_succ (ih (Nat.succ_pos k) hdiv)

/-! ## Their number -/

def IsDecimal (c : UInt8) : Prop := 48 ≤ c.toNat ∧ c.toNat ≤ 57

instance (c : UInt8) : Decidable (IsDecimal c) := inferInstanceAs (Decidable (_ ∧ _))

def decimalValue (digits : List UInt8) : ℕ := numeral 10 0 (digits.map fun c => c.toNat - 48)

theorem toNat_digitByte {d : ℕ} (h : d < 10) : (digitByte d).toNat = 48 + d := by
  rw [digitByte, UInt8.toNat_ofNat']
  omega

theorem isDecimal_digitByte {d : ℕ} (h : d < 10) : IsDecimal (digitByte d) := by
  rw [IsDecimal, toNat_digitByte h]
  omega

theorem isDecimal_decimal (n : ℕ) : ∀ c ∈ decimal n, IsDecimal c := by
  induction n using Nat.strongRecOn with
  | ind n ih =>
    intro c hc
    by_cases h : n < 10
    · rw [decimal_of_lt h, List.mem_singleton] at hc
      exact hc ▸ isDecimal_digitByte h
    · rw [decimal_step (not_lt.mp h), List.mem_append, List.mem_singleton] at hc
      rcases hc with hc | rfl
      · exact ih (n / 10) (by omega) c hc
      · exact isDecimal_digitByte (Nat.mod_lt _ (by decide))

/-- **A canonical text** stands for its number. -/
theorem decimalValue_decimal (n : ℕ) : decimalValue (decimal n) = n := by
  induction n using Nat.strongRecOn with
  | ind n ih =>
    by_cases h : n < 10
    · rw [decimal_of_lt h]
      simp [decimalValue, toNat_digitByte h]
    · have hfirst := ih (n / 10) (by omega)
      have hlast := toNat_digitByte (Nat.mod_lt n (show 10 > 0 by decide))
      rw [decimalValue] at hfirst
      rw [decimal_step (not_lt.mp h), decimalValue, List.map_append, numeral_append, hfirst,
        List.map_singleton, numeral_cons, numeral_nil, hlast]
      omega

end Protoc.Lib
