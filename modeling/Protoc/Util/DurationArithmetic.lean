import Protoc.Util.TimeUtil

/-!
# The arithmetic of durations

Sums, differences, products, quotients and remainders of durations denote those of the total
nanoseconds, and are in normal form.
-/

namespace Protoc.Util

open Protoc.Stubs Int

/-! ## Machine integers -/

theorem bmod64_eq {x : ℤ} (h : -2 ^ 63 ≤ x) (h' : x < 2 ^ 63) : x.bmod (2 ^ 64) = x := bmod_eq_of_le h h'

theorem bmod32_eq {x : ℤ} (h : -2 ^ 31 ≤ x) (h' : x < 2 ^ 31) : x.bmod (2 ^ 32) = x := bmod_eq_of_le h h'

theorem toInt_kNanosPerSecond : kNanosPerSecond.toInt = 10 ^ 9 := rfl

theorem toInt_neg_kNanosPerSecond : (-kNanosPerSecond).toInt = -10 ^ 9 := rfl

theorem toInt_toInt32 {nanos : Int64} (h : -2 ^ 31 ≤ nanos.toInt) (h' : nanos.toInt < 2 ^ 31) :
    nanos.toInt32.toInt = nanos.toInt := by
  rw [Int64.toInt_toInt32, bmod32_eq h h']

theorem toNat_toUInt64 {x : Int64} (h : 0 ≤ x.toInt) : (x.toUInt64.toNat : ℤ) = x.toInt := by
  rw [Int64.toNat_toUInt64_of_le (Int64.le_iff_toInt_le.mpr h)]
  exact toNat_of_nonneg h

theorem toNat_toUInt32 {x : Int32} (h : 0 ≤ x.toInt) : (x.toUInt32.toNat : ℤ) = x.toInt := by
  rw [Int32.toNat_toUInt32_of_le (Int32.le_iff_toInt_le.mpr h)]
  exact toNat_of_nonneg h

theorem toInt_toInt64 {x : UInt64} (h : x.toNat < 2 ^ 63) : x.toInt64.toInt = x.toNat :=
  BitVec.toInt_eq_toNat_of_lt (show 2 * x.toNat < 2 ^ 64 by omega)

theorem toInt_ofUInt32 {x : UInt32} (h : x.toNat < 2 ^ 31) : x.toInt32.toInt = x.toNat :=
  BitVec.toInt_eq_toNat_of_lt (show 2 * x.toNat < 2 ^ 32 by omega)

/-! ## Normalization -/

variable {seconds nanos : Int64}

/-- The sums of seconds and of nanoseconds, as the operators hand them to `CreateNormalized`. -/
structure Sums (seconds nanos : Int64) : Prop where
  le_seconds : -2 ^ 62 ≤ seconds.toInt
  seconds_le : seconds.toInt ≤ 2 ^ 62
  lt_nanos : -2 * 10 ^ 9 < nanos.toInt
  nanos_lt : nanos.toInt < 2 * 10 ^ 9

theorem carrySeconds_spec (h : Sums seconds nanos) :
    (carrySeconds seconds nanos).1.toInt * 10 ^ 9 + (carrySeconds seconds nanos).2.toInt =
        seconds.toInt * 10 ^ 9 + nanos.toInt ∧
      -10 ^ 9 < (carrySeconds seconds nanos).2.toInt ∧ (carrySeconds seconds nanos).2.toInt < 10 ^ 9 ∧
      -2 ^ 62 - 2 ≤ (carrySeconds seconds nanos).1.toInt ∧ (carrySeconds seconds nanos).1.toInt ≤ 2 ^ 62 + 2 := by
  obtain ⟨hle, hge, hlt, hgt⟩ := h
  rw [carrySeconds]
  split
  · have hsplit := mul_tdiv_add_tmod nanos.toInt (10 ^ 9)
    have hrest := natAbs_tmod nanos.toInt (10 ^ 9)
    have hmod := Nat.mod_lt nanos.toInt.natAbs (show 0 < (10 ^ 9 : ℤ).natAbs by decide)
    have hdiv : (nanos / kNanosPerSecond).toInt = nanos.toInt.tdiv (10 ^ 9) := by
      rw [Int64.toInt_div, toInt_kNanosPerSecond, bmod64_eq (by omega) (by omega)]
    dsimp only
    rw [Int64.toInt_add, hdiv, Int64.toInt_mod, toInt_kNanosPerSecond, bmod64_eq (by omega) (by omega)]
    refine ⟨?_, ?_, ?_, ?_, ?_⟩ <;> omega
  · next hsmall =>
    rw [Int64.le_iff_toInt_le, Int64.le_iff_toInt_le, toInt_kNanosPerSecond, toInt_neg_kNanosPerSecond] at hsmall
    dsimp only
    refine ⟨rfl, ?_, ?_, ?_, ?_⟩ <;> omega

/-- A second is taken for a billion nanoseconds. -/
theorem toInt_borrow {s n : Int64} (hs : -2 ^ 63 < s.toInt) (hgt : -10 ^ 9 < n.toInt) (hlt : n.toInt < 0) :
    (n + kNanosPerSecond).toInt32.toInt = n.toInt + 10 ^ 9 ∧ (s - 1).toInt = s.toInt - 1 := by
  have hs' := s.toInt_lt
  constructor
  · rw [Int64.toInt_toInt32, Int64.toInt_add, toInt_kNanosPerSecond, bmod64_eq (by omega) (by omega),
      bmod32_eq (by omega) (by omega)]
  · rw [Int64.toInt_sub, Int64.toInt_one, bmod64_eq (by omega) (by omega)]

/-- **A normalized duration** has the total of the sums, and is valid where that is in range. -/
theorem createNormalizedDuration_spec (h : Sums seconds nanos)
    (hrange : Duration.InRange (seconds.toInt * 10 ^ 9 + nanos.toInt)) :
    (createNormalizedDuration seconds nanos).total = seconds.toInt * 10 ^ 9 + nanos.toInt ∧
      (createNormalizedDuration seconds nanos).Valid := by
  obtain ⟨hmin, hmax⟩ := hrange
  obtain ⟨hsum, hlt, hgt, hle, hge⟩ := carrySeconds_spec h
  rw [kDurationMinSeconds] at hmin
  rw [kDurationMaxSeconds] at hmax
  rw [createNormalizedDuration]
  generalize carrySeconds seconds nanos = r at *
  rw [← hsum] at hmin hmax ⊢
  clear hsum h
  simp only [Int64.lt_iff_toInt_lt, Int64.toInt_zero]
  split
  · next hopposed =>
    have hnanos : (r.2 - kNanosPerSecond).toInt32.toInt = r.2.toInt - 10 ^ 9 := by
      rw [Int64.toInt_toInt32, Int64.toInt_sub, toInt_kNanosPerSecond, bmod64_eq (by omega) (by omega),
        bmod32_eq (by omega) (by omega)]
    have hseconds : (r.1 + 1).toInt = r.1.toInt + 1 := by
      rw [Int64.toInt_add, Int64.toInt_one, bmod64_eq (by omega) (by omega)]
    refine ⟨?_, ⟨?_, ?_, ?_, ?_, ?_, ?_⟩⟩ <;>
      simp only [Duration.total, kDurationMinSeconds, kDurationMaxSeconds, hnanos, hseconds] <;> omega
  · split
    · next hopposed =>
      obtain ⟨hnanos, hseconds⟩ := toInt_borrow (s := r.1) (n := r.2) (by omega) (by omega) (by omega)
      refine ⟨?_, ⟨?_, ?_, ?_, ?_, ?_, ?_⟩⟩ <;>
        simp only [Duration.total, kDurationMinSeconds, kDurationMaxSeconds, hnanos, hseconds] <;> omega
    · have hnanos : r.2.toInt32.toInt = r.2.toInt := toInt_toInt32 (by omega) (by omega)
      refine ⟨?_, ⟨?_, ?_, ?_, ?_, ?_, ?_⟩⟩ <;>
        simp only [Duration.total, kDurationMinSeconds, kDurationMaxSeconds, hnanos] <;> omega

/-- **A normalized timestamp** has the total of the sums, and is valid where that is in range. -/
theorem createNormalizedTimestamp_spec (h : Sums seconds nanos)
    (hrange : Timestamp.InRange (seconds.toInt * 10 ^ 9 + nanos.toInt)) :
    (createNormalizedTimestamp seconds nanos).total = seconds.toInt * 10 ^ 9 + nanos.toInt ∧
      (createNormalizedTimestamp seconds nanos).Valid := by
  obtain ⟨hmin, hmax⟩ := hrange
  obtain ⟨hsum, hlt, hgt, hle, hge⟩ := carrySeconds_spec h
  rw [kTimestampMinSeconds] at hmin
  rw [kTimestampMaxSeconds] at hmax
  rw [createNormalizedTimestamp]
  generalize carrySeconds seconds nanos = r at *
  rw [← hsum] at hmin hmax ⊢
  clear hsum h
  simp only [Int64.lt_iff_toInt_lt, Int64.toInt_zero]
  split
  · obtain ⟨hnanos, hseconds⟩ := toInt_borrow (s := r.1) (n := r.2) (by omega) (by omega) (by omega)
    refine ⟨?_, ⟨?_, ?_, ?_, ?_⟩⟩ <;>
      simp only [Timestamp.total, kTimestampMinSeconds, kTimestampMaxSeconds, hnanos, hseconds] <;> omega
  · have hnanos : r.2.toInt32.toInt = r.2.toInt := toInt_toInt32 (by omega) (by omega)
    refine ⟨?_, ⟨?_, ?_, ?_, ?_⟩⟩ <;>
      simp only [Timestamp.total, kTimestampMinSeconds, kTimestampMaxSeconds, hnanos] <;> omega

/-! ## Sign and magnitude -/

theorem toNat_magnitude {s : Int64} {n : Int32} (hs : 0 ≤ s.toInt) (hs' : s.toInt < 2 ^ 40) (hn : 0 ≤ n.toInt) :
    ((((Uint128.ofUInt64 s.toUInt64).mul nanosPerSecond128).add (.ofUInt64 n.toUInt32.toUInt64)).toNat : ℤ) =
      s.toInt * 10 ^ 9 + n.toInt := by
  have hseconds := toNat_toUInt64 hs
  have hnanos := toNat_toUInt32 hn
  have hlt := n.toUInt32.toNat_lt
  have hbillion : nanosPerSecond128.toNat = 10 ^ 9 := rfl
  rw [Uint128.toNat_add, Uint128.toNat_mul, Uint128.toNat_ofUInt64, Uint128.toNat_ofUInt64, hbillion,
    UInt32.toNat_toUInt64]
  omega

theorem toUint128_spec {d : Duration} (h : d.Valid) :
    (toUint128 d).1.toNat = d.total.natAbs ∧ ((toUint128 d).2 = true ↔ d.total < 0) := by
  obtain ⟨hmin, hmax, hlt, hgt, hneg, hpos⟩ := h
  rw [kDurationMinSeconds] at hmin
  rw [kDurationMaxSeconds] at hmax
  rw [toUint128, Duration.total]
  split
  · next hnegative =>
    rw [Int64.lt_iff_toInt_lt, Int32.lt_iff_toInt_lt, Int64.toInt_zero, Int32.toInt_zero] at hnegative
    have hseconds : (-d.seconds).toInt = -d.seconds.toInt := by
      rw [Int64.toInt_neg, bmod64_eq (by omega) (by omega)]
    have hnanos : (-d.nanos).toInt = -d.nanos.toInt := by
      rw [Int32.toInt_neg, bmod32_eq (by omega) (by omega)]
    have hmagnitude := toNat_magnitude (s := -d.seconds) (n := -d.nanos) (by omega) (by omega) (by omega)
    rw [hseconds, hnanos] at hmagnitude
    dsimp only
    refine ⟨by omega, iff_of_true rfl (by omega)⟩
  · next hnonneg =>
    rw [Int64.lt_iff_toInt_lt, Int32.lt_iff_toInt_lt, Int64.toInt_zero, Int32.toInt_zero] at hnonneg
    have hmagnitude := toNat_magnitude (s := d.seconds) (n := d.nanos) (by omega) (by omega) (by omega)
    dsimp only
    refine ⟨by omega, iff_of_false (by decide) (by omega)⟩

theorem toNat_lo {v : Uint128} (h : v.toNat < 2 ^ 64) : v.lo.toNat = v.toNat := by
  rw [Uint128.toNat] at h ⊢
  omega

theorem toDuration_spec {value : Uint128} {negative : Bool}
    (h : (value.toNat : ℤ) < (kDurationMaxSeconds + 1) * 10 ^ 9) :
    ∃ d, toDuration value negative = some d ∧ d.Valid ∧
      d.total = if negative then -(value.toNat : ℤ) else value.toNat := by
  have hbillion : nanosPerSecond128.toNat = 10 ^ 9 := rfl
  rw [kDurationMaxSeconds] at h
  obtain ⟨quotient, remainder, hdivides, hsum, hlt⟩ :=
    Uint128.divModImpl_spec (a := value) (b := nanosPerSecond128) (by decide)
  rw [hbillion] at hsum hlt
  have hquotient := toNat_lo (v := quotient) (by omega)
  have hremainder := toNat_lo (v := remainder) (by omega)
  have hseconds : quotient.lo.toInt64.toInt = quotient.toNat := by rw [toInt_toInt64 (by omega), hquotient]
  have hword : remainder.lo.toUInt32.toNat = remainder.toNat := by
    rw [UInt64.toNat_toUInt32, hremainder, Nat.mod_eq_of_lt (by omega)]
  have hnanos : remainder.lo.toUInt32.toInt32.toInt = remainder.toNat := by rw [toInt_ofUInt32 (by omega), hword]
  have hminus : (-quotient.lo.toInt64).toInt = -(quotient.toNat : ℤ) := by
    rw [Int64.toInt_neg, hseconds, bmod64_eq (by omega) (by omega)]
  have hminusNanos : (-remainder.lo.toUInt32.toInt32).toInt = -(remainder.toNat : ℤ) := by
    rw [Int32.toInt_neg, hnanos, bmod32_eq (by omega) (by omega)]
  refine ⟨_, by rw [toDuration, Uint128.div, Uint128.mod, hdivides]; rfl, ?_⟩
  cases negative with
  | false => refine ⟨⟨?_, ?_, ?_, ?_, ?_, ?_⟩, ?_⟩ <;>
      simp only [Duration.total, kDurationMinSeconds, kDurationMaxSeconds, hseconds, hnanos,
        Bool.false_eq_true, if_false] <;> omega
  | true => refine ⟨⟨?_, ?_, ?_, ?_, ?_, ?_⟩, ?_⟩ <;>
      simp only [Duration.total, kDurationMinSeconds, kDurationMaxSeconds, hminus, hminusNanos, if_true] <;> omega

/-! ## Sums and differences -/

theorem toInt_addNanos {m n : Int32} (hm : -10 ^ 9 < m.toInt) (hm' : m.toInt < 10 ^ 9) (hn : -10 ^ 9 < n.toInt)
    (hn' : n.toInt < 10 ^ 9) : (m + n).toInt64.toInt = m.toInt + n.toInt := by
  rw [Int32.toInt_toInt64, Int32.toInt_add, bmod32_eq (by omega) (by omega)]

theorem toInt_subNanos {m n : Int32} (hm : -10 ^ 9 < m.toInt) (hm' : m.toInt < 10 ^ 9) (hn : -10 ^ 9 < n.toInt)
    (hn' : n.toInt < 10 ^ 9) : (m - n).toInt64.toInt = m.toInt - n.toInt := by
  rw [Int32.toInt_toInt64, Int32.toInt_sub, bmod32_eq (by omega) (by omega)]

theorem toInt_addSeconds {m n : Int64} (hm : -2 ^ 40 ≤ m.toInt) (hm' : m.toInt ≤ 2 ^ 40) (hn : -2 ^ 40 ≤ n.toInt)
    (hn' : n.toInt ≤ 2 ^ 40) : (m + n).toInt = m.toInt + n.toInt := by
  rw [Int64.toInt_add, bmod64_eq (by omega) (by omega)]

theorem toInt_subSeconds {m n : Int64} (hm : -2 ^ 40 ≤ m.toInt) (hm' : m.toInt ≤ 2 ^ 40) (hn : -2 ^ 40 ≤ n.toInt)
    (hn' : n.toInt ≤ 2 ^ 40) : (m - n).toInt = m.toInt - n.toInt := by
  rw [Int64.toInt_sub, bmod64_eq (by omega) (by omega)]

/-- FieldBounds in the ranges of durations and of timestamps. -/
structure FieldBounds (seconds : Int64) (nanos : Int32) : Prop where
  le_seconds : -2 ^ 40 ≤ seconds.toInt
  seconds_le : seconds.toInt ≤ 2 ^ 40
  lt_nanos : -10 ^ 9 < nanos.toInt
  nanos_lt : nanos.toInt < 10 ^ 9

theorem Duration.Valid.fields {d : Duration} (h : d.Valid) : FieldBounds d.seconds d.nanos := by
  obtain ⟨hmin, hmax, hlt, hgt, -, -⟩ := h
  rw [kDurationMinSeconds] at hmin
  rw [kDurationMaxSeconds] at hmax
  exact ⟨by omega, by omega, hlt, hgt⟩

theorem Timestamp.Valid.fields {t : Timestamp} (h : t.Valid) : FieldBounds t.seconds t.nanos := by
  obtain ⟨hmin, hmax, hge, hlt⟩ := h
  rw [kTimestampMinSeconds] at hmin
  rw [kTimestampMaxSeconds] at hmax
  exact ⟨by omega, by omega, by omega, hlt⟩

section
variable {s₁ s₂ : Int64} {n₁ n₂ : Int32}

theorem FieldBounds.add (h₁ : FieldBounds s₁ n₁) (h₂ : FieldBounds s₂ n₂) :
    Sums (s₁ + s₂) (n₁ + n₂).toInt64 ∧ (s₁ + s₂).toInt * 10 ^ 9 + (n₁ + n₂).toInt64.toInt =
      s₁.toInt * 10 ^ 9 + n₁.toInt + (s₂.toInt * 10 ^ 9 + n₂.toInt) := by
  obtain ⟨hs₁, hs₁', hn₁, hn₁'⟩ := h₁
  obtain ⟨hs₂, hs₂', hn₂, hn₂'⟩ := h₂
  have hseconds := toInt_addSeconds hs₁ hs₁' hs₂ hs₂'
  have hnanos := toInt_addNanos hn₁ hn₁' hn₂ hn₂'
  exact ⟨⟨by omega, by omega, by omega, by omega⟩, by omega⟩

theorem FieldBounds.sub (h₁ : FieldBounds s₁ n₁) (h₂ : FieldBounds s₂ n₂) :
    Sums (s₁ - s₂) (n₁ - n₂).toInt64 ∧ (s₁ - s₂).toInt * 10 ^ 9 + (n₁ - n₂).toInt64.toInt =
      s₁.toInt * 10 ^ 9 + n₁.toInt - (s₂.toInt * 10 ^ 9 + n₂.toInt) := by
  obtain ⟨hs₁, hs₁', hn₁, hn₁'⟩ := h₁
  obtain ⟨hs₂, hs₂', hn₂, hn₂'⟩ := h₂
  have hseconds := toInt_subSeconds hs₁ hs₁' hs₂ hs₂'
  have hnanos := toInt_subNanos hn₁ hn₁' hn₂ hn₂'
  exact ⟨⟨by omega, by omega, by omega, by omega⟩, by omega⟩

end

/-! ## Products and quotients -/

def signed (negative : Bool) (magnitude : ℕ) : ℤ := if negative then -(magnitude : ℤ) else magnitude

theorem signed_zero (negative : Bool) : signed negative 0 = 0 := by
  cases negative <;> rfl

theorem natAbs_signed (negative : Bool) (n : ℕ) : (signed negative n).natAbs = n := by
  cases negative
  · exact natAbs_natCast n
  · exact (natAbs_neg _).trans (natAbs_natCast n)

theorem signed_cases (a : ℤ) : (∃ m : ℕ, a = -m ∧ 0 < m) ∨ ∃ m : ℕ, a = m := by
  rcases lt_or_ge a 0 with ha | ha
  · obtain ⟨m, rfl⟩ := exists_eq_neg_ofNat ha.le
    exact .inl ⟨m, rfl, by omega⟩
  · exact .inr (eq_ofNat_of_zero_le ha)

theorem signed_operations (a b : ℤ) : a * b = signed (decide (a < 0) != decide (b < 0)) (a.natAbs * b.natAbs) ∧
      a.tdiv b = signed (decide (a < 0) != decide (b < 0)) (a.natAbs / b.natAbs) ∧
      a.tmod b = signed (decide (a < 0)) (a.natAbs % b.natAbs) := by
  rcases signed_cases a with ⟨m, rfl, hm⟩ | ⟨m, rfl⟩ <;> rcases signed_cases b with ⟨n, rfl, hn⟩ | ⟨n, rfl⟩
  · have hsigns : decide (-(m : ℤ) < 0) = true ∧ decide (-(n : ℤ) < 0) = true := by
      constructor <;> exact decide_eq_true (by omega)
    rw [hsigns.1, hsigns.2, natAbs_neg, natAbs_neg, Int.neg_tdiv, Int.tdiv_neg, neg_neg, neg_tmod,
      tmod_neg, Int.neg_mul_neg]
    exact ⟨(natCast_mul m n).symm, rfl, rfl⟩
  · have hsigns : decide (-(m : ℤ) < 0) = true ∧ decide ((n : ℤ) < 0) = false :=
      ⟨decide_eq_true (by omega), decide_eq_false (by omega)⟩
    rw [hsigns.1, hsigns.2, natAbs_neg, Int.neg_tdiv, neg_tmod, Int.neg_mul]
    exact ⟨congrArg Neg.neg (natCast_mul m n).symm, rfl, rfl⟩
  · have hsigns : decide ((m : ℤ) < 0) = false ∧ decide (-(n : ℤ) < 0) = true :=
      ⟨decide_eq_false (by omega), decide_eq_true (by omega)⟩
    rw [hsigns.1, hsigns.2, natAbs_neg, Int.tdiv_neg, tmod_neg, Int.mul_neg]
    exact ⟨congrArg Neg.neg (natCast_mul m n).symm, rfl, rfl⟩
  · have hsigns : decide ((m : ℤ) < 0) = false ∧ decide ((n : ℤ) < 0) = false := by
      constructor <;> exact decide_eq_false (by omega)
    rw [hsigns.1, hsigns.2]
    exact ⟨(natCast_mul m n).symm, rfl, rfl⟩

theorem toNat_factor (r : Int64) (negative : Bool) :
    (0 < r → r.toUInt64.toNat = r.toInt.natAbs ∧ (negative != decide (r.toInt < 0)) = negative) ∧
      (¬0 < r → (-r).toUInt64.toNat = r.toInt.natAbs ∧
        (r.toInt ≠ 0 → (negative != decide (r.toInt < 0)) = !negative)) := by
  rw [Int64.lt_iff_toInt_lt, Int64.toInt_zero]
  constructor
  · intro hpos
    have hword := toNat_toUInt64 hpos.le
    have hsign : decide (r.toInt < 0) = false := decide_eq_false (by omega)
    exact ⟨by omega, by rw [hsign, Bool.bne_false]⟩
  · intro hneg
    refine ⟨?_, fun hne => ?_⟩
    · by_cases hmin : r.toInt = -2 ^ 63
      · obtain rfl : r = Int64.minValue := Int64.toInt_inj.mp hmin
        rfl
      · have hle := r.le_toInt
        have hminus : (-r).toInt = -r.toInt := by rw [Int64.toInt_neg, bmod64_eq (by omega) (by omega)]
        have hword := toNat_toUInt64 (x := -r) (by omega)
        omega
    · have hsign : decide (r.toInt < 0) = true := decide_eq_true (by omega)
      rw [hsign, Bool.bne_true]

theorem Duration.InRange.natAbs_lt {n : ℤ} (h : InRange n) :
    (n.natAbs : ℤ) < (kDurationMaxSeconds + 1) * 10 ^ 9 := by
  obtain ⟨hmin, hmax⟩ := h
  rw [kDurationMinSeconds] at hmin
  rw [kDurationMaxSeconds] at hmax ⊢
  omega

theorem Duration.inRange_of_natAbs_le {n : ℤ} {bound : ℤ} (h : InRange bound) (hle : n.natAbs ≤ bound.natAbs) :
    InRange n := by
  obtain ⟨hmin, hmax⟩ := h
  rw [kDurationMinSeconds] at hmin
  rw [kDurationMaxSeconds] at hmax
  rw [InRange, kDurationMinSeconds, kDurationMaxSeconds]
  omega

theorem Duration.Valid.inRange {d : Duration} (h : d.Valid) : InRange d.total := by
  obtain ⟨hmin, hmax, hlt, hgt, hneg, hpos⟩ := h
  rw [kDurationMinSeconds] at hmin
  rw [kDurationMaxSeconds] at hmax
  rw [InRange, kDurationMinSeconds, kDurationMaxSeconds, Duration.total]
  omega

theorem toDuration_signed {value : Uint128} {negative : Bool} {n : ℤ} (hn : Duration.InRange n)
    (hvalue : signed negative value.toNat = n) :
    ∃ d, toDuration value negative = some d ∧ d.Valid ∧ d.total = n := by
  have hmagnitude : value.toNat = n.natAbs := by rw [← hvalue, natAbs_signed]
  have hlt := hn.natAbs_lt
  rw [← hmagnitude] at hlt
  obtain ⟨d, hd, hvalid, htotal⟩ := toDuration_spec hlt
  exact ⟨d, hd, hvalid, htotal.trans hvalue⟩

namespace Duration
variable {d d₁ d₂ : Duration} {r : Int64}

theorem mul_spec (h : d.Valid) (hrange : InRange (d.total * r.toInt)) :
    ∃ p, d.mul r = some p ∧ p.Valid ∧ p.total = d.total * r.toInt := by
  obtain ⟨hmagnitude, hnegative⟩ := toUint128_spec h
  have hsign : (toUint128 d).2 = decide (d.total < 0) := by
    rw [Bool.eq_iff_iff, hnegative, decide_eq_true_iff]
  have hproduct := (signed_operations d.total r.toInt).1
  have hfits : d.total.natAbs * r.toInt.natAbs < 2 ^ 128 := by
    have hlt := hrange.natAbs_lt
    rw [natAbs_mul, kDurationMaxSeconds] at hlt
    omega
  obtain ⟨hpositive, hother⟩ := toNat_factor r (decide (d.total < 0))
  rw [mul]
  split
  · next hpos =>
    obtain ⟨hword, hfactor⟩ := hpositive hpos
    refine toDuration_signed hrange ?_
    rw [Uint128.toNat_mul, Uint128.toNat_ofUInt64, hmagnitude, hword, Nat.mod_eq_of_lt hfits, hsign, hproduct, hfactor]
  · next hneg =>
    obtain ⟨hword, hfactor⟩ := hother hneg
    refine toDuration_signed hrange ?_
    rw [Uint128.toNat_mul, Uint128.toNat_ofUInt64, hmagnitude, hword, Nat.mod_eq_of_lt hfits, hsign, hproduct]
    by_cases hzero : r.toInt = 0
    · rw [hzero, natAbs_zero, mul_zero, signed_zero, signed_zero]
    · rw [hfactor hzero]

theorem divModImpl_natAbs {v w : Uint128} {a b : ℤ} (hv : v.toNat = a.natAbs) (hw : w.toNat = b.natAbs) (hb : b ≠ 0) :
    ∃ quotient remainder, v.div w = some quotient ∧ v.mod w = some remainder ∧
      quotient.toNat = a.natAbs / b.natAbs ∧ remainder.toNat = a.natAbs % b.natAbs := by
  have hpos : 0 < b.natAbs := Int.natAbs_pos.mpr hb
  obtain ⟨quotient, remainder, hdivides, hsum, hlt⟩ := Uint128.divModImpl_spec (a := v) (b := w) (by omega)
  rw [hv, hw] at hsum
  rw [hw] at hlt
  have hsum' : remainder.toNat + b.natAbs * quotient.toNat = a.natAbs := by
    rw [add_comm, mul_comm]
    exact hsum
  obtain ⟨hdiv, hmod⟩ := (Nat.div_mod_unique hpos).mpr ⟨hsum', hlt⟩
  exact ⟨quotient, remainder, by rw [Uint128.div, hdivides]; rfl, by rw [Uint128.mod, hdivides]; rfl, hdiv.symm, hmod.symm⟩

theorem div_spec (h : d.Valid) (hr : r.toInt ≠ 0) :
    ∃ p, d.div r = some p ∧ p.Valid ∧ p.total = d.total.tdiv r.toInt := by
  obtain ⟨hmagnitude, hnegative⟩ := toUint128_spec h
  have hsign : (toUint128 d).2 = decide (d.total < 0) := by
    rw [Bool.eq_iff_iff, hnegative, decide_eq_true_iff]
  have hquotient := (signed_operations d.total r.toInt).2.1
  have hrange : InRange (d.total.tdiv r.toInt) :=
    inRange_of_natAbs_le h.inRange (natAbs_tdiv_le_natAbs _ _)
  obtain ⟨hpositive, hother⟩ := toNat_factor r (decide (d.total < 0))
  rw [div]
  split
  · next hpos =>
    obtain ⟨hword, hfactor⟩ := hpositive hpos
    obtain ⟨quotient, -, hdiv, -, hvalue, -⟩ := divModImpl_natAbs hmagnitude
      ((Uint128.toNat_ofUInt64 r.toUInt64).trans hword) hr
    rw [hdiv, Option.bind_some]
    refine toDuration_signed hrange ?_
    rw [hvalue, hsign, hquotient, hfactor]
  · next hneg =>
    obtain ⟨hword, hfactor⟩ := hother hneg
    obtain ⟨quotient, -, hdiv, -, hvalue, -⟩ := divModImpl_natAbs hmagnitude
      ((Uint128.toNat_ofUInt64 (-r).toUInt64).trans hword) hr
    rw [hdiv, Option.bind_some]
    refine toDuration_signed hrange ?_
    rw [hvalue, hsign, hquotient, hfactor hr]

section
variable (h₁ : d₁.Valid)
include h₁

section
variable (h₂ : d₂.Valid)
include h₂

theorem mod_spec (hne : d₂.total ≠ 0) :
    ∃ rest, d₁.mod d₂ = some rest ∧ rest.Valid ∧ rest.total = d₁.total.tmod d₂.total := by
  obtain ⟨hmagnitude₁, hnegative₁⟩ := toUint128_spec h₁
  obtain ⟨hmagnitude₂, -⟩ := toUint128_spec h₂
  have hsign : (toUint128 d₁).2 = decide (d₁.total < 0) := by
    rw [Bool.eq_iff_iff, hnegative₁, decide_eq_true_iff]
  have hrange : InRange (d₁.total.tmod d₂.total) := by
    refine inRange_of_natAbs_le h₁.inRange ?_
    rw [natAbs_tmod]
    exact Nat.mod_le _ _
  obtain ⟨-, remainder, -, hmod, -, hvalue⟩ := divModImpl_natAbs hmagnitude₁ hmagnitude₂ hne
  rw [mod]
  rw [hmod, Option.bind_some]
  refine toDuration_signed hrange ?_
  rw [hvalue, hsign, (signed_operations d₁.total d₂.total).2.2]

theorem quotient_spec (hne : d₂.total ≠ 0)
    (hle : -2 ^ 63 ≤ d₁.total.tdiv d₂.total) (hlt : d₁.total.tdiv d₂.total < 2 ^ 63) :
    ∃ q, d₁.quotient d₂ = some q ∧ q.toInt = d₁.total.tdiv d₂.total := by
  obtain ⟨hmagnitude₁, hnegative₁⟩ := toUint128_spec h₁
  obtain ⟨hmagnitude₂, hnegative₂⟩ := toUint128_spec h₂
  have hsign₁ : (toUint128 d₁).2 = decide (d₁.total < 0) := by
    rw [Bool.eq_iff_iff, hnegative₁, decide_eq_true_iff]
  have hsign₂ : (toUint128 d₂).2 = decide (d₂.total < 0) := by
    rw [Bool.eq_iff_iff, hnegative₂, decide_eq_true_iff]
  obtain ⟨quotient, -, hdiv, -, hvalue, -⟩ := divModImpl_natAbs hmagnitude₁ hmagnitude₂ hne
  have hquotient := (signed_operations d₁.total d₂.total).2.1
  rw [← hvalue, ← hsign₁, ← hsign₂] at hquotient
  have hlo : quotient.toNat < 2 ^ 64 := by
    have hnatAbs := natAbs_signed ((toUint128 d₁).2 != (toUint128 d₂).2) quotient.toNat
    rw [← hquotient] at hnatAbs
    omega
  have hword := toNat_lo hlo
  rw [Duration.quotient]
  rw [hdiv, Option.map_some]
  refine ⟨_, rfl, ?_⟩
  rw [hquotient] at hle hlt ⊢
  by_cases hsame : (toUint128 d₁).2 = (toUint128 d₂).2
  · have hplus : signed ((toUint128 d₁).2 != (toUint128 d₂).2) quotient.toNat = quotient.toNat := by
      rw [hsame, bne_self_eq_false, signed, if_neg Bool.false_ne_true]
    rw [hplus] at hlt ⊢
    rw [if_neg fun hne => hne hsame, toInt_toInt64 (by omega), hword]
  · have hminus : signed ((toUint128 d₁).2 != (toUint128 d₂).2) quotient.toNat = -(quotient.toNat : ℤ) := by
      rw [bne_iff_ne.mpr hsame, signed, if_pos rfl]
    rw [hminus] at hle ⊢
    rw [if_pos hsame]
    by_cases hmin : quotient.toNat = 2 ^ 63
    · -- the negation of the smallest number wraps around to it
      have hlast : quotient.lo = Int64.minValue.toUInt64 := UInt64.toNat_inj.mp (hword.trans hmin)
      have hwraps : (-Int64.minValue).toInt = -2 ^ 63 := rfl
      rw [hlast, hmin, Int64.toInt64_toUInt64, hwraps]
      norm_num
    · have hplus : quotient.lo.toInt64.toInt = quotient.toNat := by rw [toInt_toInt64 (by omega), hword]
      rw [Int64.toInt_neg, hplus, bmod64_eq (by omega) (by omega)]

theorem Valid.ext (h : d₁.total = d₂.total) : d₁ = d₂ := by
  obtain ⟨-, -, hlt₁, hgt₁, hneg₁, hpos₁⟩ := h₁
  obtain ⟨-, -, hlt₂, hgt₂, hneg₂, hpos₂⟩ := h₂
  rw [total, total] at h
  have hseconds : d₁.seconds.toInt = d₂.seconds.toInt := by omega
  have hnanos : d₁.nanos.toInt = d₂.nanos.toInt := by omega
  rw [Duration.mk.injEq, ← Int64.toInt_inj, ← Int32.toInt_inj]
  exact ⟨hseconds, hnanos⟩

theorem add_spec (hrange : InRange (d₁.total + d₂.total)) :
    (d₁.add d₂).Valid ∧ (d₁.add d₂).total = d₁.total + d₂.total := by
  obtain ⟨hsums, htotal⟩ := h₁.fields.add h₂.fields
  obtain ⟨hresult, hvalid⟩ := createNormalizedDuration_spec hsums (by rw [htotal]; exact hrange)
  exact ⟨hvalid, hresult.trans htotal⟩

theorem sub_spec (hrange : InRange (d₁.total - d₂.total)) :
    (d₁.sub d₂).Valid ∧ (d₁.sub d₂).total = d₁.total - d₂.total := by
  obtain ⟨hsums, htotal⟩ := h₁.fields.sub h₂.fields
  obtain ⟨hresult, hvalid⟩ := createNormalizedDuration_spec hsums (by rw [htotal]; exact hrange)
  exact ⟨hvalid, hresult.trans htotal⟩

/-- A truncated quotient and its remainder go together. -/
theorem division_spec (hne : d₂.total ≠ 0)
    (hle : -2 ^ 63 ≤ d₁.total.tdiv d₂.total) (hlt : d₁.total.tdiv d₂.total < 2 ^ 63) :
    ∃ q rest, d₁.quotient d₂ = some q ∧ d₁.mod d₂ = some rest ∧ q.toInt = d₁.total.tdiv d₂.total ∧ rest.Valid ∧
      |rest.total| < |d₂.total| ∧ (0 < rest.total → 0 < d₁.total) ∧ (rest.total < 0 → d₁.total < 0) ∧
      d₁.total = q.toInt * d₂.total + rest.total ∧ ∃ p, d₂.mul q = some p ∧ p.add rest = d₁ := by
  obtain ⟨q, hq, hvalue⟩ := quotient_spec h₁ h₂ hne hle hlt
  obtain ⟨rest, hrest, hvalid, htotal⟩ := mod_spec h₁ h₂ hne
  have hsplit : d₁.total = q.toInt * d₂.total + rest.total := by
    rw [hvalue, htotal, Int.mul_comm]
    exact (mul_tdiv_add_tmod _ _).symm
  have hproduct : InRange (d₂.total * q.toInt) := by
    refine inRange_of_natAbs_le h₁.inRange ?_
    rw [hvalue, natAbs_mul, natAbs_tdiv]
    exact Nat.mul_div_le _ _
  obtain ⟨p, hp, hpvalid, hptotal⟩ := mul_spec h₂ hproduct
  have hsum : p.total + rest.total = d₁.total := by rw [hptotal, Int.mul_comm, ← hsplit]
  obtain ⟨hsumValid, hsumTotal⟩ := add_spec hpvalid hvalid (by rw [hsum]; exact h₁.inRange)
  have hsmall : |rest.total| < |d₂.total| := by
    rw [htotal, abs_eq_natAbs, abs_eq_natAbs, natAbs_tmod]
    exact_mod_cast Nat.mod_lt _ (Int.natAbs_pos.mpr hne)
  refine ⟨q, rest, hq, hrest, hvalue, hvalid, hsmall, fun hpos => ?_, fun hneg => ?_, hsplit, p, hp,
    hsumValid.ext h₁ (hsumTotal.trans hsum)⟩
  · rw [htotal] at hpos
    by_contra hnot
    have hnonneg := tmod_nonneg (a := -d₁.total) d₂.total (by omega)
    rw [neg_tmod] at hnonneg
    omega
  · rw [htotal] at hneg
    by_contra hnot
    have hnonneg := tmod_nonneg (a := d₁.total) d₂.total (by omega)
    omega

end

end

end Duration

namespace Timestamp
variable {t t₁ t₂ : Timestamp} {d : Duration}

theorem add_spec (ht : t.Valid) (hd : d.Valid) (hrange : InRange (t.total + d.total)) :
    (t.add d).Valid ∧ (t.add d).total = t.total + d.total := by
  obtain ⟨hsums, htotal⟩ := ht.fields.add hd.fields
  obtain ⟨hresult, hvalid⟩ := createNormalizedTimestamp_spec hsums (by rw [htotal]; exact hrange)
  exact ⟨hvalid, hresult.trans htotal⟩

theorem sub_spec (ht : t.Valid) (hd : d.Valid) (hrange : InRange (t.total - d.total)) :
    (t.sub d).Valid ∧ (t.sub d).total = t.total - d.total := by
  obtain ⟨hsums, htotal⟩ := ht.fields.sub hd.fields
  obtain ⟨hresult, hvalid⟩ := createNormalizedTimestamp_spec hsums (by rw [htotal]; exact hrange)
  exact ⟨hvalid, hresult.trans htotal⟩

theorem difference_spec (h₁ : t₁.Valid) (h₂ : t₂.Valid) (hrange : Duration.InRange (t₁.total - t₂.total)) :
    (t₁.difference t₂).Valid ∧ (t₁.difference t₂).total = t₁.total - t₂.total := by
  obtain ⟨hsums, htotal⟩ := h₁.fields.sub h₂.fields
  obtain ⟨hresult, hvalid⟩ := createNormalizedDuration_spec hsums (by rw [htotal]; exact hrange)
  exact ⟨hvalid, hresult.trans htotal⟩

end Timestamp

/-! ## The operators -/

/-- **The arithmetic of durations is exact**, and its results are in normal form, wherever the
exact result is in range. -/
theorem duration_arithmetic : (∀ d₁ d₂ : Duration, d₁.Valid → d₂.Valid →
      (Duration.InRange (d₁.total + d₂.total) → (d₁.add d₂).Valid ∧ (d₁.add d₂).total = d₁.total + d₂.total) ∧
        (Duration.InRange (d₁.total - d₂.total) → (d₁.sub d₂).Valid ∧ (d₁.sub d₂).total = d₁.total - d₂.total) ∧
        (d₂.total ≠ 0 → -2 ^ 63 ≤ d₁.total.tdiv d₂.total → d₁.total.tdiv d₂.total < 2 ^ 63 →
          ∃ q rest, d₁.quotient d₂ = some q ∧ d₁.mod d₂ = some rest ∧ q.toInt = d₁.total.tdiv d₂.total ∧
            rest.Valid ∧ |rest.total| < |d₂.total| ∧ (0 < rest.total → 0 < d₁.total) ∧
            (rest.total < 0 → d₁.total < 0) ∧ d₁.total = q.toInt * d₂.total + rest.total ∧
            ∃ p, d₂.mul q = some p ∧ p.add rest = d₁)) ∧
      (∀ (d : Duration) (r : Int64), d.Valid → r ≠ Int64.minValue →
        (Duration.InRange (d.total * r.toInt) →
          ∃ p, d.mul r = some p ∧ p.Valid ∧ p.total = d.total * r.toInt) ∧
        (r ≠ 0 → ∃ p, d.div r = some p ∧ p.Valid ∧ p.total = d.total.tdiv r.toInt)) ∧
      (∀ (t : Timestamp) (d : Duration), t.Valid → d.Valid →
        (Timestamp.InRange (t.total + d.total) → (t.add d).Valid ∧ (t.add d).total = t.total + d.total) ∧
        (Timestamp.InRange (t.total - d.total) → (t.sub d).Valid ∧ (t.sub d).total = t.total - d.total)) ∧
      ∀ t₁ t₂ : Timestamp, t₁.Valid → t₂.Valid → Duration.InRange (t₁.total - t₂.total) →
        (t₁.difference t₂).Valid ∧ (t₁.difference t₂).total = t₁.total - t₂.total := by
  refine ⟨fun d₁ d₂ h₁ h₂ => ⟨Duration.add_spec h₁ h₂, Duration.sub_spec h₁ h₂, Duration.division_spec h₁ h₂⟩,
    fun d r h _ => ⟨Duration.mul_spec h, fun hr => Duration.div_spec h fun hzero => hr (Int64.toInt_inj.mp hzero)⟩,
    fun t d ht hd => ⟨Timestamp.add_spec ht hd, Timestamp.sub_spec ht hd⟩,
    fun t₁ t₂ h₁ h₂ => Timestamp.difference_spec h₁ h₂⟩

/-- A second and a half, less two seconds and a nanosecond; and the quotient of the two. -/
theorem duration_arithmetic_mixedSigns :
    ((⟨1, 500000000⟩ : Duration).sub ⟨2, 1⟩).total = -500000001 ∧
      ∃ q rest, (⟨-2, -1⟩ : Duration).quotient ⟨1, 500000000⟩ = some q ∧
        (⟨-2, -1⟩ : Duration).mod ⟨1, 500000000⟩ = some rest ∧ rest.total = -500000001 := by
  have hone : (⟨1, 500000000⟩ : Duration).Valid := by constructor <;> decide
  have htwo : (⟨2, 1⟩ : Duration).Valid := by constructor <;> decide
  have hminus : (⟨-2, -1⟩ : Duration).Valid := by constructor <;> decide
  refine ⟨((duration_arithmetic.1 _ _ hone htwo).2.1 ⟨by decide, by decide⟩).2.trans (by decide), ?_⟩
  obtain ⟨q, rest, hq, hrest, hvalue, -, -, -, -, hsplit, -⟩ :=
    (duration_arithmetic.1 _ _ hminus hone).2.2 (by decide) (by decide) (by decide)
  refine ⟨q, rest, hq, hrest, ?_⟩
  have hquotient : q.toInt = -1 := hvalue
  rw [hquotient] at hsplit
  have hdividend : (⟨-2, -1⟩ : Duration).total = -2000000001 := rfl
  have hdivisor : (⟨1, 500000000⟩ : Duration).total = 1500000000 := rfl
  omega

end Protoc.Util
