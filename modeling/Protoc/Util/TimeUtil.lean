import Protoc.Stubs.Int128Division

/-!
# Durations and timestamps

A `Duration` is a number of seconds and one of nanoseconds of the same sign; a `Timestamp` has
nanoseconds that are not negative.  Sums are normalized, and products and quotients go through
`uint128` and a sign.
-/

namespace Protoc.Util

open Protoc.Stubs

/-- `Duration`. -/
structure Duration where
  seconds : Int64
  nanos : Int32
  deriving DecidableEq

/-- `Timestamp`. -/
structure Timestamp where
  seconds : Int64
  nanos : Int32
  deriving DecidableEq

def kNanosPerSecond : Int64 := 1000000000
def kTimestampMinSeconds : ℤ := -62135596800
def kTimestampMaxSeconds : ℤ := 253402300799
def kDurationMinSeconds : ℤ := -315576000000
def kDurationMaxSeconds : ℤ := 315576000000

/-! ## Normalization -/

/-- The nanoseconds are brought into their range; the rest goes to the seconds. -/
def carrySeconds (seconds nanos : Int64) : Int64 × Int64 :=
  if nanos ≤ -kNanosPerSecond ∨ kNanosPerSecond ≤ nanos then
    (seconds + nanos / kNanosPerSecond, nanos % kNanosPerSecond)
  else (seconds, nanos)

/-- `CreateNormalized`, for a `Timestamp`. -/
def createNormalizedTimestamp (seconds nanos : Int64) : Timestamp :=
  let r := carrySeconds seconds nanos
  -- the nanoseconds are to be in the range [0, 999999999]
  if r.2 < 0 then ⟨r.1 - 1, (r.2 + kNanosPerSecond).toInt32⟩ else ⟨r.1, r.2.toInt32⟩

/-- `CreateNormalized`, for a `Duration`. -/
def createNormalizedDuration (seconds nanos : Int64) : Duration :=
  let r := carrySeconds seconds nanos
  -- the nanoseconds are to have the same sign as the seconds
  if r.1 < 0 ∧ 0 < r.2 then ⟨r.1 + 1, (r.2 - kNanosPerSecond).toInt32⟩
  else if 0 < r.1 ∧ r.2 < 0 then ⟨r.1 - 1, (r.2 + kNanosPerSecond).toInt32⟩
  else ⟨r.1, r.2.toInt32⟩

/-! ## Sign and magnitude -/

/-- `kNanosPerSecond`, converted to a `uint128`. -/
def nanosPerSecond128 : Uint128 := .ofUInt64 1000000000

/-- `ToUint128`: the magnitude in nanoseconds, and whether it is negative. -/
def toUint128 (value : Duration) : Uint128 × Bool :=
  if value.seconds < 0 ∨ value.nanos < 0 then
    let result := Uint128.ofUInt64 (-value.seconds).toUInt64
    ((result.mul nanosPerSecond128).add (.ofUInt64 (-value.nanos).toUInt32.toUInt64), true)
  else
    let result := Uint128.ofUInt64 value.seconds.toUInt64
    ((result.mul nanosPerSecond128).add (.ofUInt64 value.nanos.toUInt32.toUInt64), false)

/-- `ToDuration`. -/
def toDuration (value : Uint128) (negative : Bool) : Option Duration :=
  (value.div nanosPerSecond128).bind fun quotient =>
    (value.mod nanosPerSecond128).map fun remainder =>
      let seconds := quotient.lo.toInt64
      let nanos := remainder.lo.toUInt32.toInt32
      if negative then ⟨-seconds, -nanos⟩ else ⟨seconds, nanos⟩

/-! ## Operators -/

namespace Duration

/-- `operator +=`. -/
def add (d₁ d₂ : Duration) : Duration :=
  createNormalizedDuration (d₁.seconds + d₂.seconds) (d₁.nanos + d₂.nanos).toInt64

/-- `operator -=`. -/
def sub (d₁ d₂ : Duration) : Duration :=
  createNormalizedDuration (d₁.seconds - d₂.seconds) (d₁.nanos - d₂.nanos).toInt64

/-- `operator *=`, by an integer. -/
def mul (d : Duration) (r : Int64) : Option Duration :=
  let value := toUint128 d
  if 0 < r then toDuration (value.1.mul (.ofUInt64 r.toUInt64)) value.2
  else toDuration (value.1.mul (.ofUInt64 (-r).toUInt64)) (!value.2)

/-- `operator /=`, by an integer; a division by zero is fatal. -/
def div (d : Duration) (r : Int64) : Option Duration :=
  let value := toUint128 d
  if 0 < r then (value.1.div (.ofUInt64 r.toUInt64)).bind fun quotient => toDuration quotient value.2
  else (value.1.div (.ofUInt64 (-r).toUInt64)).bind fun quotient => toDuration quotient !value.2

/-- `operator %=`. -/
def mod (d₁ d₂ : Duration) : Option Duration :=
  let value₁ := toUint128 d₁
  let value₂ := toUint128 d₂
  (value₁.1.mod value₂.1).bind fun result => toDuration result value₁.2

/-- `operator /`, by a `Duration`. -/
def quotient (d₁ d₂ : Duration) : Option Int64 :=
  let value₁ := toUint128 d₁
  let value₂ := toUint128 d₂
  (value₁.1.div value₂.1).map fun quotient =>
    let result := quotient.lo.toInt64
    if value₁.2 ≠ value₂.2 then -result else result

def total (d : Duration) : ℤ := d.seconds.toInt * 10 ^ 9 + d.nanos.toInt

/-- The normal form: seconds and nanoseconds in their ranges, of signs that are not opposed. -/
structure Valid (d : Duration) : Prop where
  min_le : kDurationMinSeconds ≤ d.seconds.toInt
  le_max : d.seconds.toInt ≤ kDurationMaxSeconds
  lt_nanos : -10 ^ 9 < d.nanos.toInt
  nanos_lt : d.nanos.toInt < 10 ^ 9
  not_negative : d.seconds.toInt < 0 → d.nanos.toInt ≤ 0
  not_positive : 0 < d.seconds.toInt → 0 ≤ d.nanos.toInt

def InRange (nanoseconds : ℤ) : Prop :=
  (kDurationMinSeconds - 1) * 10 ^ 9 < nanoseconds ∧ nanoseconds < (kDurationMaxSeconds + 1) * 10 ^ 9

end Duration

namespace Timestamp

/-- `operator +=`. -/
def add (t : Timestamp) (d : Duration) : Timestamp :=
  createNormalizedTimestamp (t.seconds + d.seconds) (t.nanos + d.nanos).toInt64

/-- `operator -=`. -/
def sub (t : Timestamp) (d : Duration) : Timestamp :=
  createNormalizedTimestamp (t.seconds - d.seconds) (t.nanos - d.nanos).toInt64

/-- `operator -`, of two timestamps. -/
def difference (t₁ t₂ : Timestamp) : Duration :=
  createNormalizedDuration (t₁.seconds - t₂.seconds) (t₁.nanos - t₂.nanos).toInt64

def total (t : Timestamp) : ℤ := t.seconds.toInt * 10 ^ 9 + t.nanos.toInt

/-- The normal form: seconds and nanoseconds in their ranges. -/
structure Valid (t : Timestamp) : Prop where
  min_le : kTimestampMinSeconds ≤ t.seconds.toInt
  le_max : t.seconds.toInt ≤ kTimestampMaxSeconds
  nanos_nonneg : 0 ≤ t.nanos.toInt
  nanos_lt : t.nanos.toInt < 10 ^ 9

def InRange (nanoseconds : ℤ) : Prop :=
  kTimestampMinSeconds * 10 ^ 9 ≤ nanoseconds ∧ nanoseconds < (kTimestampMaxSeconds + 1) * 10 ^ 9

end Timestamp

end Protoc.Util
