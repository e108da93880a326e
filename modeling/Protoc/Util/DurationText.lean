import Protoc.Stubs.TimeParse
import Protoc.Util.DurationArithmetic

/-!
# Durations as text

A duration is written as its seconds, a fraction of three, six or nine digits and an `s`.  It is
read as two integers, around the last point, with `strtoll`: which takes blanks and a sign, and
takes an empty text for zero.
-/

namespace Protoc.Util

open Protoc.Lib
open List Option
open Protoc.Stubs.Time (Text ch asciiIsDigit printPadded fixedDigits)

/-! ## From the source -/

/-- `isspace`, in the C locale. -/
def isSpace (c : UInt8) : Bool := decide (c = 32 ∨ 9 ≤ c ∧ c ≤ 13)

/-- `strtoll`, in base ten: the number, which is clamped, and where it ends. -/
def strto64 (text : Text) : Int64 × ℕ :=
  let rest := text.dropWhile isSpace
  let negative := rest.head? = some (ch '-')
  let rest := if negative ∨ rest.head? = some (ch '+') then rest.tail else rest
  let digits := rest.takeWhile asciiIsDigit
  -- where there is no digit, nothing is read, not even the blanks
  if digits = [] then (0, 0)
  else (Int64.ofIntClamp (signed negative (decimalValue digits)), text.length - rest.length + digits.length)

/-- `find_last_of`, a character. -/
def findLastOf (c : UInt8) (value : Text) : Option ℕ :=
  (value.reverse.findIdx? (· == c)).map fun pos => value.length - 1 - pos

/-- `substr` -/
def substr (value : Text) (pos count : ℕ) : Text := (value.drop pos).take count

/-- `negative`, of `FromString`. -/
def isNegative (value : Text) : Bool := decide (value.head? = some (ch '-'))

/-- `sign_length` -/
def signLength (value : Text) : ℕ := if isNegative value then 1 else 0

/-- `seconds_part`, up to the last point. -/
def secondsPart (value : Text) : Text :=
  (findLastOf (ch '.') value).elim (substr value (signLength value) (value.length - 1 - signLength value))
    fun pos => substr value (signLength value) (pos - signLength value)

/-- `nanos_part`, behind the last point. -/
def nanosPart (value : Text) : Text :=
  (findLastOf (ch '.') value).elim [ch '0'] fun pos => substr value (pos + 1) (value.length - pos - 2)

/-- `Pow` -/
def pow (x : Int64) (y : ℤ) : Int64 := (fun result => result * x)^[y.toNat] 1

/-- `9 - nanos_part.length()`, which is of type `size_t`, as an `int`. -/
def scale (length : ℕ) : ℤ := (9 - length : ℤ).bmod (2 ^ 32)

/-- `TimeUtil::FromString`, a `Duration`. -/
def fromString (value : Text) : Option Duration :=
  if value.length ≤ 1 ∨ value.getLast? ≠ some (ch 's') then none
  else
    let seconds := strto64 (secondsPart value)
    let nanos := strto64 (nanosPart value)
    if seconds.2 ≠ (secondsPart value).length then none
    else if nanos.2 ≠ (nanosPart value).length then none
    else
      let scaled := nanos.1 * pow 10 (scale (nanosPart value).length)
      some (if isNegative value then ⟨-seconds.1, (-scaled).toInt32⟩ else ⟨seconds.1, scaled.toInt32⟩)

/-- `StringPrintf("%0<width>d", n)`, for a width of more than one. -/
def printPaddedInt (width : ℕ) (n : ℤ) : Text :=
  if n < 0 then ch '-' :: printPadded (width - 1) n.natAbs else printPadded width n.natAbs

/-- `FormatNanos` -/
def formatNanos (nanos : Int32) : Text :=
  if nanos % 1000000 = 0 then printPaddedInt 3 (nanos / 1000000).toInt
  else if nanos % 1000 = 0 then printPaddedInt 6 (nanos / 1000).toInt
  else printPaddedInt 9 nanos.toInt

/-- `TimeUtil::ToString`, a `Duration`. -/
def toString (duration : Duration) : Text :=
  let negative := duration.seconds < 0 ∨ duration.nanos < 0
  let seconds := if negative then -duration.seconds else duration.seconds
  let nanos := if negative then -duration.nanos else duration.nanos
  (if negative then [ch '-'] else []) ++ decimalInt seconds.toInt ++
    (if nanos ≠ 0 then ch '.' :: formatNanos nanos else []) ++ [ch 's']

/-! ## The form -/

/-- Decimal digits, and at least one. -/
structure Digits (text : Text) : Prop where
  ne_nil : text ≠ []
  digits : ∀ c ∈ text, asciiIsDigit c = true

def written (negative : Bool) (whole : Text) (fraction : Option Text) : Text :=
  (if negative then [ch '-'] else []) ++ whole ++ fraction.elim [] (fun text => ch '.' :: text) ++ [ch 's']

/-- The nanoseconds of a whole part and of the digits of a fraction. -/
def nanoseconds (whole fraction : Text) : ℕ :=
  decimalValue whole * 10 ^ 9 + decimalValue fraction * 10 ^ (9 - fraction.length)

/-- **The form of a duration**: an optional sign, digits, perhaps a point and one to nine digits, and
an `s`; and the nanoseconds that are denoted. -/
inductive IsDurationText : Text → ℤ → Prop
  | whole (negative : Bool) {whole : Text} (hwhole : Digits whole) :
      IsDurationText (written negative whole none) (signed negative (nanoseconds whole []))
  | fraction (negative : Bool) {whole fraction : Text} (hwhole : Digits whole) (hfraction : Digits fraction)
      (hlength : fraction.length ≤ 9) :
      IsDurationText (written negative whole (some fraction)) (signed negative (nanoseconds whole fraction))

/-- It ends as a duration does, and `strtoll` reads the whole of both of its parts. -/
structure Readable (value : Text) : Prop where
  one_lt_length : 1 < value.length
  getLast : value.getLast? = some (ch 's')
  secondsPart : (strto64 (secondsPart value)).2 = (secondsPart value).length
  nanosPart : (strto64 (nanosPart value)).2 = (nanosPart value).length

/-- A text begins with a digit: with no blank and no sign, and it is not empty. -/
def BeginsWithDigit (text : Text) : Prop := text.head?.any asciiIsDigit = true

/-- **What is accepted and is no duration**: an empty part, or one that begins with a blank or a sign; a
fraction of more than nine digits; or seconds that are out of range. -/
def Loose (value : Text) : Prop :=
  Readable value ∧ ¬ (BeginsWithDigit (secondsPart value) ∧ BeginsWithDigit (nanosPart value) ∧
    (nanosPart value).length ≤ 9 ∧ (decimalValue (secondsPart value) : ℤ) ≤ kDurationMaxSeconds)

/-! ## Reading an integer -/

variable {value whole fraction digits front back : Text} {negative : Bool} {c : UInt8} {n : ℕ}

theorem isSpace_of_digit (hc : asciiIsDigit c = true) : isSpace c = false := by
  obtain ⟨hle, hge⟩ := of_decide_eq_true hc
  rw [isSpace, decide_eq_false_iff_not]
  rintro (rfl | ⟨-, hle'⟩)
  · exact absurd hle (by decide)
  · have hle'' : c.toNat ≤ 13 := hle'
    omega

theorem ne_of_digit (hc : asciiIsDigit c = true) : c ≠ ch '-' ∧ c ≠ ch '+' ∧ c ≠ ch '.' := by
  refine ⟨?_, ?_, ?_⟩ <;>
    · rintro rfl
      exact absurd hc (by decide)

theorem strto64_cons (hc : asciiIsDigit c = true) (rest : Text) :
    strto64 (c :: rest) = (Int64.ofIntClamp (decimalValue ((c :: rest).takeWhile asciiIsDigit)),
      ((c :: rest).takeWhile asciiIsDigit).length) := by
  obtain ⟨hminus, hplus, -⟩ := ne_of_digit hc
  have hdrop : (c :: rest).dropWhile isSpace = c :: rest :=
    dropWhile_cons_of_neg (Bool.eq_false_iff.mp (isSpace_of_digit hc))
  have htake : (c :: rest).takeWhile asciiIsDigit = c :: rest.takeWhile asciiIsDigit :=
    takeWhile_cons_of_pos hc
  simp [strto64, hdrop, htake, hminus, hplus, signed]

theorem Digits.cons (h : Digits digits) : ∃ c rest, digits = c :: rest ∧ asciiIsDigit c = true := by
  obtain ⟨c, rest, rfl⟩ := exists_cons_of_ne_nil h.ne_nil
  exact ⟨c, rest, rfl, h.digits c mem_cons_self⟩

theorem Digits.beginsWithDigit (h : Digits digits) : BeginsWithDigit digits := by
  obtain ⟨c, rest, rfl, hc⟩ := h.cons
  exact hc

theorem strto64_digits (h : Digits digits) :
    strto64 digits = (Int64.ofIntClamp (decimalValue digits), digits.length) := by
  obtain ⟨c, rest, rfl, hc⟩ := h.cons
  rw [strto64_cons hc, takeWhile_eq_self_iff.mpr h.digits]

/-- **What is read whole and begins with a digit** is made of digits. -/
theorem digits_of_beginsWithDigit (hwhole : (strto64 digits).2 = digits.length)
    (h : BeginsWithDigit digits) : Digits digits := by
  cases digits with
  | nil => exact absurd h Bool.false_ne_true
  | cons c rest =>
    rw [strto64_cons h] at hwhole
    have hprefix := takeWhile_prefix (l := c :: rest) asciiIsDigit
    exact ⟨cons_ne_nil c rest, takeWhile_eq_self_iff.mp (List.IsPrefix.eq_of_length hprefix hwhole)⟩

theorem toInt_clamp (h : n < 2 ^ 63) : (Int64.ofIntClamp n).toInt = n := by
  have hmin : Int64.minValue.toInt = -2 ^ 63 := Int64.toInt_minValue
  have hmax : Int64.maxValue.toInt = 2 ^ 63 - 1 := Int64.toInt_maxValue
  exact Int64.toInt_ofIntClamp (by omega) (by omega)

/-! ## The two parts -/

theorem findLastOf_append (hback : c ∉ back) : findLastOf c (front ++ c :: back) = some front.length := by
  have hfind : (front ++ c :: back).reverse.findIdx? (· == c) = some back.length := by
    have hnone : back.reverse.findIdx? (· == c) = none := by
      rw [findIdx?_eq_none_iff]
      intro d hd
      rw [beq_eq_false_iff_ne]
      rintro rfl
      exact hback (mem_reverse.mp hd)
    rw [reverse_append, reverse_cons, append_assoc, findIdx?_append, hnone]
    simp [findIdx?_cons]
  rw [findLastOf, hfind, map_some, length_append, length_cons]
  exact congrArg some (by omega)

theorem findLastOf_eq_none (h : c ∉ value) : findLastOf c value = none := by
  rw [findLastOf, map_eq_none_iff, findIdx?_eq_none_iff]
  intro d hd
  rw [beq_eq_false_iff_ne]
  rintro rfl
  exact h (mem_reverse.mp hd)

/-- A sign, a whole part and a fraction that are found again in the text: where there is no sign, the
whole part does not begin with one; and the last point is that of the fraction. -/
structure TellsApart (negative : Bool) (whole : Text) (fraction : Option Text) : Prop where
  unsigned : negative = false → whole.head? ≠ some (ch '-')
  point : fraction = none → ch '.' ∉ whole
  fraction : ∀ text ∈ fraction, ch '.' ∉ text

theorem isNegative_written {fraction : Option Text} (h : TellsApart negative whole fraction) :
    isNegative (written negative whole fraction) = negative := by
  cases negative with
  | true => rfl
  | false =>
    have hhead := h.unsigned rfl
    cases whole with
    | nil => cases fraction <;> rfl
    | cons c rest => exact decide_eq_false hhead

theorem signLength_written {fraction : Option Text} (h : TellsApart negative whole fraction) :
    signLength (written negative whole fraction) = if negative then 1 else 0 := by
  rw [signLength, isNegative_written h]

theorem drop_sign (negative : Bool) (text : Text) :
    ((if negative then [ch '-'] else []) ++ text).drop (if negative then 1 else 0) = text := by
  cases negative <;> rfl

theorem length_sign (negative : Bool) :
    (if negative then [ch '-'] else [] : Text).length = if negative then 1 else 0 := by
  cases negative <;> rfl

/-- **The parts of a text** with a fraction. -/
theorem parts_fraction (h : TellsApart negative whole (some fraction)) :
    secondsPart (written negative whole (some fraction)) = whole ∧
      nanosPart (written negative whole (some fraction)) = fraction := by
  have hback : ch '.' ∉ fraction ++ [ch 's'] := by
    rw [mem_append, mem_singleton]
    rintro (hmem | hmem)
    · exact h.fraction fraction rfl hmem
    · exact absurd hmem (by decide)
  have hsplit : written negative whole (some fraction) =
      ((if negative then [ch '-'] else []) ++ whole) ++ ch '.' :: (fraction ++ [ch 's']) := by
    simp [written]
  have hfind := @findLastOf_append ((if negative then [ch '-'] else []) ++ whole) _ _ hback
  rw [← hsplit] at hfind
  have hlength := length_sign negative
  rw [secondsPart, nanosPart, hfind, elim_some, elim_some, signLength_written h, hsplit]
  constructor
  · rw [substr, append_assoc, drop_sign, length_append, hlength, Nat.add_sub_cancel_left, take_left]
  · rw [substr, drop_append, drop_of_length_le (Nat.le_succ _), Nat.add_sub_cancel_left, drop_one,
      tail_cons, nil_append]
    refine take_left' ?_
    simp only [length_append, length_cons, length_nil]
    omega

/-- **The parts of a text** without a fraction. -/
theorem parts_whole (h : TellsApart negative whole none) :
    secondsPart (written negative whole none) = whole ∧ nanosPart (written negative whole none) = [ch '0'] := by
  have hsplit : written negative whole none = (if negative then [ch '-'] else []) ++ (whole ++ [ch 's']) := by
    simp [written]
  have hnone : ch '.' ∉ written negative whole none := by
    rw [hsplit, mem_append, mem_append, mem_singleton]
    rintro (hmem | hmem | hmem)
    · cases negative
      · exact absurd hmem not_mem_nil
      · exact absurd hmem (by decide)
    · exact h.point rfl hmem
    · exact absurd hmem (by decide)
  have hlength := length_sign negative
  rw [secondsPart, nanosPart, findLastOf_eq_none hnone, elim_none, elim_none, signLength_written h, hsplit]
  refine ⟨?_, rfl⟩
  rw [substr, drop_sign]
  refine take_left' ?_
  simp only [length_append, length_cons, length_nil]
  omega

/-- **Every text that ends in an `s`** has the parts. -/
theorem exists_written (hlength : 1 < value.length) (hlast : value.getLast? = some (ch 's')) :
    ∃ negative whole fraction, value = written negative whole fraction ∧ TellsApart negative whole fraction := by
  obtain ⟨body, rfl⟩ := List.getLast?_eq_some_iff.mp hlast
  rw [length_append, length_singleton] at hlength
  obtain ⟨negative, rest, rfl, hunsigned⟩ : ∃ negative rest,
      body = (if negative then [ch '-'] else []) ++ rest ∧ (negative = false → rest.head? ≠ some (ch '-')) := by
    by_cases hhead : body.head? = some (ch '-')
    · obtain ⟨rest, rfl⟩ := List.head?_eq_some_iff.mp hhead
      exact ⟨true, rest, rfl, fun h => absurd h (by decide)⟩
    · exact ⟨false, body, rfl, fun _ => hhead⟩
  by_cases hpoint : ch '.' ∈ rest
  · obtain ⟨back, front, hrest, hback⟩ := eq_append_cons_of_mem (mem_reverse.mpr hpoint)
    obtain rfl : rest = front.reverse ++ ch '.' :: back.reverse := by
      simpa using congrArg reverse hrest
    refine ⟨negative, front.reverse, some back.reverse, by simp [written], ?_, ?_, ?_⟩
    · intro hneg hhead
      refine hunsigned hneg ?_
      rw [List.head?_append, hhead, some_or]
    · intro hnone
      exact absurd hnone (some_ne_none _)
    · rintro text htext
      cases htext
      exact fun hmem => hback (mem_reverse.mp hmem)
  · exact ⟨negative, rest, none, by simp [written], hunsigned, fun _ => hpoint, fun text htext => nomatch htext⟩

/-! ## What is accepted -/

variable {d : Duration}

theorem readable_of_fromString (h : fromString value = some d) : Readable value := by
  rw [fromString] at h
  split at h
  · exact absurd h (some_ne_none d).symm
  · next hshape =>
    rw [not_or, not_not] at hshape
    dsimp only at h
    split at h
    · exact absurd h (some_ne_none d).symm
    · next hseconds =>
      split at h
      · exact absurd h (some_ne_none d).symm
      · next hnanos => exact ⟨not_le.mp hshape.1, hshape.2, not_not.mp hseconds, not_not.mp hnanos⟩

theorem fromString_of_readable (h : Readable value) : fromString value =
      some (if isNegative value then ⟨-(strto64 (secondsPart value)).1,
            (-((strto64 (nanosPart value)).1 * pow 10 (scale (nanosPart value).length))).toInt32⟩
        else ⟨(strto64 (secondsPart value)).1,
            ((strto64 (nanosPart value)).1 * pow 10 (scale (nanosPart value).length)).toInt32⟩) := by
  have hshape : ¬ (value.length ≤ 1 ∨ value.getLast? ≠ some (ch 's')) := by
    rw [not_or, not_not]
    exact ⟨not_le.mpr h.one_lt_length, h.getLast⟩
  rw [fromString, if_neg hshape]
  dsimp only
  rw [if_neg (not_not.mpr h.secondsPart), if_neg (not_not.mpr h.nanosPart)]

theorem toInt_pow {k : ℕ} (hk : k ≤ 9) : (pow 10 k).toInt = 10 ^ k := by
  rw [pow, Int.toNat_natCast]
  induction k with
  | zero => rfl
  | succ k ih =>
    have hlast : (10 : ℤ) ^ (k + 1) ≤ 10 ^ 9 := pow_le_pow_right₀ (by decide) hk
    have hfirst : (0 : ℤ) ≤ 10 ^ (k + 1) := by positivity
    have hten : (10 : Int64).toInt = 10 := rfl
    rw [Function.iterate_succ_apply', Int64.toInt_mul, ih (by omega), hten, ← pow_succ,
      bmod64_eq (by omega) (by omega)]

theorem scale_eq (h : n ≤ 9) : scale n = (9 - n : ℕ) := by
  rw [scale, bmod32_eq (by omega) (by omega), Nat.cast_sub h]
  rfl

theorem decimalValue_lt (h : ∀ c ∈ digits, asciiIsDigit c = true) : decimalValue digits < 10 ^ digits.length := by
  have hlt : ∀ d ∈ digits.map fun c => c.toNat - 48, d < 10 := by
    intro d hd
    obtain ⟨c, hc, rfl⟩ := List.mem_map.mp hd
    obtain ⟨hle, hge⟩ := of_decide_eq_true (h c hc)
    omega
  have hvalue := numeral_lt (by decide) hlt
  rwa [length_map] at hvalue

theorem fraction_lt (h : ∀ c ∈ digits, asciiIsDigit c = true) (hlength : digits.length ≤ 9) :
    decimalValue digits * 10 ^ (9 - digits.length) < 10 ^ 9 := by
  calc decimalValue digits * 10 ^ (9 - digits.length)
      < 10 ^ digits.length * 10 ^ (9 - digits.length) := Nat.mul_lt_mul_of_pos_right (decimalValue_lt h) (by positivity)
    _ = 10 ^ 9 := by rw [← pow_add, Nat.add_sub_cancel' hlength]

theorem toInt_scaled (h : Digits digits) (hlength : digits.length ≤ 9) :
    ((strto64 digits).1 * pow 10 (scale digits.length)).toInt =
      (decimalValue digits * 10 ^ (9 - digits.length) : ℕ) := by
  have hlt := fraction_lt h.digits hlength
  have hle : decimalValue digits ≤ decimalValue digits * 10 ^ (9 - digits.length) :=
    Nat.le_mul_of_pos_right _ (by positivity)
  have hscale : (10 : ℤ) ^ (9 - digits.length) = (10 ^ (9 - digits.length) : ℕ) := by push_cast; rfl
  rw [strto64_digits h, scale_eq hlength, Int64.toInt_mul, toInt_pow (Nat.sub_le _ _), toInt_clamp (by omega),
    hscale, ← Nat.cast_mul, bmod64_eq (by omega) (by omega)]

/-- **A duration is read exactly.** -/
theorem fromString_exact (h : Readable value) (hseconds : Digits (secondsPart value))
    (hnanos : Digits (nanosPart value)) (hlength : (nanosPart value).length ≤ 9)
    (hmax : (decimalValue (secondsPart value) : ℤ) ≤ kDurationMaxSeconds) :
    ∃ d, fromString value = some d ∧ d.Valid ∧
      d.total = signed (isNegative value) (nanoseconds (secondsPart value) (nanosPart value)) := by
  rw [kDurationMaxSeconds] at hmax
  have hscaled := toInt_scaled hnanos hlength
  have hlt := fraction_lt hnanos.digits hlength
  have hclamp : (strto64 (secondsPart value)).1.toInt = decimalValue (secondsPart value) := by
    rw [strto64_digits hseconds]
    exact toInt_clamp (by omega)
  refine ⟨_, fromString_of_readable h, ?_⟩
  rw [nanoseconds]
  generalize decimalValue (nanosPart value) * 10 ^ (9 - (nanosPart value).length) = fraction at *
  generalize (strto64 (nanosPart value)).1 * pow 10 (scale (nanosPart value).length) = scaled at *
  generalize (strto64 (secondsPart value)).1 = seconds at *
  generalize decimalValue (secondsPart value) = whole at *
  cases isNegative value with
  | true =>
    have hminusSeconds : (-seconds).toInt = -whole := by
      rw [Int64.toInt_neg, hclamp, bmod64_eq (by omega) (by omega)]
    have hminusScaled : (-scaled).toInt32.toInt = -fraction := by
      rw [Int64.toInt_toInt32, Int64.toInt_neg, hscaled, bmod64_eq (by omega) (by omega),
        bmod32_eq (by omega) (by omega)]
    refine ⟨⟨?_, ?_, ?_, ?_, ?_, ?_⟩, ?_⟩ <;>
      simp only [Duration.total, signed, if_pos, kDurationMinSeconds, kDurationMaxSeconds, hminusSeconds,
        hminusScaled] <;> omega
  | false =>
    have hfraction : scaled.toInt32.toInt = fraction := by
      rw [Int64.toInt_toInt32, hscaled, bmod32_eq (by omega) (by omega)]
    refine ⟨⟨?_, ?_, ?_, ?_, ?_, ?_⟩, ?_⟩ <;>
      simp only [Duration.total, signed, Bool.false_eq_true, if_false, kDurationMinSeconds, kDurationMaxSeconds,
        hclamp, hfraction] <;> omega

/-! ## The form and the parts -/

theorem apart_of_digits (negative : Bool) {fraction : Option Text} (hwhole : Digits whole)
    (hfraction : ∀ text ∈ fraction, Digits text) : TellsApart negative whole fraction := by
  refine ⟨?_, ?_, ?_⟩
  · rintro - hhead
    obtain ⟨c, rest, rfl, hc⟩ := hwhole.cons
    exact (ne_of_digit hc).1 (some_inj.mp hhead)
  · rintro - hmem
    exact (ne_of_digit (hwhole.digits _ hmem)).2.2 rfl
  · intro text htext hmem
    exact (ne_of_digit ((hfraction text htext).digits _ hmem)).2.2 rfl

theorem written_shape (negative : Bool) (fraction : Option Text) (hwhole : Digits whole) :
    1 < (written negative whole fraction).length ∧ (written negative whole fraction).getLast? = some (ch 's') := by
  have hpos := length_pos_iff.mpr hwhole.ne_nil
  rw [written, List.getLast?_append, length_append, length_append, length_append, length_singleton]
  exact ⟨by omega, rfl⟩

theorem digits_zero : Digits [ch '0'] := ⟨cons_ne_nil _ _, forall_mem_singleton.mpr rfl⟩

theorem nanoseconds_zero (whole : Text) : nanoseconds whole [ch '0'] = nanoseconds whole [] := rfl

theorem IsDurationText.parts {n : ℤ} (h : IsDurationText value n) :
    Readable value ∧ Digits (secondsPart value) ∧ Digits (nanosPart value) ∧ (nanosPart value).length ≤ 9 ∧
      n = signed (isNegative value) (nanoseconds (secondsPart value) (nanosPart value)) := by
  cases h with
  | @whole negative whole hwhole =>
    have hapart : TellsApart negative whole none := apart_of_digits negative hwhole fun text htext => nomatch htext
    obtain ⟨hlength, hlast⟩ := written_shape negative none hwhole
    obtain ⟨hseconds, hnanos⟩ := parts_whole hapart
    refine ⟨⟨hlength, hlast, ?_, ?_⟩, ?_⟩
    · rw [hseconds, strto64_digits hwhole]
    · rw [hnanos, strto64_digits digits_zero]
    · rw [hseconds, hnanos, isNegative_written hapart, nanoseconds_zero]
      exact ⟨hwhole, digits_zero, by decide, rfl⟩
  | @fraction negative whole fraction hwhole hfraction hnine =>
    have hapart : TellsApart negative whole (some fraction) := apart_of_digits negative hwhole fun text htext =>
      some_inj.mp htext ▸ hfraction
    obtain ⟨hlength, hlast⟩ := written_shape negative (some fraction) hwhole
    obtain ⟨hseconds, hnanos⟩ := parts_fraction hapart
    refine ⟨⟨hlength, hlast, ?_, ?_⟩, ?_⟩
    · rw [hseconds, strto64_digits hwhole]
    · rw [hnanos, strto64_digits hfraction]
    · rw [hseconds, hnanos, isNegative_written hapart]
      exact ⟨hwhole, hfraction, hnine, rfl⟩

theorem isDurationText_of_parts (h : Readable value) (hseconds : Digits (secondsPart value))
    (hnanos : Digits (nanosPart value)) (hnine : (nanosPart value).length ≤ 9) :
    IsDurationText value (signed (isNegative value) (nanoseconds (secondsPart value) (nanosPart value))) := by
  obtain ⟨negative, whole, fraction, rfl, hapart⟩ := exists_written h.one_lt_length h.getLast
  rw [isNegative_written hapart]
  cases fraction with
  | none =>
    obtain ⟨hwhole, hzero⟩ := parts_whole hapart
    rw [hwhole] at hseconds ⊢
    rw [hzero, nanoseconds_zero]
    exact .whole negative hseconds
  | some fraction =>
    obtain ⟨hwhole, hfraction⟩ := parts_fraction hapart
    rw [hwhole] at hseconds ⊢
    rw [hfraction] at hnanos hnine ⊢
    exact .fraction negative hseconds hnanos hnine

/-! ## What is printed -/

theorem digits_decimal (n : ℕ) : Digits (decimal n) :=
  ⟨decimal_ne_nil n, fun c hc => decide_eq_true (isDecimal_decimal n c hc)⟩

theorem printPaddedInt_spec {width : ℕ} {v : ℤ} (hwidth : 0 < width) (hv : 0 ≤ v) (hlt : v < 10 ^ width) :
    Digits (printPaddedInt width v) ∧ (printPaddedInt width v).length = width ∧
      (decimalValue (printPaddedInt width v) : ℤ) = v := by
  obtain ⟨n, rfl⟩ := Int.eq_ofNat_of_zero_le hv
  have hn : n < 10 ^ width := by exact_mod_cast hlt
  rw [printPaddedInt, if_neg (not_lt.mpr hv), Int.natAbs_natCast, Stubs.Time.printPadded_eq hn]
  have hlength := Stubs.Time.length_fixedDigits width n
  have hdigits : ∀ c ∈ fixedDigits width n, asciiIsDigit c = true := fun c => Stubs.Time.asciiIsDigit_of_mem
  refine ⟨⟨?_, hdigits⟩, hlength, ?_⟩
  · rw [← hlength] at hwidth
    exact length_pos_iff.mp hwidth
  · have hfold := Stubs.Time.foldl_pushDigit hdigits 0
    rw [Nat.cast_zero, Stubs.Time.foldl_fixedDigits 0 hn, zero_mul, zero_add] at hfold
    exact hfold.symm

/-- **The nanoseconds are printed** with the digits they need. -/
theorem formatNanos_spec {nanos : Int32} (hpos : 0 ≤ nanos.toInt) (hlt : nanos.toInt < 10 ^ 9) :
    Digits (formatNanos nanos) ∧ (formatNanos nanos).length ≤ 9 ∧
      ((decimalValue (formatNanos nanos) * 10 ^ (9 - (formatNanos nanos).length) : ℕ) : ℤ) = nanos.toInt := by
  have hmillion : (1000000 : Int32).toInt = 1000000 := rfl
  have hthousand : (1000 : Int32).toInt = 1000 := rfl
  have hmod := Int.tmod_eq_emod_of_nonneg hpos (b := 1000000)
  have hmod' := Int.tmod_eq_emod_of_nonneg hpos (b := 1000)
  have hdiv := Int.tdiv_eq_ediv_of_nonneg hpos (b := 1000000)
  have hdiv' := Int.tdiv_eq_ediv_of_nonneg hpos (b := 1000)
  rw [formatNanos]
  split
  · next hmillis =>
    rw [← Int32.toInt_inj, Int32.toInt_mod, Int32.toInt_zero, hmillion, hmod] at hmillis
    have hquotient : (nanos / 1000000).toInt = nanos.toInt / 1000000 := by
      rw [Int32.toInt_div, hmillion, hdiv, bmod32_eq (by omega) (by omega)]
    rw [hquotient]
    obtain ⟨hdigits, hlength, hvalue⟩ :=
      @printPaddedInt_spec 3 (nanos.toInt / 1000000) (by decide) (by omega) (by omega)
    rw [hlength, Nat.cast_mul, hvalue]
    exact ⟨hdigits, by decide, by omega⟩
  · split
    · next hmicros =>
      rw [← Int32.toInt_inj, Int32.toInt_mod, Int32.toInt_zero, hthousand, hmod'] at hmicros
      have hquotient : (nanos / 1000).toInt = nanos.toInt / 1000 := by
        rw [Int32.toInt_div, hthousand, hdiv', bmod32_eq (by omega) (by omega)]
      rw [hquotient]
      obtain ⟨hdigits, hlength, hvalue⟩ :=
        @printPaddedInt_spec 6 (nanos.toInt / 1000) (by decide) (by omega) (by omega)
      rw [hlength, Nat.cast_mul, hvalue]
      exact ⟨hdigits, by decide, by omega⟩
    · obtain ⟨hdigits, hlength, hvalue⟩ := @printPaddedInt_spec 9 (nanos.toInt) (by decide) hpos hlt
      rw [hlength, Nat.cast_mul, hvalue]
      exact ⟨hdigits, by decide, by omega⟩

theorem toString_eq {negative : Bool} {seconds : Int64} {nanos : Int32}
    (hnegative : negative = true ↔ d.seconds < 0 ∨ d.nanos < 0)
    (hseconds : seconds = if negative then -d.seconds else d.seconds)
    (hnanos : nanos = if negative then -d.nanos else d.nanos) (hpos : 0 ≤ seconds.toInt) :
    toString d = written negative (decimal seconds.toInt.natAbs)
      (if nanos ≠ 0 then some (formatNanos nanos) else none) := by
  have hdecimal : decimalInt seconds.toInt = decimal seconds.toInt.natAbs := by
    rw [decimalInt, if_neg (not_lt.mpr hpos)]
  rw [written, ← hdecimal, toString]
  simp only [← hnegative, ← hseconds, ← hnanos]
  congr 2
  split <;> rfl

/-- **A valid duration is printed in the form**, and denotes its nanoseconds. -/
theorem isDurationText_toString (h : d.Valid) : IsDurationText (toString d) d.total := by
  obtain ⟨hmin, hmax, hlt, hgt, hneg, hpos⟩ := h
  rw [kDurationMinSeconds] at hmin
  rw [kDurationMaxSeconds] at hmax
  obtain ⟨negative, hnegative⟩ : ∃ negative : Bool, negative = true ↔ d.seconds < 0 ∨ d.nanos < 0 :=
    ⟨decide _, decide_eq_true_iff⟩
  have hsigns : negative = true ↔ d.seconds.toInt < 0 ∨ d.nanos.toInt < 0 := by
    rw [hnegative, Int64.lt_iff_toInt_lt, Int32.lt_iff_toInt_lt, Int64.toInt_zero, Int32.toInt_zero]
  obtain ⟨seconds, hseconds⟩ : ∃ seconds, seconds = if negative then -d.seconds else d.seconds := ⟨_, rfl⟩
  obtain ⟨nanos, hnanos⟩ : ∃ nanos, nanos = if negative then -d.nanos else d.nanos := ⟨_, rfl⟩
  have hmagnitudes : 0 ≤ seconds.toInt ∧ 0 ≤ nanos.toInt ∧ nanos.toInt < 10 ^ 9 ∧
      d.total = signed negative (seconds.toInt.natAbs * 10 ^ 9 + nanos.toInt.natAbs) := by
    rw [Duration.total, signed, hseconds, hnanos]
    split
    · next hnegative' =>
      have hsigned := hsigns.mp hnegative'
      rw [Int64.toInt_neg, Int32.toInt_neg, bmod64_eq (by omega) (by omega), bmod32_eq (by omega) (by omega)]
      omega
    · next hnonneg =>
      have hunsigned := mt hsigns.mpr hnonneg
      omega
  obtain ⟨hseconds', hnanos', hbillion, htotal⟩ := hmagnitudes
  rw [toString_eq hnegative hseconds hnanos hseconds', htotal]
  have hwhole := digits_decimal seconds.toInt.natAbs
  split
  · obtain ⟨hdigits, hnine, hvalue⟩ := formatNanos_spec hnanos' hbillion
    have hnanoseconds : nanoseconds (decimal seconds.toInt.natAbs) (formatNanos nanos) =
        seconds.toInt.natAbs * 10 ^ 9 + nanos.toInt.natAbs := by
      rw [nanoseconds, decimalValue_decimal]
      omega
    rw [← hnanoseconds]
    exact .fraction negative hwhole hdigits hnine
  · next hzero =>
    have hnanoseconds : nanoseconds (decimal seconds.toInt.natAbs) [] =
        seconds.toInt.natAbs * 10 ^ 9 + nanos.toInt.natAbs := by
      rw [nanoseconds, decimalValue_decimal, not_not.mp hzero]
      rfl
    rw [← hnanoseconds]
    exact .whole negative hwhole

theorem seconds_le {n : ℤ} (h : Duration.InRange n) (hn : n = signed negative (nanoseconds whole fraction)) :
    (decimalValue whole : ℤ) ≤ kDurationMaxSeconds := by
  have hlt := h.natAbs_lt
  rw [hn, natAbs_signed, nanoseconds, kDurationMaxSeconds] at hlt
  rw [kDurationMaxSeconds]
  omega

/-- **What is printed is read again.** -/
theorem fromString_toString (h : d.Valid) : fromString (toString d) = some d := by
  obtain ⟨hreadable, hseconds, hnanos, hnine, htotal⟩ := (isDurationText_toString h).parts
  have hmax := seconds_le h.inRange htotal
  obtain ⟨d', hread, hvalid, htotal'⟩ := fromString_exact hreadable hseconds hnanos hnine hmax
  rw [hread, hvalid.ext h (htotal'.trans htotal.symm)]

/-- **The text form of durations.**  A valid duration is read again from its text; and what is accepted is in
the form, in range, and the number that is written, exactly for the texts that are not loose. -/
theorem duration_text (value : Text) :
    (∀ d : Duration, d.Valid → fromString (toString d) = some d) ∧
      ((∀ d, fromString value = some d → IsDurationText value d.total ∧ d.Valid) ↔ ¬ Loose value) := by
  refine ⟨fun d => fromString_toString, ?_, ?_⟩
  · rintro haccepted ⟨hreadable, hloose⟩
    obtain ⟨hform, hvalid⟩ := haccepted _ (fromString_of_readable hreadable)
    obtain ⟨-, hseconds, hnanos, hnine, htotal⟩ := hform.parts
    exact hloose ⟨hseconds.beginsWithDigit, hnanos.beginsWithDigit, hnine, seconds_le hvalid.inRange htotal⟩
  · intro hstrict d hd
    have hreadable := readable_of_fromString hd
    obtain ⟨hseconds, hnanos, hnine, hmax⟩ := not_not.mp fun hloose => hstrict ⟨hreadable, hloose⟩
    have hwhole := digits_of_beginsWithDigit hreadable.secondsPart hseconds
    have hfraction := digits_of_beginsWithDigit hreadable.nanosPart hnanos
    obtain ⟨d', hd', hvalid, htotal⟩ := fromString_exact hreadable hwhole hfraction hnine hmax
    obtain rfl := some_inj.mp (hd.symm.trans hd')
    rw [htotal]
    exact ⟨isDurationText_of_parts hreadable hwhole hfraction hnine, hvalid⟩

/-- `+5s` is accepted, and does not have the form. -/
theorem duration_text_plusSign :
    fromString [ch '+', ch '5', ch 's'] = some ⟨5, 0⟩ ∧ ¬ ∃ n, IsDurationText [ch '+', ch '5', ch 's'] n := by
  refine ⟨by decide, ?_⟩
  rintro ⟨n, hform⟩
  obtain ⟨-, hseconds, -⟩ := hform.parts
  exact absurd (hseconds.digits (ch '+') (by decide)) (by decide)

end Protoc.Util
