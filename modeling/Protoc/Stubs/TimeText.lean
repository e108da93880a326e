import Mathlib.Data.List.TakeWhile
import Mathlib.Data.Nat.Digits.Lemmas
import Protoc.Stubs.TimeCalendar

/-!
# RFC 3339 text

What is formatted is parsed again, and the conversions together.
-/

namespace Protoc.Stubs.Time

open Protoc.Lib
open List
open Protoc.Lib.Gregorian (Date calendar dayNumber)

/-! ## Numbers with leading zeros -/

def fixedDigits : ℕ → ℕ → Text
  | 0, _ => []
  | width + 1, n => fixedDigits width (n / 10) ++ [digit (n % 10)]

variable {width n : ℕ} {rest : Text}

theorem printPadded_zero (width : ℕ) : printPadded width 0 = replicate width (digit 0) := by
  simp [printPadded]

theorem printPadded_succ (hn : 0 < n) : printPadded (width + 1) n = printPadded width (n / 10) ++ [digit (n % 10)] := by
  have hdigits : Nat.digits 10 n = n % 10 :: Nat.digits 10 (n / 10) := Nat.digits_def' (by decide) hn
  simp only [printPadded, hdigits, reverse_cons, length_append, length_singleton,
    Nat.add_sub_add_right, map_append, map_cons, map_nil, append_assoc]

theorem printPadded_eq (h : n < 10 ^ width) : printPadded width n = fixedDigits width n := by
  induction width generalizing n with
  | zero =>
    obtain rfl : n = 0 := Nat.lt_one_iff.mp h
    rfl
  | succ width ih =>
    have hquot : n / 10 < 10 ^ width := by
      rw [pow_succ] at h
      omega
    rw [fixedDigits, ← ih hquot]
    rcases Nat.eq_zero_or_pos n with rfl | hn
    · rw [Nat.zero_div, printPadded_zero, printPadded_zero, replicate_succ']
    · exact printPadded_succ hn

theorem length_fixedDigits (width n : ℕ) : (fixedDigits width n).length = width := by
  induction width generalizing n with
  | zero => rfl
  | succ width ih => rw [fixedDigits, length_append, ih, length_singleton]

theorem toNat_digit {d : ℕ} (h : d < 10) : (digit d).toNat = 48 + d := by
  rw [digit, UInt8.toNat_ofNat']
  omega

theorem asciiIsDigit_digit {d : ℕ} (h : d < 10) : asciiIsDigit (digit d) = true := by
  rw [asciiIsDigit, decide_eq_true_iff, toNat_digit h]
  omega

theorem asciiIsDigit_of_mem {c : UInt8} (h : c ∈ fixedDigits width n) : asciiIsDigit c = true := by
  induction width generalizing n with
  | zero => exact absurd h not_mem_nil
  | succ width ih =>
    rcases mem_append.mp h with h | h
    · exact ih h
    · rw [mem_singleton.mp h]
      exact asciiIsDigit_digit (Nat.mod_lt _ (by decide))

theorem foldl_fixedDigits (value : ℤ) (h : n < 10 ^ width) :
    (fixedDigits width n).foldl pushDigit value = value * 10 ^ width + n := by
  induction width generalizing n with
  | zero =>
    obtain rfl : n = 0 := Nat.lt_one_iff.mp h
    simp [fixedDigits]
  | succ width ih =>
    have hquot : n / 10 < 10 ^ width := by
      rw [pow_succ] at h
      omega
    rw [fixedDigits, foldl_append, ih hquot, foldl_cons, foldl_nil, pushDigit,
      toNat_digit (Nat.mod_lt _ (by decide)), pow_succ, ← mul_assoc]
    omega

/-! ## Reading them -/

theorem parseDigits_append {ds : Text} (hds : ∀ c ∈ ds, asciiIsDigit c = true) (value : ℤ) (rest : Text) :
    parseDigits ds.length value (ds ++ rest) = (ds.foldl pushDigit value, rest) := by
  induction ds generalizing value with
  | nil => rfl
  | cons c ds ih =>
    obtain ⟨hc, hds'⟩ := forall_mem_cons.mp hds
    rw [length_cons, cons_append, parseDigits, if_pos hc, ih hds', foldl_cons]

theorem startsWithDigit_append {ds : Text} (hds : ∀ c ∈ ds, asciiIsDigit c = true) (hne : ds ≠ []) :
    startsWithDigit (ds ++ rest) = true := by
  obtain ⟨c, ds, rfl⟩ := exists_cons_of_ne_nil hne
  exact hds c mem_cons_self

theorem parseInt_printPadded {minValue maxValue : ℤ} (hwidth : 0 < width) (hn : n < 10 ^ width)
    (hmin : minValue ≤ n) (hmax : n ≤ maxValue) :
    parseInt width minValue maxValue (printPadded width n ++ rest) = some ((n : ℤ), rest) := by
  have hne : fixedDigits width n ≠ [] := by
    intro hnil
    have hlength := length_fixedDigits width n
    rw [hnil, length_nil] at hlength
    omega
  have hdigits : ∀ c ∈ fixedDigits width n, asciiIsDigit c = true := fun _ => asciiIsDigit_of_mem
  have hread := parseDigits_append hdigits 0 rest
  rw [length_fixedDigits, foldl_fixedDigits 0 hn, zero_mul, zero_add] at hread
  rw [parseInt, printPadded_eq hn, startsWithDigit_append hdigits hne, if_pos rfl, hread]
  exact if_pos ⟨hmin, hmax⟩

theorem parseNanosDigits_append {ds : Text} (hds : ∀ c ∈ ds, asciiIsDigit c = true)
    (hrest : startsWithDigit rest = false) (value : ℤ) {len : ℕ} (hlen : len + ds.length ≤ 9) :
    parseNanosDigits value len (ds ++ rest) = (ds.foldl pushDigit value, len + ds.length, rest) := by
  induction ds generalizing value len with
  | nil =>
    cases rest with
    | nil => rfl
    | cons c rest =>
      have hc : ¬ asciiIsDigit c = true := Bool.eq_false_iff.mp hrest
      rw [nil_append, parseNanosDigits, if_neg hc]
      rfl
  | cons c ds ih =>
    obtain ⟨hc, hds'⟩ := forall_mem_cons.mp hds
    rw [length_cons] at hlen
    rw [cons_append, parseNanosDigits, if_pos hc, if_pos (by omega), ih hds' _ (by omega),
      foldl_cons, length_cons, add_right_comm, add_assoc]

theorem parseNanos_printPadded (hwidth : 0 < width) (hwidth' : width ≤ 9) (hn : n < 10 ^ width)
    (hrest : startsWithDigit rest = false) :
    parseNanos (printPadded width n ++ rest) = some ((n : ℤ) * 10 ^ (9 - width), rest) := by
  have hne : fixedDigits width n ≠ [] := by
    intro hnil
    have hlength := length_fixedDigits width n
    rw [hnil, length_nil] at hlength
    omega
  have hdigits : ∀ c ∈ fixedDigits width n, asciiIsDigit c = true := fun _ => asciiIsDigit_of_mem
  have hread := parseNanosDigits_append hdigits hrest 0 (by rw [length_fixedDigits]; omega : 0 + _ ≤ 9)
  rw [length_fixedDigits, foldl_fixedDigits 0 hn, zero_mul, zero_add, zero_add] at hread
  rw [parseNanos, printPadded_eq hn, startsWithDigit_append hdigits hne, if_pos rfl, hread]

theorem parseNanos_formatNanos {nanos : ℕ} (h : nanos ≤ 999999999) (hrest : startsWithDigit rest = false) :
    parseNanos (formatNanos nanos ++ rest) = some ((nanos : ℤ), rest) := by
  rw [formatNanos, kNanosPerMillisecond, kNanosPerMicrosecond]
  split_ifs with hmilli hmicro
  · rw [parseNanos_printPadded (by decide) (by decide) (by omega) hrest]
    congr 2
    omega
  · rw [parseNanos_printPadded (by decide) (by decide) (by omega) hrest]
    congr 2
    omega
  · rw [parseNanos_printPadded (by decide) (by decide) (by omega) hrest]
    congr 2
    omega

/-! ## Dates and times -/

theorem expect_cons (c : UInt8) (data : Text) : expect c (c :: data) = some data := if_pos rfl

variable {time : DateTime}

theorem parseInt_field (width : ℕ) (x minValue maxValue : ℤ) (hwidth : 0 < width) (hmin : 0 ≤ minValue)
    (hmax : maxValue < 10 ^ width) (hx : minValue ≤ x ∧ x ≤ maxValue) (rest : Text) :
    parseInt width minValue maxValue (printPadded width x.toNat ++ rest) = some (x, rest) := by
  obtain ⟨n, rfl⟩ := Int.eq_ofNat_of_zero_le (hmin.trans hx.1)
  have hn : n < 10 ^ width := by exact_mod_cast lt_of_le_of_lt hx.2 hmax
  exact parseInt_printPadded hwidth hn hx.1 hx.2

theorem parseDateTime_printDateTime (h : ValidDateTime time) (rest : Text) :
    parseDateTime (printDateTime time ++ rest) = some (time, rest) := by
  have hmonth := h.date.month
  have hday := h.date.day
  have hlength := Gregorian.monthLength_le time.date.year time.date.month
  simp only [DateTime.date] at hmonth hday hlength
  have year := parseInt_field 4 time.year 1 9999 (by decide) (by decide) (by decide) ⟨h.year_pos, h.year⟩
  have month := parseInt_field 2 time.month 1 12 (by decide) (by decide) (by decide) (by omega)
  have day := parseInt_field 2 time.day 1 31 (by decide) (by decide) (by decide) (by omega)
  have hour := parseInt_field 2 time.hour 0 23 (by decide) (by decide) (by decide) h.hour
  have minute := parseInt_field 2 time.minute 0 59 (by decide) (by decide) (by decide) h.minute
  have second := parseInt_field 2 time.second 0 59 (by decide) (by decide) (by decide) h.second
  simp only [parseDateTime, printDateTime, append_assoc, cons_append,
    nil_append, year, month, day, hour, minute, second, expect_cons, Option.bind_eq_bind,
    Option.bind_some]

/-! ## The whole text -/

theorem zero_not_mem_printPadded (hn : n < 10 ^ width) : (0 : UInt8) ∉ printPadded width n := by
  intro h
  rw [printPadded_eq hn] at h
  exact absurd (asciiIsDigit_of_mem h) (by decide)

theorem zero_not_mem_printDateTime (h : ValidDateTime time) : (0 : UInt8) ∉ printDateTime time := by
  have hyear := h.year
  have hmonth := h.date.month
  have hday := h.date.day
  have hlength := Gregorian.monthLength_le time.date.year time.date.month
  have hhour := h.hour
  have hminute := h.minute
  have hsecond := h.second
  simp only [DateTime.date] at hmonth hday hlength
  have y := zero_not_mem_printPadded (by omega : time.year.toNat < 10 ^ 4)
  have m := zero_not_mem_printPadded (by omega : time.month.toNat < 10 ^ 2)
  have d := zero_not_mem_printPadded (by omega : time.day.toNat < 10 ^ 2)
  have hh := zero_not_mem_printPadded (by omega : time.hour.toNat < 10 ^ 2)
  have mm := zero_not_mem_printPadded (by omega : time.minute.toNat < 10 ^ 2)
  have ss := zero_not_mem_printPadded (by omega : time.second.toNat < 10 ^ 2)
  have hdash : (0 : UInt8) ≠ ch '-' := by decide
  have hcolon : (0 : UInt8) ≠ ch ':' := by decide
  have ht : (0 : UInt8) ≠ ch 'T' := by decide
  simp only [printDateTime, mem_append, mem_singleton, y, m, d, hh, mm, ss, hdash, hcolon, ht,
    or_self, not_false_eq_true]

theorem zero_not_mem_formatNanos {nanos : ℕ} (h : nanos ≤ 999999999) : (0 : UInt8) ∉ formatNanos nanos := by
  rw [formatNanos, kNanosPerMillisecond, kNanosPerMicrosecond]
  split_ifs
  · exact zero_not_mem_printPadded (by omega)
  · exact zero_not_mem_printPadded (by omega)
  · exact zero_not_mem_printPadded (by omega)

theorem takeWhile_of_not_mem {text : Text} (h : (0 : UInt8) ∉ text) : text.takeWhile (· ≠ 0) = text := by
  rw [takeWhile_eq_self_iff]
  intro c hc
  rw [decide_eq_true_iff]
  rintro rfl
  exact h hc

/-- The fraction that `FormatTime` writes, and the Z. -/
def fractionText (nanos : ℤ) : Text :=
  (if nanos ≠ 0 then [ch '.'] ++ formatNanos nanos.toNat else []) ++ [ch 'Z']

theorem formatTime_eq {seconds nanos : ℤ} (hnanos : 0 ≤ nanos ∧ nanos ≤ 999999999)
    (htime : secondsToDateTime seconds = some time) :
    formatTime seconds nanos = printDateTime time ++ fractionText nanos := by
  rw [formatTime, if_neg (by omega), htime, fractionText]
  split_ifs
  · simp only [append_assoc]
  · simp only [nil_append]

theorem parseFraction_fractionText {nanos : ℤ} (hnanos : 0 ≤ nanos ∧ nanos ≤ 999999999) :
    parseFraction (fractionText nanos) = some (nanos, [ch 'Z']) := by
  rw [fractionText]
  split_ifs with hzero
  · have hz : startsWithDigit [ch 'Z'] = false := by decide
    rw [append_assoc, singleton_append, parseFraction, if_pos rfl,
      parseNanos_formatNanos (by omega) hz, Int.toNat_of_nonneg hnanos.1]
  · rw [not_not] at hzero
    rw [hzero]
    rfl

theorem zero_not_mem_fractionText {nanos : ℤ} (hnanos : 0 ≤ nanos ∧ nanos ≤ 999999999) :
    (0 : UInt8) ∉ fractionText nanos := by
  have hdigits := zero_not_mem_formatNanos (by omega : nanos.toNat ≤ 999999999)
  have hdot : (0 : UInt8) ≠ ch '.' := by decide
  have hz : (0 : UInt8) ≠ ch 'Z' := by decide
  rw [fractionText]
  split_ifs <;> simp only [mem_append, mem_singleton, not_mem_nil, hdigits, hdot, hz, or_self,
      not_false_eq_true]

/-- **The text** of a time is parsed as the time. -/
theorem parseTime_formatTime {seconds nanos : ℤ} (hmin : kMinTime ≤ seconds) (hmax : seconds ≤ kMaxTime)
    (hnanos : 0 ≤ nanos ∧ nanos ≤ 999999999) :
    parseTime (formatTime seconds nanos) = some (seconds, nanos) := by
  obtain ⟨time, htime, hvalid, hinstant⟩ := secondsToDateTime_spec hmin hmax
  have hnul : (0 : UInt8) ∉ printDateTime time ++ fractionText nanos := by
    rw [mem_append, not_or]
    exact ⟨zero_not_mem_printDateTime hvalid, zero_not_mem_fractionText hnanos⟩
  have hoffset : parseOffset seconds [ch 'Z'] = some (seconds, []) := rfl
  rw [formatTime_eq hnanos htime, parseTime, takeWhile_of_not_mem hnul, parseDateTime_printDateTime hvalid]
  simp only [Option.bind_eq_bind, Option.bind_some, dateTimeToSeconds_eq hvalid, hinstant,
    Int.add_sub_cancel, parseFraction_fractionText hnanos, hoffset, ↓reduceIte]

/-! ## The conversions together -/

/-- The date and time of an instant of the calendar. -/
def calendarTime (instant : ℤ) : DateTime :=
  let date := calendar (instant / kSecondsPerDay).toNat
  { year := date.year
    month := date.month
    day := date.day
    hour := instant % kSecondsPerDay / kSecondsPerHour
    minute := instant % kSecondsPerHour / kSecondsPerMinute
    second := instant % kSecondsPerMinute }

theorem eq_calendarTime (h : ValidDateTime time) : time = calendarTime time.instant := by
  obtain ⟨hstart, hend⟩ := h.timeOfDay_lt
  have hyear := h.year_pos
  have hmonth := h.date.month
  have hday := h.date.day
  have hminute := h.minute
  have hsecond := h.second
  have hquot : (time.instant / kSecondsPerDay).toNat = dayNumber time.date := by
    rw [DateTime.instant]
    rw [kSecondsPerDay, kSecondsPerHour] at *
    omega
  have hdate : calendar (time.instant / kSecondsPerDay).toNat = time.date := by
    rw [hquot]
    exact Gregorian.eq_of_dayNumber (Gregorian.valid_calendar _) h.date (Gregorian.dayNumber_calendar _)
  rw [calendarTime, hdate]
  obtain ⟨year, month, day, hour, minute, second⟩ := time
  simp only [DateTime.date, DateTime.instant, DateTime.timeOfDay, kSecondsPerDay, kSecondsPerHour,
    kSecondsPerMinute, DateTime.mk.injEq] at *
  omega

theorem instant_range (h : ValidDateTime time) :
    kMinTime ≤ time.instant - kSecondsFromEraToEpoch ∧ time.instant - kSecondsFromEraToEpoch ≤ kMaxTime := by
  obtain ⟨hstart, hend⟩ := h.timeOfDay_lt
  have hlast : dayNumber time.date < Gregorian.daysThroughYear 9999 := by
    have hyear := h.year
    refine lt_of_lt_of_le (Gregorian.dayNumber_lt_year h.date) (Gregorian.daysThroughYear_mono ?_)
    simp only [DateTime.date]
    omega
  have htotal := Gregorian.daysThroughYear_eq 9999
  rw [DateTime.instant]
  simp only [kMinTime, kMaxTime, kSecondsFromEraToEpoch, kSecondsPerDay, kSecondsPerHour] at *
  omega

/-- **Timestamps are exact**: the date and time of an instant, its inverse in both directions, the
order, and the text. -/
theorem timestamps_exact : (∀ seconds, kMinTime ≤ seconds → seconds ≤ kMaxTime →
      ∃ time, secondsToDateTime seconds = some time ∧ validateDateTime time = true ∧
        time = calendarTime (seconds + kSecondsFromEraToEpoch) ∧ dateTimeToSeconds time = some seconds) ∧
    (∀ time, validateDateTime time = true →
      ∃ seconds, dateTimeToSeconds time = some seconds ∧ secondsToDateTime seconds = some time) ∧
    (∀ time time' seconds seconds', dateTimeToSeconds time = some seconds →
      dateTimeToSeconds time' = some seconds' → time.Before time' → seconds < seconds') ∧
    ∀ seconds nanos, kMinTime ≤ seconds → seconds ≤ kMaxTime → 0 ≤ nanos → nanos ≤ 999999999 →
      parseTime (formatTime seconds nanos) = some (seconds, nanos) := by
  refine ⟨fun seconds hmin hmax => ?_, fun time hvalid => ?_, ?_, ?_⟩
  · obtain ⟨time, htime, hvalid, hinstant⟩ := secondsToDateTime_spec hmin hmax
    refine ⟨time, htime, validateDateTime_iff.mpr hvalid, hinstant ▸ eq_calendarTime hvalid, ?_⟩
    rw [dateTimeToSeconds_eq hvalid, hinstant, Int.add_sub_cancel]
  · have hvalid := validateDateTime_iff.mp hvalid
    obtain ⟨hmin, hmax⟩ := instant_range hvalid
    obtain ⟨time', htime', hvalid', hinstant⟩ := secondsToDateTime_spec hmin hmax
    rw [Int.sub_add_cancel] at hinstant
    exact ⟨_, dateTimeToSeconds_eq hvalid, eq_of_instant hvalid' hvalid hinstant ▸ htime'⟩
  · intro time time' seconds seconds' hseconds hseconds' hlt
    have hvalid : ∀ {t s}, dateTimeToSeconds t = some s → ValidDateTime t := fun {t s} h => by
      rw [dateTimeToSeconds] at h
      split_ifs at h with hv
      exact validateDateTime_iff.mp hv
    have h := hvalid hseconds
    have h' := hvalid hseconds'
    have hinstant := instant_lt_of_before h h' hlt
    rw [dateTimeToSeconds_eq h, Option.some.injEq] at hseconds
    rw [dateTimeToSeconds_eq h', Option.some.injEq] at hseconds'
    omega
  · exact fun seconds nanos hmin hmax hnanos hnanos' => parseTime_formatTime hmin hmax ⟨hnanos, hnanos'⟩

/-- The last second of a leap day that ends a century. -/
theorem timestamps_exact_leapDay :
    parseTime (formatTime 951868799 500000000) = some (951868799, 500000000) :=
  timestamps_exact.2.2.2 951868799 500000000 (by decide) (by decide) (by decide) (by decide)

end Protoc.Stubs.Time
