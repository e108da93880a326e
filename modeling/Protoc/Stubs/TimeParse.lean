import Protoc.Lib.Decimal
import Protoc.Stubs.TimeText

/-!
# What ParseTime accepts

The texts that `ParseTime` accepts as a grammar, and the instant that each of them denotes.  The
string is read up to its first NUL only, and the offset is applied after the date has been
checked.
-/

namespace Protoc.Stubs.Time

open Protoc.Lib

/-! ## The grammar -/

/-- A field of a date or a time: up to `width` digits, and its value in a range. -/
structure Field (width : ℕ) (minValue maxValue x : ℤ) (text : Text) : Prop where
  ne_nil : text ≠ []
  length : text.length ≤ width
  digits : ∀ c ∈ text, asciiIsDigit c = true
  value : x = decimalValue text
  range : minValue ≤ x ∧ x ≤ maxValue

/-- A date and a time of the day. -/
inductive IsDateTime (time : DateTime) : Text → Prop
  | mk {year month day hour minute second : Text} (hyear : Field 4 1 9999 time.year year)
      (hmonth : Field 2 1 12 time.month month) (hday : Field 2 1 31 time.day day)
      (hhour : Field 2 0 23 time.hour hour) (hminute : Field 2 0 59 time.minute minute)
      (hsecond : Field 2 0 59 time.second second) :
      IsDateTime time (year ++ ch '-' :: (month ++ ch '-' :: (day ++ ch 'T' ::
        (hour ++ ch ':' :: (minute ++ ch ':' :: second)))))

/-- The fraction of a second, if there is one: its first nine digits, filled up with zeros. -/
inductive IsFraction : ℤ → Text → Prop
  | none : IsFraction 0 []
  | digits {ds : Text} (hne : ds ≠ []) (hds : ∀ c ∈ ds, asciiIsDigit c = true) :
      IsFraction ((decimalValue (ds.take 9) * 10 ^ (9 - ds.length) : ℕ) : ℤ) (ch '.' :: ds)

/-- The offset from UTC, in seconds. -/
inductive IsOffset : ℤ → Text → Prop
  | utc : IsOffset 0 [ch 'Z']
  | east {h m : ℤ} {hour minute : Text} (hhour : Field 2 0 23 h hour) (hminute : Field 2 0 59 m minute) :
      IsOffset ((h * 60 + m) * 60) (ch '+' :: (hour ++ ch ':' :: minute))
  | west {h m : ℤ} {hour minute : Text} (hhour : Field 2 0 23 h hour) (hminute : Field 2 0 59 m minute) :
      IsOffset (-((h * 60 + m) * 60)) (ch '-' :: (hour ++ ch ':' :: minute))

/-- A date of the calendar and a time of the day, a fraction and an offset, one behind the other. -/
inductive IsTime : Text → DateTime → ℤ → ℤ → Prop
  | mk {time : DateTime} {nanos offset : ℤ} {date fraction zone : Text} (hdate : IsDateTime time date)
      (hvalid : ValidDateTime time) (hfraction : IsFraction nanos fraction)
      (hzone : IsOffset offset zone) : IsTime (date ++ (fraction ++ zone)) time nanos offset

/-- The instant that is denoted: the local time minus the offset. -/
def denoted (time : DateTime) (offset : ℤ) : ℤ := time.instant - kSecondsFromEraToEpoch - offset

/-! ## Numbers -/

variable {width : ℕ} {minValue maxValue x : ℤ} {data rest ds : Text}

theorem foldl_pushDigit (hds : ∀ c ∈ ds, asciiIsDigit c = true) (value : ℕ) :
    ds.foldl pushDigit value = (numeral 10 value (ds.map fun c => c.toNat - 48) : ℕ) := by
  induction ds generalizing value with
  | nil => rfl
  | cons c ds ih =>
    obtain ⟨hc, hds'⟩ := List.forall_mem_cons.mp hds
    obtain ⟨hle, -⟩ := of_decide_eq_true hc
    have hpush : pushDigit value c = ((value * 10 + (c.toNat - 48) : ℕ) : ℤ) := by
      rw [pushDigit]
      omega
    rw [List.foldl_cons, hpush, ih hds', List.map_cons, numeral_cons]

theorem parseDigits_append_of_stop (hds : ∀ c ∈ ds, asciiIsDigit c = true) (hlength : ds.length ≤ width)
    (hstop : ds.length = width ∨ startsWithDigit rest = false) (value : ℤ) :
    parseDigits width value (ds ++ rest) = (ds.foldl pushDigit value, rest) := by
  induction ds generalizing width value with
  | nil =>
    cases width with
    | zero => rfl
    | succ width =>
      cases rest with
      | nil => rfl
      | cons c rest =>
        have hc : asciiIsDigit c = false := hstop.resolve_left (by simp)
        rw [List.nil_append, parseDigits, if_neg (by simp [hc])]
        rfl
  | cons c ds ih =>
    obtain ⟨hc, hds'⟩ := List.forall_mem_cons.mp hds
    cases width with
    | zero => exact absurd hlength (by simp)
    | succ width => rw [List.cons_append, parseDigits, if_pos hc,
        ih hds' (Nat.le_of_succ_le_succ hlength) (hstop.imp_left Nat.succ.inj), List.foldl_cons]

theorem exists_digits (width : ℕ) (data : Text) :
    ∃ ds rest, data = ds ++ rest ∧ (∀ c ∈ ds, asciiIsDigit c = true) ∧ ds.length ≤ width ∧
      (ds.length = width ∨ startsWithDigit rest = false) := by
  induction width generalizing data with
  | zero => exact ⟨[], data, rfl, by simp, le_rfl, Or.inl rfl⟩
  | succ width ih =>
    cases data with
    | nil => exact ⟨[], [], rfl, by simp, Nat.zero_le _, Or.inr rfl⟩
    | cons c data =>
      by_cases hc : asciiIsDigit c = true
      · obtain ⟨ds, rest, rfl, hds, hlength, hstop⟩ := ih data
        exact ⟨c :: ds, rest, rfl, List.forall_mem_cons.mpr ⟨hc, hds⟩, Nat.succ_le_succ hlength,
          hstop.imp_left (congrArg Nat.succ)⟩
      · exact ⟨[], c :: data, rfl, by simp, Nat.zero_le _, Or.inr (Bool.eq_false_iff.mpr hc)⟩

theorem Field.parseInt (h : Field width minValue maxValue x ds)
    (hstop : ds.length = width ∨ startsWithDigit rest = false) :
    parseInt width minValue maxValue (ds ++ rest) = some (x, rest) := by
  have hvalue := foldl_pushDigit h.digits 0
  rw [Time.parseInt, if_pos (startsWithDigit_append h.digits h.ne_nil),
    parseDigits_append_of_stop h.digits h.length hstop]
  rw [Nat.cast_zero] at hvalue
  dsimp only
  rw [hvalue]
  change (if minValue ≤ (decimalValue ds : ℤ) ∧ (decimalValue ds : ℤ) ≤ maxValue then
    some ((decimalValue ds : ℤ), rest) else none) = _
  rw [← h.value, if_pos h.range]

theorem field_of_parseInt (hwidth : 0 < width) (h : parseInt width minValue maxValue data = some (x, rest)) :
    ∃ ds, data = ds ++ rest ∧ Field width minValue maxValue x ds := by
  obtain ⟨ds, rest', rfl, hds, hlength, hstop⟩ := exists_digits width data
  rw [Time.parseInt, parseDigits_append_of_stop hds hlength hstop] at h
  have hvalue := foldl_pushDigit hds 0
  rw [Nat.cast_zero] at hvalue
  split_ifs at h with hdigit
  dsimp only at h
  split_ifs at h with hrange
  cases h
  refine ⟨ds, rfl, ?_, hlength, hds, hvalue, hrange⟩
  rintro rfl
  -- nothing is read only where no digit comes first
  rcases hstop with hzero | hnone
  · exact absurd hzero (ne_of_lt hwidth)
  · rw [List.nil_append, hnone] at hdigit
    exact absurd hdigit (by simp)

theorem expect_eq_some {c : UInt8} : expect c data = some rest ↔ data = c :: rest := by
  cases data with
  | nil => simp [expect]
  | cons b data =>
    rw [expect, List.cons.injEq]
    split_ifs with hb
    · simp [hb]
    · simp [hb]

/-! ## Dates, fractions and offsets -/

variable {time : DateTime} {seconds nanos offset : ℤ} {text : Text}

theorem isDateTime_of_parseDateTime (h : parseDateTime data = some (time, rest)) :
    ∃ date, data = date ++ rest ∧ IsDateTime time date := by
  simp only [parseDateTime, Option.bind_eq_bind, Option.bind_eq_some_iff, Prod.exists, expect_eq_some,
    Option.some.injEq, Prod.mk.injEq] at h
  obtain ⟨y, _, hyear, _, rfl, mo, _, hmonth, _, rfl, d, _, hday, _, rfl, h, _, hhour, _, rfl, mi, _,
    hminute, _, rfl, s, _, hsecond, rfl, rfl⟩ := h
  obtain ⟨year, rfl, fieldYear⟩ := field_of_parseInt (by decide) hyear
  obtain ⟨month, rfl, fieldMonth⟩ := field_of_parseInt (by decide) hmonth
  obtain ⟨day, rfl, fieldDay⟩ := field_of_parseInt (by decide) hday
  obtain ⟨hour, rfl, fieldHour⟩ := field_of_parseInt (by decide) hhour
  obtain ⟨minute, rfl, fieldMinute⟩ := field_of_parseInt (by decide) hminute
  obtain ⟨second, rfl, fieldSecond⟩ := field_of_parseInt (by decide) hsecond
  refine ⟨_, ?_, .mk fieldYear fieldMonth fieldDay fieldHour fieldMinute fieldSecond⟩
  simp only [List.append_assoc, List.cons_append]

theorem IsDateTime.parseDateTime {date : Text} (h : IsDateTime time date)
    (hstop : startsWithDigit rest = false) : parseDateTime (date ++ rest) = some (time, rest) := by
  cases h with
  | mk hyear hmonth hday hhour hminute hsecond =>
    have hdash : ∀ data, startsWithDigit (ch '-' :: data) = false := fun _ => by
      rw [startsWithDigit]
      decide
    have ht : ∀ data, startsWithDigit (ch 'T' :: data) = false := fun _ => by
      rw [startsWithDigit]
      decide
    have hcolon : ∀ data, startsWithDigit (ch ':' :: data) = false := fun _ => by
      rw [startsWithDigit]
      decide
    simp only [Time.parseDateTime, List.append_assoc, List.cons_append,
      hyear.parseInt (Or.inr (hdash _)), hmonth.parseInt (Or.inr (hdash _)),
      hday.parseInt (Or.inr (ht _)), hhour.parseInt (Or.inr (hcolon _)),
      hminute.parseInt (Or.inr (hcolon _)), hsecond.parseInt (Or.inr hstop), expect_cons,
      Option.bind_eq_bind, Option.bind_some]

theorem parseNanosDigits_append_of_stop (hds : ∀ c ∈ ds, asciiIsDigit c = true)
    (hstop : startsWithDigit rest = false) (value : ℤ) (len : ℕ) : parseNanosDigits value len (ds ++ rest) =
      ((ds.take (9 - len)).foldl pushDigit value, len + ds.length, rest) := by
  induction ds generalizing value len with
  | nil =>
    cases rest with
    | nil => simp [parseNanosDigits]
    | cons c rest =>
      have hc : ¬ asciiIsDigit c = true := Bool.eq_false_iff.mp hstop
      rw [List.nil_append, parseNanosDigits, if_neg hc]
      simp
  | cons c ds ih =>
    obtain ⟨hc, hds'⟩ := List.forall_mem_cons.mp hds
    rw [List.cons_append, parseNanosDigits, if_pos hc, ih hds', List.length_cons]
    by_cases hlen : len < 9
    · rw [if_pos hlen, show 9 - len = 9 - (len + 1) + 1 by omega, List.take_succ_cons, List.foldl_cons,
        add_right_comm, add_assoc]
    · rw [if_neg hlen, Nat.sub_eq_zero_of_le (not_lt.mp hlen), Nat.sub_eq_zero_of_le (by omega),
        List.take_zero, List.take_zero, add_right_comm, add_assoc]

theorem parseNanos_append_of_stop (hds : ∀ c ∈ ds, asciiIsDigit c = true) (hne : ds ≠ [])
    (hstop : startsWithDigit rest = false) : parseNanos (ds ++ rest) =
      some (((decimalValue (ds.take 9) * 10 ^ (9 - ds.length) : ℕ) : ℤ), rest) := by
  have hvalue := foldl_pushDigit (fun c hc => hds c (List.mem_of_mem_take hc) : ∀ c ∈ ds.take 9, _) 0
  rw [Nat.cast_zero] at hvalue
  rw [parseNanos, if_pos (startsWithDigit_append hds hne), parseNanosDigits_append_of_stop hds hstop]
  dsimp only
  rw [Nat.sub_zero, hvalue, zero_add, Nat.cast_mul, Nat.cast_pow]
  rfl

theorem isFraction_of_parseFraction (h : parseFraction data = some (nanos, rest)) :
    ∃ fraction, data = fraction ++ rest ∧ IsFraction nanos fraction := by
  cases data with
  | nil =>
    cases h
    exact ⟨[], rfl, .none⟩
  | cons c data =>
    rw [parseFraction] at h
    split_ifs at h with hdot
    · have hdigits : ∀ b ∈ data.takeWhile asciiIsDigit, asciiIsDigit b = true :=
        fun b hb => List.mem_takeWhile_imp hb
      have hstop : startsWithDigit (data.dropWhile asciiIsDigit) = false := by
        cases hdrop : data.dropWhile asciiIsDigit with
        | nil => rfl
        | cons b bs =>
          have hhead := List.head?_dropWhile_not asciiIsDigit data
          rw [hdrop] at hhead
          rw [startsWithDigit]
          simpa using hhead
      have hne : data.takeWhile asciiIsDigit ≠ [] := by
        intro hnil
        have hsplit := List.takeWhile_append_dropWhile (p := asciiIsDigit) (l := data)
        rw [hnil, List.nil_append] at hsplit
        rw [hsplit] at hstop
        rw [parseNanos, hstop] at h
        exact absurd h (by simp)
      rw [← List.takeWhile_append_dropWhile (p := asciiIsDigit) (l := data),
        parseNanos_append_of_stop hdigits hne hstop] at h
      cases h
      refine ⟨ch '.' :: data.takeWhile asciiIsDigit, ?_, .digits hne hdigits⟩
      rw [List.cons_append, List.takeWhile_append_dropWhile, hdot]
    · cases h
      exact ⟨[], rfl, .none⟩

theorem IsFraction.parseFraction {fraction : Text} (h : IsFraction nanos fraction)
    (hstop : startsWithDigit rest = false) (hdot : ∀ data, rest ≠ ch '.' :: data) :
    parseFraction (fraction ++ rest) = some (nanos, rest) := by
  cases h with
  | none =>
    cases rest with
    | nil => rfl
    | cons c rest =>
      rw [List.nil_append, Time.parseFraction, if_neg fun hc => hdot rest (by rw [hc])]
  | digits hne hds =>
    rw [List.cons_append, Time.parseFraction, if_pos rfl, parseNanos_append_of_stop hds hne hstop]

theorem IsFraction.range {fraction : Text} (h : IsFraction nanos fraction) : 0 ≤ nanos ∧ nanos ≤ 999999999 := by
  cases h with
  | none => decide
  | @digits ds hne hds =>
    refine ⟨Int.natCast_nonneg _, ?_⟩
    have hlt : decimalValue (ds.take 9) < 10 ^ (ds.take 9).length := by
      have hbound : ∀ d ∈ (ds.take 9).map fun c => c.toNat - 48, d < 10 := by
        intro d hd
        obtain ⟨c, hc, rfl⟩ := List.mem_map.mp hd
        have hdigit := of_decide_eq_true (hds c (List.mem_of_mem_take hc))
        omega
      have hnumeral := numeral_lt (by decide) hbound
      rwa [List.length_map] at hnumeral
    have hpow : 10 ^ (ds.take 9).length * 10 ^ (9 - ds.length) = 10 ^ 9 := by
      rw [← pow_add, List.length_take]
      congr 1
      omega
    have hmul : decimalValue (ds.take 9) * 10 ^ (9 - ds.length) <
        10 ^ (ds.take 9).length * 10 ^ (9 - ds.length) :=
      Nat.mul_lt_mul_of_pos_right hlt (Nat.pow_pos (by decide))
    rw [hpow] at hmul
    omega

theorem parseTimezoneOffset_eq_some :
    parseTimezoneOffset data = some (x, []) ↔ ∃ h m hour minute, Field 2 0 23 h hour ∧
      Field 2 0 59 m minute ∧ data = hour ++ ch ':' :: minute ∧ x = (h * 60 + m) * 60 := by
  constructor
  · intro h
    simp only [parseTimezoneOffset, Option.bind_eq_bind, Option.bind_eq_some_iff, Prod.exists,
      expect_eq_some, Option.some.injEq, Prod.mk.injEq] at h
    obtain ⟨h, _, hhour, _, rfl, m, _, hminute, rfl, rfl⟩ := h
    obtain ⟨hour, rfl, fieldHour⟩ := field_of_parseInt (by decide) hhour
    obtain ⟨minute, rfl, fieldMinute⟩ := field_of_parseInt (by decide) hminute
    exact ⟨h, m, hour, minute, fieldHour, fieldMinute, by rw [List.append_nil], rfl⟩
  · rintro ⟨h, m, hour, minute, hhour, hminute, rfl, rfl⟩
    have hcolon : startsWithDigit (ch ':' :: minute) = false := by
      rw [startsWithDigit]
      decide
    have hlast : parseInt 2 0 59 (minute ++ []) = some (m, []) := hminute.parseInt (Or.inr rfl)
    rw [List.append_nil] at hlast
    simp only [parseTimezoneOffset, hhour.parseInt (Or.inr hcolon), expect_cons, hlast,
      Option.bind_eq_bind, Option.bind_some]

theorem parseOffset_eq_some {result : ℤ} :
    parseOffset seconds data = some (result, []) ↔ ∃ offset, IsOffset offset data ∧ result = seconds - offset := by
  constructor
  · intro h
    cases data with
    | nil => exact absurd h (by simp [parseOffset])
    | cons c data =>
      rw [parseOffset] at h
      split_ifs at h with hz hplus hminus
      · cases h
        exact ⟨0, hz ▸ .utc, (Int.sub_zero _).symm⟩
      · obtain ⟨⟨x, rest⟩, hx, heq⟩ := Option.map_eq_some_iff.mp h
        cases heq
        obtain ⟨h, m, hour, minute, hhour, hminute, rfl, rfl⟩ := parseTimezoneOffset_eq_some.mp hx
        exact ⟨_, hplus ▸ .east hhour hminute, rfl⟩
      · obtain ⟨⟨x, rest⟩, hx, heq⟩ := Option.map_eq_some_iff.mp h
        cases heq
        obtain ⟨h, m, hour, minute, hhour, hminute, rfl, rfl⟩ := parseTimezoneOffset_eq_some.mp hx
        exact ⟨_, hminus ▸ .west hhour hminute, (Int.sub_neg _ _).symm⟩
  · rintro ⟨offset, h, rfl⟩
    cases h with
    | utc => rw [Int.sub_zero]; rfl
    | @east h m hour minute hhour hminute =>
      have hzone := parseTimezoneOffset_eq_some.mpr ⟨h, m, hour, minute, hhour, hminute, rfl, rfl⟩
      rw [parseOffset, if_neg (by decide), if_pos rfl, hzone]
      rfl
    | @west h m hour minute hhour hminute =>
      have hzone := parseTimezoneOffset_eq_some.mpr ⟨h, m, hour, minute, hhour, hminute, rfl, rfl⟩
      rw [parseOffset, if_neg (by decide), if_neg (by decide), if_pos rfl, hzone, Int.sub_neg]
      rfl

theorem IsOffset.start {zone : Text} (h : IsOffset offset zone) :
    startsWithDigit zone = false ∧ ∀ data, zone ≠ ch '.' :: data := by
  cases h with
  | utc => exact ⟨by decide, fun data hdata => absurd (List.cons.inj hdata).1 (by decide)⟩
  | east hhour hminute =>
    refine ⟨?_, fun data hdata => absurd (List.cons.inj hdata).1 (by decide)⟩
    rw [startsWithDigit]
    decide
  | west hhour hminute =>
    refine ⟨?_, fun data hdata => absurd (List.cons.inj hdata).1 (by decide)⟩
    rw [startsWithDigit]
    decide

/-! ## The whole text -/

theorem dateTimeToSeconds_eq_some : dateTimeToSeconds time = some seconds ↔
      ValidDateTime time ∧ seconds = time.instant - kSecondsFromEraToEpoch := by
  constructor
  · intro h
    by_cases hvalid : ValidDateTime time
    · rw [dateTimeToSeconds_eq hvalid] at h
      exact ⟨hvalid, (Option.some_inj.mp h).symm⟩
    · rw [dateTimeToSeconds, if_neg (mt validateDateTime_iff.mp hvalid)] at h
      exact absurd h (by simp)
  · rintro ⟨hvalid, rfl⟩
    exact dateTimeToSeconds_eq hvalid

/-- **`ParseTime`** accepts a string if and only if what comes before the first NUL is a time, and
gives the instant that it denotes. -/
theorem parseTime_iff {value : Text} : parseTime value = some (seconds, nanos) ↔ ∃ time offset,
      IsTime (value.takeWhile (· ≠ 0)) time nanos offset ∧ seconds = denoted time offset := by
  constructor
  · intro h
    simp only [parseTime, Option.bind_eq_bind, Option.bind_eq_some_iff, Prod.exists,
      dateTimeToSeconds_eq_some] at h
    obtain ⟨time, _, hparsed, _, ⟨hvalid, rfl⟩, n, _, hfraction, s, rest, hzone, hend⟩ := h
    split_ifs at hend with hnil
    cases hend
    rw [hnil] at hzone
    obtain ⟨date, htext, hdate⟩ := isDateTime_of_parseDateTime hparsed
    obtain ⟨fraction, rfl, fractionText⟩ := isFraction_of_parseFraction hfraction
    obtain ⟨offset, zoneText, rfl⟩ := parseOffset_eq_some.mp hzone
    rw [htext]
    exact ⟨time, offset, .mk hdate hvalid fractionText zoneText, rfl⟩
  · rintro ⟨time, offset, h, rfl⟩
    rw [parseTime]
    generalize value.takeWhile (· ≠ 0) = text at h
    cases h with
    | @mk _ _ _ date fraction zone hdate hvalid hfraction hzone =>
      obtain ⟨hdigit, hdot⟩ := hzone.start
      have hstart : startsWithDigit (fraction ++ zone) = false := by
        cases hfraction with
        | none => exact hdigit
        | digits hne hds =>
          rw [List.cons_append, startsWithDigit]
          decide
      have hoffset := parseOffset_eq_some.mpr
        ⟨offset, hzone, (rfl : denoted time offset = time.instant - kSecondsFromEraToEpoch - offset)⟩
      simp only [hdate.parseDateTime hstart, dateTimeToSeconds_eq hvalid,
        hfraction.parseFraction hdigit hdot, hoffset, Option.bind_eq_bind, Option.bind_some, if_true]

/-! ## Supported instants -/

theorem zero_not_mem_of_digits (hds : ∀ c ∈ ds, asciiIsDigit c = true) : (0 : UInt8) ∉ ds :=
  fun h => absurd (hds 0 h) (by decide)

theorem Field.zero_not_mem (h : Field width minValue maxValue x ds) : (0 : UInt8) ∉ ds :=
  zero_not_mem_of_digits h.digits

theorem IsTime.zero_not_mem (h : IsTime text time nanos offset) : (0 : UInt8) ∉ text := by
  have hdash : (0 : UInt8) ≠ ch '-' := by decide
  have hcolon : (0 : UInt8) ≠ ch ':' := by decide
  have ht : (0 : UInt8) ≠ ch 'T' := by decide
  have hdot : (0 : UInt8) ≠ ch '.' := by decide
  have hz : (0 : UInt8) ≠ ch 'Z' := by decide
  have hplus : (0 : UInt8) ≠ ch '+' := by decide
  cases h with
  | mk hdate hvalid hfraction hzone =>
    rw [List.mem_append, List.mem_append, not_or, not_or]
    refine ⟨?_, ?_, ?_⟩
    · cases hdate with
      | mk hyear hmonth hday hhour hminute hsecond =>
        simp only [List.mem_append, List.mem_cons, hyear.zero_not_mem, hmonth.zero_not_mem,
          hday.zero_not_mem, hhour.zero_not_mem, hminute.zero_not_mem, hsecond.zero_not_mem, hdash,
          hcolon, ht, or_self, not_false_eq_true]
    · cases hfraction with
      | none => exact List.not_mem_nil
      | digits hne hds => exact List.not_mem_cons_of_ne_of_not_mem hdot (zero_not_mem_of_digits hds)
    · cases hzone with
      | utc => exact List.not_mem_cons_of_ne_of_not_mem hz List.not_mem_nil
      | east hhour hminute =>
        simp only [List.mem_append, List.mem_cons, hhour.zero_not_mem, hminute.zero_not_mem, hplus,
          hcolon, or_self, not_false_eq_true]
      | west hhour hminute =>
        simp only [List.mem_append, List.mem_cons, hhour.zero_not_mem, hminute.zero_not_mem, hdash,
          hcolon, or_self, not_false_eq_true]

/-- `CreateNormalized<Timestamp>`, the divisions as those of C++. -/
def createNormalized (seconds nanos : ℤ) : ℤ × ℤ :=
  let r :=
    if nanos ≤ -1000000000 ∨ nanos ≥ 1000000000 then
      (seconds + nanos.tdiv 1000000000, nanos.tmod 1000000000)
    else (seconds, nanos)
  if r.2 < 0 then (r.1 - 1, r.2 + 1000000000) else r

/-- `TimeUtil::FromString`: the seconds and the nanos of the timestamp, where it returns true. -/
def fromString (value : Text) : Option (ℤ × ℤ) :=
  (parseTime value).map fun r => createNormalized r.1 r.2

def InRange (seconds : ℤ) : Prop := kMinTime ≤ seconds ∧ seconds ≤ kMaxTime

/-- The whole string is a time, the seconds are its local time minus its offset and lie in the
range, and so do the nanoseconds. -/
def Supported (value : Text) (seconds nanos : ℤ) : Prop :=
  ∃ time offset, IsTime value time nanos offset ∧ seconds = denoted time offset ∧ InRange seconds ∧
    0 ≤ nanos ∧ nanos ≤ 999999999

def OnlySupported (parse : Text → Option (ℤ × ℤ)) (value : Text) : Prop :=
  ∀ seconds nanos, parse value = some (seconds, nanos) → Supported value seconds nanos

theorem createNormalized_eq (seconds : ℤ) (h : 0 ≤ nanos ∧ nanos ≤ 999999999) :
    createNormalized seconds nanos = (seconds, nanos) := by
  have hsmall : ¬ (nanos ≤ -1000000000 ∨ nanos ≥ 1000000000) := by omega
  simp only [createNormalized, if_neg hsmall]
  exact if_neg (by omega)

theorem fromString_eq (value : Text) : fromString value = parseTime value := by
  rw [fromString]
  cases h : parseTime value with
  | none => rfl
  | some r =>
    obtain ⟨time, offset, htime, -⟩ := parseTime_iff.mp (show parseTime value = some (r.1, r.2) from h)
    have hnanos : 0 ≤ r.2 ∧ r.2 ≤ 999999999 := by
      generalize value.takeWhile (· ≠ 0) = text at htime
      cases htime with
      | mk hdate hvalid hfraction hzone => exact hfraction.range
    rw [Option.map_some, createNormalized_eq r.1 hnanos]

theorem onlySupported_parseTime_iff (value : Text) : OnlySupported parseTime value ↔ ∀ time nanos offset,
      IsTime (value.takeWhile (· ≠ 0)) time nanos offset → 0 ∉ value ∧ InRange (denoted time offset) := by
  constructor
  · intro h time nanos offset htime
    obtain ⟨time', offset', hwhole, heq, hrange, -⟩ :=
      h _ nanos (parseTime_iff.mpr ⟨time, offset, htime, rfl⟩)
    exact ⟨hwhole.zero_not_mem, hrange⟩
  · intro h seconds nanos hparse
    obtain ⟨time, offset, htime, rfl⟩ := parseTime_iff.mp hparse
    obtain ⟨hnul, hrange⟩ := h time nanos offset htime
    rw [takeWhile_of_not_mem hnul] at htime
    have hnanos : 0 ≤ nanos ∧ nanos ≤ 999999999 := by
      cases htime with
      | mk hdate hvalid hfraction hzone => exact hfraction.range
    exact ⟨time, offset, htime, rfl, hrange, hnanos.1, hnanos.2⟩

/-- **Only supported instants** are accepted if and only if the string is no time with a NUL and
more behind it, and no time whose offset leads out of the range. -/
theorem onlySupported_iff (value : Text) :
    OnlySupported parseTime value ∧ OnlySupported fromString value ↔ ∀ time nanos offset,
      IsTime (value.takeWhile (· ≠ 0)) time nanos offset → 0 ∉ value ∧ InRange (denoted time offset) := by
  have hsame : OnlySupported fromString value ↔ OnlySupported parseTime value := by
    rw [OnlySupported, OnlySupported, fromString_eq]
  rw [hsame, and_self, onlySupported_parseTime_iff]

/-- The first hour of the year 1, an hour east of Greenwich; and a byte behind a NUL. -/
theorem not_onlySupported_offset_nul :
    ¬ OnlySupported parseTime ("0001-01-01T00:00:00+01:00".toList.map ch) ∧
      ¬ OnlySupported parseTime ("2015-05-20T13:29:35Z".toList.map ch ++ [0, ch 'x']) := by
  constructor
  · intro h
    have hparse : parseTime ("0001-01-01T00:00:00+01:00".toList.map ch) = some (-62135600400, 0) := by
      decide +kernel
    obtain ⟨time, offset, -, -, hrange, -⟩ := h _ _ hparse
    exact absurd hrange.1 (by decide)
  · intro h
    have hparse : parseTime ("2015-05-20T13:29:35Z".toList.map ch ++ [0, ch 'x']) =
        some (1432128575, 0) := by
      decide +kernel
    obtain ⟨time, offset, htime, -⟩ := h _ _ hparse
    exact htime.zero_not_mem (by simp)

end Protoc.Stubs.Time
