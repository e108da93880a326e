import Protoc.Lib.Gregorian
import Protoc.Stubs.Time

/-!
# Seconds and dates

The loops over centuries, years and months count the days of the proleptic Gregorian calendar.
-/

namespace Protoc.Stubs.Time

open Protoc.Lib DateTime
open Protoc.Lib.Gregorian (IsLeap yearLength monthLength daysThroughYear daysThroughMonth Date Valid
  Before dayNumber calendar)

/-! ## Years -/

def daysBefore (year : ℤ) : ℤ := 365 * (year - 1) + (year - 1) / 4 - (year - 1) / 100 + (year - 1) / 400

theorem daysThroughYear_eq_daysBefore (y : ℕ) : (daysThroughYear y : ℤ) = daysBefore (y + 1) := by
  have h := Gregorian.daysThroughYear_eq y
  rw [daysBefore]
  omega

theorem secondsPer100Years_eq (year : ℤ) :
    secondsPer100Years year = kSecondsPerDay * daysBefore (year + 100) - kSecondsPerDay * daysBefore year := by
  rw [secondsPer100Years, kSecondsPerDay, kSecondsPerHour, daysBefore, daysBefore]
  split_ifs <;> omega

theorem secondsPer4Years_eq (year : ℤ) :
    secondsPer4Years year = kSecondsPerDay * daysBefore (year + 4) - kSecondsPerDay * daysBefore year := by
  rw [secondsPer4Years, kSecondsPerDay, kSecondsPerHour, daysBefore, daysBefore]
  split_ifs <;> omega

theorem isLeapYear_iff (year : ℤ) :
    isLeapYear year = true ↔ year % 400 = 0 ∨ year % 4 = 0 ∧ year % 100 ≠ 0 := decide_eq_true_iff

theorem secondsPerYear_eq (year : ℤ) :
    secondsPerYear year = kSecondsPerDay * daysBefore (year + 1) - kSecondsPerDay * daysBefore year := by
  rw [secondsPerYear, kSecondsPerDay, kSecondsPerHour, daysBefore, daysBefore]
  split_ifs with hleap <;> rw [isLeapYear_iff] at hleap <;> omega

theorem kSecondsPer400Years_eq (year count : ℤ) : kSecondsPer400Years * count =
      kSecondsPerDay * daysBefore (year + 400 * count) - kSecondsPerDay * daysBefore year := by
  rw [kSecondsPer400Years, kSecondsPerDay, kSecondsPerHour, daysBefore, daysBefore]
  omega

theorem daysBefore_lt (year : ℤ) : daysBefore year < daysBefore (year + 1) := by
  rw [daysBefore, daysBefore]
  omega

theorem daysBefore_mono {year year' : ℤ} (h : year ≤ year') : daysBefore year ≤ daysBefore year' := by
  rw [daysBefore, daysBefore]
  omega

/-! ## Adding up -/

theorem addWhile_spec {per F : ℤ → ℤ} {stride target : ℤ} (hper : ∀ y, per y = F (y + stride) - F y)
    (hstride : 0 < stride) {rounds : ℕ} (result : ℤ) {year : ℤ} (hyear : year ≤ target)
    (hrounds : target - year ≤ rounds) : (addWhile per stride target rounds (result, year)).1 -
        F (addWhile per stride target rounds (result, year)).2 = result - F year ∧
      (addWhile per stride target rounds (result, year)).2 ≤ target ∧
      target - (addWhile per stride target rounds (result, year)).2 < stride := by
  induction rounds generalizing result year with
  | zero =>
    rw [addWhile]
    exact ⟨rfl, hyear, by simp only; omega⟩
  | succ rounds ih =>
    rw [addWhile]
    split_ifs with hcond
    · obtain ⟨hsum, hle, hlt⟩ := ih (result + per year) (by omega : year + stride ≤ target)
        (by omega)
      refine ⟨?_, hle, hlt⟩
      rw [hsum, hper]
      omega
    · exact ⟨rfl, hyear, by simp only; omega⟩

/-- The invariant of the loops in `SecondsSinceCommonEra`. -/
def Counted (target : ℤ) (st : ℤ × ℤ) : Prop :=
  st.1 = kSecondsPerDay * daysBefore st.2 - kSecondsPerDay * daysBefore 1 ∧ st.2 ≤ target

theorem Counted.addYears {per : ℤ → ℤ} {stride target : ℤ} {st : ℤ × ℤ} (h : Counted target st)
    (hper : ∀ y, per y = kSecondsPerDay * daysBefore (y + stride) - kSecondsPerDay * daysBefore y)
    (hstride : 0 < stride) :
    Counted target (addYears per stride target st) ∧ target - (addYears per stride target st).2 < stride := by
  obtain ⟨result, year⟩ := st
  obtain ⟨hresult, hyear⟩ := h
  simp only at hresult hyear
  have hrounds : target - year ≤ (target - year).toNat := by omega
  obtain ⟨hsum, hle, hlt⟩ := addWhile_spec (F := fun y => kSecondsPerDay * daysBefore y)
    hper hstride result hyear hrounds
  refine ⟨⟨?_, hle⟩, hlt⟩
  simp only [Time.addYears]
  omega

theorem counted_add400Years {target : ℤ} (h : 1 ≤ target) : Counted target (add400Years target (0, 1)) := by
  rw [add400Years]
  split_ifs with hfar
  · refine ⟨?_, ?_⟩
    · have hcount := kSecondsPer400Years_eq 1 ((target - 1) / 400)
      rw [Int.mul_comm 400] at hcount
      simp only [hcount]
      omega
    · simp only
      omega
  · exact ⟨(Int.sub_self _).symm, h⟩

/-! ## Months -/

def secondsBefore (leap : Bool) (month : ℤ) : ℤ :=
  kSecondsPerDay * kDaysSinceJan.getD month.toNat 0 + (if 2 < month ∧ leap then kSecondsPerDay else 0)

def daysOf (leap : Bool) (month : ℤ) : ℤ :=
  kDaysInMonth.getD month.toNat 0 + (if month = 2 ∧ leap then 1 else 0)

theorem secondsPerMonth_eq_daysOf (leap : Bool) (month : ℤ) :
    secondsPerMonth leap month = kSecondsPerDay * daysOf leap month := by
  rw [secondsPerMonth, daysOf]
  split_ifs
  · rfl
  · rw [Int.add_zero]

variable {y m : ℕ}

theorem isLeapYear_natCast (y : ℕ) : isLeapYear y = decide (IsLeap y) := by
  rw [Bool.eq_iff_iff, isLeapYear_iff, decide_eq_true_iff, IsLeap]
  omega

theorem daysOf_eq (hm : 1 ≤ m) (hm' : m ≤ 12) : daysOf (isLeapYear y) m = monthLength y m := by
  rw [isLeapYear_natCast]
  by_cases h : IsLeap y <;> interval_cases m <;> simp [daysOf, monthLength, kDaysInMonth, h]

theorem secondsBefore_eq (hm : m ≤ 11) :
    secondsBefore (isLeapYear y) (m + 1) = kSecondsPerDay * daysThroughMonth y m := by
  rw [isLeapYear_natCast]
  by_cases h : IsLeap y <;> interval_cases m <;>
    simp [secondsBefore, daysThroughMonth, monthLength, kDaysSinceJan, kSecondsPerDay, kSecondsPerHour, h]

theorem secondsPerMonth_eq (hm : 1 ≤ m) (hm' : m ≤ 12) : secondsPerMonth (isLeapYear y) m =
      kSecondsPerDay * daysThroughMonth y m - kSecondsPerDay * daysThroughMonth y (m - 1) := by
  rw [secondsPerMonth_eq_daysOf, daysOf_eq hm hm', Gregorian.daysThroughMonth_pred hm, ← Int.mul_sub]
  congr 1
  omega

/-! ## Dates with times -/

def DateTime.date (time : DateTime) : Date := ⟨time.year.toNat, time.month.toNat, time.day.toNat⟩

def DateTime.timeOfDay (time : DateTime) : ℤ :=
  kSecondsPerHour * time.hour + kSecondsPerMinute * time.minute + time.second

def DateTime.instant (time : DateTime) : ℤ := kSecondsPerDay * dayNumber time.date + time.timeOfDay

/-- A date of the calendar up to the year 9999, and a time of the day. -/
structure ValidDateTime (time : DateTime) : Prop where
  date : Valid time.date
  year : time.year ≤ 9999
  hour : 0 ≤ time.hour ∧ time.hour ≤ 23
  minute : 0 ≤ time.minute ∧ time.minute ≤ 59
  second : 0 ≤ time.second ∧ time.second ≤ 59

variable {time time' : DateTime}

theorem ValidDateTime.year_pos (h : ValidDateTime time) : 1 ≤ time.year := by
  have hyear := h.date.year
  simp only [DateTime.date] at hyear
  omega

theorem ValidDateTime.timeOfDay_lt (h : ValidDateTime time) :
    0 ≤ time.timeOfDay ∧ time.timeOfDay < kSecondsPerDay := by
  obtain ⟨hhour, hhour'⟩ := h.hour
  obtain ⟨hminute, hminute'⟩ := h.minute
  obtain ⟨hsecond, hsecond'⟩ := h.second
  simp only [timeOfDay, kSecondsPerDay, kSecondsPerHour, kSecondsPerMinute]
  omega

theorem day_le_iff (year month day : ℤ) :
    (if month = 2 ∧ isLeapYear year then decide (day ≤ kDaysInMonth.getD month.toNat 0 + 1)
      else decide (day ≤ kDaysInMonth.getD month.toNat 0)) = decide (day ≤ daysOf (isLeapYear year) month) := by
  rw [daysOf]
  split_ifs
  · rfl
  · rw [Int.add_zero]

theorem daysOf_toNat (hyear : 1 ≤ time.year) (hmonth : 1 ≤ time.month ∧ time.month ≤ 12) :
    daysOf (isLeapYear time.year) time.month = monthLength time.date.year time.date.month := by
  have hdays : daysOf (isLeapYear time.date.year) time.date.month =
      monthLength time.date.year time.date.month := by
    refine daysOf_eq ?_ ?_ <;> simp only [DateTime.date] <;> omega
  simp only [DateTime.date] at hdays ⊢
  rwa [Int.toNat_of_nonneg (by omega), Int.toNat_of_nonneg (by omega)] at hdays

/-- **What is accepted** are the dates of the calendar with a time of the day. -/
theorem validateDateTime_iff : validateDateTime time = true ↔ ValidDateTime time := by
  rw [validateDateTime, day_le_iff]
  constructor
  · intro h
    split_ifs at h with hrange
    rw [decide_eq_true_iff, daysOf_toNat (by omega) (by omega)] at h
    have hdate : Valid time.date := by
      refine ⟨?_, ⟨?_, ?_⟩, ?_, ?_⟩ <;> simp only [DateTime.date] at h ⊢ <;> omega
    exact ⟨hdate, by omega, by omega, by omega, by omega⟩
  · intro h
    have hyear := h.year_pos
    have hle := h.year
    have hhour := h.hour
    have hminute := h.minute
    have hsecond := h.second
    have hmonth := h.date.month
    have hday := h.date.day
    have hlength := Gregorian.monthLength_le time.date.year time.date.month
    have hdays := daysOf_toNat hyear (by simp only [DateTime.date] at hmonth; omega)
    simp only [DateTime.date] at hmonth hday hlength hdays
    rw [if_neg (by omega), decide_eq_true_iff, hdays]
    omega

theorem dayNumber_eq (h : ValidDateTime time) : kSecondsPerDay * dayNumber time.date =
      kSecondsPerDay * daysBefore time.year + secondsBefore (isLeapYear time.year) time.month +
        kSecondsPerDay * (time.day - 1) := by
  have hyear := h.year_pos
  have hmonth := h.date.month
  have hday := h.date.day
  simp only [DateTime.date] at hmonth hday
  have hyears := daysThroughYear_eq_daysBefore (time.year.toNat - 1)
  have hmonths := secondsBefore_eq (y := time.year.toNat) (m := time.month.toNat - 1) (by omega)
  have hy : ((time.year.toNat - 1 : ℕ) : ℤ) + 1 = time.year := by omega
  have hm : ((time.month.toNat - 1 : ℕ) : ℤ) + 1 = time.month := by omega
  have hd : ((time.day.toNat - 1 : ℕ) : ℤ) = time.day - 1 := by omega
  rw [hy] at hyears
  rw [hm, Int.toNat_of_nonneg (by omega)] at hmonths
  rw [hmonths, ← hyears, ← hd, ← Int.mul_add, ← Int.mul_add, dayNumber]
  rfl

/-- **What is counted**: `SecondsSinceCommonEra` gives the instant. -/
theorem secondsSinceCommonEra_eq (h : ValidDateTime time) : secondsSinceCommonEra time = time.instant := by
  have hyear := h.year_pos
  rw [secondsSinceCommonEra]
  have h400 := counted_add400Years hyear
  obtain ⟨h100, -⟩ := h400.addYears secondsPer100Years_eq (by decide)
  obtain ⟨h4, -⟩ := h100.addYears secondsPer4Years_eq (by decide)
  obtain ⟨⟨hresult, hle⟩, hlt⟩ := h4.addYears secondsPerYear_eq (by decide)
  generalize addYears secondsPerYear 1 time.year _ = st at hresult hle hlt
  obtain ⟨result, year⟩ := st
  obtain rfl : year = time.year := by
    simp only at hle hlt
    omega
  have hone : kSecondsPerDay * daysBefore 1 = 0 := rfl
  rw [instant, dayNumber_eq h, secondsBefore, timeOfDay]
  simp only at hresult ⊢
  split_ifs <;> omega

/-! ## Taking away -/

theorem subtractWhile_spec {per F : ℤ → ℤ} {stride : ℤ} {P : ℤ → Prop} {total : ℤ}
    (hper : ∀ y, P y → per y = F (y + stride) - F y) (hpos : ∀ y, P y → 0 < per y)
    (hP : ∀ y, P y → F (y + stride) ≤ total → P (y + stride)) {rounds : ℕ} {seconds place : ℤ}
    (hplace : P place) (hseconds : 0 ≤ seconds) (htotal : seconds + F place = total)
    (hrounds : seconds ≤ rounds) : P (subtractWhile per stride rounds (seconds, place)).2 ∧
      0 ≤ (subtractWhile per stride rounds (seconds, place)).1 ∧
      (subtractWhile per stride rounds (seconds, place)).1 <
        per (subtractWhile per stride rounds (seconds, place)).2 ∧
      (subtractWhile per stride rounds (seconds, place)).1 +
        F (subtractWhile per stride rounds (seconds, place)).2 = total := by
  induction rounds generalizing seconds place with
  | zero =>
    have hplaces := hpos place hplace
    rw [subtractWhile]
    exact ⟨hplace, hseconds, by simp only; omega, htotal⟩
  | succ rounds ih =>
    rw [subtractWhile]
    have hfirst := hper place hplace
    have hplaces := hpos place hplace
    split_ifs with hcond
    · exact ih (hP place hplace (by omega)) (by omega) (by omega) (by omega)
    · exact ⟨hplace, hseconds, by simp only; omega, htotal⟩

/-- The invariant of the loops over years in `SecondsToDateTime`. -/
def Remaining (total : ℤ) (st : ℤ × ℤ) : Prop :=
  1 ≤ st.2 ∧ 0 ≤ st.1 ∧ st.1 + kSecondsPerDay * daysBefore st.2 = total

theorem Remaining.subtract {per : ℤ → ℤ} {stride total : ℤ} {st : ℤ × ℤ} (h : Remaining total st)
    (hper : ∀ y, per y = kSecondsPerDay * daysBefore (y + stride) - kSecondsPerDay * daysBefore y)
    (hstride : 0 < stride) : Remaining total (subtract per stride st) ∧
      (subtract per stride st).1 < per (subtract per stride st).2 := by
  obtain ⟨seconds, year⟩ := st
  obtain ⟨hyear, hseconds, htotal⟩ := h
  have hpos : ∀ y, 1 ≤ y → 0 < per y := by
    intro y _
    have hlt := daysBefore_lt y
    have hmono : daysBefore (y + 1) ≤ daysBefore (y + stride) := daysBefore_mono (by omega)
    rw [hper, kSecondsPerDay, kSecondsPerHour]
    omega
  have hrounds : seconds ≤ seconds.toNat := by omega
  obtain ⟨hplace, hnonneg, hlt, hsum⟩ := subtractWhile_spec (F := fun y => kSecondsPerDay * daysBefore y)
    (P := fun y => 1 ≤ y) (fun y _ => hper y) hpos (fun y hy _ => by omega) hyear hseconds htotal hrounds
  exact ⟨⟨hplace, hnonneg, hsum⟩, hlt⟩

theorem remaining_subtract400Years {total : ℤ} (h : 0 ≤ total) :
    Remaining total (subtract400Years (total, 1)) := by
  have hone : kSecondsPerDay * daysBefore 1 = 0 := rfl
  rw [subtract400Years]
  split_ifs with hfar
  · have hcount := kSecondsPer400Years_eq 1 (total / kSecondsPer400Years)
    have hpos : (0 : ℤ) < kSecondsPer400Years := by decide
    have hquot : 0 ≤ total / kSecondsPer400Years := Int.ediv_nonneg h hpos.le
    have hsplit := Int.emod_add_mul_ediv total kSecondsPer400Years
    refine ⟨?_, Int.emod_nonneg _ hpos.ne', ?_⟩
    · simp only
      omega
    · simp only
      omega
  · exact ⟨Int.le_refl _, h, by simp only [hone, Int.add_zero]⟩

/-- The loop over the months of a year ends in the month. -/
theorem subtract_month {y : ℕ} {seconds : ℤ} (h : 0 ≤ seconds) (hlt : seconds < kSecondsPerDay * yearLength y) :
    ∃ m : ℕ, (1 ≤ m ∧ m ≤ 12) ∧ (subtract (secondsPerMonth (isLeapYear y)) 1 (seconds, 1)).2 = m ∧
      0 ≤ (subtract (secondsPerMonth (isLeapYear y)) 1 (seconds, 1)).1 ∧
      (subtract (secondsPerMonth (isLeapYear y)) 1 (seconds, 1)).1 < kSecondsPerDay * monthLength y m ∧
      (subtract (secondsPerMonth (isLeapYear y)) 1 (seconds, 1)).1 +
        kSecondsPerDay * daysThroughMonth y (m - 1) = seconds := by
  -- the seconds before a month, as a function of all places
  have hper : ∀ p : ℤ, 1 ≤ p ∧ p ≤ 12 → secondsPerMonth (isLeapYear y) p =
      kSecondsPerDay * daysThroughMonth y (p + 1 - 1).toNat -
        kSecondsPerDay * daysThroughMonth y (p - 1).toNat := by
    intro p hp
    obtain ⟨m, rfl⟩ := Int.eq_ofNat_of_zero_le (a := p) (by omega)
    have hthis : ((m : ℤ) + 1 - 1).toNat = m := by omega
    have hpred : ((m : ℤ) - 1).toNat = m - 1 := by omega
    rw [hthis, hpred, secondsPerMonth_eq (by omega) (by omega)]
  have hpos : ∀ p : ℤ, 1 ≤ p ∧ p ≤ 12 → 0 < secondsPerMonth (isLeapYear y) p := by
    intro p hp
    obtain ⟨m, rfl⟩ := Int.eq_ofNat_of_zero_le (a := p) (by omega)
    have hlength := Gregorian.monthLength_pos y m
    rw [secondsPerMonth_eq_daysOf, daysOf_eq (by omega) (by omega), kSecondsPerDay, kSecondsPerHour]
    omega
  have hP : ∀ p : ℤ, 1 ≤ p ∧ p ≤ 12 →
      kSecondsPerDay * (daysThroughMonth y (p + 1 - 1).toNat : ℤ) ≤ seconds → 1 ≤ p + 1 ∧ p + 1 ≤ 12 := by
    intro p hp hle
    refine ⟨by omega, ?_⟩
    by_contra hlast
    obtain rfl : p = 12 := by omega
    rw [show ((12 : ℤ) + 1 - 1).toNat = 12 from rfl, Gregorian.daysThroughMonth_twelve] at hle
    omega
  have hrounds : seconds ≤ seconds.toNat := by omega
  have hfirst : (1 : ℤ) ≤ 1 ∧ (1 : ℤ) ≤ 12 := by decide
  have htotal : seconds + kSecondsPerDay * (daysThroughMonth y ((1 : ℤ) - 1).toNat : ℤ) = seconds :=
    Int.add_zero seconds
  obtain ⟨hplace, hnonneg, hless, hsum⟩ := subtractWhile_spec
    (F := fun p => kSecondsPerDay * (daysThroughMonth y (p - 1).toNat : ℤ)) (P := fun p => 1 ≤ p ∧ p ≤ 12)
    hper hpos hP hfirst h htotal hrounds
  obtain ⟨m, hm⟩ := Int.eq_ofNat_of_zero_le (a := (subtractWhile (secondsPerMonth (isLeapYear y)) 1
    seconds.toNat (seconds, 1)).2) (by omega)
  rw [hm] at hplace hless hsum
  rw [secondsPerMonth_eq_daysOf, daysOf_eq (by omega) (by omega)] at hless
  have hpred : ((m : ℤ) - 1).toNat = m - 1 := by omega
  rw [hpred] at hsum
  exact ⟨m, ⟨by omega, by omega⟩, hm, hnonneg, hless, hsum⟩

theorem timeOfDay_split (rest : ℤ) : kSecondsPerHour * (rest % kSecondsPerDay / kSecondsPerHour) +
        kSecondsPerMinute * (rest % kSecondsPerDay % kSecondsPerHour / kSecondsPerMinute) +
      rest % kSecondsPerDay % kSecondsPerHour % kSecondsPerMinute = rest - kSecondsPerDay * (rest / kSecondsPerDay) := by
  simp only [kSecondsPerDay, kSecondsPerHour, kSecondsPerMinute]
  omega

/-- A year, a month and the seconds that remain make up a date and time. -/
theorem valid_of_remaining {y m : ℕ} {rest : ℤ} (hy : 1 ≤ y) (hy' : y ≤ 9999) (hm : 1 ≤ m ∧ m ≤ 12)
    (hrest : 0 ≤ rest) (hlt : rest < kSecondsPerDay * monthLength y m)
    (htime : time = ⟨y, m, 1 + rest / kSecondsPerDay, rest % kSecondsPerDay / kSecondsPerHour,
      rest % kSecondsPerDay % kSecondsPerHour / kSecondsPerMinute,
      rest % kSecondsPerDay % kSecondsPerHour % kSecondsPerMinute⟩) : ValidDateTime time ∧
      time.instant = kSecondsPerDay * daysBefore y + kSecondsPerDay * daysThroughMonth y (m - 1) + rest := by
  have hday : (1 + rest / kSecondsPerDay).toNat = (rest / kSecondsPerDay).toNat + 1 := by
    rw [kSecondsPerDay, kSecondsPerHour] at hlt ⊢
    omega
  have hdate : time.date = ⟨y, m, (rest / kSecondsPerDay).toNat + 1⟩ := by
    rw [htime, DateTime.date]
    simp only [hday, Int.toNat_natCast]
  have hquot : 0 ≤ rest / kSecondsPerDay := by
    rw [kSecondsPerDay, kSecondsPerHour]
    omega
  constructor
  · have hvalid : Valid time.date := by
      rw [hdate]
      refine ⟨hy, hm, Nat.succ_le_succ (Nat.zero_le _), ?_⟩
      rw [kSecondsPerDay, kSecondsPerHour] at hlt ⊢
      simp only
      omega
    subst htime
    refine ⟨hvalid, by simp only; omega, ?_, ?_, ?_⟩ <;>
      simp only [kSecondsPerDay, kSecondsPerHour, kSecondsPerMinute] <;> omega
  · have hyears := daysThroughYear_eq_daysBefore (y - 1)
    have hpred : ((y - 1 : ℕ) : ℤ) + 1 = y := by omega
    have hsplit := timeOfDay_split rest
    rw [hpred] at hyears
    rw [instant, hdate, dayNumber, Nat.add_sub_cancel, ← hyears, timeOfDay, htime]
    simp only [Int.natCast_add, Int.toNat_of_nonneg hquot, Int.mul_add]
    omega

/-- **What is found**: every instant of the range has a date and time of the day. -/
theorem secondsToDateTime_spec {seconds : ℤ} (hmin : kMinTime ≤ seconds) (hmax : seconds ≤ kMaxTime) :
    ∃ time, secondsToDateTime seconds = some time ∧ ValidDateTime time ∧
      time.instant = seconds + kSecondsFromEraToEpoch := by
  have hrange : ¬ (seconds < kMinTime ∨ seconds > kMaxTime) := by omega
  have hera : 0 ≤ seconds + kSecondsFromEraToEpoch := by
    rw [kMinTime] at hmin
    rw [kSecondsFromEraToEpoch]
    omega
  have h400 := remaining_subtract400Years hera
  obtain ⟨h100, -⟩ := h400.subtract secondsPer100Years_eq (by decide)
  obtain ⟨h4, -⟩ := h100.subtract secondsPer4Years_eq (by decide)
  obtain ⟨hyear, hlt⟩ := h4.subtract secondsPerYear_eq (by decide)
  rw [secondsToDateTime, if_neg hrange]
  simp only
  generalize subtract secondsPerYear 1 _ = st at hyear hlt
  obtain ⟨rest, year⟩ := st
  obtain ⟨hone, hnonneg, htotal⟩ := hyear
  obtain ⟨y, rfl⟩ := Int.eq_ofNat_of_zero_le (a := year) (by simp only at hone; omega)
  simp only at hone hnonneg htotal hlt ⊢
  have hlength : rest < kSecondsPerDay * yearLength y := by
    rw [secondsPerYear, isLeapYear_natCast] at hlt
    rw [yearLength]
    by_cases hleap : IsLeap y <;> simp only [hleap, decide_true, decide_false, if_true, if_false] at hlt ⊢ <;>
      simpa using hlt
  obtain ⟨m, hm, hplace, hrest, hdays, hsum⟩ := subtract_month hnonneg hlength
  generalize subtract (secondsPerMonth (isLeapYear y)) 1 (rest, 1) = st at hplace hrest hdays hsum
  obtain ⟨rest', month⟩ := st
  simp only at hplace hrest hdays hsum
  subst hplace
  have hlast : y ≤ 9999 := by
    by_contra hlate
    have hmono : daysBefore 10000 ≤ daysBefore y := daysBefore_mono (by omega)
    have hfuture : daysBefore 10000 = 3652059 := rfl
    simp only [kMaxTime, kSecondsFromEraToEpoch, kSecondsPerDay, kSecondsPerHour] at hmax htotal
    omega
  obtain ⟨hvalid, hinstant⟩ := valid_of_remaining (by omega) hlast hm hrest hdays rfl
  exact ⟨_, rfl, hvalid, hinstant.trans (by omega)⟩

/-! ## The conversions -/

def DateTime.Before (s t : DateTime) : Prop :=
  Gregorian.Before s.date t.date ∨ s.date = t.date ∧ s.timeOfDay < t.timeOfDay

theorem instant_lt_of_before (h : ValidDateTime time) (h' : ValidDateTime time')
    (hlt : time.Before time') : time.instant < time'.instant := by
  obtain ⟨hstart, hend⟩ := h.timeOfDay_lt
  obtain ⟨hstart', hend'⟩ := h'.timeOfDay_lt
  rw [instant, instant]
  rcases hlt with hdate | ⟨hdate, htime⟩
  · have hday := Gregorian.dayNumber_lt_of_before h.date h'.date hdate
    rw [kSecondsPerDay, kSecondsPerHour] at *
    omega
  · rw [hdate]
    omega

theorem eq_of_instant (h : ValidDateTime time) (h' : ValidDateTime time')
    (heq : time.instant = time'.instant) : time = time' := by
  obtain ⟨hstart, hend⟩ := h.timeOfDay_lt
  obtain ⟨hstart', hend'⟩ := h'.timeOfDay_lt
  rw [instant, instant] at heq
  have hday : dayNumber time.date = dayNumber time'.date := by
    rw [kSecondsPerDay, kSecondsPerHour] at *
    omega
  have hdate := Gregorian.eq_of_dayNumber h.date h'.date hday
  rw [hdate, Int.add_right_inj] at heq
  have hyear := h.year_pos
  have hmonth := h.date.month
  have hdays := h.date.day
  have hparts := Date.mk.inj hdate
  obtain ⟨hhour, hminute, hsecond⟩ := And.intro h.hour (And.intro h.minute h.second)
  obtain ⟨hhour', hminute', hsecond'⟩ := And.intro h'.hour (And.intro h'.minute h'.second)
  obtain ⟨year, month, day, hour, minute, second⟩ := time
  obtain ⟨year', month', day', hour', minute', second'⟩ := time'
  simp only [DateTime.date, timeOfDay, kSecondsPerHour, kSecondsPerMinute, mk.injEq] at *
  omega

theorem dateTimeToSeconds_eq (h : ValidDateTime time) :
    dateTimeToSeconds time = some (time.instant - kSecondsFromEraToEpoch) := by
  rw [dateTimeToSeconds, if_pos (validateDateTime_iff.mpr h), secondsSinceCommonEra_eq h]

end Protoc.Stubs.Time
