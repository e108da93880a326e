import Mathlib.Tactic.IntervalCases

/-!
# The proleptic Gregorian calendar

Dates from 0001-01-01 on, one after the other, and their numbers.
-/

namespace Protoc.Lib.Gregorian

/-! ## Years and months -/

/-- Every fourth year is a leap year, but of the centuries only every fourth. -/
def IsLeap (y : ℕ) : Prop := y % 400 = 0 ∨ y % 4 = 0 ∧ y % 100 ≠ 0

instance (y : ℕ) : Decidable (IsLeap y) := inferInstanceAs (Decidable (_ ∨ _ ∧ _))

def yearLength (y : ℕ) : ℕ := if IsLeap y then 366 else 365

def monthLength (y : ℕ) : ℕ → ℕ
  | 2 => if IsLeap y then 29 else 28
  | 4 => 30
  | 6 => 30
  | 9 => 30
  | 11 => 30
  | _ => 31

def daysThroughYear : ℕ → ℕ
  | 0 => 0
  | y + 1 => daysThroughYear y + yearLength (y + 1)

def daysThroughMonth (y : ℕ) : ℕ → ℕ
  | 0 => 0
  | m + 1 => daysThroughMonth y m + monthLength y (m + 1)

variable {y m m' : ℕ}

theorem daysThroughYear_eq (y : ℕ) : daysThroughYear y + y / 100 = 365 * y + y / 4 + y / 400 := by
  induction y with
  | zero => rfl
  | succ y ih =>
    have hleap : yearLength (y + 1) + (if (y + 1) % 100 = 0 then 1 else 0) =
        365 + (if (y + 1) % 4 = 0 then 1 else 0) + if (y + 1) % 400 = 0 then 1 else 0 := by
      have h100 : (y + 1) % 400 = 0 → (y + 1) % 100 = 0 := by omega
      have h4 : (y + 1) % 100 = 0 → (y + 1) % 4 = 0 := by omega
      simp only [yearLength, IsLeap]
      by_cases hcentury : (y + 1) % 100 = 0
      · by_cases hfour : (y + 1) % 400 = 0 <;> simp [hcentury, hfour, h4 hcentury]
      · have hfour := mt h100 hcentury
        by_cases h : (y + 1) % 4 = 0 <;> simp [hcentury, hfour, h]
    simp only [daysThroughYear, Nat.succ_div, Nat.dvd_iff_mod_eq_zero]
    omega

theorem daysThroughYear_mono (h : m ≤ m') : daysThroughYear m ≤ daysThroughYear m' := by
  induction h with
  | refl => exact le_rfl
  | step _ ih => exact le_trans ih (Nat.le_add_right _ _)

theorem daysThroughMonth_mono (h : m ≤ m') : daysThroughMonth y m ≤ daysThroughMonth y m' := by
  induction h with
  | refl => exact le_rfl
  | step _ ih => exact le_trans ih (Nat.le_add_right _ _)

theorem daysThroughMonth_twelve (y : ℕ) : daysThroughMonth y 12 = yearLength y := by
  simp only [daysThroughMonth, monthLength, yearLength]
  split_ifs <;> rfl

theorem monthLength_pos (y m : ℕ) : 0 < monthLength y m := by
  unfold monthLength
  split
  · split_ifs <;> decide
  all_goals decide

theorem monthLength_le (y m : ℕ) : monthLength y m ≤ 31 := by
  unfold monthLength
  split
  · split_ifs <;> decide
  all_goals decide

/-! ## Dates -/

structure Date where
  year : ℕ
  month : ℕ
  day : ℕ
deriving DecidableEq

variable {d e : Date}

/-- The date is in the calendar. -/
structure Valid (d : Date) : Prop where
  year : 1 ≤ d.year
  month : 1 ≤ d.month ∧ d.month ≤ 12
  day : 1 ≤ d.day ∧ d.day ≤ monthLength d.year d.month

def Before (d e : Date) : Prop :=
  d.year < e.year ∨ d.year = e.year ∧ (d.month < e.month ∨ d.month = e.month ∧ d.day < e.day)

def next (d : Date) : Date :=
  if d.day < monthLength d.year d.month then { d with day := d.day + 1 }
  else if d.month < 12 then ⟨d.year, d.month + 1, 1⟩
  else ⟨d.year + 1, 1, 1⟩

def calendar (n : ℕ) : Date := next^[n] ⟨1, 1, 1⟩

def dayNumber (d : Date) : ℕ :=
  daysThroughYear (d.year - 1) + daysThroughMonth d.year (d.month - 1) + (d.day - 1)

theorem valid_next (h : Valid d) : Valid (next d) := by
  rw [next]
  split_ifs with hmonth hyear
  · exact ⟨h.year, h.month, Nat.succ_le_succ (Nat.zero_le _), hmonth⟩
  · exact ⟨h.year, ⟨Nat.succ_le_succ (Nat.zero_le _), hyear⟩, le_rfl, monthLength_pos _ _⟩
  · exact ⟨Nat.succ_le_succ (Nat.zero_le _), ⟨le_rfl, (by decide : 1 ≤ 12)⟩, le_rfl,
      monthLength_pos _ _⟩

theorem daysThroughYear_pred (h : 1 ≤ y) : daysThroughYear y = daysThroughYear (y - 1) + yearLength y := by
  obtain ⟨z, rfl⟩ := Nat.exists_eq_add_of_le' h
  rfl

theorem daysThroughMonth_pred (h : 1 ≤ m) :
    daysThroughMonth y m = daysThroughMonth y (m - 1) + monthLength y m := by
  obtain ⟨k, rfl⟩ := Nat.exists_eq_add_of_le' h
  rfl

theorem dayNumber_next (h : Valid d) : dayNumber (next d) = dayNumber d + 1 := by
  obtain ⟨year, month, day⟩ := d
  obtain ⟨hyear, ⟨hmonth, htwelve⟩, hday, hlength⟩ := h
  simp only at hyear hmonth htwelve hday hlength
  rw [next]
  simp only
  have hm := daysThroughMonth_pred (y := year) hmonth
  split_ifs with hlt hlast
  · simp only [dayNumber]
    omega
  · simp only [dayNumber, Nat.add_sub_cancel]
    omega
  · obtain rfl : month = 12 := by omega
    have hy := daysThroughYear_pred hyear
    have htotal := daysThroughMonth_twelve year
    have hfirst : daysThroughMonth (year + 1) 0 = 0 := rfl
    simp only [dayNumber, Nat.add_sub_cancel, Nat.sub_self]
    omega

theorem valid_calendar (n : ℕ) : Valid (calendar n) := by
  induction n with
  | zero => exact ⟨le_rfl, ⟨le_rfl, by decide⟩, le_rfl, by decide⟩
  | succ n ih =>
    rw [calendar, Function.iterate_succ_apply']
    exact valid_next ih

/-- **The date** so many days after the first has so many days before it. -/
theorem dayNumber_calendar (n : ℕ) : dayNumber (calendar n) = n := by
  induction n with
  | zero => rfl
  | succ n ih =>
    have hnext := dayNumber_next (valid_calendar n)
    rw [ih] at hnext
    rw [calendar, Function.iterate_succ_apply']
    exact hnext

/-! ## The order -/

theorem dayNumber_lt_month (h : Valid d) :
    dayNumber d < daysThroughYear (d.year - 1) + daysThroughMonth d.year d.month := by
  have hday := h.day
  rw [dayNumber, daysThroughMonth_pred h.month.1]
  omega

theorem dayNumber_lt_year (h : Valid d) : dayNumber d < daysThroughYear d.year := by
  have hmonth : daysThroughMonth d.year d.month ≤ daysThroughMonth d.year 12 :=
    daysThroughMonth_mono h.month.2
  have hlt := dayNumber_lt_month h
  rw [daysThroughMonth_twelve] at hmonth
  rw [daysThroughYear_pred h.year]
  omega

theorem dayNumber_lt_of_before (hd : Valid d) (he : Valid e) (h : Before d e) : dayNumber d < dayNumber e := by
  have hdday := hd.day
  have heday := he.day
  rcases h with hyear | ⟨hyear, hmonth | ⟨hmonth, hday⟩⟩
  · calc dayNumber d < daysThroughYear d.year := dayNumber_lt_year hd
      _ ≤ daysThroughYear (e.year - 1) := daysThroughYear_mono (by omega)
      _ ≤ dayNumber e := by
        rw [dayNumber, add_assoc]
        exact Nat.le_add_right _ _
  · have hle : daysThroughMonth d.year d.month ≤ daysThroughMonth d.year (e.month - 1) :=
      daysThroughMonth_mono (by omega)
    have hlt := dayNumber_lt_month hd
    rw [dayNumber.eq_def e, ← hyear]
    omega
  · rw [dayNumber, dayNumber, hyear, hmonth]
    omega

theorem before_trichotomy (d e : Date) : Before d e ∨ d = e ∨ Before e d := by
  obtain ⟨year, month, day⟩ := d
  obtain ⟨year', month', day'⟩ := e
  simp only [Before, Date.mk.injEq]
  omega

theorem eq_of_dayNumber (hd : Valid d) (he : Valid e) (h : dayNumber d = dayNumber e) : d = e := by
  rcases before_trichotomy d e with hlt | heq | hlt
  · exact absurd h (ne_of_lt (dayNumber_lt_of_before hd he hlt))
  · exact heq
  · exact absurd h.symm (ne_of_lt (dayNumber_lt_of_before he hd hlt))

end Protoc.Lib.Gregorian
