import Mathlib.Data.Nat.Digits.Defs

/-!
# Timestamps

The conversions of `time.cc` between seconds, dates with times of the day, and RFC 3339 text.  The
operands of `/` and `%` are never negative.  Text is a list of bytes, and what the loops read from
`c_str()` is the part before the first NUL.
-/

namespace Protoc.Stubs.Time

def kSecondsPerMinute : ℤ := 60
def kSecondsPerHour : ℤ := 3600
def kSecondsPerDay : ℤ := kSecondsPerHour * 24
def kSecondsPer400Years : ℤ := kSecondsPerDay * (400 * 365 + 400 / 4 - 3)

/-- Seconds from 0001-01-01T00:00:00 to 1970-01-01T00:00:00. -/
def kSecondsFromEraToEpoch : ℤ := 62135596800

def kMinTime : ℤ := -62135596800

def kMaxTime : ℤ := 253402300799

def kNanosPerMillisecond : ℕ := 1000000
def kNanosPerMicrosecond : ℕ := 1000

structure DateTime where
  year : ℤ
  month : ℤ
  day : ℤ
  hour : ℤ
  minute : ℤ
  second : ℤ
deriving DecidableEq

/-! ## Lengths -/

/-- `SecondsPer100Years` -/
def secondsPer100Years (year : ℤ) : ℤ :=
  if year % 400 = 0 ∨ 300 < year % 400 then kSecondsPerDay * (100 * 365 + 100 / 4)
  else kSecondsPerDay * (100 * 365 + 100 / 4 - 1)

/-- `SecondsPer4Years` -/
def secondsPer4Years (year : ℤ) : ℤ :=
  if (year % 100 = 0 ∨ 96 < year % 100) ∧ ¬ (year % 400 = 0 ∨ 396 < year % 400) then
    kSecondsPerDay * (4 * 365)
  else kSecondsPerDay * (4 * 365 + 1)

/-- `IsLeapYear` -/
def isLeapYear (year : ℤ) : Bool := decide (year % 400 = 0 ∨ year % 4 = 0 ∧ year % 100 ≠ 0)

/-- `SecondsPerYear` -/
def secondsPerYear (year : ℤ) : ℤ := kSecondsPerDay * (if isLeapYear year then 366 else 365)

def kDaysInMonth : List ℤ := [0, 31, 28, 31, 30, 31, 30, 31, 31, 30, 31, 30, 31]

/-- `SecondsPerMonth` -/
def secondsPerMonth (leap : Bool) (month : ℤ) : ℤ :=
  if month = 2 ∧ leap then kSecondsPerDay * (kDaysInMonth.getD month.toNat 0 + 1)
  else kSecondsPerDay * kDaysInMonth.getD month.toNat 0

def kDaysSinceJan : List ℤ := [0, 0, 31, 59, 90, 120, 151, 181, 212, 243, 273, 304, 334]

/-- `ValidateDateTime` -/
def validateDateTime (time : DateTime) : Bool :=
  if time.year < 1 ∨ time.year > 9999 ∨ time.month < 1 ∨ time.month > 12 ∨ time.day < 1 ∨
      time.day > 31 ∨ time.hour < 0 ∨ time.hour > 23 ∨ time.minute < 0 ∨ time.minute > 59 ∨
      time.second < 0 ∨ time.second > 59 then
    false
  else if time.month = 2 ∧ isLeapYear time.year then
    decide (time.day ≤ kDaysInMonth.getD time.month.toNat 0 + 1)
  else decide (time.day ≤ kDaysInMonth.getD time.month.toNat 0)

/-! ## The calendar -/

/-- `while ((target - year) >= stride) { result += per(year); year += stride; }`; every round moves
on, so `target - year` rounds are enough. -/
def addWhile (per : ℤ → ℤ) (stride target : ℤ) : ℕ → ℤ × ℤ → ℤ × ℤ
  | 0, st => st
  | rounds + 1, (result, year) =>
    if stride ≤ target - year then addWhile per stride target rounds (result + per year, year + stride)
    else (result, year)

def addYears (per : ℤ → ℤ) (stride target : ℤ) (st : ℤ × ℤ) : ℤ × ℤ :=
  addWhile per stride target (target - st.2).toNat st

/-- The 400 years at a time of `SecondsSinceCommonEra`. -/
def add400Years (target : ℤ) (st : ℤ × ℤ) : ℤ × ℤ :=
  if 400 ≤ target - st.2 then
    let count400years := (target - st.2) / 400
    (st.1 + kSecondsPer400Years * count400years, st.2 + count400years * 400)
  else st

/-- `SecondsSinceCommonEra` -/
def secondsSinceCommonEra (time : DateTime) : ℤ :=
  let st := add400Years time.year (0, 1)
  let st := addYears secondsPer100Years 100 time.year st
  let st := addYears secondsPer4Years 4 time.year st
  let (result, year) := addYears secondsPerYear 1 time.year st
  let result := result + kSecondsPerDay * kDaysSinceJan.getD time.month.toNat 0
  let result := if 2 < time.month ∧ isLeapYear year then result + kSecondsPerDay else result
  let result := result + kSecondsPerDay * (time.day - 1)
  result + (kSecondsPerHour * time.hour + kSecondsPerMinute * time.minute + time.second)

/-- `while (seconds >= per(at)) { seconds -= per(at); at += stride; }`, where `at` is a year or a
month; every round takes seconds away, so `seconds` rounds are enough. -/
def subtractWhile (per : ℤ → ℤ) (stride : ℤ) : ℕ → ℤ × ℤ → ℤ × ℤ
  | 0, st => st
  | rounds + 1, (seconds, place) =>
    if per place ≤ seconds then
      subtractWhile per stride rounds (seconds - per place, place + stride)
    else (seconds, place)

def subtract (per : ℤ → ℤ) (stride : ℤ) (st : ℤ × ℤ) : ℤ × ℤ :=
  subtractWhile per stride st.1.toNat st

/-- The 400 years at a time of `SecondsToDateTime`. -/
def subtract400Years (st : ℤ × ℤ) : ℤ × ℤ :=
  if kSecondsPer400Years ≤ st.1 then
    (st.1 % kSecondsPer400Years, st.2 + 400 * (st.1 / kSecondsPer400Years))
  else st

/-- `SecondsToDateTime` -/
def secondsToDateTime (seconds : ℤ) : Option DateTime :=
  if seconds < kMinTime ∨ seconds > kMaxTime then none
  else
    let st := subtract400Years (seconds + kSecondsFromEraToEpoch, 1)
    let st := subtract secondsPer100Years 100 st
    let st := subtract secondsPer4Years 4 st
    let (seconds, year) := subtract secondsPerYear 1 st
    let (seconds, month) := subtract (secondsPerMonth (isLeapYear year)) 1 (seconds, 1)
    let day := 1 + seconds / kSecondsPerDay
    let seconds := seconds % kSecondsPerDay
    let hour := seconds / kSecondsPerHour
    let seconds := seconds % kSecondsPerHour
    let minute := seconds / kSecondsPerMinute
    let seconds := seconds % kSecondsPerMinute
    some ⟨year, month, day, hour, minute, seconds⟩

/-- `DateTimeToSeconds` -/
def dateTimeToSeconds (time : DateTime) : Option ℤ :=
  if validateDateTime time then some (secondsSinceCommonEra time - kSecondsFromEraToEpoch) else none

/-! ## Text -/

abbrev Text : Type := List UInt8

def ch (c : Char) : UInt8 := c.toUInt8

def digit (d : ℕ) : UInt8 := UInt8.ofNat (48 + d)

/-- `StringPrintf("%0<width>d", n)` for a number that is not negative and a positive width. -/
def printPadded (width n : ℕ) : Text :=
  let digits := (Nat.digits 10 n).reverse
  (List.replicate (width - digits.length) 0 ++ digits).map digit

/-- `FormatNanos` -/
def formatNanos (nanos : ℕ) : Text :=
  if nanos % kNanosPerMillisecond = 0 then printPadded 3 (nanos / kNanosPerMillisecond)
  else if nanos % kNanosPerMicrosecond = 0 then printPadded 6 (nanos / kNanosPerMicrosecond)
  else printPadded 9 nanos

/-- `"%04d-%02d-%02dT%02d:%02d:%02d"` -/
def printDateTime (time : DateTime) : Text :=
  printPadded 4 time.year.toNat ++ [ch '-'] ++ printPadded 2 time.month.toNat ++ [ch '-'] ++
    printPadded 2 time.day.toNat ++ [ch 'T'] ++ printPadded 2 time.hour.toNat ++ [ch ':'] ++
    printPadded 2 time.minute.toNat ++ [ch ':'] ++ printPadded 2 time.second.toNat

/-- `"InvalidTime"` -/
def invalidTime : Text := "InvalidTime".toList.map ch

/-- `FormatTime` -/
def formatTime (seconds nanos : ℤ) : Text :=
  if nanos < 0 ∨ nanos > 999999999 then invalidTime
  else
    match secondsToDateTime seconds with
    | none => invalidTime
    | some time =>
      let result := printDateTime time
      let result := if nanos ≠ 0 then result ++ [ch '.'] ++ formatNanos nanos.toNat else result
      result ++ [ch 'Z']

/-- `ascii_isdigit` -/
def asciiIsDigit (c : UInt8) : Bool := decide (48 ≤ c.toNat ∧ c.toNat ≤ 57)

/-- `value * 10 + (c - '0')` -/
def pushDigit (value : ℤ) (c : UInt8) : ℤ := value * 10 + ((c.toNat : ℤ) - 48)

/-- The loop of `ParseInt`: at most `width` digits. -/
def parseDigits : ℕ → ℤ → Text → ℤ × Text
  | 0, value, data => (value, data)
  | _ + 1, value, [] => (value, [])
  | width + 1, value, c :: data =>
    if asciiIsDigit c then parseDigits width (pushDigit value c) data else (value, c :: data)

def startsWithDigit : Text → Bool
  | [] => false
  | c :: _ => asciiIsDigit c

/-- `ParseInt` -/
def parseInt (width : ℕ) (minValue maxValue : ℤ) (data : Text) : Option (ℤ × Text) :=
  if startsWithDigit data then
    let (value, data) := parseDigits width 0 data
    if minValue ≤ value ∧ value ≤ maxValue then some (value, data) else none
  else none

/-- The loop of `ParseNanos`: all the digits, of which the first nine count. -/
def parseNanosDigits : ℤ → ℕ → Text → ℤ × ℕ × Text
  | value, len, [] => (value, len, [])
  | value, len, c :: data =>
    if asciiIsDigit c then
      parseNanosDigits (if len < 9 then pushDigit value c else value) (len + 1) data
    else (value, len, c :: data)

/-- `ParseNanos` -/
def parseNanos (data : Text) : Option (ℤ × Text) :=
  if startsWithDigit data then
    let (value, len, data) := parseNanosDigits 0 0 data
    some (value * 10 ^ (9 - len), data)
  else none

/-- `if (*data++ != c) return false;` -/
def expect (c : UInt8) : Text → Option Text
  | [] => none
  | b :: data => if b = c then some data else none

/-- `ParseTimezoneOffset` -/
def parseTimezoneOffset (data : Text) : Option (ℤ × Text) := do
  let (hour, data) ← parseInt 2 0 23 data
  let data ← expect (ch ':') data
  let (minute, data) ← parseInt 2 0 59 data
  some ((hour * 60 + minute) * 60, data)

/-- The date and the time of the day. -/
def parseDateTime (data : Text) : Option (DateTime × Text) := do
  let (year, data) ← parseInt 4 1 9999 data
  let data ← expect (ch '-') data
  let (month, data) ← parseInt 2 1 12 data
  let data ← expect (ch '-') data
  let (day, data) ← parseInt 2 1 31 data
  let data ← expect (ch 'T') data
  let (hour, data) ← parseInt 2 0 23 data
  let data ← expect (ch ':') data
  let (minute, data) ← parseInt 2 0 59 data
  let data ← expect (ch ':') data
  let (second, data) ← parseInt 2 0 59 data
  some (⟨year, month, day, hour, minute, second⟩, data)

def parseFraction : Text → Option (ℤ × Text)
  | [] => some (0, [])
  | c :: data => if c = ch '.' then parseNanos data else some (0, c :: data)

/-- The offset from UTC: the seconds with it. -/
def parseOffset (seconds : ℤ) : Text → Option (ℤ × Text)
  | [] => none
  | c :: data =>
    if c = ch 'Z' then some (seconds, data)
    else if c = ch '+' then (parseTimezoneOffset data).map fun r => (seconds - r.1, r.2)
    else if c = ch '-' then (parseTimezoneOffset data).map fun r => (seconds + r.1, r.2)
    else none

/-- `ParseTime`: the seconds and the nanos, where it returns true. -/
def parseTime (value : Text) : Option (ℤ × ℤ) := do
  let (time, data) ← parseDateTime (value.takeWhile (· ≠ 0))
  let seconds ← dateTimeToSeconds time
  let (nanos, data) ← parseFraction data
  let (seconds, data) ← parseOffset seconds data
  if data = [] then some (seconds, nanos) else none

end Protoc.Stubs.Time
