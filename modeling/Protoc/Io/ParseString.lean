import Mathlib.Data.Int.Init
import Mathlib.Data.List.TakeWhile
import Mathlib.Tactic.Common

/-!
# The value of a string token

`Tokenizer::ParseString` interprets the escapes of a token that starts and ends with a quote.
-/

namespace Protoc.Io

/-- `OctalDigit`. -/
def octalDigit (c : UInt8) : Bool := decide (48 ≤ c ∧ c ≤ 55)

/-- `HexDigit`. -/
def hexDigit (c : UInt8) : Bool :=
  decide (48 ≤ c ∧ c ≤ 57) || decide (97 ≤ c ∧ c ≤ 102) || decide (65 ≤ c ∧ c ≤ 70)

/-- `DigitValue`, with -1 for what is no digit. -/
def digitValue (c : UInt8) : ℤ :=
  if 48 ≤ c ∧ c ≤ 57 then c.toNat - 48
  else if 97 ≤ c ∧ c ≤ 122 then c.toNat - 97 + 10
  else if 65 ≤ c ∧ c ≤ 90 then c.toNat - 65 + 10
  else -1

def digitNumber (c : UInt8) : ℕ := (digitValue c).toNat

/-- `TranslateEscape`. -/
def translateEscape (c : UInt8) : UInt8 :=
  if c = 97 then 7 -- \a
  else if c = 98 then 8 -- \b
  else if c = 102 then 12 -- \f
  else if c = 110 then 10 -- \n
  else if c = 114 then 13 -- \r
  else if c = 116 then 9 -- \t
  else if c = 118 then 11 -- \v
  else if c = 92 then 92
  else if c = 63 then 63
  else if c = 39 then 39
  else if c = 34 then 34
  else 63

/-! ## Code points -/

/-- A `uint32` as four bytes, the high one first, as `ghtonl` leaves them in memory. -/
def ghtonl (tmp : UInt32) : List UInt8 :=
  [(tmp >>> 24).toUInt8, (tmp >>> 16).toUInt8, (tmp >>> 8).toUInt8, tmp.toUInt8]

/-- The digits of `%08x`. -/
def hex08 (codePoint : UInt32) : List UInt8 :=
  [28, 24, 20, 16, 12, 8, 4, 0].map fun (shift : UInt32) =>
    let d := (codePoint >>> shift &&& 0xf).toUInt8
    if d < 10 then 48 + d else 87 + d

/-- `AppendUTF8`: what is appended. -/
def appendUTF8 (codePoint : UInt32) : List UInt8 :=
  if codePoint ≤ 0x7f then (ghtonl codePoint).drop 3
  else if codePoint ≤ 0x07ff then
    (ghtonl ((0x0000c080 : UInt32) ||| (codePoint &&& 0x07c0) <<< 2 |||
      (codePoint &&& 0x003f))).drop 2
  else if codePoint ≤ 0xffff then
    (ghtonl ((0x00e08080 : UInt32) ||| (codePoint &&& 0xf000) <<< 4 ||| (codePoint &&& 0x0fc0) <<< 2 |||
      (codePoint &&& 0x003f))).drop 1
  else if codePoint ≤ 0x10ffff then
    ghtonl ((0xf0808080 : UInt32) ||| (codePoint &&& 0x1c0000) <<< 6 ||| (codePoint &&& 0x03f000) <<< 4 |||
      (codePoint &&& 0x000fc0) <<< 2 ||| (codePoint &&& 0x003f))
  else 92 :: 85 :: hex08 codePoint

/-- `ReadHexDigits`: the value of `len` characters, none of which ends the string. -/
def readHexDigits : ℕ → UInt32 → List UInt8 → Option UInt32
  | 0, result, _ => some result
  | _ + 1, _, [] => none
  | len + 1, result, c :: ptr =>
    if c = 0 then none
    else readHexDigits len ((result <<< 4) + UInt32.ofInt (digitValue c)) ptr

/-- `IsHeadSurrogate`. -/
def isHeadSurrogate (codePoint : UInt32) : Bool := decide (0xd800 ≤ codePoint ∧ codePoint < 0xdc00)

/-- `IsTrailSurrogate`. -/
def isTrailSurrogate (codePoint : UInt32) : Bool := decide (0xdc00 ≤ codePoint ∧ codePoint < 0xe000)

/-- `AssembleUTF16`. -/
def assembleUTF16 (head trail : UInt32) : UInt32 :=
  (0x10000 : UInt32) + (((head - 0xd800) <<< 10) ||| (trail - 0xdc00))

/-- `UnicodeLength`. -/
def unicodeLength (key : UInt8) : ℕ := if key = 117 then 4 else if key = 85 then 8 else 0

/-- `FetchUnicodePoint`, behind the `u` or `U`: the code point, and how many characters it
takes. -/
def fetchUnicodePoint (key : UInt8) (ptr : List UInt8) : Option (UInt32 × ℕ) :=
  let len := unicodeLength key
  if len = 0 then none
  else
    match readHexDigits len 0 ptr with
    | none => none
    | some codePoint =>
      let p := ptr.drop len
      if isHeadSurrogate codePoint ∧ p.getD 0 0 = 92 ∧ p.getD 1 0 = 117 then
        match readHexDigits 4 0 (p.drop 2) with
        | none => some (codePoint, len)
        | some trail =>
          if isTrailSurrogate trail then some (assembleUTF16 codePoint trail, len + 6)
          else some (codePoint, len)
      else some (codePoint, len)

/-! ## The loop -/

/-- One more digit of an octal or hex escape, if there is one. -/
def moreDigits (inClass : UInt8 → Bool) (base : ℤ) : ℤ × List UInt8 → ℤ × List UInt8
  | (code, []) => (code, [])
  | (code, c :: ptr) => if inClass c then (code * base + digitValue c, ptr) else (code, c :: ptr)

theorem moreDigits_length (inClass : UInt8 → Bool) (base : ℤ) (x : ℤ × List UInt8) :
    (moreDigits inClass base x).2.length ≤ x.2.length := by
  obtain ⟨code, ptr⟩ := x
  cases ptr with
  | nil => exact le_rfl
  | cons c ptr =>
    rw [moreDigits]
    split <;> simp

/-- An `int` as a `char`. -/
def toChar (code : ℤ) : UInt8 := UInt8.ofInt code

theorem toChar_toNat (c : UInt8) : toChar (c.toNat : ℤ) = c := by
  have hc := c.toNat_lt
  have hmod : ((c.toNat : ℤ) % 2 ^ 8).toNat = c.toNat := by omega
  rw [toChar, UInt8.ofInt, hmod, UInt8.ofNat_toNat]

/-- The loop of `ParseStringAppend` in a token that starts with that quote. -/
def parseStringLoop (quote : UInt8) : List UInt8 → List UInt8
  | [] => []
  | c :: ptr =>
    if c = 0 then []
    else if c = 92 ∧ ptr.getD 0 0 ≠ 0 then
      match ptr with
      | [] => []
      | e :: ptr =>
        if octalDigit e then
          let digits := moreDigits octalDigit 8 (moreDigits octalDigit 8 (digitValue e, ptr))
          toChar digits.1 :: parseStringLoop quote digits.2
        else if e = 120 then
          let digits := moreDigits hexDigit 16 (moreDigits hexDigit 16 (0, ptr))
          toChar digits.1 :: parseStringLoop quote digits.2
        else if e = 117 ∨ e = 85 then
          match fetchUnicodePoint e ptr with
          | none => e :: parseStringLoop quote ptr
          | some (unicode, len) => appendUTF8 unicode ++ parseStringLoop quote (ptr.drop len)
        else translateEscape e :: parseStringLoop quote ptr
    else if c = quote ∧ ptr.getD 0 0 = 0 then parseStringLoop quote ptr
    else c :: parseStringLoop quote ptr
termination_by ptr => ptr.length
decreasing_by
  all_goals simp only [List.length_cons]
  · have h₁ := moreDigits_length octalDigit 8 (moreDigits octalDigit 8 (digitValue e, ptr))
    have h₂ := moreDigits_length octalDigit 8 (digitValue e, ptr)
    simp only at *
    omega
  · have h₁ := moreDigits_length hexDigit 16 (moreDigits hexDigit 16 (0, ptr))
    have h₂ := moreDigits_length hexDigit 16 (0, ptr)
    simp only at *
    omega
  · omega
  · have hle := (List.drop_sublist len ptr).length_le
    omega
  · omega
  · omega
  · omega

theorem parseStringLoop_plain {quote c : UInt8} (hzero : c ≠ 0) (hbackslash : c ≠ 92) (hquote : c ≠ quote)
    (rest : List UInt8) : parseStringLoop quote (c :: rest) = c :: parseStringLoop quote rest := by
  rw [parseStringLoop.eq_def quote (c :: rest)]
  simp only [hzero, hbackslash, hquote, false_and, if_false]

theorem parseStringLoop_quote (quote : UInt8) (hzero : quote ≠ 0) (hbackslash : quote ≠ 92) :
    parseStringLoop quote [quote] = [] := by
  rw [parseStringLoop.eq_def quote [quote]]
  simp [hzero, hbackslash, parseStringLoop]

theorem parseStringLoop_backslash (quote : UInt8) {e : UInt8} (he : e ≠ 0) (rest : List UInt8) :
    parseStringLoop quote (92 :: e :: rest) = if octalDigit e then
        let digits := moreDigits octalDigit 8
          (moreDigits octalDigit 8 (digitValue e, rest))
        toChar digits.1 :: parseStringLoop quote digits.2
      else if e = 120 then
        let digits := moreDigits hexDigit 16 (moreDigits hexDigit 16 (0, rest))
        toChar digits.1 :: parseStringLoop quote digits.2
      else if e = 117 ∨ e = 85 then
        match fetchUnicodePoint e rest with
        | none => e :: parseStringLoop quote rest
        | some (unicode, len) => appendUTF8 unicode ++ parseStringLoop quote (rest.drop len)
      else translateEscape e :: parseStringLoop quote rest := by
  rw [parseStringLoop, if_neg (by decide)]
  exact if_pos ⟨rfl, by simpa using he⟩

/-- `ParseStringAppend`. -/
def parseStringAppend (text output : List UInt8) : List UInt8 :=
  match text with
  | [] => output
  | quote :: rest => output ++ parseStringLoop quote rest

/-- `ParseString`. -/
def parseString (text : List UInt8) : List UInt8 := parseStringAppend text []

end Protoc.Io
