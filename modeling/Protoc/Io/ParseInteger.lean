import Protoc.Io.TokenizerComments
import Protoc.Lib.Words
import Protoc.Lib.Decimal

/-!
# The value of an integer token

`Tokenizer::ParseInteger` reads the digits of a token from the left, up to the greatest value
that the caller allows.
-/

namespace Protoc.Io.Tokenizer

open Protoc.Lib

/-! ## Parsing -/

/-- The loop of `ParseInteger`. -/
def parseIntegerLoop (maxValue : UInt64) (base : ℤ) : UInt64 → Text → Option UInt64
  | result, [] => some result
  | result, c :: ptr =>
    if c = 0 then some result
    else
      let digit := digitValue c
      -- the tokenizer takes 099 for an integer
      if digit < 0 ∨ base ≤ digit then none
      else if maxValue < UInt64.ofInt digit ∨
          (maxValue - UInt64.ofInt digit) / UInt64.ofInt base < result then none
      else parseIntegerLoop maxValue base (result * UInt64.ofInt base + UInt64.ofInt digit) ptr

/-- `Tokenizer::ParseInteger`: the value, unless it returns false. -/
def parseInteger (text : Text) (maxValue : UInt64) : Option UInt64 :=
  if text.getD 0 0 = 48 then
    if text.getD 1 0 = 120 ∨ text.getD 1 0 = 88 then parseIntegerLoop maxValue 16 0 (text.drop 2)
    else parseIntegerLoop maxValue 8 0 text
  else parseIntegerLoop maxValue 10 0 text

/-- A number that is a `uint64`. -/
def checkedUInt64 (n : ℤ) : Option ℕ := if 0 ≤ n ∧ n < 2 ^ 64 then some n.toNat else none

/-- The loop, with a check of every value that it computes. -/
def parseIntegerLoopChecked (maxValue base : ℕ) : ℕ → Text → Option (Option ℕ)
  | result, [] => some (some result)
  | result, c :: ptr =>
    if c = 0 then some (some result)
    else
      let digit := digitValue c
      if digit < 0 ∨ (base : ℤ) ≤ digit then some none
      else do
        let digit' ← checkedUInt64 digit
        if maxValue < digit' then return none
        else
          let room ← checkedUInt64 (maxValue - digit')
          if room / base < result then return none
          else
            let product ← checkedUInt64 (result * base)
            let sum ← checkedUInt64 (product + digit')
            parseIntegerLoopChecked maxValue base sum ptr

/-- `parseInteger`, with a check of every value that it computes. -/
def parseIntegerChecked (text : Text) (maxValue : ℕ) : Option (Option ℕ) :=
  if text.getD 0 0 = 48 then
    if text.getD 1 0 = 120 ∨ text.getD 1 0 = 88 then
      parseIntegerLoopChecked maxValue 16 0 (text.drop 2)
    else parseIntegerLoopChecked maxValue 8 0 text
  else parseIntegerLoopChecked maxValue 10 0 text

/-! ## The meaning -/

/-- The number that the text of an integer stands for. -/
def integerValue : Text → ℕ
  | 48 :: x :: digits =>
    if x = 120 ∨ x = 88 then numeral 16 0 (digits.map digitNumber)
    else numeral 8 0 ((x :: digits).map digitNumber)
  | digits => numeral 10 0 (digits.map digitNumber)

example : integerValue [48, 120, 70, 102] = 255 := by decide

example : integerValue [48, 49, 55] = 15 := by decide

/-! ## A digit -/

def IsDigit (base : ℕ) (c : UInt8) : Prop := c ≠ 0 ∧ 0 ≤ digitValue c ∧ digitValue c < base

instance (base : ℕ) (c : UInt8) : Decidable (IsDigit base c) :=
  inferInstanceAs (Decidable (_ ∧ _ ∧ _))

variable {c : UInt8}

theorem isDigit_of_digit (h : digit c = true) : IsDigit 10 c :=
  forall_byte (P := fun c => digit c = true → IsDigit 10 c) (by decide +kernel) c h

theorem isDigit_of_octalDigit (h : octalDigit c = true) : IsDigit 8 c :=
  forall_byte (P := fun c => octalDigit c = true → IsDigit 8 c) (by decide +kernel) c h

theorem isDigit_of_hexDigit (h : hexDigit c = true) : IsDigit 16 c :=
  forall_byte (P := fun c => hexDigit c = true → IsDigit 16 c) (by decide +kernel) c h

variable {base : ℕ}

theorem IsDigit.eq (h : IsDigit base c) :
    digitValue c = digitNumber c := (Int.toNat_of_nonneg h.2.1).symm

theorem IsDigit.lt (h : IsDigit base c) : digitNumber c < base := by
  have hlt := h.2.2
  rw [h.eq] at hlt
  exact Int.ofNat_lt.mp hlt

theorem toNat_ofInt {n : ℕ} (h : n < 2 ^ 64) : (UInt64.ofInt n).toNat = n := by
  rw [UInt64.ofInt, UInt64.toNat_ofNat']
  omega

theorem toNat_next {base digit : ℕ} {result maxValue : UInt64} (hbase : base < 2 ^ 64)
    (hdigit : digit < 2 ^ 64) (hroom : result.toNat * base + digit ≤ maxValue.toNat) :
    (result * UInt64.ofInt base + UInt64.ofInt digit).toNat = result.toNat * base + digit := by
  have hmax := maxValue.toNat_lt
  have hbase' := toNat_ofInt hbase
  have hdigit' := toNat_ofInt hdigit
  rw [UInt64.toNat_add, UInt64.toNat_mul, hbase', hdigit',
    Nat.mod_eq_of_lt (a := result.toNat * base) (by omega)]
  exact Nat.mod_eq_of_lt (by omega)

theorem overflows_iff {base digit : ℕ} {result maxValue : UInt64} (hpos : 0 < base)
    (hbase : base < 2 ^ 64) (hdigit : digit < 2 ^ 64) :
    (maxValue < UInt64.ofInt digit ∨ (maxValue - UInt64.ofInt digit) / UInt64.ofInt base < result) ↔
      maxValue.toNat < result.toNat * base + digit := by
  have hbase' := toNat_ofInt hbase
  have hdigit' := toNat_ofInt hdigit
  rw [UInt64.lt_iff_toNat_lt, UInt64.lt_iff_toNat_lt, UInt64.toNat_div, hbase', hdigit']
  by_cases hle : digit ≤ maxValue.toNat
  · have hsub : (maxValue - UInt64.ofInt digit).toNat = maxValue.toNat - digit := by
      rw [UInt64.toNat_sub_of_le, hdigit']
      rw [UInt64.le_iff_toNat_le, hdigit']
      exact hle
    rw [hsub, ← not_le (a := result.toNat), room_iff hpos hle]
    omega
  · exact iff_of_true (.inl (by omega)) (by omega)

/-! ## The loop -/

variable {text : Text}

/-- **The loop** reads up to the greatest value, and no computation leaves `uint64`. -/
theorem parseIntegerLoop_eq (hpos : 0 < base) (hbase : base ≤ 36)
    (htext : ∀ c ∈ text, IsDigit base c) (maxValue result : UInt64) :
    (parseIntegerLoop maxValue base result text).map UInt64.toNat =
      limited base maxValue.toNat result.toNat (text.map digitNumber) := by
  induction text generalizing result with
  | nil => rfl
  | cons c text ih =>
    have hc := htext c List.mem_cons_self
    have hdigit := hc.lt
    have hdigits : ¬ (digitValue c < 0 ∨ (base : ℤ) ≤ digitValue c) := by
      have hvalue := hc.2
      omega
    have hoverflows := @overflows_iff base (digitNumber c) result maxValue hpos (by omega)
      (by omega)
    rw [parseIntegerLoop, if_neg hc.1]
    simp only [if_neg hdigits]
    rw [hc.eq, List.map_cons, limited]
    split
    · next hfull =>
      have hlt := hoverflows.mp hfull
      rw [if_neg (by omega)]
      rfl
    · next hroom =>
      have hle : result.toNat * base + digitNumber c ≤ maxValue.toNat := by
        have hnot := mt hoverflows.mpr hroom
        omega
      rw [if_pos hle, ih (fun d hd => htext d (List.mem_cons_of_mem _ hd)),
        toNat_next (by omega) (by omega) hle]

theorem checkedUInt64_natCast {n : ℕ} (h : n < 2 ^ 64) : checkedUInt64 n = some n := by
  rw [checkedUInt64, if_pos ⟨Int.natCast_nonneg n, by omega⟩, Int.toNat_natCast]

/-- Checked on the way, the loop is the same. -/
theorem parseIntegerLoopChecked_eq (hpos : 0 < base) (hbase : base ≤ 36) (text : Text)
    (maxValue result : UInt64) : parseIntegerLoopChecked maxValue.toNat base result.toNat text =
      some ((parseIntegerLoop maxValue base result text).map UInt64.toNat) := by
  have hmax := maxValue.toNat_lt
  induction text generalizing result with
  | nil => rfl
  | cons c text ih =>
    rw [parseIntegerLoopChecked, parseIntegerLoop]
    split
    · rfl
    · dsimp only
      split
      · rfl
      · next hdigits =>
        obtain ⟨digit, hdigit⟩ : ∃ digit : ℕ, digitValue c = digit :=
          ⟨(digitValue c).toNat, by omega⟩
        rw [hdigit] at hdigits ⊢
        have hoverflows := @overflows_iff base digit result maxValue hpos (by omega) (by omega)
        rw [checkedUInt64_natCast (show digit < 2 ^ 64 by omega)]
        simp only [Option.bind_eq_bind, Option.bind_some]
        by_cases hle : digit ≤ maxValue.toNat
        · have hroom : (maxValue.toNat : ℤ) - digit = (maxValue.toNat - digit : ℕ) := by omega
          have hdivides : result.toNat ≤ (maxValue.toNat - digit) / base ↔
              result.toNat * base + digit ≤ maxValue.toNat := room_iff hpos hle
          rw [if_neg (by omega), hroom, checkedUInt64_natCast (by omega), Option.bind_some]
          by_cases hnext : result.toNat * base + digit ≤ maxValue.toNat
          · have hproduct : (result.toNat : ℤ) * base = (result.toNat * base : ℕ) :=
              (Int.natCast_mul _ _).symm
            have hsum : ((result.toNat * base : ℕ) : ℤ) + digit =
                (result.toNat * base + digit : ℕ) := (Int.natCast_add _ _).symm
            have hnot := mt hoverflows.mp (not_lt.mpr hnext)
            rw [if_neg (not_lt.mpr (hdivides.mpr hnext)), hproduct,
              checkedUInt64_natCast (by omega), Option.bind_some, hsum,
              checkedUInt64_natCast (by omega), Option.bind_some, if_neg hnot,
              ← toNat_next (by omega) (by omega) hnext]
            exact ih _
          · rw [if_pos (not_le.mp (mt hdivides.mp hnext)), if_pos (hoverflows.mpr (not_le.mp hnext))]
            rfl
        · rw [if_pos (not_le.mp hle), if_pos (hoverflows.mpr (by omega))]
          rfl

/-! ## Tokens -/

theorem parseIntegerChecked_eq (text : Text) (maxValue : UInt64) : parseIntegerChecked text maxValue.toNat =
      some ((parseInteger text maxValue).map UInt64.toNat) := by
  unfold parseIntegerChecked parseInteger
  split
  · split
    · exact @parseIntegerLoopChecked_eq 16 (by decide) (by decide) _ _ 0
    · exact @parseIntegerLoopChecked_eq 8 (by decide) (by decide) _ _ 0
  · exact @parseIntegerLoopChecked_eq 10 (by decide) (by decide) _ _ 0

theorem parseIntegerLoop_start (hpos : 0 < base) (hbase : base ≤ 36)
    (htext : ∀ c ∈ text, IsDigit base c) (maxValue : UInt64) :
    (parseIntegerLoop maxValue base 0 text).map UInt64.toNat =
      let value := numeral base 0 (text.map digitNumber)
      if value ≤ maxValue.toNat then some value else none :=
  (parseIntegerLoop_eq hpos hbase htext maxValue 0).trans (limited_eq hpos _ (Nat.zero_le _))

theorem not_hex_of_octal {digits : Text} (hdigits : ∀ d ∈ digits, octalDigit d = true) :
    ¬ (((48 : UInt8) :: digits).getD 1 0 = 120 ∨ (48 :: digits).getD 1 0 = 88) := by
  cases digits with
  | nil => decide
  | cons x digits =>
    have hoctal := hdigits x List.mem_cons_self
    rintro (h | h)
    · rw [show x = 120 from h] at hoctal
      exact absurd hoctal (by decide)
    · rw [show x = 88 from h] at hoctal
      exact absurd hoctal (by decide)

/-- **The value of a text** is within the limit, or there is none. -/
theorem parseInteger_text (h : IntegerText text) (maxValue : UInt64) :
    (parseInteger text maxValue).map UInt64.toNat =
      if integerValue text ≤ maxValue.toNat then some (integerValue text) else none := by
  cases h with
  | @decimal c digits hc hdigits =>
    have hvalue : integerValue (c :: digits) = numeral 10 0 ((c :: digits).map digitNumber) := by
      rw [integerValue]
      intro x digits' heq
      exact hc (List.cons.inj heq).1
    rw [hvalue, parseInteger, if_neg (show (c :: digits).getD 0 0 ≠ 48 from hc)]
    exact parseIntegerLoop_start (by decide) (by decide)
      (fun d hd => isDigit_of_digit (hdigits d hd)) maxValue
  | @octal digits hdigits =>
    have hzero : IsDigit 8 48 := by decide
    have htext : ∀ d ∈ (48 : UInt8) :: digits, IsDigit 8 d :=
      List.forall_mem_cons.mpr ⟨hzero, fun d hd => isDigit_of_octalDigit (hdigits d hd)⟩
    have hx := not_hex_of_octal hdigits
    have hvalue : integerValue (48 :: digits) =
        numeral 8 0 (((48 : UInt8) :: digits).map digitNumber) := by
      cases digits with
      | nil => rfl
      | cons x digits => exact if_neg hx
    rw [hvalue, parseInteger, if_pos (show ((48 : UInt8) :: digits).getD 0 0 = 48 from rfl), if_neg hx]
    exact parseIntegerLoop_start (by decide) (by decide) htext maxValue
  | @hex x digits hx hne hdigits =>
    have hvalue : integerValue (48 :: x :: digits) =
        numeral 16 0 (digits.map digitNumber) := if_pos hx
    have hx' : ((48 : UInt8) :: x :: digits).getD 1 0 = 120 ∨
      ((48 : UInt8) :: x :: digits).getD 1 0 = 88 := hx
    rw [hvalue, parseInteger, if_pos (show ((48 : UInt8) :: x :: digits).getD 0 0 = 48 from rfl), if_pos hx']
    exact parseIntegerLoop_start (by decide) (by decide)
      (fun d hd => isDigit_of_hexDigit (hdigits d hd)) maxValue

/-- **`ParseInteger` is exact.**  For an integer token that is read without an error, it gives the
value of the text if that is within the limit and fails otherwise, and no computation on the way
leaves `uint64`. -/
theorem parseInteger_exact {chunks : List Text} {cs : List TokenizerCall}
    {os : List TokenizerOutcome} {s t : Tokenizer} {c : TokenizerCall} {o : TokenizerOutcome}
    (hreached : calls cs (new ⟨chunks, 0⟩) = some (os, s)) (hasks : asksToken c = true)
    (hcall : call c s = some (o, t)) (hquiet : o.errors = s.errors)
    (htype : o.current.type = .integer) (maxValue : UInt64) :
    (parseInteger o.current.text maxValue).map UInt64.toNat =
        (if integerValue o.current.text ≤ maxValue.toNat then some (integerValue o.current.text)
          else none) ∧
      parseIntegerChecked o.current.text maxValue.toNat =
        some ((parseInteger o.current.text maxValue).map UInt64.toNat) := by
  have htext := reached_tokenText hreached hasks hcall hquiet (by rw [htype]; decide)
  exact ⟨parseInteger_text (htext.integer htype) maxValue, parseIntegerChecked_eq _ maxValue⟩

/-- The token `0x1F`. -/
theorem parseInteger_exact_hex : ∃ o t, call .next (new ⟨[[48, 120, 49, 70]], 0⟩) = some (o, t) ∧
      (parseInteger o.current.text 31).map UInt64.toNat =
        if integerValue o.current.text ≤ (31 : UInt64).toNat then some (integerValue o.current.text)
          else none := by
  have hrun : ((call .next (new ⟨[[48, 120, 49, 70]], 0⟩)).map fun p =>
      decide (p.1.errors = [] ∧ p.1.current.type = .integer)) = some true := by decide +kernel
  obtain ⟨⟨o, t⟩, hcall, hall⟩ := Option.map_eq_some_iff.mp hrun
  obtain ⟨hquiet, htype⟩ := of_decide_eq_true hall
  exact ⟨o, t, hcall, (@parseInteger_exact _ [] _ _ _ _ _ rfl rfl hcall hquiet htype 31).1⟩

end Protoc.Io.Tokenizer
