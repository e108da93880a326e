import Mathlib.Algebra.Group.Int.Defs
import Mathlib.Algebra.Group.Nat.Defs
import Mathlib.Data.List.TakeWhile
import Mathlib.Data.Int.Init
import Mathlib.Tactic.Common

/-!
# C escapes

The escapers `CEscape`, `CHexEscape` and `Utf8SafeCEscape`, and the unescaper.  A `char` is a
byte, and a C string ends at the first zero byte.
-/

namespace Protoc.Stubs

/-- A `size_t` as an `int`. -/
def toInt (n : ℕ) : ℤ := Int.bmod n (2 ^ 32)

theorem toInt_eq (n : ℕ) :
    toInt n = if n % 2 ^ 32 < 2 ^ 31 then (n : ℤ) % 2 ^ 32 else (n : ℤ) % 2 ^ 32 - 2 ^ 32 := by
  unfold toInt
  rw [Int.bmod_def]
  split_ifs <;> omega

theorem toInt_of_lt {n : ℕ} (h : n < 2 ^ 31) : toInt n = n := by
  rw [toInt_eq]
  split <;> omega

/-- `isxdigit`, in the C locale. -/
def isxdigit (c : UInt8) : Bool :=
  decide (48 ≤ c ∧ c ≤ 57) || decide (97 ≤ c ∧ c ≤ 102) || decide (65 ≤ c ∧ c ≤ 70)

/-- `isprint`, in the C locale. -/
def isprint (c : UInt8) : Bool := decide (0x20 ≤ c ∧ c ≤ 0x7e)

/-- `IS_OCTAL_DIGIT`. -/
def isOctalDigit (c : UInt8) : Bool := decide (48 ≤ c ∧ c ≤ 55)

/-- `hex_digit_to_int`. -/
def hexDigitToInt (c : UInt8) : UInt32 := (if 57 < c then c.toUInt32 + 9 else c.toUInt32) &&& 0xf

/-! ## Escaping -/

/-- The letter behind the backslash, for the bytes that have one. -/
def escapeLetter (c : UInt8) : Option UInt8 :=
  if c = 10 then some 110 -- \n
  else if c = 13 then some 114 -- \r
  else if c = 9 then some 116 -- \t
  else if c = 34 then some 34
  else if c = 39 then some 39
  else if c = 92 then some 92
  else none

/-- `\%03o`. -/
def octalEscape (c : UInt8) : List UInt8 := [92, 48 + c / 64, 48 + c % 64 / 8, 48 + c % 8]

/-- A digit of `%x`. -/
def hexDigit (d : UInt8) : UInt8 := if d < 10 then 48 + d else 87 + d

/-- `\x%02x`. -/
def hexEscape (c : UInt8) : List UInt8 := [92, 120, hexDigit (c / 16), hexDigit (c % 16)]

/-- What `CEscapeInternal` writes for a byte, and whether that is a hex escape. -/
def escapeByte (useHex utf8Safe lastHexEscape : Bool) (c : UInt8) : List UInt8 × Bool :=
  match escapeLetter c with
  | some letter => ([92, letter], false)
  | none =>
    -- a hex digit after a hex escape would be read as part of it
    if (!utf8Safe || decide (c < 0x80)) && (!isprint c || (lastHexEscape && isxdigit c)) then
      (if useHex then hexEscape c else octalEscape c, useHex)
    else ([c], false)

/-- The loop of `CEscapeInternal`: what it writes, where it does not return -1. -/
def escapeLoop (destLen : ℤ) (useHex utf8Safe : Bool) :
    Bool → ℤ → List UInt8 → Option (List UInt8)
  | _, used, [] => if destLen - used < 1 then none else some []
  | lastHexEscape, used, c :: src =>
    let (text, isHexEscape) := escapeByte useHex utf8Safe lastHexEscape c
    if destLen - used < 2 then none
    else if text.length = 4 ∧ destLen - used < 4 then none
    else (escapeLoop destLen useHex utf8Safe isHexEscape (used + text.length) src).map (text ++ ·)

/-- `CEscapeInternal`. -/
def cEscapeInternal (src : List UInt8) (srcLen destLen : ℤ) (useHex utf8Safe : Bool) : Option (List UInt8) :=
  escapeLoop destLen useHex utf8Safe false 0 (src.take srcLen.toNat)

/-- `CHexEscape` and `Utf8SafeCEscape`.  Neither a buffer of negative size nor a string of
length -1 can be had. -/
def escapeToString (useHex utf8Safe : Bool) (src : List UInt8) : Option (List UInt8) :=
  let destLength := toInt (src.length * 4 + 1)
  if destLength < 0 then none
  else cEscapeInternal src (toInt src.length) destLength useHex utf8Safe

/-- `CHexEscape`. -/
def cHexEscape : List UInt8 → Option (List UInt8) := escapeToString true false

/-- `Utf8SafeCEscape`. -/
def utf8SafeCEscape : List UInt8 → Option (List UInt8) := escapeToString false true

/-- `c_escaped_len`. -/
def cEscapedLen : List ℕ := [
  4, 4, 4, 4, 4, 4, 4, 4, 4, 2, 2, 4, 4, 2, 4, 4, -- \t, \n, \r
  4, 4, 4, 4, 4, 4, 4, 4, 4, 4, 4, 4, 4, 4, 4, 4,
  1, 1, 2, 1, 1, 1, 1, 2, 1, 1, 1, 1, 1, 1, 1, 1, -- the quotes
  1, 1, 1, 1, 1, 1, 1, 1, 1, 1, 1, 1, 1, 1, 1, 1,
  1, 1, 1, 1, 1, 1, 1, 1, 1, 1, 1, 1, 1, 1, 1, 1,
  1, 1, 1, 1, 1, 1, 1, 1, 1, 1, 1, 1, 2, 1, 1, 1, -- the backslash
  1, 1, 1, 1, 1, 1, 1, 1, 1, 1, 1, 1, 1, 1, 1, 1,
  1, 1, 1, 1, 1, 1, 1, 1, 1, 1, 1, 1, 1, 1, 1, 4, -- DEL
  4, 4, 4, 4, 4, 4, 4, 4, 4, 4, 4, 4, 4, 4, 4, 4,
  4, 4, 4, 4, 4, 4, 4, 4, 4, 4, 4, 4, 4, 4, 4, 4,
  4, 4, 4, 4, 4, 4, 4, 4, 4, 4, 4, 4, 4, 4, 4, 4,
  4, 4, 4, 4, 4, 4, 4, 4, 4, 4, 4, 4, 4, 4, 4, 4,
  4, 4, 4, 4, 4, 4, 4, 4, 4, 4, 4, 4, 4, 4, 4, 4,
  4, 4, 4, 4, 4, 4, 4, 4, 4, 4, 4, 4, 4, 4, 4, 4,
  4, 4, 4, 4, 4, 4, 4, 4, 4, 4, 4, 4, 4, 4, 4, 4,
  4, 4, 4, 4, 4, 4, 4, 4, 4, 4, 4, 4, 4, 4, 4, 4]

/-- `CEscapedLength`. -/
def cEscapedLength : List UInt8 → ℕ
  | [] => 0
  | c :: src => cEscapedLen.getD c.toNat 0 + cEscapedLength src

/-- What `CEscapeAndAppend` writes for a byte. -/
def appendByte (c : UInt8) : List UInt8 :=
  match escapeLetter c with
  | some letter => [92, letter]
  | none => if isprint c then [c] else octalEscape c

/-- Bytes written one after the other from a position on, all inside the string. -/
def writeAt (dest : List UInt8) (appendPtr : ℕ) : List UInt8 → Option (List UInt8)
  | [] => some dest
  | b :: bytes =>
    if appendPtr < dest.length then writeAt (dest.set appendPtr b) (appendPtr + 1) bytes else none

/-- `CEscapeAndAppend`. -/
def cEscapeAndAppend (src dest : List UInt8) : Option (List UInt8) :=
  let escapedLen := cEscapedLength src
  if escapedLen = src.length then some (dest ++ src)
  else writeAt (dest ++ List.replicate escapedLen 0) dest.length (src.flatMap appendByte)

/-- `CEscape`. -/
def cEscape (src : List UInt8) : Option (List UInt8) := cEscapeAndAppend src []

/-! ## Unescaping -/

/-- The byte that a letter behind the backslash stands for. -/
def unescapeLetter (c : UInt8) : Option UInt8 :=
  if c = 97 then some 7 -- \a
  else if c = 98 then some 8 -- \b
  else if c = 102 then some 12 -- \f
  else if c = 110 then some 10 -- \n
  else if c = 114 then some 13 -- \r
  else if c = 116 then some 9 -- \t
  else if c = 118 then some 11 -- \v
  else if c = 92 then some 92
  else if c = 63 then some 63
  else if c = 39 then some 39
  else if c = 34 then some 34
  else none

def octalMore : UInt8 × List UInt8 → UInt8 × List UInt8
  | (ch, []) => (ch, [])
  | (ch, c :: p) => if isOctalDigit c then (ch * 8 + c - 48, p) else (ch, c :: p)

theorem octalMore_length (x : UInt8 × List UInt8) : (octalMore x).2.length ≤ x.2.length := by
  obtain ⟨ch, p⟩ := x
  cases p with
  | nil => exact le_rfl
  | cons c p =>
    rw [octalMore]
    split <;> simp

def hexValue (digits : List UInt8) : UInt8 :=
  (digits.foldl (fun (ch : UInt32) c => (ch <<< 4) + hexDigitToInt c) 0).toUInt8

/-- `UnescapeCEscapeSequences`: the bytes written. -/
def unescapeCEscapeSequences : List UInt8 → List UInt8
  | [] => []
  | c :: p =>
    if c = 0 then []
    else if c ≠ 92 then c :: unescapeCEscapeSequences p
    else
      match p with
      | [] => []
      | e :: p =>
        if e = 0 then []
        else
          match unescapeLetter e with
          | some b => b :: unescapeCEscapeSequences p
          | none =>
            if isOctalDigit e then
              let digits := octalMore (octalMore (e - 48, p))
              digits.1 :: unescapeCEscapeSequences digits.2
            else if (e = 120 ∨ e = 88) ∧ p.takeWhile isxdigit ≠ [] then
              hexValue (p.takeWhile isxdigit) :: unescapeCEscapeSequences (p.dropWhile isxdigit)
            else unescapeCEscapeSequences p
termination_by source => source.length
decreasing_by
  · simp
  · simp only [List.length_cons]
    omega
  · have h₁ := octalMore_length (octalMore (e - 48, p))
    have h₂ := octalMore_length (e - 48, p)
    simp only [List.length_cons] at *
    omega
  · have hle := (List.dropWhile_sublist (l := p) isxdigit).length_le
    simp only [List.length_cons]
    omega
  · simp only [List.length_cons]
    omega

/-- `UnescapeCEscapeString`; no string has a negative length. -/
def unescapeCEscapeString (src : List UInt8) : Option (List UInt8) :=
  let unescaped := unescapeCEscapeSequences src
  let len := toInt unescaped.length
  if len < 0 then none else some (unescaped.take len.toNat)

end Protoc.Stubs
