import Mathlib.Tactic.NormNum
import Protoc.Io.ParseString
import Protoc.Lib.Words
import Protoc.Stubs.Strutil

/-!
# What is escaped comes back

Every escaper writes the text of its bytes one after the other.  The unescaper and the string
token's `ParseString` read each text back as the byte; only after a hex escape does it matter
what follows.
-/

namespace Protoc.Stubs

open Protoc.Lib
open List

/-- What the escapers write, without the bounds of the buffer. -/
def escapeText (useHex utf8Safe : Bool) : Bool → List UInt8 → List UInt8
  | _, [] => []
  | lastHexEscape, c :: src => (escapeByte useHex utf8Safe lastHexEscape c).1 ++
      escapeText useHex utf8Safe (escapeByte useHex utf8Safe lastHexEscape c).2 src

/-! ## The bytes one by one -/

theorem escapeLetter_some : ∀ c : UInt8, ∀ letter ∈ escapeLetter c,
    letter ≠ 0 ∧ unescapeLetter letter = some c ∧ Io.translateEscape letter = c ∧
      Io.octalDigit letter = false ∧ letter ≠ 120 ∧ letter ≠ 117 ∧ letter ≠ 85 := by
  intro c letter hletter
  unfold escapeLetter at hletter
  split_ifs at hletter with h h h h h h
  all_goals cases hletter <;> subst h <;> decide

theorem plain_ne : ∀ c : UInt8, escapeLetter c = none → isprint c = true ∨ ¬ c < 0x80 →
    c ≠ 0 ∧ c ≠ 92 ∧ c ≠ 34 := by
  intro c hletter hprint
  refine ⟨?_, ?_, ?_⟩
  · rintro rfl
    exact absurd hprint (by decide)
  · rintro rfl
    exact absurd hletter (by decide)
  · rintro rfl
    exact absurd hletter (by decide)

theorem plain_of_not_escaped {utf8Safe lastHexEscape : Bool} {c : UInt8}
    (h : ¬ ((!utf8Safe || decide (c < 0x80)) && (!isprint c || (lastHexEscape && isxdigit c))) = true) :
    isprint c = true ∨ ¬ c < 0x80 := by
  by_contra hno
  simp only [not_or, not_not] at hno
  simp [hno] at h

theorem octalDigit_values : ∀ d : UInt8, d < 8 → 48 + d ≠ 0 ∧ unescapeLetter (48 + d) = none ∧
    isOctalDigit (48 + d) = true ∧ Io.digitValue (48 + d) = d.toNat := by
  have hall : ∀ n < 8, 48 + UInt8.ofNat n ≠ 0 ∧ unescapeLetter (48 + UInt8.ofNat n) = none ∧
      isOctalDigit (48 + UInt8.ofNat n) = true ∧ Io.digitValue (48 + UInt8.ofNat n) = n := by decide
  intro d hd
  have h := hall d.toNat (by simpa [UInt8.lt_iff_toNat_lt] using hd)
  rwa [UInt8.ofNat_toNat] at h

theorem hexDigit_values : ∀ d : UInt8, d < 16 → isxdigit (hexDigit d) = true ∧
    hexDigitToInt (hexDigit d) = d.toUInt32 ∧ Io.digitValue (hexDigit d) = d.toNat := by
  have hall : ∀ n < 16, isxdigit (hexDigit (UInt8.ofNat n)) = true ∧
      hexDigitToInt (hexDigit (UInt8.ofNat n)) = (UInt8.ofNat n).toUInt32 ∧
      Io.digitValue (hexDigit (UInt8.ofNat n)) = n := by decide
  intro d hd
  have h := hall d.toNat (by simpa [UInt8.lt_iff_toNat_lt] using hd)
  rwa [UInt8.ofNat_toNat] at h

/-- Three octal digits give the byte back. -/
theorem octalEscape_digits : ∀ c : UInt8, (48 + c / 64 ≠ 0 ∧ unescapeLetter (48 + c / 64) = none) ∧
      (isOctalDigit (48 + c / 64) = true ∧ isOctalDigit (48 + c % 64 / 8) = true ∧
        isOctalDigit (48 + c % 8) = true) ∧
      ((48 + c / 64 - 48) * 8 + (48 + c % 64 / 8) - 48) * 8 + (48 + c % 8) - 48 = c ∧
      Io.toChar ((Io.digitValue (48 + c / 64) * 8 + Io.digitValue (48 + c % 64 / 8)) * 8 +
        Io.digitValue (48 + c % 8)) = c := by
  intro c
  have hc := c.toNat_lt
  have hfirst : c / 64 < 8 := by
    rw [UInt8.lt_iff_toNat_lt, UInt8.toNat_div]
    simp
    omega
  have hsecond : c % 64 / 8 < 8 := by
    rw [UInt8.lt_iff_toNat_lt, UInt8.toNat_div, UInt8.toNat_mod]
    simp
    omega
  have hthird : c % 8 < 8 := by
    rw [UInt8.lt_iff_toNat_lt, UInt8.toNat_mod]
    simp
    omega
  obtain ⟨hzero, hletter, hoctal, hvalue⟩ := octalDigit_values _ hfirst
  obtain ⟨-, -, hoctal₂, hvalue₂⟩ := octalDigit_values _ hsecond
  obtain ⟨-, -, hoctal₃, hvalue₃⟩ := octalDigit_values _ hthird
  refine ⟨⟨hzero, hletter⟩, ⟨hoctal, hoctal₂, hoctal₃⟩, ?_, ?_⟩
  · rw [← UInt8.toNat_inj]
    simp [UInt8.toNat_sub, UInt8.toNat_add, UInt8.toNat_mul, UInt8.toNat_div, UInt8.toNat_mod]
    omega
  · rw [hvalue, hvalue₂, hvalue₃, UInt8.toNat_div, UInt8.toNat_div, UInt8.toNat_mod, UInt8.toNat_mod]
    have hsum : (((c.toNat / 64 : ℕ) : ℤ) * 8 + (c.toNat % 64 / 8 : ℕ)) * 8 + (c.toNat % 8 : ℕ) =
        c.toNat := by
      omega
    exact (congrArg Io.toChar hsum).trans (Io.toChar_toNat c)

theorem hexEscape_digits : ∀ c : UInt8,
    (isxdigit (hexDigit (c / 16)) = true ∧ isxdigit (hexDigit (c % 16)) = true) ∧
      hexValue [hexDigit (c / 16), hexDigit (c % 16)] = c ∧
      Io.toChar ((0 * 16 + Io.digitValue (hexDigit (c / 16))) * 16 +
        Io.digitValue (hexDigit (c % 16))) = c := by
  intro c
  have hc := c.toNat_lt
  have hfirst : c / 16 < 16 := by
    rw [UInt8.lt_iff_toNat_lt, UInt8.toNat_div]
    simp
    omega
  have hsecond : c % 16 < 16 := by
    rw [UInt8.lt_iff_toNat_lt, UInt8.toNat_mod]
    simp
    omega
  obtain ⟨hdigit, hint, hvalue⟩ := hexDigit_values _ hfirst
  obtain ⟨hdigit₂, hint₂, hvalue₂⟩ := hexDigit_values _ hsecond
  refine ⟨⟨hdigit, hdigit₂⟩, ?_, ?_⟩
  · simp only [hexValue, foldl_cons, foldl_nil, hint, hint₂]
    rw [← UInt8.toNat_inj]
    simp [Nat.shiftLeft_eq]
    omega
  · rw [hvalue, hvalue₂, UInt8.toNat_div, UInt8.toNat_mod]
    have hsum : ((0 : ℤ) * 16 + (c.toNat / 16 : ℕ)) * 16 + (c.toNat % 16 : ℕ) = c.toNat := by omega
    exact (congrArg Io.toChar hsum).trans (Io.toChar_toNat c)

theorem isxdigit_ascii : ∀ c : UInt8, isxdigit c = true → c < 0x80 := by
  intro c h
  simp only [isxdigit, Bool.or_eq_true, decide_eq_true_eq, UInt8.le_iff_toNat_le] at h
  rw [UInt8.lt_iff_toNat_lt]
  simp at h ⊢
  omega

/-! ## Unescaping -/

theorem unescape_plain {c : UInt8} (hzero : c ≠ 0) (hbackslash : c ≠ 92) (rest : List UInt8) :
    unescapeCEscapeSequences (c :: rest) = c :: unescapeCEscapeSequences rest := by
  rw [unescapeCEscapeSequences.eq_def (c :: rest)]
  simp only [hzero, hbackslash, if_false, ne_eq, not_false_eq_true, if_true]

theorem unescape_backslash (e : UInt8) (rest : List UInt8) :
    unescapeCEscapeSequences (92 :: e :: rest) = if e = 0 then [] else match unescapeLetter e with
        | some b => b :: unescapeCEscapeSequences rest
        | none => if isOctalDigit e then (octalMore (octalMore (e - 48, rest))).1 ::
              unescapeCEscapeSequences (octalMore (octalMore (e - 48, rest))).2
          else if (e = 120 ∨ e = 88) ∧ rest.takeWhile isxdigit ≠ [] then
            hexValue (rest.takeWhile isxdigit) :: unescapeCEscapeSequences (rest.dropWhile isxdigit)
          else unescapeCEscapeSequences rest := by
  rw [unescapeCEscapeSequences, if_neg (by decide)]
  exact if_neg (by decide)

theorem unescape_letter {c letter : UInt8} (h : escapeLetter c = some letter) (rest : List UInt8) :
    unescapeCEscapeSequences (92 :: letter :: rest) = c :: unescapeCEscapeSequences rest := by
  obtain ⟨hzero, hletter, -⟩ := escapeLetter_some c letter h
  rw [unescape_backslash, if_neg hzero, hletter]

theorem unescape_octalEscape (c : UInt8) (rest : List UInt8) :
    unescapeCEscapeSequences (octalEscape c ++ rest) = c :: unescapeCEscapeSequences rest := by
  obtain ⟨⟨hzero, hletter⟩, ⟨h₁, h₂, h₃⟩, hvalue, -⟩ := octalEscape_digits c
  rw [octalEscape, cons_append, cons_append, unescape_backslash, if_neg hzero, hletter]
  simp only [cons_append, nil_append, h₁, if_true, octalMore, h₂, h₃]
  rw [hvalue]

theorem unescape_hexEscape (c : UInt8) {rest : List UInt8} (hrest : ∀ b ∈ rest.head?, isxdigit b = false) :
    unescapeCEscapeSequences (hexEscape c ++ rest) = c :: unescapeCEscapeSequences rest := by
  obtain ⟨⟨h₁, h₂⟩, hvalue, -⟩ := hexEscape_digits c
  have hstop : rest.takeWhile isxdigit = [] ∧ rest.dropWhile isxdigit = rest := by
    cases rest with
    | nil => exact ⟨rfl, rfl⟩
    | cons b rest =>
      have hb := hrest b rfl
      exact ⟨takeWhile_cons_of_neg (by simp [hb]), dropWhile_cons_of_neg (by simp [hb])⟩
  have hletter : unescapeLetter 120 = none := by decide
  have hoctal : isOctalDigit 120 = false := by decide
  have hzero : (120 : UInt8) ≠ 0 := by decide
  rw [hexEscape, cons_append, cons_append, unescape_backslash, if_neg hzero, hletter]
  simp only [hoctal, cons_append, nil_append, takeWhile_cons_of_pos h₁, takeWhile_cons_of_pos h₂,
    dropWhile_cons_of_pos h₁, dropWhile_cons_of_pos h₂, hstop.1, hstop.2]
  rw [hvalue]
  simp

theorem unescape_escapeByte (useHex utf8Safe lastHexEscape : Bool) (c : UInt8) {rest : List UInt8}
    (hrest : (escapeByte useHex utf8Safe lastHexEscape c).2 = true → ∀ b ∈ rest.head?, isxdigit b = false) :
    unescapeCEscapeSequences ((escapeByte useHex utf8Safe lastHexEscape c).1 ++ rest) =
      c :: unescapeCEscapeSequences rest := by
  rw [escapeByte] at hrest ⊢
  cases hletter : escapeLetter c with
  | some letter => exact unescape_letter hletter rest
  | none =>
    rw [hletter] at hrest
    simp only at hrest ⊢
    split
    · next hescape =>
      rw [if_pos hescape] at hrest
      cases useHex with
      | true => exact unescape_hexEscape c (hrest rfl)
      | false => exact unescape_octalEscape c rest
    · next hplain =>
      obtain ⟨hzero, hbackslash, -⟩ := plain_ne c hletter (plain_of_not_escaped hplain)
      exact unescape_plain hzero hbackslash rest

theorem escapeText_head (useHex utf8Safe : Bool) (src : List UInt8) :
    ∀ b ∈ (escapeText useHex utf8Safe true src).head?, isxdigit b = false := by
  have hbackslash : isxdigit 92 = false := by decide
  cases src with
  | nil => simp [escapeText]
  | cons c src =>
    rw [escapeText, escapeByte]
    cases hletter : escapeLetter c with
    | some letter => simpa using hbackslash
    | none =>
      simp only
      split
      · cases useHex <;> simpa [hexEscape, octalEscape] using hbackslash
      · next hplain =>
        rw [singleton_append, List.head?_cons]
        intro b hb
        obtain rfl := Option.mem_some_iff.mp hb
        by_contra hdigit
        rw [Bool.not_eq_false] at hdigit
        have hascii := isxdigit_ascii c hdigit
        simp [hdigit, hascii] at hplain

/-- **Unescaping** gives back what was escaped. -/
theorem unescape_escapeText (useHex utf8Safe lastHexEscape : Bool) (src : List UInt8) :
    unescapeCEscapeSequences (escapeText useHex utf8Safe lastHexEscape src) = src := by
  induction src generalizing lastHexEscape with
  | nil => rw [escapeText, unescapeCEscapeSequences]
  | cons c src ih =>
    rw [escapeText, unescape_escapeByte, ih]
    intro hhex
    rw [hhex]
    exact escapeText_head useHex utf8Safe src

/-! ## The string token -/

section Token

open Io (parseStringLoop parseString)

theorem octalDigit_eq : Io.octalDigit = isOctalDigit := rfl

theorem hexDigit_eq : Io.hexDigit = isxdigit := rfl

theorem parse_letter {c letter : UInt8} (h : escapeLetter c = some letter) (quote : UInt8) (rest : List UInt8) :
    parseStringLoop quote (92 :: letter :: rest) = c :: parseStringLoop quote rest := by
  obtain ⟨hzero, -, htranslate, hoctal, hx, hu, hU⟩ := escapeLetter_some c letter h
  rw [Io.parseStringLoop_backslash quote hzero, if_neg (by simp [hoctal]), if_neg hx, if_neg (by simp [hu, hU]),
    htranslate]

theorem parse_octalEscape (quote c : UInt8) (rest : List UInt8) :
    parseStringLoop quote (octalEscape c ++ rest) = c :: parseStringLoop quote rest := by
  obtain ⟨⟨hzero, -⟩, ⟨h₁, h₂, h₃⟩, -, hvalue⟩ := octalEscape_digits c
  rw [octalEscape, cons_append, cons_append, Io.parseStringLoop_backslash quote hzero, octalDigit_eq, if_pos h₁]
  simp only [cons_append, nil_append, Io.moreDigits, h₂, h₃, if_true, hvalue]

theorem parse_hexEscape (quote c : UInt8) (rest : List UInt8) :
    parseStringLoop quote (hexEscape c ++ rest) = c :: parseStringLoop quote rest := by
  obtain ⟨⟨h₁, h₂⟩, -, hvalue⟩ := hexEscape_digits c
  rw [hexEscape, cons_append, cons_append, Io.parseStringLoop_backslash quote (by decide),
    if_neg (by decide), if_pos rfl, hexDigit_eq]
  simp only [cons_append, nil_append, Io.moreDigits, h₁, h₂, if_true, hvalue]

theorem parse_escapeByte (useHex utf8Safe lastHexEscape : Bool) (c : UInt8) (rest : List UInt8) :
    parseStringLoop 34 ((escapeByte useHex utf8Safe lastHexEscape c).1 ++ rest) =
      c :: parseStringLoop 34 rest := by
  rw [escapeByte]
  cases hletter : escapeLetter c with
  | some letter => exact parse_letter hletter 34 rest
  | none =>
    simp only
    split
    · cases useHex with
      | true => exact parse_hexEscape 34 c rest
      | false => exact parse_octalEscape 34 c rest
    · next hplain =>
      obtain ⟨hzero, hbackslash, hquote⟩ := plain_ne c hletter (plain_of_not_escaped hplain)
      exact Io.parseStringLoop_plain hzero hbackslash hquote rest

/-- **`ParseString`** gives back what was escaped between double quotes. -/
theorem parseString_escapeText (useHex utf8Safe : Bool) (src : List UInt8) :
    parseString (34 :: escapeText useHex utf8Safe false src ++ [34]) = src := by
  have hloop : ∀ (lastHexEscape : Bool) (src : List UInt8),
      parseStringLoop 34 (escapeText useHex utf8Safe lastHexEscape src ++ [34]) = src := by
    intro lastHexEscape src
    induction src generalizing lastHexEscape with
    | nil => exact Io.parseStringLoop_quote 34 (by decide) (by decide)
    | cons c src ih => rw [escapeText, append_assoc, parse_escapeByte, ih]
  exact hloop false src

end Token

/-! ## The escapers -/

theorem escapeByte_length (useHex utf8Safe lastHexEscape : Bool) (c : UInt8) :
    (escapeByte useHex utf8Safe lastHexEscape c).1.length = 1 ∨
      (escapeByte useHex utf8Safe lastHexEscape c).1.length = 2 ∨
      (escapeByte useHex utf8Safe lastHexEscape c).1.length = 4 := by
  rw [escapeByte]
  split
  · exact .inr (.inl rfl)
  · split
    · cases useHex <;> exact .inr (.inr rfl)
    · exact .inl rfl

/-- **`CEscapeInternal`** writes the text if it fits with the zero byte behind it. -/
theorem escapeLoop_eq (destLen : ℤ) (useHex utf8Safe lastHexEscape : Bool) (used : ℤ)
    (src : List UInt8) :
    escapeLoop destLen useHex utf8Safe lastHexEscape used src =
      if used + (escapeText useHex utf8Safe lastHexEscape src).length < destLen then
        some (escapeText useHex utf8Safe lastHexEscape src)
      else none := by
  induction src generalizing lastHexEscape used with
  | nil =>
    rw [escapeLoop, escapeText]
    by_cases hroom : destLen - used < 1
    · rw [if_pos hroom, if_neg (by simp; omega)]
    · rw [if_neg hroom, if_pos (by simp; omega)]
  | cons c src ih =>
    have hlength := escapeByte_length useHex utf8Safe lastHexEscape c
    rw [escapeLoop, escapeText]
    cases hbyte : escapeByte useHex utf8Safe lastHexEscape c with
    | mk text isHexEscape =>
      rw [hbyte] at hlength
      simp only at hlength ⊢
      rw [ih, length_append]
      split
      · rw [if_neg (by push_cast; omega)]
      · split
        · rw [if_neg (by push_cast; omega)]
        · by_cases hfits : used + text.length +
              (escapeText useHex utf8Safe isHexEscape src).length < destLen
          · rw [if_pos hfits, if_pos (by push_cast; omega)]
            rfl
          · rw [if_neg hfits, if_neg (by push_cast; omega)]
            rfl

set_option maxRecDepth 20000 in
/-- The table has the lengths of the texts. -/
theorem cEscapedLen_table :
    cEscapedLen = (List.range 256).map fun n => (appendByte (UInt8.ofNat n)).length := by
  decide

theorem cEscapedLen_eq : ∀ c : UInt8, cEscapedLen.getD c.toNat 0 = (appendByte c).length ∧
    ((appendByte c).length = 1 → appendByte c = [c]) ∧ 1 ≤ (appendByte c).length ∧
    escapeByte false false false c = (appendByte c, false) := by
  intro c
  refine ⟨?_, ?_, ?_, ?_⟩
  · rw [cEscapedLen_table, getD_eq_getElem?_getD, List.getElem?_map, List.getElem?_range c.toNat_lt]
    simp
  · unfold appendByte
    cases escapeLetter c with
    | some letter => simp
    | none => by_cases hprint : isprint c = true <;> simp [hprint, octalEscape]
  · unfold appendByte
    cases escapeLetter c with
    | some letter => simp
    | none => by_cases hprint : isprint c = true <;> simp [hprint, octalEscape]
  · unfold escapeByte appendByte
    cases escapeLetter c with
    | some letter => rfl
    | none => by_cases hprint : isprint c = true <;> simp [hprint]

/-- **`CEscapedLength`** is the length of the text. -/
theorem cEscapedLength_eq (src : List UInt8) : cEscapedLength src = (src.flatMap appendByte).length := by
  induction src with
  | nil => rfl
  | cons c src ih => rw [cEscapedLength, (cEscapedLen_eq c).1, ih, flatMap_cons, length_append]

theorem escapeText_eq (src : List UInt8) : escapeText false false false src = src.flatMap appendByte := by
  induction src with
  | nil => rfl
  | cons c src ih =>
    have hbyte := (cEscapedLen_eq c).2.2.2
    rw [escapeText, hbyte, ih, flatMap_cons]

theorem le_cEscapedLength (src : List UInt8) : src.length ≤ cEscapedLength src := by
  induction src with
  | nil => exact le_rfl
  | cons c src ih =>
    have hone := (cEscapedLen_eq c).2.2.1
    rw [cEscapedLength, (cEscapedLen_eq c).1, length_cons]
    omega

variable {src : List UInt8}

theorem flatMap_appendByte_of_length (h : cEscapedLength src = src.length) : src.flatMap appendByte = src := by
  induction src with
  | nil => rfl
  | cons c src ih =>
    obtain ⟨hlen, hplain, hone, -⟩ := cEscapedLen_eq c
    have hle := le_cEscapedLength src
    rw [cEscapedLength, hlen, length_cons] at h
    rw [flatMap_cons, hplain (by omega), ih (by omega)]
    rfl

theorem writeAt_replicate (dest bytes : List UInt8) :
    writeAt (dest ++ replicate bytes.length 0) dest.length bytes = some (dest ++ bytes) := by
  induction bytes generalizing dest with
  | nil => simp [writeAt]
  | cons b bytes ih =>
    have hset : (dest ++ replicate (b :: bytes).length 0).set dest.length b =
        dest ++ [b] ++ replicate bytes.length 0 := by
      simp [set_append_right, replicate_succ]
    have hnext := ih (dest ++ [b])
    rw [length_append, length_singleton] at hnext
    rw [writeAt, if_pos (by simp), hset, hnext]
    simp

/-- **`CEscapeAndAppend`** appends the text, and stays inside what it made room for. -/
theorem cEscapeAndAppend_eq (src dest : List UInt8) :
    cEscapeAndAppend src dest = some (dest ++ src.flatMap appendByte) := by
  rw [cEscapeAndAppend]
  by_cases hsame : cEscapedLength src = src.length
  · rw [if_pos hsame, flatMap_appendByte_of_length hsame]
  · rw [if_neg hsame, cEscapedLength_eq, writeAt_replicate]

/-! ## The sizes as `int`s -/

theorem unescapeCEscapeString_eq_some {text src : List UInt8} (h : unescapeCEscapeSequences text = src) :
    unescapeCEscapeString text = some src ↔ src.length < 2 ^ 31 := by
  rw [unescapeCEscapeString, h]
  constructor
  · intro hsome
    split at hsome
    · cases hsome
    · next hnonneg =>
      have hlength := congrArg List.length (Option.some.inj hsome)
      rw [length_take, toInt_eq] at hlength
      rw [toInt_eq] at hnonneg
      split at hlength <;> omega
  · intro hlt
    rw [toInt_of_lt hlt, if_neg (by omega), Int.toNat_natCast, take_length]

theorem escapeToString_eq (h : src.length < 2 ^ 31) (useHex utf8Safe : Bool) :
    escapeToString useHex utf8Safe src =
      if (escapeText useHex utf8Safe false src).length < toInt (src.length * 4 + 1) then
        some (escapeText useHex utf8Safe false src)
      else none := by
  rw [escapeToString, cEscapeInternal, toInt_of_lt h, Int.toNat_natCast, take_length, escapeLoop_eq]
  simp only [Int.zero_add]
  split
  · rw [if_neg (by omega)]
  · rfl

/-! ## The room for the hex escapes -/

/-- The room that `CHexEscape` takes for the bytes: after a hex escape the hex digits are
escaped as well. -/
def hexWidth : Bool → List UInt8 → ℕ
  | _, [] => 0
  | lastHexEscape, c :: src =>
    if (escapeLetter c).isSome then 2 + hexWidth false src
    else if isprint c && !(lastHexEscape && isxdigit c) then 1 + hexWidth false src
    else 4 + hexWidth true src

theorem hexWidth_eq (lastHexEscape : Bool) (src : List UInt8) :
    (escapeText true false lastHexEscape src).length = hexWidth lastHexEscape src := by
  induction src generalizing lastHexEscape with
  | nil => rfl
  | cons c src ih =>
    rw [escapeText, hexWidth, length_append, ih, escapeByte]
    cases hletter : escapeLetter c with
    | some letter => rfl
    | none =>
      simp only [Option.isSome_none, Bool.false_eq_true, if_false, Bool.not_false, Bool.true_or,
        Bool.true_and, if_true]
      by_cases hescape : (!isprint c || lastHexEscape && isxdigit c) = true
      · have hplain : (isprint c && !(lastHexEscape && isxdigit c)) = false := by
          rw [← Bool.not_eq_true, Bool.and_eq_true]
          rintro ⟨hprint, hdigit⟩
          simp only [hprint, Bool.not_true, Bool.false_or] at hescape
          simp [hescape] at hdigit
        rw [if_pos hescape, hplain]
        rfl
      · have hplain : (isprint c && !(lastHexEscape && isxdigit c)) = true := by
          rw [Bool.not_eq_true, Bool.or_eq_false_iff, Bool.not_eq_false'] at hescape
          rw [hescape.1, hescape.2]
          rfl
        rw [if_neg hescape, if_pos hplain]
        rfl

theorem hexWidth_le (lastHexEscape : Bool) (src : List UInt8) :
    hexWidth lastHexEscape src ≤ 4 * src.length := by
  induction src generalizing lastHexEscape with
  | nil => exact le_rfl
  | cons c src ih =>
    have htrue := ih true
    have hfalse := ih false
    rw [hexWidth, length_cons]
    split
    · omega
    · split <;> omega

theorem utf8_length_le (lastHexEscape : Bool) (src : List UInt8) :
    (escapeText false true false src).length ≤ hexWidth lastHexEscape src := by
  induction src generalizing lastHexEscape with
  | nil => exact le_rfl
  | cons c src ih =>
    have htrue := ih true
    have hfalse := ih false
    rw [escapeText, hexWidth, length_append, escapeByte]
    cases hletter : escapeLetter c with
    | some letter => simpa using hfalse
    | none =>
      simp only [Option.isSome_none, Bool.false_eq_true, if_false, Bool.not_true, Bool.false_or,
        Bool.false_and, Bool.or_false]
      by_cases hprint : isprint c = true
      · simp only [hprint, Bool.not_true, Bool.and_false, Bool.false_eq_true, if_false,
          length_singleton, Bool.true_and]
        split <;> omega
      · have hnot : isprint c = false := by simpa using hprint
        simp only [hnot, Bool.not_false, Bool.and_true, Bool.false_and, Bool.false_eq_true, if_false]
        split
        · simp only [octalEscape, length_cons, length_nil]
          omega
        · simp only [length_singleton]
          omega

/-! ## The round trips -/

/-- What the escapers promise about a string: the decoders give it back, and `CEscapeAndAppend`
writes as many bytes as it made room for, the same as the generic escaper. -/
structure RoundTrips (src : List UInt8) : Prop where
  octal : ∃ text, cEscape src = some text ∧ unescapeCEscapeString text = some src ∧
    Io.parseString (34 :: text ++ [34]) = src
  hex : ∃ text, cHexEscape src = some text ∧ unescapeCEscapeString text = some src
  utf8Safe : ∃ text, utf8SafeCEscape src = some text ∧ unescapeCEscapeString text = some src ∧
    Io.parseString (34 :: text ++ [34]) = src
  append : ∀ dest, ∃ text, cEscapeAndAppend src dest = some (dest ++ text) ∧
    text.length = cEscapedLength src ∧
    ∀ destLen : ℤ, text.length < destLen →
      cEscapeInternal src src.length destLen false false = some text

/-- An `int` holds four times the size and one, or what is left of that by the overflow is room
enough. -/
def Fits (src : List UInt8) : Prop := src.length < 2 ^ 29 ∨
    2 ^ 30 ≤ src.length ∧ src.length < 3 * 2 ^ 29 ∧ hexWidth false src ≤ 4 * (src.length - 2 ^ 30)

theorem hexWidth_lt_iff (h : src.length < 2 ^ 31) :
    hexWidth false src < toInt (src.length * 4 + 1) ↔ Fits src := by
  have hle := hexWidth_le false src
  rw [toInt_eq, Fits]
  split <;> omega

theorem cEscape_eq (src : List UInt8) : cEscape src = some (escapeText false false false src) := by
  rw [cEscape, cEscapeAndAppend_eq, nil_append, escapeText_eq]

theorem cHexEscape_none (hge : 2 ^ 29 ≤ src.length) (hlt : src.length < 2 ^ 30) : cHexEscape src = none := by
  rw [cHexEscape, escapeToString_eq (by omega), hexWidth_eq, if_neg]
  rw [hexWidth_lt_iff (by omega), Fits]
  omega

/-- **The escapers keep their promise** for the strings whose escaped text fits in a buffer of
the size that the `int` says. -/
theorem roundTrips_iff (src : List UInt8) : RoundTrips src ↔ Fits src := by
  constructor
  · intro h
    obtain ⟨text, htext, hunescape, -⟩ := h.octal
    rw [cEscape_eq] at htext
    obtain rfl := Option.some.inj htext
    have hlt := (unescapeCEscapeString_eq_some (unescape_escapeText _ _ _ _)).mp hunescape
    obtain ⟨text, htext, -⟩ := h.hex
    rw [cHexEscape, escapeToString_eq hlt, hexWidth_eq] at htext
    split at htext
    · next hfits => exact (hexWidth_lt_iff hlt).mp hfits
    · cases htext
  · intro hfits
    have hlt : src.length < 2 ^ 31 := by
      rw [Fits] at hfits
      omega
    have hhex := (hexWidth_lt_iff hlt).mpr hfits
    have hutf8 := utf8_length_le false src
    have hback : ∀ useHex utf8Safe : Bool,
        unescapeCEscapeString (escapeText useHex utf8Safe false src) = some src :=
      fun _ _ => (unescapeCEscapeString_eq_some (unescape_escapeText _ _ _ _)).mpr hlt
    refine ⟨⟨_, cEscape_eq src, hback _ _, parseString_escapeText _ _ _⟩, ⟨_, ?_, hback true false⟩,
      ⟨_, ?_, hback false true, parseString_escapeText _ _ _⟩, fun dest =>
        ⟨src.flatMap appendByte, cEscapeAndAppend_eq src dest, (cEscapedLength_eq src).symm, ?_⟩⟩
    · rw [cHexEscape, escapeToString_eq hlt, hexWidth_eq, if_pos hhex]
    · rw [utf8SafeCEscape, escapeToString_eq hlt, if_pos (by omega)]
    · intro destLen hroom
      rw [cEscapeInternal, Int.toNat_natCast, take_length, escapeLoop_eq, escapeText_eq,
        Int.zero_add, if_pos hroom]

/-- 512 MiB of the letter a: `4 * src.size() + 1` is negative as an `int`. -/
theorem not_roundTrips_long : ¬ RoundTrips (replicate (2 ^ 29) 97) := by
  intro h
  obtain ⟨text, htext, -⟩ := h.hex
  have hlength : (replicate (2 ^ 29) (97 : UInt8)).length = 2 ^ 29 := length_replicate
  rw [cHexEscape_none (by omega) (by omega)] at htext
  cases htext

end Protoc.Stubs
