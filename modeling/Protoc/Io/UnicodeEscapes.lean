import Protoc.Io.ParseString
import Protoc.Lib.Decimal
import Protoc.Lib.Utf8
import Protoc.Lib.Words

/-!
# Unicode escapes

The code point of an escape is the number of its digits, and a high surrogate takes the low one
behind it along.  `AppendUTF8` writes a code point in UTF-8, and one that is none as an escape
again.
-/

namespace Protoc.Io

open Protoc.Lib
open List

/-! ## Digits -/

theorem hexDigit_value {c : UInt8} (h : hexDigit c = true) :
    c ≠ 0 ∧ digitValue c = digitNumber c ∧ digitNumber c < 16 :=
  forall_byte (P := fun c => hexDigit c = true →
    c ≠ 0 ∧ digitValue c = digitNumber c ∧ digitNumber c < 16) (by decide +kernel) c h

def hexNumber (digits : List UInt8) : ℕ := numeral 16 0 (digits.map digitNumber)

theorem map_digitNumber_lt {digits : List UInt8} (hdigits : ∀ d ∈ digits, hexDigit d = true) :
    ∀ n ∈ digits.map digitNumber, n < 16 := by
  intro n hn
  obtain ⟨c, hc, rfl⟩ := List.mem_map.mp hn
  exact (hexDigit_value (hdigits c hc)).2.2

theorem hexNumber_lt {digits : List UInt8} {n : ℕ} (hlength : digits.length = n)
    (hdigits : ∀ d ∈ digits, hexDigit d = true) : hexNumber digits < 16 ^ n := by
  have hlt := numeral_lt (by decide) (map_digitNumber_lt hdigits)
  rwa [length_map, hlength] at hlt

theorem shiftLeft_add_ofInt (n d : ℕ) :
    (UInt32.ofNat n <<< 4) + UInt32.ofInt d = UInt32.ofNat (n * 16 + d) := by
  have hd : (UInt32.ofInt d).toNat = d % 2 ^ 32 := by
    rw [UInt32.ofInt, UInt32.toNat_ofNat']
    omega
  rw [← UInt32.toNat_inj, UInt32.toNat_add, UInt32.toNat_shiftLeft, hd, UInt32.toNat_ofNat',
    UInt32.toNat_ofNat', Nat.shiftLeft_eq]
  change (n % 2 ^ 32 * 2 ^ 4 % 2 ^ 32 + d % 2 ^ 32) % 2 ^ 32 = (n * 16 + d) % 2 ^ 32
  omega

/-- **The number of the digits.** -/
theorem readHexDigits_eq {digits : List UInt8} (hdigits : ∀ d ∈ digits, hexDigit d = true)
    (n : ℕ) (rest : List UInt8) : readHexDigits digits.length (UInt32.ofNat n) (digits ++ rest) =
      some (UInt32.ofNat (numeral 16 n (digits.map digitNumber))) := by
  induction digits generalizing n with
  | nil => rfl
  | cons c digits ih =>
    obtain ⟨hzero, hvalue, -⟩ := hexDigit_value (hdigits c mem_cons_self)
    rw [length_cons, cons_append, readHexDigits, if_neg hzero, hvalue,
      shiftLeft_add_ofInt, ih fun d hd => hdigits d (mem_cons_of_mem _ hd)]
    rfl

theorem readHexDigits_hexNumber {digits : List UInt8} {n : ℕ} (hlength : digits.length = n)
    (hdigits : ∀ d ∈ digits, hexDigit d = true) (rest : List UInt8) :
    readHexDigits n 0 (digits ++ rest) = some (UInt32.ofNat (hexNumber digits)) := by
  rw [← hlength]
  exact readHexDigits_eq hdigits 0 rest

/-! ## Surrogates -/

def IsHead (v : ℕ) : Prop := 0xd800 ≤ v ∧ v < 0xdc00

def IsTrail (v : ℕ) : Prop := 0xdc00 ≤ v ∧ v < 0xe000

instance (v : ℕ) : Decidable (IsHead v) := inferInstanceAs (Decidable (_ ∧ _))

instance (v : ℕ) : Decidable (IsTrail v) := inferInstanceAs (Decidable (_ ∧ _))

def pairPoint (head trail : ℕ) : ℕ := 0x10000 + (head - 0xd800) * 2 ^ 10 + (trail - 0xdc00)

theorem isHeadSurrogate_ofNat {v : ℕ} (hv : v < 2 ^ 32) :
    isHeadSurrogate (UInt32.ofNat v) = decide (IsHead v) := by
  rw [isHeadSurrogate, decide_eq_decide, UInt32.le_iff_toNat_le, UInt32.lt_iff_toNat_lt,
    UInt32.toNat_ofNat_of_lt' hv]
  rfl

theorem isTrailSurrogate_ofNat {v : ℕ} (hv : v < 2 ^ 32) :
    isTrailSurrogate (UInt32.ofNat v) = decide (IsTrail v) := by
  rw [isTrailSurrogate, decide_eq_decide, UInt32.le_iff_toNat_le, UInt32.lt_iff_toNat_lt,
    UInt32.toNat_ofNat_of_lt' hv]
  rfl

theorem pairPoint_lt {head trail : ℕ} (hhead : IsHead head) (htrail : IsTrail trail) :
    pairPoint head trail < 0x110000 := by
  unfold IsHead at hhead
  unfold IsTrail at htrail
  unfold pairPoint
  omega

theorem toNat_sub_ofNat {v low : ℕ} {base : UInt32} (hbase : base.toNat = low) (hle : low ≤ v)
    (hlt : v < 2 ^ 32) : (UInt32.ofNat v - base).toNat = v - low := by
  have hv := UInt32.toNat_ofNat_of_lt' hlt
  have hle' : base ≤ UInt32.ofNat v := by
    rw [UInt32.le_iff_toNat_le, hv, hbase]
    exact hle
  rw [UInt32.toNat_sub_of_le _ _ hle', hv, hbase]

theorem assembleUTF16_ofNat {head trail : ℕ} (hhead : IsHead head) (htrail : IsTrail trail) :
    assembleUTF16 (UInt32.ofNat head) (UInt32.ofNat trail) = UInt32.ofNat (pairPoint head trail) := by
  obtain ⟨hlow, hhigh⟩ := hhead
  obtain ⟨hlow', hhigh'⟩ := htrail
  have hsmall : (head - 0xd800) * 2 ^ 10 < 2 ^ 32 := by omega
  have hsmall' : trail - 0xdc00 < 2 ^ 10 := by omega
  have hbits : (UInt32.ofNat head - 0xd800).toNat = head - 0xd800 :=
    toNat_sub_ofNat rfl hlow (by omega)
  have hbits' : (UInt32.ofNat trail - 0xdc00).toNat = trail - 0xdc00 :=
    toNat_sub_ofNat rfl hlow' (by omega)
  have hshift : ((UInt32.ofNat head - 0xd800) <<< 10).toNat = (head - 0xd800) * 2 ^ 10 := by
    rw [toNat_shiftLeft_of (n := 10) rfl (by rw [hbits]; exact hsmall), hbits]
  have hdvd : 2 ^ 10 ∣ ((UInt32.ofNat head - 0xd800) <<< 10).toNat := by
    rw [hshift]
    exact Nat.dvd_mul_left _ _
  have hlt : (UInt32.ofNat trail - 0xdc00).toNat < 2 ^ 10 := by
    rw [hbits']
    exact hsmall'
  have hor := toNat_or_of_dvd hdvd hlt
  have hword : (assembleUTF16 (UInt32.ofNat head) (UInt32.ofNat trail)).toNat =
      (0x10000 + ((head - 0xd800) * 2 ^ 10 + (trail - 0xdc00))) % 2 ^ 32 := by
    rw [assembleUTF16, UInt32.toNat_add, hor, hshift, hbits']
    rfl
  have hsum : 0x10000 + ((head - 0xd800) * 2 ^ 10 + (trail - 0xdc00)) = pairPoint head trail :=
    (add_assoc _ _ _).symm
  refine UInt32.toNat_inj.mp ?_
  rw [hword, hsum]
  exact (UInt32.toNat_ofNat' ..).symm

section Fetch

variable {key : UInt8} {n : ℕ} {digits : List UInt8} (hkey : unicodeLength key = n) (hpos : 0 < n)
  (hle : n ≤ 8) (hlength : digits.length = n) (hdigits : ∀ d ∈ digits, hexDigit d = true)
include hkey hpos hle hlength hdigits

/-- **An escape alone.** -/
theorem fetchUnicodePoint_alone {rest : List UInt8}
    (h : IsHead (hexNumber digits) → ¬ (rest.getD 0 0 = 92 ∧ rest.getD 1 0 = 117)) :
    fetchUnicodePoint key (digits ++ rest) = some (UInt32.ofNat (hexNumber digits), n) := by
  have hlt : hexNumber digits < 2 ^ 32 :=
    (hexNumber_lt hlength hdigits).trans_le (Nat.pow_le_pow_right (by decide) hle)
  have hrest : (digits ++ rest).drop n = rest := drop_left' hlength
  rw [fetchUnicodePoint]
  simp only [hkey, if_neg (Nat.ne_of_gt hpos), readHexDigits_hexNumber hlength hdigits, hrest,
    isHeadSurrogate_ofNat hlt, decide_eq_true_eq]
  exact if_neg fun hall => h hall.1 hall.2

/-- **A high surrogate** in front of another escape. -/
theorem fetchUnicodePoint_pair {digits' : List UInt8} (hlength' : digits'.length = 4)
    (hdigits' : ∀ d ∈ digits', hexDigit d = true) (hhead : IsHead (hexNumber digits))
    (rest : List UInt8) :
    fetchUnicodePoint key (digits ++ (92 :: 117 :: digits' ++ rest)) =
      if IsTrail (hexNumber digits') then
        some (UInt32.ofNat (pairPoint (hexNumber digits) (hexNumber digits')), n + 6)
      else some (UInt32.ofNat (hexNumber digits), n) := by
  have hlt : hexNumber digits < 2 ^ 32 :=
    (hexNumber_lt hlength hdigits).trans_le (Nat.pow_le_pow_right (by decide) hle)
  have hlt' : hexNumber digits' < 2 ^ 32 := (hexNumber_lt hlength' hdigits').trans_le (by decide)
  have hrest : (digits ++ (92 :: 117 :: digits' ++ rest)).drop n = 92 :: 117 :: digits' ++ rest :=
    drop_left' hlength
  have hbehind : (92 :: 117 :: digits' ++ rest).drop 2 = digits' ++ rest := rfl
  rw [fetchUnicodePoint]
  simp only [hkey, if_neg (Nat.ne_of_gt hpos), readHexDigits_hexNumber hlength hdigits, hrest,
    isHeadSurrogate_ofNat hlt, decide_eq_true_eq, hbehind,
    readHexDigits_hexNumber hlength' hdigits', isTrailSurrogate_ofNat hlt']
  rw [if_pos ⟨hhead, rfl, rfl⟩]
  split
  · next htrail => rw [assembleUTF16_ofNat hhead htrail]
  · rfl

end Fetch

/-! ## UTF-8 -/

theorem ghtonl_eq (tmp : UInt32) :
    ghtonl tmp = [UInt8.ofNat (tmp.toNat / 2 ^ 24), UInt8.ofNat (tmp.toNat / 2 ^ 16),
      UInt8.ofNat (tmp.toNat / 2 ^ 8), UInt8.ofNat tmp.toNat] := by
  have hbyte : ∀ x : UInt32, x.toUInt8 = UInt8.ofNat x.toNat := fun x => by
    rw [← UInt8.toNat_inj, UInt32.toNat_toUInt8, UInt8.toNat_ofNat']
  rw [ghtonl, hbyte, hbyte, hbyte, hbyte, toNat_shiftRight_of (n := 24) rfl,
    toNat_shiftRight_of (n := 16) rfl, toNat_shiftRight_of (n := 8) rfl]

theorem ofNat_congr {m n : ℕ} (h : m % 256 = n % 256) : UInt8.ofNat m = UInt8.ofNat n := by
  rw [← UInt8.toNat_inj, UInt8.toNat_ofNat', UInt8.toNat_ofNat']
  exact h

theorem ghtonl_bytes {tmp : UInt32} {a b c d : ℕ}
    (h : tmp.toNat = a * 2 ^ 24 + (b * 2 ^ 16 + (c * 2 ^ 8 + d))) (hb : b < 256) (hc : c < 256) (hd : d < 256) :
    ghtonl tmp = [UInt8.ofNat a, UInt8.ofNat b, UInt8.ofNat c, UInt8.ofNat d] := by
  have hfirst : tmp.toNat / 2 ^ 24 % 256 = a % 256 := by omega
  have hsecond : tmp.toNat / 2 ^ 16 % 256 = b % 256 := by omega
  have hthird : tmp.toNat / 2 ^ 8 % 256 = c % 256 := by omega
  have hfourth : tmp.toNat % 256 = d % 256 := by omega
  rw [ghtonl_eq, ofNat_congr hfirst, ofNat_congr hsecond, ofNat_congr hthird, ofNat_congr hfourth]

def marked (mark mask shift x : UInt32) : UInt32 := mark ||| (x &&& mask) <<< shift

theorem toNat_marked {mark mask shift x : UInt32} (a n k j : ℕ)
    (hmask : mask.toNat = (2 ^ n - 1) * 2 ^ k) (hshift : shift.toNat % 32 = j)
    (hle : n + k + j ≤ 32) (hmark : mark.toNat = a * 2 ^ (n + k + j)) :
    (marked mark mask shift x).toNat = (a * 2 ^ n + x.toNat / 2 ^ k % 2 ^ n) * 2 ^ (k + j) := by
  have hbits := toNat_mid_shiftLeft (x := x) hmask hshift hle
  have hlt : x.toNat / 2 ^ k % 2 ^ n < 2 ^ n := Nat.mod_lt _ (Nat.two_pow_pos n)
  have hplace : 2 ^ (n + k + j) = 2 ^ n * 2 ^ (k + j) := by rw [add_assoc, pow_add]
  rw [marked, toNat_or_of_dvd (n := n + k + j) (hmark ▸ Nat.dvd_mul_left _ _)
    (by rw [hbits, hplace]; exact Nat.mul_lt_mul_of_pos_right hlt (Nat.two_pow_pos _)),
    hbits, hmark, hplace]
  ring

theorem toNat_last (x : UInt32) : (marked 0x80 0x3f 0 x).toNat = 0x80 + x.toNat % 0x40 := by
  rw [toNat_marked 2 6 0 0 rfl rfl (by decide) rfl]
  simp

theorem toNat_second (x : UInt32) : (marked 0x8000 0x0fc0 2 x).toNat = (0x80 + x.toNat / 0x40 % 0x40) * 2 ^ 8 :=
  toNat_marked 2 6 6 2 rfl rfl (by decide) rfl

theorem toNat_third (x : UInt32) :
    (marked 0x800000 0x03f000 4 x).toNat = (0x80 + x.toNat / 0x1000 % 0x40) * 2 ^ 16 :=
  toNat_marked 2 6 12 4 rfl rfl (by decide) rfl

theorem toNat_lastTwo (x : UInt32) : (marked 0x8000 0x0fc0 2 x ||| marked 0x80 0x3f 0 x).toNat =
      (0x80 + x.toNat / 0x40 % 0x40) * 2 ^ 8 + (0x80 + x.toNat % 0x40) := by
  have hsecond := toNat_second x
  have hlast := toNat_last x
  rw [toNat_or_of_dvd (n := 8) (hsecond ▸ Nat.dvd_mul_left _ _) (by omega), hsecond, hlast]

theorem toNat_lastThree (x : UInt32) :
    (marked 0x800000 0x03f000 4 x ||| (marked 0x8000 0x0fc0 2 x ||| marked 0x80 0x3f 0 x)).toNat =
      (0x80 + x.toNat / 0x1000 % 0x40) * 2 ^ 16 +
        ((0x80 + x.toNat / 0x40 % 0x40) * 2 ^ 8 + (0x80 + x.toNat % 0x40)) := by
  have hthird := toNat_third x
  have hlastTwo := toNat_lastTwo x
  rw [toNat_or_of_dvd (n := 16) (hthird ▸ Nat.dvd_mul_left _ _) (by omega), hthird, hlastTwo]

theorem marked_last (x : UInt32) : marked 0x80 0x3f 0 x = 0x80 ||| (x &&& 0x3f) := by
  rw [marked, UInt32.shiftLeft_zero]

variable {x : UInt32}

theorem appendUTF8_two (h : x.toNat < 0x800) :
    (ghtonl ((0x0000c080 : UInt32) ||| (x &&& 0x07c0) <<< 2 ||| (x &&& 0x003f))).drop 2 =
      [UInt8.ofNat (0xC0 + x.toNat / 0x40), UInt8.ofNat (0x80 + x.toNat % 0x40)] := by
  have hsplit : (0x0000c080 : UInt32) ||| (x &&& 0x07c0) <<< 2 ||| (x &&& 0x003f) =
      marked 0xc000 0x07c0 2 x ||| marked 0x80 0x3f 0 x := by
    rw [marked_last, marked, show (0x0000c080 : UInt32) = 0xc000 ||| 0x80 by decide]
    ac_rfl
  have hlead : (marked 0xc000 0x07c0 2 x).toNat = (0xC0 + x.toNat / 2 ^ 6 % 2 ^ 5) * 2 ^ 8 :=
    toNat_marked 6 5 6 2 rfl rfl (by decide) rfl
  have hlast := toNat_last x
  have hword := toNat_or_of_dvd (n := 8) (hlead ▸ Nat.dvd_mul_left _ _)
    (show (marked 0x80 0x3f 0 x).toNat < 2 ^ 8 by omega)
  have hbits : x.toNat / 2 ^ 6 % 2 ^ 5 = x.toNat / 0x40 := by omega
  rw [hlead, hlast, hbits] at hword
  rw [hsplit]
  clear hlead hlast
  generalize marked 0xc000 0x07c0 2 x ||| marked 0x80 0x3f 0 x = word at hword ⊢
  have hbytes : word.toNat = 0 * 2 ^ 24 + (0 * 2 ^ 16 + ((0xC0 + x.toNat / 0x40) * 2 ^ 8 +
      (0x80 + x.toNat % 0x40))) := by
    rw [hword]
    omega
  rw [ghtonl_bytes hbytes (by decide) (by omega) (by omega)]
  rfl

theorem appendUTF8_three (h : x.toNat < 0x10000) :
    (ghtonl ((0x00e08080 : UInt32) ||| (x &&& 0xf000) <<< 4 ||| (x &&& 0x0fc0) <<< 2 |||
      (x &&& 0x003f))).drop 1 =
      [UInt8.ofNat (0xE0 + x.toNat / 0x1000), UInt8.ofNat (0x80 + x.toNat / 0x40 % 0x40),
        UInt8.ofNat (0x80 + x.toNat % 0x40)] := by
  have hsplit : (0x00e08080 : UInt32) ||| (x &&& 0xf000) <<< 4 ||| (x &&& 0x0fc0) <<< 2 |||
      (x &&& 0x003f) = marked 0xe00000 0xf000 4 x |||
        (marked 0x8000 0x0fc0 2 x ||| marked 0x80 0x3f 0 x) := by
    rw [marked_last, marked, marked, show (0x00e08080 : UInt32) = 0xe00000 ||| 0x8000 ||| 0x80 by decide]
    ac_rfl
  have hlead : (marked 0xe00000 0xf000 4 x).toNat = (0xE0 + x.toNat / 2 ^ 12 % 2 ^ 4) * 2 ^ 16 :=
    toNat_marked 14 4 12 4 rfl rfl (by decide) rfl
  have hlastTwo := toNat_lastTwo x
  have hword := toNat_or_of_dvd (n := 16) (hlead ▸ Nat.dvd_mul_left _ _)
    (show (marked 0x8000 0x0fc0 2 x ||| marked 0x80 0x3f 0 x).toNat < 2 ^ 16 by omega)
  have hbits : x.toNat / 2 ^ 12 % 2 ^ 4 = x.toNat / 0x1000 := by omega
  rw [hlead, hlastTwo, hbits] at hword
  rw [hsplit]
  clear hlead hlastTwo
  generalize marked 0xe00000 0xf000 4 x ||| (marked 0x8000 0x0fc0 2 x ||| marked 0x80 0x3f 0 x) =
    word at hword ⊢
  have hbytes : word.toNat = 0 * 2 ^ 24 + ((0xE0 + x.toNat / 0x1000) * 2 ^ 16 +
      ((0x80 + x.toNat / 0x40 % 0x40) * 2 ^ 8 + (0x80 + x.toNat % 0x40))) := by
    rw [hword]
    omega
  rw [ghtonl_bytes hbytes (by omega) (by omega) (by omega)]
  rfl

theorem appendUTF8_four (h : x.toNat < 0x110000) :
    ghtonl ((0xf0808080 : UInt32) ||| (x &&& 0x1c0000) <<< 6 ||| (x &&& 0x03f000) <<< 4 |||
      (x &&& 0x000fc0) <<< 2 ||| (x &&& 0x003f)) =
      [UInt8.ofNat (0xF0 + x.toNat / 0x40000), UInt8.ofNat (0x80 + x.toNat / 0x1000 % 0x40),
        UInt8.ofNat (0x80 + x.toNat / 0x40 % 0x40), UInt8.ofNat (0x80 + x.toNat % 0x40)] := by
  have hsplit : (0xf0808080 : UInt32) ||| (x &&& 0x1c0000) <<< 6 ||| (x &&& 0x03f000) <<< 4 |||
      (x &&& 0x000fc0) <<< 2 ||| (x &&& 0x003f) = marked 0xf0000000 0x1c0000 6 x |||
        (marked 0x800000 0x03f000 4 x ||| (marked 0x8000 0x0fc0 2 x ||| marked 0x80 0x3f 0 x)) := by
    rw [marked_last, marked, marked, marked,
      show (0xf0808080 : UInt32) = 0xf0000000 ||| 0x800000 ||| 0x8000 ||| 0x80 by decide]
    ac_rfl
  have hlead : (marked 0xf0000000 0x1c0000 6 x).toNat =
      (0xF0 + x.toNat / 2 ^ 18 % 2 ^ 3) * 2 ^ 24 :=
    toNat_marked 30 3 18 6 rfl rfl (by decide) rfl
  have hlastThree := toNat_lastThree x
  have hword := toNat_or_of_dvd (n := 24) (hlead ▸ Nat.dvd_mul_left _ _)
    (show (marked 0x800000 0x03f000 4 x |||
      (marked 0x8000 0x0fc0 2 x ||| marked 0x80 0x3f 0 x)).toNat < 2 ^ 24 by omega)
  have hbits : x.toNat / 2 ^ 18 % 2 ^ 3 = x.toNat / 0x40000 := by omega
  rw [hlead, hlastThree, hbits] at hword
  rw [hsplit, ghtonl_bytes (by simpa using hword) (by omega) (by omega) (by omega)]

/-- **UTF-8** is what `AppendUTF8` writes for a code point. -/
theorem appendUTF8_eq (h : x.toNat < 0x110000) : appendUTF8 x = Utf8.encode x.toNat := by
  rw [appendUTF8, Utf8.encode, Utf8.encodeNat]
  simp only [UInt32.le_iff_toNat_le, UInt32.reduceToNat]
  split_ifs with h1 h2 h3 h4 h5 h6 h7
  all_goals first | omega | skip
  · rw [ghtonl_eq]
    exact congrArg₂ List.cons rfl rfl
  · exact appendUTF8_two (by omega)
  · exact appendUTF8_three (by omega)
  · exact appendUTF8_four h

/-! ## Code points that are none -/

def lowercase (c : UInt8) : UInt8 := if 65 ≤ c ∧ c ≤ 90 then c + 32 else c

/-- A digit of `%x`. -/
def hexCharacter (d : UInt8) : UInt8 := if d < 10 then 48 + d else 87 + d

theorem hexCharacter_digitNumber {c : UInt8} (h : hexDigit c = true) :
    hexCharacter (UInt8.ofNat (digitNumber c)) = lowercase c :=
  forall_byte (P := fun c => hexDigit c = true →
    hexCharacter (UInt8.ofNat (digitNumber c)) = lowercase c) (by decide +kernel) c h

theorem hex08_eq (x : UInt32) : hex08 x = [28, 24, 20, 16, 12, 8, 4, 0].map fun shift =>
      hexCharacter (UInt8.ofNat (x.toNat / 2 ^ shift % 2 ^ 4)) := by
  have hnibble : ∀ (shift : UInt32) (n : ℕ), shift.toNat % 32 = n →
      (x >>> shift &&& 0xf).toUInt8 = UInt8.ofNat (x.toNat / 2 ^ n % 2 ^ 4) := by
    intro shift n hshift
    rw [← UInt8.toNat_inj, UInt32.toNat_toUInt8, toNat_and_of (n := 4) rfl,
      toNat_shiftRight_of hshift, UInt8.toNat_ofNat']
  simp only [hex08, map_cons, map_nil]
  rw [hnibble 28 28 rfl, hnibble 24 24 rfl, hnibble 20 20 rfl, hnibble 16 16 rfl,
    hnibble 12 12 rfl, hnibble 8 8 rfl, hnibble 4 4 rfl, hnibble 0 0 rfl]
  rfl

theorem hex08_numeral {digits : List UInt8} (hlength : digits.length = 8)
    (hdigits : ∀ d ∈ digits, hexDigit d = true) :
    hex08 (UInt32.ofNat (hexNumber digits)) = digits.map lowercase := by
  have hvalue := hexNumber_lt hlength hdigits
  -- the digit with n digits behind it
  have hdigit : ∀ front c back, digits = front ++ c :: back → ∀ n, 4 * back.length = n →
      hexCharacter (UInt8.ofNat
        ((UInt32.ofNat (hexNumber digits)).toNat / 2 ^ n % 2 ^ 4)) =
        lowercase c := by
    rintro front c back rfl n rfl
    have hc := hdigits c (by simp)
    have hback := @map_digitNumber_lt back fun d hd => hdigits d (by simp [hd])
    have hfound := numeral_digit (by decide) (front.map digitNumber) (hexDigit_value hc).2.2 hback
    rw [length_map, ← map_cons, ← map_append] at hfound
    rw [UInt32.toNat_ofNat_of_lt' hvalue, Nat.pow_mul]
    exact (congrArg (fun d => hexCharacter (UInt8.ofNat d)) hfound).trans
      (hexCharacter_digitNumber hc)
  match digits, hlength with
  | [d₀, d₁, d₂, d₃, d₄, d₅, d₆, d₇], _ =>
    rw [hex08_eq]
    simp only [map_cons (f := fun shift => hexCharacter _), map_nil]
    rw [hdigit [] d₀ _ rfl 28 rfl, hdigit [d₀] d₁ _ rfl 24 rfl, hdigit [d₀, d₁] d₂ _ rfl 20 rfl,
      hdigit [d₀, d₁, d₂] d₃ _ rfl 16 rfl, hdigit [d₀, d₁, d₂, d₃] d₄ _ rfl 12 rfl,
      hdigit [d₀, d₁, d₂, d₃, d₄] d₅ _ rfl 8 rfl, hdigit [d₀, d₁, d₂, d₃, d₄, d₅] d₆ _ rfl 4 rfl,
      hdigit [d₀, d₁, d₂, d₃, d₄, d₅, d₆] d₇ _ rfl 0 rfl]
    rfl

/-- **An escape again** is what `AppendUTF8` writes above U+10FFFF. -/
theorem appendUTF8_beyond {digits : List UInt8} (hlength : digits.length = 8)
    (hdigits : ∀ d ∈ digits, hexDigit d = true) (h : 0x110000 ≤ hexNumber digits) :
    appendUTF8 (UInt32.ofNat (hexNumber digits)) = 92 :: 85 :: digits.map lowercase := by
  have htoNat := UInt32.toNat_ofNat_of_lt' (n := hexNumber digits) (hexNumber_lt hlength hdigits)
  rw [← hex08_numeral hlength hdigits, appendUTF8]
  simp only [UInt32.le_iff_toNat_le, UInt32.reduceToNat, htoNat]
  rw [if_neg (by omega), if_neg (by omega), if_neg (by omega), if_neg (by omega)]

end Protoc.Io
