import Protoc.Io.ParseInteger
import Protoc.Io.ParseStringChecked
import Protoc.Io.UnicodeEscapes

/-!
# The meaning of a string token

A string is a sequence of characters and escapes, each octal or hex escape with as many digits as
there are.  Every element stands for its bytes, and two halves of a surrogate pair for one code
point; `ParseStringAppend` appends just that.
-/

namespace Protoc.Io.Tokenizer

open Protoc.Lib
open List

/-! ## The elements -/

/-- A character or an escape, with its digits. -/
inductive Element
  | plain (c : UInt8)
  | simple (c : UInt8)
  | octal (digits : Text)
  | hex (digits : Text)
  | unicode (digits : Text)
  | longUnicode (digits : Text)
  deriving DecidableEq

/-- How an element is written. -/
def Element.text : Element → Text
  | .plain c => [c]
  | .simple c => [92, c]
  | .octal digits => 92 :: digits
  | .hex digits => 92 :: 120 :: digits
  | .unicode digits => 92 :: 117 :: digits
  | .longUnicode digits => 92 :: 85 :: digits

/-- Up to that many digits, and fewer only where there are no more. -/
structure Most (inClass : UInt8 → Bool) (n : ℕ) (digits rest : Text) : Prop where
  ne_nil : digits ≠ []
  all : ∀ d ∈ digits, inClass d = true
  le : digits.length ≤ n
  stop : digits.length < n → inClass (rest.headD 0) = false

/-- The element is one that the tokenizer accepts, and goes as far as it can. -/
def Element.Fits (delimiter : UInt8) (rest : Text) : Element → Prop
  | .plain c => c ≠ 0 ∧ c ≠ 92 ∧ c ≠ delimiter
  | .simple c => escape c = true
  | .octal digits => Most octalDigit 3 digits rest
  | .hex digits => Most hexDigit 2 digits rest
  | .unicode digits => digits.length = 4 ∧ ∀ d ∈ digits, hexDigit d = true
  | .longUnicode digits => digits.length = 8 ∧ (∀ d ∈ digits, hexDigit d = true) ∧
      hexNumber digits < 0x200000

/-- The elements of the text between two quotes. -/
inductive Literal (delimiter : UInt8) : List Element → Text → Prop
  | nil : Literal delimiter [] []
  | cons {e : Element} {elements : List Element} {rest : Text} (he : e.Fits delimiter rest)
      (h : Literal delimiter elements rest) : Literal delimiter (e :: elements) (e.text ++ rest)

/-! ## Their meaning -/

def simpleEscapes : List (UInt8 × UInt8) :=
  [(97, 7), (98, 8), (102, 12), (110, 10), (114, 13), (116, 9), (118, 11), (92, 92), (63, 63),
    (39, 39), (34, 34)]

/-- The bytes of an element that stands alone.  Above U+10FFFF there is no code point, and the
escape stays. -/
def Element.bytes : Element → Text
  | .plain c => [c]
  | .simple c => (simpleEscapes.lookup c).toList
  | .octal digits => [UInt8.ofNat (numeral 8 0 (digits.map digitNumber))]
  | .hex digits => [UInt8.ofNat (hexNumber digits)]
  | .unicode digits => Utf8.encode (hexNumber digits)
  | .longUnicode digits =>
    if hexNumber digits < 0x110000 then Utf8.encode (hexNumber digits)
    else 92 :: 85 :: digits.map lowercase

def Element.codePoint : Element → Option ℕ
  | .unicode digits => some (hexNumber digits)
  | .longUnicode digits => some (hexNumber digits)
  | _ => none

/-- The code point of two escapes that are the halves of a pair.  The second half is a `\u`. -/
def Element.pairWith (e : Element) : Element → Option ℕ
  | .unicode digits => e.codePoint.bind fun head =>
      if IsHead head ∧ IsTrail (hexNumber digits) then some (pairPoint head (hexNumber digits))
      else none
  | _ => none

/-- The bytes that the elements stand for. -/
def meaning : List Element → Text
  | [] => []
  | [e] => e.bytes
  | e :: e' :: elements =>
    match e.pairWith e' with
    | some v => Utf8.encode v ++ meaning elements
    | none => e.bytes ++ meaning (e' :: elements)

theorem meaning_pair {e e' : Element} {v : ℕ} (h : e.pairWith e' = some v) (elements : List Element) :
    meaning (e :: e' :: elements) = Utf8.encode v ++ meaning elements := by
  rw [meaning, h]

theorem meaning_alone {e e' : Element} (h : e.pairWith e' = none) (elements : List Element) :
    meaning (e :: e' :: elements) = e.bytes ++ meaning (e' :: elements) := by
  rw [meaning, h]

example : meaning [.unicode [100, 56, 53, 50], .unicode [100, 102, 54, 50], .plain 88] =
    [0xF0, 0xA4, 0xAD, 0xA2, 88] := by decide

/-! ## The text determines the elements -/

theorem Element.text_ne_nil (e : Element) : e.text ≠ [] := by
  cases e <;> simp [Element.text]

/-! ## The decoder -/

theorem toChar_natCast (n : ℕ) : toChar n = UInt8.ofNat n := by
  have hmod : ((n : ℤ) % 2 ^ 8).toNat = n % 2 ^ 8 := by omega
  rw [toChar, UInt8.ofInt, hmod, ← UInt8.toNat_inj, UInt8.toNat_ofNat', UInt8.toNat_ofNat', Nat.mod_mod]

theorem moreDigits_stop {inClass : UInt8 → Bool} {ptr : Text}
    (h : inClass (ptr.headD 0) = false) (base code : ℤ) :
    moreDigits inClass base (code, ptr) = (code, ptr) := by
  cases ptr with
  | nil => rfl
  | cons c ptr =>
    rw [moreDigits, if_neg]
    simpa using h

theorem moreDigits_digit {inClass : UInt8 → Bool} {base : ℕ} {c : UInt8} (hc : inClass c = true)
    (hdigit : IsDigit base c) (n : ℕ) (ptr : Text) :
    moreDigits inClass base ((n : ℤ), c :: ptr) = (((n * base + digitNumber c : ℕ) : ℤ), ptr) := by
  simp only [moreDigits, if_pos hc, hdigit.eq]
  push_cast
  rfl

theorem moreDigits_twice {inClass : UInt8 → Bool} {base : ℕ}
    (hclass : ∀ c, inClass c = true → IsDigit base c) {more tail : Text}
    (hall : ∀ d ∈ more, inClass d = true) (hle : more.length ≤ 2)
    (hstop : more.length < 2 → inClass (tail.headD 0) = false) (n : ℕ) :
    moreDigits inClass base (moreDigits inClass base ((n : ℤ), more ++ tail)) =
      (((numeral base n (more.map digitNumber) : ℕ) : ℤ), tail) := by
  match more, hle with
  | [], _ =>
    rw [nil_append, moreDigits_stop (hstop (by decide)), moreDigits_stop (hstop (by decide))]
    rfl
  | [c], _ =>
    have hc := hall c (by simp)
    rw [cons_append, nil_append, moreDigits_digit hc (hclass c hc), moreDigits_stop (hstop (by simp))]
    rfl
  | [c, c'], _ =>
    have hc := hall c (by simp)
    have hc' := hall c' (by simp)
    rw [cons_append, cons_append, nil_append, moreDigits_digit hc (hclass c hc),
      moreDigits_digit hc' (hclass c' hc')]
    rfl

theorem parse_octal (quote : UInt8) {digits tail : Text} (h : Most octalDigit 3 digits tail) :
    parseStringLoop quote (92 :: (digits ++ tail)) =
      UInt8.ofNat (numeral 8 0 (digits.map digitNumber)) :: parseStringLoop quote tail := by
  obtain ⟨c, more, rfl⟩ := exists_cons_of_ne_nil h.ne_nil
  have hc := h.all c mem_cons_self
  have hle := h.le
  have hstop := h.stop
  rw [length_cons] at hle hstop
  have hmore : moreDigits octalDigit 8 (moreDigits octalDigit 8 ((digitNumber c : ℤ), more ++ tail)) =
      ((numeral 8 (digitNumber c) (more.map digitNumber) : ℤ), tail) :=
    @moreDigits_twice octalDigit 8 (fun _ => isDigit_of_octalDigit) more tail
      (fun d hd => h.all d (mem_cons_of_mem _ hd)) (by omega) (fun hlt => hstop (by omega)) _
  rw [cons_append, parseStringLoop_backslash quote (isDigit_of_octalDigit hc).1, if_pos hc,
    (isDigit_of_octalDigit hc).eq]
  simp only [hmore, toChar_natCast, map_cons, numeral_cons, zero_mul, zero_add]

theorem parse_hex (quote : UInt8) {digits tail : Text} (h : Most hexDigit 2 digits tail) :
    parseStringLoop quote (92 :: 120 :: (digits ++ tail)) =
      UInt8.ofNat (hexNumber digits) :: parseStringLoop quote tail := by
  have hmore : moreDigits hexDigit 16 (moreDigits hexDigit 16 (0, digits ++ tail)) =
      ((hexNumber digits : ℤ), tail) :=
    @moreDigits_twice hexDigit 16 (fun _ => isDigit_of_hexDigit) digits tail h.all h.le h.stop 0
  rw [parseStringLoop_backslash quote (by decide), if_neg (by decide), if_pos rfl]
  simp only [hmore, toChar_natCast]

theorem parse_simple (quote : UInt8) {c : UInt8} (hc : escape c = true) (tail : Text) :
    parseStringLoop quote (92 :: c :: tail) =
      (simpleEscapes.lookup c).toList ++ parseStringLoop quote tail := by
  obtain ⟨hzero, hoctal, hx, hu, hlookup⟩ :=
    forall_byte (P := fun c => escape c = true → c ≠ 0 ∧ ¬ octalDigit c = true ∧ c ≠ 120 ∧
      ¬ (c = 117 ∨ c = 85) ∧ simpleEscapes.lookup c = some (translateEscape c))
      (by decide +kernel) c hc
  rw [parseStringLoop_backslash quote hzero, if_neg hoctal, if_neg hx, if_neg hu, hlookup]
  rfl

theorem parse_fetched (quote : UInt8) {key : UInt8} (hkey : key = 117 ∨ key = 85) {ptr : Text}
    {unicode : UInt32} {len : ℕ} (h : fetchUnicodePoint key ptr = some (unicode, len)) :
    parseStringLoop quote (92 :: key :: ptr) = appendUTF8 unicode ++ parseStringLoop quote (ptr.drop len) := by
  obtain ⟨hzero, hoctal, hx⟩ : key ≠ 0 ∧ ¬ octalDigit key = true ∧ key ≠ 120 := by
    rcases hkey with rfl | rfl <;> decide
  rw [parseStringLoop_backslash quote hzero, if_neg hoctal, if_neg hx, if_pos hkey]
  simp only [h]

def NoTrail (tail : Text) : Prop := ¬ (tail.getD 0 0 = 92 ∧ tail.getD 1 0 = 117)

theorem toNat_hexNumber {n : ℕ} (hle : n ≤ 8) {digits : Text} (hlength : digits.length = n)
    (hdigits : ∀ d ∈ digits, hexDigit d = true) : (UInt32.ofNat (hexNumber digits)).toNat = hexNumber digits :=
  UInt32.toNat_ofNat_of_lt'
    ((hexNumber_lt hlength hdigits).trans_le (Nat.pow_le_pow_right (by decide) hle))

/-- The element is a Unicode escape with these digits. -/
structure Escapes (e : Element) (key : UInt8) (digits : Text) : Prop where
  isKey : key = 117 ∨ key = 85
  codePoint : e.codePoint = some (hexNumber digits)
  text : e.text = 92 :: key :: digits
  length : digits.length = unicodeLength key
  all : ∀ d ∈ digits, hexDigit d = true
  bytes : appendUTF8 (UInt32.ofNat (hexNumber digits)) = e.bytes

theorem Element.Fits.escapes {quote : UInt8} {e : Element} {rest : Text} (h : e.Fits quote rest)
    {v : ℕ} (hv : e.codePoint = some v) : ∃ key digits, Escapes e key digits ∧ v = hexNumber digits := by
  cases e with
  | unicode digits =>
    obtain ⟨hlength, hdigits⟩ := h
    have htoNat := toNat_hexNumber (by decide) hlength hdigits
    have hlt := hexNumber_lt hlength hdigits
    refine ⟨117, digits, ⟨.inl rfl, rfl, rfl, hlength, hdigits, ?_⟩, (Option.some.inj hv).symm⟩
    rw [appendUTF8_eq (by rw [htoNat]; omega), htoNat, Element.bytes]
  | longUnicode digits =>
    obtain ⟨hlength, hdigits, -⟩ := h
    have htoNat := toNat_hexNumber (by decide) hlength hdigits
    refine ⟨85, digits, ⟨.inr rfl, rfl, rfl, hlength, hdigits, ?_⟩, (Option.some.inj hv).symm⟩
    rw [Element.bytes]
    split
    · next hlt => rw [appendUTF8_eq (by rw [htoNat]; exact hlt), htoNat]
    · next hge => exact appendUTF8_beyond hlength hdigits (not_lt.mp hge)
  | plain c => cases hv
  | simple c => cases hv
  | octal digits => cases hv
  | hex digits => cases hv

theorem unicodeLength_bounds {key : UInt8} (h : key = 117 ∨ key = 85) :
    0 < unicodeLength key ∧ unicodeLength key ≤ 8 := by
  rcases h with rfl | rfl <;> decide

theorem Escapes.alone {e : Element} {key : UInt8} {digits tail : Text} (h : Escapes e key digits)
    (hno : IsHead (hexNumber digits) → NoTrail tail) (quote : UInt8) :
    parseStringLoop quote (e.text ++ tail) = e.bytes ++ parseStringLoop quote tail := by
  obtain ⟨hpos, hle⟩ := unicodeLength_bounds h.isKey
  have hfetch := fetchUnicodePoint_alone rfl hpos hle h.length h.all hno
  rw [h.text, cons_append, cons_append, parse_fetched quote h.isKey hfetch, h.bytes, drop_left' h.length]

theorem Escapes.paired {e : Element} {key : UInt8} {digits : Text} (h : Escapes e key digits)
    (hhead : IsHead (hexNumber digits)) {digits' : Text} (hlength' : digits'.length = 4)
    (hdigits' : ∀ d ∈ digits', hexDigit d = true) (tail : Text) (quote : UInt8) :
    parseStringLoop quote (e.text ++ (92 :: 117 :: digits' ++ tail)) =
      if IsTrail (hexNumber digits') then
        Utf8.encode (pairPoint (hexNumber digits) (hexNumber digits')) ++ parseStringLoop quote tail
      else e.bytes ++ parseStringLoop quote (92 :: 117 :: digits' ++ tail) := by
  obtain ⟨hpos, hle⟩ := unicodeLength_bounds h.isKey
  have hfetch := fetchUnicodePoint_pair rfl hpos hle h.length h.all hlength' hdigits' hhead tail
  rw [h.text, cons_append, cons_append]
  split at hfetch
  · next htrail =>
    have hlt := pairPoint_lt hhead htrail
    have htoNat := UInt32.toNat_ofNat_of_lt' (hlt.trans (by decide))
    have hdrop : (digits ++ (92 :: 117 :: digits' ++ tail)).drop (unicodeLength key + 6) = tail := by
      rw [← drop_drop, drop_left' h.length]
      exact @List.drop_left' _ (92 :: 117 :: digits') _ _ (by simp [hlength'])
    rw [if_pos htrail, parse_fetched quote h.isKey hfetch, hdrop,
      appendUTF8_eq (by rw [htoNat]; exact hlt), htoNat]
  · next htrail =>
    rw [if_neg htrail, parse_fetched quote h.isKey hfetch, h.bytes, drop_left' h.length]

theorem Element.Fits.noTrail {quote : UInt8} {e : Element} {rest : Text} (h : e.Fits quote rest)
    (he : ∀ digits, e ≠ .unicode digits) (tail : Text) : NoTrail (e.text ++ tail) := by
  rintro ⟨hbackslash, hu⟩
  cases e with
  | plain c => exact h.2.1 hbackslash
  | simple c =>
    have hc : c = 117 := hu
    rw [Element.Fits, hc] at h
    exact absurd h (by decide)
  | octal digits =>
    obtain ⟨c, digits, rfl⟩ := exists_cons_of_ne_nil h.ne_nil
    have hc : c = 117 := hu
    have hdigit := h.all c mem_cons_self
    rw [hc] at hdigit
    exact absurd hdigit (by decide)
  | hex digits => exact absurd hu (by decide : (120 : UInt8) ≠ 117)
  | unicode digits => exact he digits rfl
  | longUnicode digits => exact absurd hu (by decide : (85 : UInt8) ≠ 117)

theorem Most.quote {inClass : UInt8 → Bool} {n : ℕ} {digits rest : Text} {quote : UInt8}
    (h : Most inClass n digits rest) (hquote : inClass quote = false) :
    Most inClass n digits (rest ++ [quote]) := by
  refine ⟨h.ne_nil, h.all, h.le, fun hlt => ?_⟩
  cases rest with
  | nil => exact hquote
  | cons c rest => exact h.stop hlt

/-- **An element** that is no half of a pair. -/
theorem parse_element {quote : UInt8} (hquote : quote = 34 ∨ quote = 39) {e : Element} {rest : Text}
    (he : e.Fits quote rest) (hunicode : ∀ key digits, Escapes e key digits →
      parseStringLoop quote (e.text ++ (rest ++ [quote])) =
        e.bytes ++ parseStringLoop quote (rest ++ [quote])) :
    parseStringLoop quote (e.text ++ (rest ++ [quote])) =
      e.bytes ++ parseStringLoop quote (rest ++ [quote]) := by
  cases hpoint : e.codePoint with
  | some v =>
    obtain ⟨key, digits, hescapes, -⟩ := he.escapes hpoint
    exact hunicode key digits hescapes
  | none =>
    cases e with
    | plain c => exact parseStringLoop_plain he.1 he.2.1 he.2.2 _
    | simple c => exact parse_simple quote he _
    | octal digits =>
      exact parse_octal quote (he.quote (by rcases hquote with rfl | rfl <;> decide))
    | hex digits => exact parse_hex quote (he.quote (by rcases hquote with rfl | rfl <;> decide))
    | unicode digits => cases hpoint
    | longUnicode digits => cases hpoint

theorem pairWith_eq_some {e e' : Element} {v : ℕ} (h : e.pairWith e' = some v) :
    ∃ head digits, e.codePoint = some head ∧ e' = .unicode digits ∧ IsHead head ∧
      IsTrail (hexNumber digits) ∧ v = pairPoint head (hexNumber digits) := by
  cases e' with
  | unicode digits =>
    obtain ⟨head, hhead, hpair⟩ := Option.bind_eq_some_iff.mp h
    split at hpair
    · next hboth => exact ⟨head, digits, hhead, rfl, hboth.1, hboth.2, (Option.some.inj hpair).symm⟩
    · cases hpair
  | plain c => cases h
  | simple c => cases h
  | octal digits => cases h
  | hex digits => cases h
  | longUnicode digits => cases h

theorem pairWith_eq {e : Element} {digits : Text} {head : ℕ} (hhead : e.codePoint = some head)
    (hisHead : IsHead head) (hisTrail : IsTrail (hexNumber digits)) :
    e.pairWith (.unicode digits) = some (pairPoint head (hexNumber digits)) := by
  change e.codePoint.bind _ = _
  rw [hhead]
  exact if_pos ⟨hisHead, hisTrail⟩

/-- **The loop** appends the meaning of the elements. -/
theorem parse_literal {quote : UInt8} (hquote : quote = 34 ∨ quote = 39) {elements : List Element}
    {body : Text} (h : Literal quote elements body) :
    parseStringLoop quote (body ++ [quote]) = meaning elements := by
  have hquote' : quote ≠ 0 ∧ quote ≠ 92 := by
    rcases hquote with rfl | rfl <;> decide
  induction elements using meaning.induct generalizing body with
  | case1 =>
    cases h
    exact parseStringLoop_quote quote hquote'.1 hquote'.2
  | case2 e =>
    cases h with
    | @cons e elements rest he h =>
      cases h
      have hno : NoTrail ([] ++ [quote]) := fun hboth => hquote'.2 hboth.1
      have hparse := parse_element hquote he fun key digits hescapes =>
        hescapes.alone (fun _ => hno) quote
      rw [append_assoc, hparse, nil_append, parseStringLoop_quote quote hquote'.1 hquote'.2, append_nil]
      rfl
  | case3 e e' elements v hpair ih =>
    rw [meaning_pair hpair]
    obtain ⟨head, digits', hhead, rfl, hisHead, hisTrail, hv⟩ := pairWith_eq_some hpair
    cases h with
    | @cons _ _ rest he h =>
      cases h with
      | @cons _ _ rest' he' h =>
        obtain ⟨key, digits, hescapes, rfl⟩ := he.escapes hhead
        have hparse := hescapes.paired hisHead he'.1 he'.2 (rest' ++ [quote]) quote
        rw [if_pos hisTrail, ih h, ← hv] at hparse
        rw [append_assoc, append_assoc]
        exact hparse
  | case4 e e' elements hpair ih =>
    rw [meaning_alone hpair]
    cases h with
    | @cons _ _ rest he h =>
      have hparse : parseStringLoop quote (e.text ++ (rest ++ [quote])) =
          e.bytes ++ parseStringLoop quote (rest ++ [quote]) := by
        refine parse_element hquote he fun key digits hescapes => ?_
        cases h with
        | @cons _ _ rest' he' h =>
          rw [append_assoc]
          by_cases hunicode : ∃ digits', e' = .unicode digits'
          · obtain ⟨digits', rfl⟩ := hunicode
            by_cases hisHead : IsHead (hexNumber digits)
            · have hpaired := hescapes.paired hisHead he'.1 he'.2 (rest' ++ [quote]) quote
              rw [if_neg] at hpaired
              · exact hpaired
              · intro hisTrail
                have hsome := pairWith_eq hescapes.codePoint hisHead hisTrail
                exact absurd (hpair.symm.trans hsome) (by simp)
            · exact hescapes.alone (fun h => absurd h hisHead) quote
          · have hno := he'.noTrail (fun digits' h => hunicode ⟨digits', h⟩) (rest' ++ [quote])
            exact hescapes.alone (fun _ => hno) quote
      rw [append_assoc, hparse, ih h]

theorem parseStringAppend_literal {quote : UInt8} (hquote : quote = 34 ∨ quote = 39)
    {elements : List Element} {body : Text} (h : Literal quote elements body) (output : Text) :
    parseStringAppend (quote :: (body ++ [quote])) output = output ++ meaning elements := by
  rw [parseStringAppend, parse_literal hquote h]

/-! ## What the tokenizer accepts -/

theorem StringBody.tail {delimiter c : UInt8} {text : Text} (h : StringBody delimiter (c :: text))
    (hc : c ≠ 92) : StringBody delimiter text := by
  generalize htext : c :: text = body at h
  cases h with
  | nil => cases htext
  | plain hzero hbackslash hdelimiter h =>
    cases htext
    exact h
  | escape hsequence h => cases hsequence <;> exact absurd (List.cons.inj htext).1 hc

theorem StringBody.munch {inClass : UInt8 → Bool} (hzero : inClass 0 = false)
    (hbackslash : inClass 92 = false) {delimiter : UInt8} (n : ℕ) {text : Text}
    (h : StringBody delimiter text) : ∃ more rest, text = more ++ rest ∧
      (∀ d ∈ more, inClass d = true) ∧ more.length ≤ n ∧
      (more.length < n → inClass (rest.headD 0) = false) ∧ StringBody delimiter rest := by
  induction n generalizing text with
  | zero => exact ⟨[], text, rfl, by simp, le_rfl, fun h => absurd h (lt_irrefl _), h⟩
  | succ n ih =>
    cases hclass : inClass (text.headD 0) with
    | false => exact ⟨[], text, rfl, by simp, Nat.zero_le _, fun _ => hclass, h⟩
    | true =>
      cases text with
      | nil => exact absurd (hzero.symm.trans hclass) (by decide)
      | cons c text =>
        have hc : c ≠ 92 := by
          rintro rfl
          exact absurd (hbackslash.symm.trans hclass) (by decide)
        obtain ⟨more, rest, rfl, hall, hle, hstop, hrest⟩ := ih (h.tail hc)
        refine ⟨c :: more, rest, rfl, ?_, Nat.succ_le_succ hle, ?_, hrest⟩
        · exact forall_mem_cons.mpr ⟨hclass, hall⟩
        · exact fun hlt => hstop (Nat.lt_of_succ_lt_succ hlt)

/-- **What is accepted** has elements. -/
theorem StringBody.literal {delimiter : UInt8} {body : Text} (h : StringBody delimiter body) :
    ∃ elements, Literal delimiter elements body := by
  induction hn : body.length using Nat.strongRecOn generalizing body with
  | ind n ih =>
    have hnext : ∀ {e : Element} {rest : Text}, body = e.text ++ rest → e.Fits delimiter rest →
        StringBody delimiter rest → ∃ elements, Literal delimiter elements body := by
      rintro e rest rfl he hrest
      have hlt : rest.length < n := by
        have hpos := length_pos_of_ne_nil e.text_ne_nil
        rw [length_append] at hn
        omega
      obtain ⟨elements, helements⟩ := ih _ hlt hrest rfl
      exact ⟨e :: elements, .cons he helements⟩
    cases h with
    | nil => exact ⟨[], .nil⟩
    | plain hzero hbackslash hdelimiter h =>
      exact hnext (e := .plain _) rfl ⟨hzero, hbackslash, hdelimiter⟩ h
    | escape hsequence h =>
      cases hsequence with
      | simple hc => exact hnext (e := .simple _) rfl hc h
      | @octal c hc =>
        obtain ⟨more, rest, rfl, hall, hle, hstop, hrest⟩ := h.munch octalDigit_zero rfl 2
        refine hnext (e := .octal (c :: more)) rfl ⟨by simp, ?_, Nat.succ_le_succ hle, ?_⟩ hrest
        · exact forall_mem_cons.mpr ⟨hc, hall⟩
        · exact fun hlt => hstop (Nat.lt_of_succ_lt_succ hlt)
      | @hex c hc =>
        obtain ⟨more, rest, rfl, hall, hle, hstop, hrest⟩ := h.munch hexDigit_zero rfl 1
        refine hnext (e := .hex (c :: more)) rfl ⟨by simp, ?_, Nat.succ_le_succ hle, ?_⟩ hrest
        · exact forall_mem_cons.mpr ⟨hc, hall⟩
        · exact fun hlt => hstop (Nat.lt_of_succ_lt_succ hlt)
      | @unicode digits hlength hdigits =>
        exact hnext (e := .unicode digits) rfl ⟨hlength, hdigits⟩ h
      | @longUnicode c digits hc hlength hdigits =>
        have hc' : hexDigit c = true ∧ digitNumber c ≤ 1 := by
          rcases hc with rfl | rfl <;> decide
        refine hnext (e := .longUnicode (48 :: 48 :: c :: digits)) rfl ⟨?_, ?_, ?_⟩ h
        · simp [hlength]
        · simpa [hc'.1] using ⟨by decide, hdigits⟩
        · have hlt : numeral 16 (digitNumber c) (digits.map digitNumber) < _ :=
            numeral_lt_succ (by decide) (map_digitNumber_lt hdigits)
          rw [length_map, hlength] at hlt
          have hvalue : hexNumber (48 :: 48 :: c :: digits) =
              numeral 16 (digitNumber c) (digits.map digitNumber) := by
            simp [hexNumber, show digitNumber 48 = 0 by decide]
          omega

/-! ## Tokens -/

/-- **String literals mean what was accepted.**  A string token that is read without an error is
the text of elements between two quotes, `ParseStringAppend` appends just the bytes that these
stand for, and it reads no character behind the token's terminating zero. -/
theorem parseStringAppend_meaning {chunks : List Text} {cs : List TokenizerCall}
    {os : List TokenizerOutcome} {s t : Tokenizer} {c : TokenizerCall} {o : TokenizerOutcome}
    (hreached : calls cs (new ⟨chunks, 0⟩) = some (os, s)) (hasks : asksToken c = true)
    (hcall : call c s = some (o, t)) (hquiet : o.errors = s.errors)
    (htype : o.current.type = .string) (output : Text) :
    ∃ quote elements body, (quote = 34 ∨ quote = 39) ∧
      o.current.text = quote :: (body ++ [quote]) ∧ Literal quote elements body ∧
      parseStringAppend o.current.text output = output ++ meaning elements ∧
      parseStringAppendChecked o.current.text output = some (output ++ meaning elements) := by
  have htext := reached_tokenText hreached hasks hcall hquiet (by rw [htype]; decide)
  obtain ⟨quote, body, hquote, hbody, hstring⟩ := htext.string htype
  obtain ⟨elements, hliteral⟩ := hstring.literal
  have hvalue : parseStringAppend o.current.text output = output ++ meaning elements := by
    rw [hbody, parseStringAppend_literal hquote hliteral]
  refine ⟨quote, elements, body, hquote, hbody, hliteral, hvalue, ?_⟩
  rw [parseStringAppendChecked_eq, hvalue]

/-- The token `"\x41b"`. -/
theorem parseStringAppend_meaning_hex : ∃ o t quote elements body,
    call .next (new ⟨[[34, 92, 120, 52, 49, 98, 34]], 0⟩) = some (o, t) ∧
      o.current.text = quote :: (body ++ [quote]) ∧ Literal quote elements body ∧
      parseStringAppend o.current.text [] = [] ++ meaning elements := by
  have hrun : ((call .next (new ⟨[[34, 92, 120, 52, 49, 98, 34]], 0⟩)).map fun p =>
      decide (p.1.errors = [] ∧ p.1.current.type = .string)) = some true := by decide +kernel
  obtain ⟨⟨o, t⟩, hcall, hall⟩ := Option.map_eq_some_iff.mp hrun
  obtain ⟨hquiet, htype⟩ := of_decide_eq_true hall
  obtain ⟨quote, elements, body, -, htext, hliteral, hvalue, -⟩ :=
    @parseStringAppend_meaning _ [] _ _ _ _ _ rfl rfl hcall hquiet htype []
  exact ⟨o, t, quote, elements, body, hcall, htext, hliteral, hvalue⟩

/-- In `"\U00110000\U0000d852\udf62"` the first escape stays, and the other two are a pair. -/
theorem parseStringAppend_beyond : ∃ o t,
    call .next (new ⟨[[34, 92, 85, 48, 48, 49, 49, 48, 48, 48, 48, 92, 85, 48, 48, 48, 48, 100, 56,
      53, 50, 92, 117, 100, 102, 54, 50, 34]], 0⟩) = some (o, t) ∧
      o.errors = [] ∧ o.current.type = .string ∧
      parseStringAppend o.current.text [] =
        [92, 85, 48, 48, 49, 49, 48, 48, 48, 48] ++ Utf8.encode 0x24b62 ∧
      parseStringAppend o.current.text [] ≠
        Utf8.encode 0x110000 ++ (Utf8.encode 0xd852 ++ Utf8.encode 0xdf62) := by
  have hrun : ((call .next (new ⟨[[34, 92, 85, 48, 48, 49, 49, 48, 48, 48, 48, 92, 85, 48, 48, 48,
      48, 100, 56, 53, 50, 92, 117, 100, 102, 54, 50, 34]], 0⟩)).map fun p =>
      decide (p.1.errors = [] ∧ p.1.current.type = .string ∧ p.1.current.text =
        [34, 92, 85, 48, 48, 49, 49, 48, 48, 48, 48, 92, 85, 48, 48, 48, 48, 100, 56, 53, 50, 92,
          117, 100, 102, 54, 50, 34])) = some true := by decide +kernel
  obtain ⟨⟨o, t⟩, hcall, hall⟩ := Option.map_eq_some_iff.mp hrun
  obtain ⟨hquiet, htype, htext⟩ := of_decide_eq_true hall
  have hdigits : Literal 34
      [.longUnicode [48, 48, 49, 49, 48, 48, 48, 48], .longUnicode [48, 48, 48, 48, 100, 56, 53, 50],
        .unicode [100, 102, 54, 50]]
      [92, 85, 48, 48, 49, 49, 48, 48, 48, 48, 92, 85, 48, 48, 48, 48, 100, 56, 53, 50, 92, 117,
        100, 102, 54, 50] :=
    .cons ⟨rfl, all_eq_true.mp (by decide), by decide⟩
      (.cons ⟨rfl, all_eq_true.mp (by decide), by decide⟩
        (.cons ⟨rfl, all_eq_true.mp (by decide)⟩ .nil))
  have hmeaning : meaning [.longUnicode [48, 48, 49, 49, 48, 48, 48, 48],
      .longUnicode [48, 48, 48, 48, 100, 56, 53, 50], .unicode [100, 102, 54, 50]] =
      [92, 85, 48, 48, 49, 49, 48, 48, 48, 48] ++ Utf8.encode 0x24b62 := by decide
  have hvalue : parseStringAppend o.current.text [] =
      [92, 85, 48, 48, 49, 49, 48, 48, 48, 48] ++ Utf8.encode 0x24b62 := by
    rw [htext, ← hmeaning]
    exact parseStringAppend_literal (.inl rfl) hdigits []
  refine ⟨o, t, hcall, hquiet, htype, hvalue, ?_⟩
  rw [hvalue]
  decide

end Protoc.Io.Tokenizer
