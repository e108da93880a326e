import Protoc.Json.EscapingSafe

/-!
# JSON strings round trip
-/

namespace Protoc.Json

open Protoc.Lib
open List Utf8
open Protoc.Stubs (isxdigit hexDigitToInt)

universe u

/-! ## The code points of a well-formed text -/

variable {D : Type u} {o : Settings D} {finishing : Bool} {s t p q content content' : Text} {v cp : ℕ}
  {vs : List ℕ}

theorem isSurrogate_of_isScalar (hv : IsScalar v) : isSurrogate v = false := by
  rw [isSurrogate, decide_eq_false_iff_not]
  intro h
  have hshift : v >>> 11 = 0x1b := by
    have hdistrib := Nat.shiftRight_and_distrib (a := v) (b := 0xfffff800) (i := 11)
    have hmask : (0xfffff800 : ℕ) >>> 11 = 2 ^ 21 - 1 := by decide
    have hlt : v >>> 11 < 2 ^ 21 := by
      rw [Nat.shiftRight_eq_div_pow]
      have := hv.lt
      omega
    rw [h, hmask, Nat.and_two_pow_sub_one_eq_mod, Nat.mod_eq_of_lt hlt] at hdistrib
    rw [← hdistrib]
    decide
  rw [Nat.shiftRight_eq_div_pow] at hshift
  rcases hv with hv | hv <;> omega

theorem readMore_nil_of_isScalar (hv : IsScalar v) (numRead : ℕ) (t : Text) :
    readMore v 0 numRead t = ⟨true, v, 0, numRead⟩ := by
  have hle : isCodePoint v = true := decide_eq_true (Nat.le_of_lt_succ hv.lt)
  rw [readMore, isSurrogate_of_isScalar hv, hle]
  rfl

theorem readMore_ofNat {x : ℕ} (hx : x < 0x40) (cp numLeft numRead : ℕ) (t : Text) :
    readMore cp (numLeft + 1) numRead (UInt8.ofNat (0x80 + x) :: t) =
      readMore (cp * 0x40 + x) numLeft (numRead + 1) t := by
  have htoNat : (UInt8.ofNat (0x80 + x)).toNat = 0x80 + x :=
    UInt8.toNat_ofNat_of_lt' (lt_of_lt_of_le (Nat.add_lt_add_left hx _) (by decide))
  have hch : ¬ (UInt8.ofNat (0x80 + x) < 0x80 ∨ 0xbf < UInt8.ofNat (0x80 + x)) := by
    simp only [UInt8.lt_iff_toNat_lt, htoNat, UInt8.reduceToNat]
    omega
  rw [readMore]
  simp only [if_neg hch, push_bits, htoNat]
  rw [show (0x80 + x) % 0x40 = x by omega]

/-- **The first code point of a text that begins with an encoding.** -/
theorem readCodePoint_encode (hv : IsScalar v) (t : Text) :
    readCodePoint (encode v ++ t) 0 0 = ⟨true, v, 0, (encode v).length⟩ := by
  have hlt := hv.lt
  have hle : ∀ {x y : ℕ}, x < 0x100 → y < 0x100 → (UInt8.ofNat x ≤ UInt8.ofNat y ↔ x ≤ y) := fun {x y} hx hy => by
    rw [UInt8.le_iff_toNat_le, UInt8.toNat_ofNat_of_lt' hx, UInt8.toNat_ofNat_of_lt' hy]
  have htoNat : ∀ {x : ℕ}, x < 0x100 → (UInt8.ofNat x).toNat = x := fun h => UInt8.toNat_ofNat_of_lt' h
  rw [encode, encodeNat]
  split_ifs with h1 h2 h3
  · have h7f : UInt8.ofNat v ≤ 0x7f := (hle (y := 0x7f) (by omega) (by decide)).mpr (by omega)
    simp only [map_cons, map_nil, cons_append, nil_append, length_cons, length_nil]
    rw [readCodePoint, if_pos rfl]
    simp only [if_pos h7f, htoNat (show v < 0x100 by omega)]
  · have h7f : ¬ UInt8.ofNat (0xc0 + v / 0x40) ≤ 0x7f := (hle (y := 0x7f) (by omega) (by decide)).not.mpr (by omega)
    have hbf : ¬ UInt8.ofNat (0xc0 + v / 0x40) ≤ 0xbf := (hle (y := 0xbf) (by omega) (by decide)).not.mpr (by omega)
    have hdf : UInt8.ofNat (0xc0 + v / 0x40) ≤ 0xdf := (hle (y := 0xdf) (by omega) (by decide)).mpr (by omega)
    simp only [map_cons, map_nil, cons_append, nil_append, length_cons, length_nil]
    rw [readCodePoint, if_pos rfl]
    simp only [if_neg h7f, if_neg hbf, if_pos hdf, htoNat (show 0xc0 + v / 0x40 < 0x100 by omega), and_1f]
    rw [readMore_ofNat (by omega), show (0xc0 + v / 0x40) % 0x20 * 0x40 + v % 0x40 = v by omega,
      readMore_nil_of_isScalar hv]
  · have h7f : ¬ UInt8.ofNat (0xe0 + v / 0x1000) ≤ 0x7f := (hle (y := 0x7f) (by omega) (by decide)).not.mpr (by omega)
    have hbf : ¬ UInt8.ofNat (0xe0 + v / 0x1000) ≤ 0xbf := (hle (y := 0xbf) (by omega) (by decide)).not.mpr (by omega)
    have hdf : ¬ UInt8.ofNat (0xe0 + v / 0x1000) ≤ 0xdf := (hle (y := 0xdf) (by omega) (by decide)).not.mpr (by omega)
    have hef : UInt8.ofNat (0xe0 + v / 0x1000) ≤ 0xef := (hle (y := 0xef) (by omega) (by decide)).mpr (by omega)
    simp only [map_cons, map_nil, cons_append, nil_append, length_cons, length_nil]
    rw [readCodePoint, if_pos rfl]
    simp only [if_neg h7f, if_neg hbf, if_neg hdf, if_pos hef, htoNat (show 0xe0 + v / 0x1000 < 0x100 by omega),
      and_0f]
    rw [readMore_ofNat (by omega), readMore_ofNat (by omega),
      show ((0xe0 + v / 0x1000) % 0x10 * 0x40 + v / 0x40 % 0x40) * 0x40 + v % 0x40 = v by omega,
      readMore_nil_of_isScalar hv]
  · have h7f : ¬ UInt8.ofNat (0xf0 + v / 0x40000) ≤ 0x7f := (hle (y := 0x7f) (by omega) (by decide)).not.mpr (by omega)
    have hbf : ¬ UInt8.ofNat (0xf0 + v / 0x40000) ≤ 0xbf := (hle (y := 0xbf) (by omega) (by decide)).not.mpr (by omega)
    have hdf : ¬ UInt8.ofNat (0xf0 + v / 0x40000) ≤ 0xdf := (hle (y := 0xdf) (by omega) (by decide)).not.mpr (by omega)
    have hef : ¬ UInt8.ofNat (0xf0 + v / 0x40000) ≤ 0xef := (hle (y := 0xef) (by omega) (by decide)).not.mpr (by omega)
    have hf7 : UInt8.ofNat (0xf0 + v / 0x40000) ≤ 0xf7 := (hle (y := 0xf7) (by omega) (by decide)).mpr (by omega)
    simp only [map_cons, map_nil, cons_append, nil_append, length_cons, length_nil]
    rw [readCodePoint, if_pos rfl]
    simp only [if_neg h7f, if_neg hbf, if_neg hdf, if_neg hef, if_pos hf7,
      htoNat (show 0xf0 + v / 0x40000 < 0x100 by omega), and_07]
    rw [readMore_ofNat (by omega), readMore_ofNat (by omega), readMore_ofNat (by omega),
      show (((0xf0 + v / 0x40000) % 0x08 * 0x40 + v / 0x1000 % 0x40) * 0x40 + v / 0x40 % 0x40) * 0x40 + v % 0x40 = v by
        omega,
      readMore_nil_of_isScalar hv]

/-- **The code points of a well-formed text.** -/
theorem codePoints_flatMap_encode (hvs : ∀ v ∈ vs, IsScalar v) :
    codePoints (vs.flatMap encode) = vs.map fun v => (v, encode v) := by
  induction vs with
  | nil => rfl
  | cons v vs ih =>
    obtain ⟨hv, hvs⟩ := forall_mem_cons.mp hvs
    have hread := readCodePoint_encode hv (vs.flatMap encode)
    have hnil : encode v ++ vs.flatMap encode ≠ [] :=
      append_ne_nil_of_left_ne_nil (encode_ne_nil v) _
    have hpoints := codePoints_of_complete hnil (by rw [hread]; exact ⟨rfl, rfl⟩)
    rw [hread] at hpoints
    rw [flatMap_cons, hpoints, take_left, drop_left, ih hvs, map_cons]

theorem escape_flatMap_encode (hvs : ∀ v ∈ vs, IsScalar v) :
    escape (.array (vs.flatMap encode)) = some (vs.flatMap fun v => copied (v, encode v)) := by
  rw [escape_eq_flatMap (agrees_array _), ByteSource.array, codePoints_flatMap_encode hvs, flatMap_map]

/-! ## Reading strings -/

/-- The loop of the parser of strings takes what is before `t`, and has read the content. -/
def Reads (o : Settings D) (finishing : Bool) (p content t : Text) : Prop :=
  ∀ {rounds storage pending}, p.length < rounds → ∃ rounds' storage' pending', t.length < rounds' ∧
    storage' ++ pending' = storage ++ pending ++ content ∧
      stringLoop o finishing 0x22 rounds storage pending p = stringLoop o finishing 0x22 rounds' storage' pending' t

theorem Reads.refl : Reads o finishing t [] t :=
  fun {rounds storage pending} h => ⟨rounds, storage, pending, h, (append_nil _).symm, rfl⟩

theorem Reads.trans (h : Reads o finishing p content q) (h' : Reads o finishing q content' t) :
    Reads o finishing p (content ++ content') t := by
  intro rounds storage pending hrounds
  obtain ⟨rounds₁, storage₁, pending₁, hrounds₁, hcontent₁, heq₁⟩ := h hrounds
  obtain ⟨rounds₂, storage₂, pending₂, hrounds₂, hcontent₂, heq₂⟩ := h' hrounds₁
  refine ⟨rounds₂, storage₂, pending₂, hrounds₂, ?_, heq₁.trans heq₂⟩
  rw [hcontent₂, hcontent₁, append_assoc]

theorem reads_character {c : UInt8} (hbackslash : c ≠ 0x5c) (hquote : c ≠ 0x22) (hlength : kUTF8LenTbl c = (c :: s).length) :
    Reads o finishing (c :: s ++ t) (c :: s) t := by
  intro rounds storage pending hrounds
  obtain ⟨rounds, rfl⟩ := Nat.exists_eq_succ_of_ne_zero (Nat.ne_of_gt (lt_of_le_of_lt (Nat.zero_le _) hrounds))
  refine ⟨rounds, storage, pending ++ (c :: s), ?_, (append_assoc ..).symm, ?_⟩
  · rw [cons_append, length_cons, length_append] at hrounds
    omega
  · have hn : min (c :: s ++ t).length (utf8FirstLetterNumBytes (c :: s ++ t)) = (c :: s).length := by
      rw [cons_append, utf8FirstLetterNumBytes, hlength, ← cons_append, length_append]
      exact min_eq_right (Nat.le_add_right ..)
    rw [cons_append, stringLoop.eq_def]
    simp only [if_neg hbackslash, if_neg hquote, ← cons_append, hn, take_left, drop_left]

theorem reads_simple {e : UInt8} (he : e ≠ 0x75) : Reads o finishing (0x5c :: e :: t) [unescaped e] t := by
  intro rounds storage pending hrounds
  obtain ⟨rounds, rfl⟩ := Nat.exists_eq_succ_of_ne_zero (Nat.ne_of_gt (lt_of_le_of_lt (Nat.zero_le _) hrounds))
  refine ⟨rounds, storage ++ pending ++ [unescaped e], [], ?_, append_nil _, ?_⟩
  · rw [length_cons, length_cons] at hrounds
    omega
  · rw [stringLoop]
    simp only [if_true, if_neg he]

theorem reads_unicode (hparse : parseUnicodeEscape o finishing (0x5c :: 0x75 :: s) = .ok (content, t))
    (hlength : t.length ≤ s.length) : Reads o finishing (0x5c :: 0x75 :: s) content t := by
  intro rounds storage pending hrounds
  obtain ⟨rounds, rfl⟩ := Nat.exists_eq_succ_of_ne_zero (Nat.ne_of_gt (lt_of_le_of_lt (Nat.zero_le _) hrounds))
  refine ⟨rounds, storage ++ pending ++ content, [], ?_, append_nil _, ?_⟩
  · rw [length_cons, length_cons] at hrounds
    omega
  · rw [stringLoop]
    simp only [if_true, hparse]

/-! ## Escapes are read -/

theorem hexValue_unicodeEscape (hv : v < 0x10000) : hexValue 0 ((unicodeEscape v).drop 2) = some v := by
  have hdigit : ∀ d < 0x10, isxdigit (kHex d) = true ∧ (hexDigitToInt (kHex d)).toNat = d := by decide
  have hbits : ∀ x : ℕ, isxdigit (kHex (x &&& 0x0f)) = true ∧ (hexDigitToInt (kHex (x &&& 0x0f))).toNat = x % 0x10 :=
    fun x => by
      rw [and_0f]
      exact hdigit _ (Nat.mod_lt _ (by decide))
  simp only [unicodeEscape, drop_succ_cons, drop_zero, hexValue, (hbits _).1, (hbits _).2, if_true,
    Nat.shiftLeft_eq, Nat.shiftRight_eq_div_pow, Option.some.injEq]
  omega

/-- The encoding of a code point by the parser. -/
theorem encodeAsUTF8Char_eq (hv : v < 0x110000) : encodeAsUTF8Char v = encode v := by
  have hcontinue : ∀ x : ℕ, 0x80 ||| x &&& 0x3f = 0x80 + x % 0x40 := fun x => by
    rw [Nat.or_comm, continuationByte]
  have hlow : (v &&& 0x7c0) >>> 6 = v / 0x40 % 0x20 := by
    rw [Nat.shiftRight_and_distrib, Nat.shiftRight_eq_div_pow]
    exact and_1f _
  have hsix : (v &&& 0xfc0) >>> 6 = v / 0x40 &&& 0x3f := by
    rw [Nat.shiftRight_and_distrib, Nat.shiftRight_eq_div_pow]
    rfl
  have htwelve : (v &&& 0x3f000) >>> 12 = v / 0x1000 &&& 0x3f := by
    rw [Nat.shiftRight_and_distrib, Nat.shiftRight_eq_div_pow]
    rfl
  have hthree : (v &&& 0xf000) >>> 12 = v / 0x1000 % 0x10 := by
    rw [Nat.shiftRight_and_distrib, Nat.shiftRight_eq_div_pow]
    exact and_0f _
  have hfour : (v &&& 0x1c0000) >>> 18 = v / 0x40000 % 0x08 := by
    rw [Nat.shiftRight_and_distrib, Nat.shiftRight_eq_div_pow]
    exact and_07 _
  rw [encodeAsUTF8Char, encode, encodeNat, hlow, hsix, htwelve, hthree, hfour, hcontinue, hcontinue, hcontinue]
  by_cases h1 : v < 0x80
  · rw [if_pos (Nat.le_of_lt_succ h1), if_pos h1]
    rfl
  rw [if_neg (fun h => h1 (Nat.lt_succ_of_le h)), if_neg h1]
  by_cases h2 : v < 0x800
  · rw [if_pos (Nat.le_of_lt_succ h2), if_pos h2, Nat.or_comm, or_c0 _ (by omega), Nat.mod_eq_of_lt (by omega)]
    rfl
  rw [if_neg (fun h => h2 (Nat.lt_succ_of_le h)), if_neg h2]
  by_cases h3 : v < 0x10000
  · rw [if_pos (Nat.le_of_lt_succ h3), if_pos h3, Nat.or_comm, or_e0 _ (by omega), Nat.mod_eq_of_lt (by omega)]
    rfl
  · rw [if_neg (fun h => h3 (Nat.lt_succ_of_le h)), if_neg h3, Nat.or_comm, or_f0 _ (by omega),
      Nat.mod_eq_of_lt (by omega)]
    rfl

theorem length_unicodeEscape (v : ℕ) : (unicodeEscape v).length = 6 := rfl

theorem parse_unicodeEscape (hv : IsScalar v) (hlt : v < 0x10000) (t : Text) :
    parseUnicodeEscape o finishing (unicodeEscape v ++ t) = .ok (encode v, t) := by
  have hshort : ¬ (unicodeEscape v ++ t).length < kUnicodeEscapedLength := by
    rw [length_append, length_unicodeEscape, kUnicodeEscapedLength]
    omega
  have htake : (unicodeEscape v ++ t).take kUnicodeEscapedLength = unicodeEscape v := take_left' rfl
  have hdrop : (unicodeEscape v ++ t).drop kUnicodeEscapedLength = t := drop_left' rfl
  have hsurrogate : ¬ (kMinHighSurrogate ≤ v ∧ v ≤ kMaxHighSurrogate) := by
    rw [kMinHighSurrogate, kMaxHighSurrogate]
    rcases hv with hv | hv <;> omega
  have hvalid : isValidCodePoint v = true := decide_eq_true hv
  rw [parseUnicodeEscape, if_neg hshort, htake, hexValue_unicodeEscape hlt]
  simp only [if_neg hsurrogate, Except.bind, hvalid, Bool.not_true, Bool.and_false, Bool.false_eq_true, if_false,
    encodeAsUTF8Char_eq hv.lt, hdrop]

theorem toHighSurrogate_eq (hv : 0x10000 ≤ v) : toHighSurrogate v = 0xd800 + (v - 0x10000) / 0x400 := by
  rw [toHighSurrogate, Nat.shiftRight_eq_div_pow, kMinHighSurrogate, kMinSupplementaryCodePoint,
    Nat.shiftRight_eq_div_pow]
  omega

theorem toLowSurrogate_eq (v : ℕ) : toLowSurrogate v = 0xdc00 + v % 0x400 := by
  have hmask : kMaxLowSurrogate - kMinLowSurrogate = 2 ^ 10 - 1 := by decide
  rw [toLowSurrogate, hmask, Nat.and_two_pow_sub_one_eq_mod, kMinLowSurrogate, add_comm]

theorem surrogates_eq (hv : 0x10000 ≤ v) (hlt : v < 0x110000) :
    ((toHighSurrogate v &&& 0x3ff) <<< 10 ||| (toLowSurrogate v &&& 0x3ff)) + kMinSupplementaryCodePoint = v := by
  have hmask : ∀ x : ℕ, x &&& 0x3ff = x % 0x400 := fun x => Nat.and_two_pow_sub_one_eq_mod x 10
  rw [hmask, hmask, ← Nat.shiftLeft_add_eq_or_of_lt (Nat.mod_lt _ (by decide)), Nat.shiftLeft_eq,
    toHighSurrogate_eq hv, toLowSurrogate_eq, kMinSupplementaryCodePoint]
  omega

theorem parse_surrogates (hv : 0x10000 ≤ v) (hlt : v < 0x110000) (t : Text) :
    parseUnicodeEscape o finishing (unicodeEscape (toHighSurrogate v) ++ (unicodeEscape (toLowSurrogate v) ++ t)) =
      .ok (encode v, t) := by
  have hhigh := toHighSurrogate_eq hv
  have hlow := toLowSurrogate_eq v
  have hsum := surrogates_eq hv hlt
  generalize toHighSurrogate v = high at hhigh hsum ⊢
  generalize toLowSurrogate v = low at hlow hsum ⊢
  have hlength : (unicodeEscape high ++ (unicodeEscape low ++ t)).length = 12 + t.length := by
    rw [length_append, length_append, length_unicodeEscape, length_unicodeEscape]
    omega
  have hshort : ¬ (unicodeEscape high ++ (unicodeEscape low ++ t)).length < kUnicodeEscapedLength := by
    rw [hlength, kUnicodeEscapedLength]
    omega
  have hshort' : ¬ (unicodeEscape high ++ (unicodeEscape low ++ t)).length < 2 * kUnicodeEscapedLength := by
    rw [hlength, kUnicodeEscapedLength]
    omega
  have htake : (unicodeEscape high ++ (unicodeEscape low ++ t)).take kUnicodeEscapedLength = unicodeEscape high :=
    take_left' rfl
  have htake' : ((unicodeEscape high ++ (unicodeEscape low ++ t)).take (2 * kUnicodeEscapedLength)).drop
      (kUnicodeEscapedLength + 2) = (unicodeEscape low).drop 2 := by
    simp only [unicodeEscape, kUnicodeEscapedLength, cons_append, nil_append, Nat.reduceMul, Nat.reduceAdd,
      take_succ_cons, take_zero, drop_succ_cons, drop_zero]
  have hdrop : (unicodeEscape high ++ (unicodeEscape low ++ t)).drop (2 * kUnicodeEscapedLength) = t := by
    simp only [unicodeEscape, kUnicodeEscapedLength, cons_append, nil_append, Nat.reduceMul,
      drop_succ_cons, drop_zero]
  have hsurrogate : kMinHighSurrogate ≤ high ∧ high ≤ kMaxHighSurrogate := by
    rw [kMinHighSurrogate, kMaxHighSurrogate]
    omega
  have hsurrogate' : kMinLowSurrogate ≤ low ∧ low ≤ kMaxLowSurrogate := by
    rw [kMinLowSurrogate, kMaxLowSurrogate]
    omega
  have hescape : (unicodeEscape high ++ (unicodeEscape low ++ t))[kUnicodeEscapedLength]? = some 0x5c ∧
      (unicodeEscape high ++ (unicodeEscape low ++ t))[kUnicodeEscapedLength + 1]? = some 0x75 := ⟨rfl, rfl⟩
  have hscalar : IsScalar v := .inr ⟨by omega, hlt⟩
  have hvalid : isValidCodePoint v = true := decide_eq_true hscalar
  rw [parseUnicodeEscape, if_neg hshort, htake, hexValue_unicodeEscape (by omega)]
  simp only [if_pos hsurrogate, if_neg hshort', if_pos hescape, htake', hexValue_unicodeEscape (v := low) (by omega),
    if_pos hsurrogate', hsum]
  -- the sum is rewritten first: the kernel would compare it bit by bit
  rw [Except.bind]
  simp only [hvalid, Bool.not_true, Bool.and_false, Bool.false_eq_true, if_false, encodeAsUTF8Char_eq hlt, hdrop]

theorem encode_cons (hv : IsScalar v) :
    ∃ c s, encode v = c :: s ∧ kUTF8LenTbl c = (c :: s).length ∧ (c = UInt8.ofNat v ∧ v < 0x80 ∨ 0x80 ≤ c.toNat) := by
  have hlt := hv.lt
  have htoNat : ∀ {x : ℕ}, x < 0x100 → (UInt8.ofNat x).toNat = x := fun h => UInt8.toNat_ofNat_of_lt' h
  rw [encode, encodeNat]
  split_ifs with h1 h2 h3
  · refine ⟨UInt8.ofNat v, [], rfl, ?_, .inl ⟨rfl, h1⟩⟩
    have h := htoNat (x := v) (by omega)
    simp only [kUTF8LenTbl, UInt8.lt_iff_toNat_lt, h, UInt8.reduceToNat]
    rw [if_pos (by omega)]
    rfl
  · have h := htoNat (x := 0xc0 + v / 0x40) (by omega)
    refine ⟨UInt8.ofNat (0xc0 + v / 0x40), _, rfl, ?_, .inr (by omega)⟩
    simp only [kUTF8LenTbl, UInt8.lt_iff_toNat_lt, h, UInt8.reduceToNat]
    rw [if_neg (by omega), if_pos (by omega)]
    rfl
  · have h := htoNat (x := 0xe0 + v / 0x1000) (by omega)
    refine ⟨UInt8.ofNat (0xe0 + v / 0x1000), _, rfl, ?_, .inr (by omega)⟩
    simp only [kUTF8LenTbl, UInt8.lt_iff_toNat_lt, h, UInt8.reduceToNat]
    rw [if_neg (by omega), if_neg (by omega), if_pos (by omega)]
    rfl
  · have h := htoNat (x := 0xf0 + v / 0x40000) (by omega)
    refine ⟨UInt8.ofNat (0xf0 + v / 0x40000), _, rfl, ?_, .inr (by omega)⟩
    simp only [kUTF8LenTbl, UInt8.lt_iff_toNat_lt, h, UInt8.reduceToNat]
    rw [if_neg (by omega), if_neg (by omega), if_neg (by omega), if_pos (by omega)]
    rfl

theorem escaped_common : ∀ v < 0xa0, escaped v = [] ∨ escaped v = unicodeEscape v ∨
    ∃ e ∈ simpleEscapes, e ≠ 0x75 ∧ escaped v = [0x5c, e] ∧ [unescaped e] = encode v := by
  decide +kernel

theorem escaped_uncommon (hv : 0xa0 ≤ v) : escaped v = [] ∨ escaped v = unicodeEscape v ∧ v < 0x10000 ∨
      escaped v = unicodeEscape (toHighSurrogate v) ++ unicodeEscape (toLowSurrogate v) ∧ 0x10000 ≤ v := by
  rw [escaped, if_neg (not_lt.mpr hv)]
  split_ifs with hplane hsupplementary
  · simp only [isEscapedPlane0, Bool.or_eq_true, decide_eq_true_eq] at hplane
    exact .inr (.inl ⟨rfl, by omega⟩)
  · simp only [isEscapedSupplementary, decide_eq_true_eq] at hsupplementary
    exact .inr (.inr ⟨rfl, by omega⟩)
  · exact .inl rfl

theorem reads_unicodeEscape (hv : IsScalar v) (hlt : v < 0x10000) (t : Text) :
    Reads o finishing (unicodeEscape v ++ t) (encode v) t := by
  refine reads_unicode (parse_unicodeEscape hv hlt t) ?_
  exact (suffix_append [_, _, _, _] t).length_le

/-- **What is written for a code point is read as its encoding.** -/
theorem reads_copied (hv : IsScalar v) (t : Text) :
    Reads o finishing (copied (v, encode v) ++ t) (encode v) t := by
  by_cases hempty : escaped v = []
  · obtain ⟨c, s, hencode, hlength, hc⟩ := encode_cons hv
    have hne : c ≠ 0x5c ∧ c ≠ 0x22 := by
      rcases hc with ⟨rfl, hlt⟩ | hhigh
      · have hplain := isPlain_of_escaped v hlt hempty
        rw [isPlain, decide_eq_true_eq] at hplain
        exact ⟨hplain.2.2.2.1, hplain.2.2.1⟩
      · constructor <;> rintro rfl <;> exact absurd hhigh (by decide)
    rw [copied, if_pos hempty, hencode]
    exact reads_character hne.1 hne.2 hlength
  · rw [copied, if_neg hempty]
    by_cases hcommon : v < 0xa0
    · rcases escaped_common v hcommon with h | h | ⟨e, -, he, h, hencode⟩
      · exact absurd h hempty
      · rw [h]
        exact reads_unicodeEscape hv (by omega) t
      · rw [h, ← hencode]
        exact reads_simple he
    · rcases escaped_uncommon (not_lt.mp hcommon) with h | ⟨h, hlt⟩ | ⟨h, hge⟩
      · exact absurd h hempty
      · rw [h]
        exact reads_unicodeEscape hv hlt t
      · rw [h, append_assoc]
        refine reads_unicode (parse_surrogates hge hv.lt t) ?_
        exact (suffix_append [_, _, _, _, _, _, _, _, _, _] t).length_le

theorem reads_flatMap (hvs : ∀ v ∈ vs, IsScalar v) (t : Text) :
    Reads o finishing ((vs.flatMap fun v => copied (v, encode v)) ++ t) (vs.flatMap encode) t := by
  induction vs with
  | nil => exact Reads.refl
  | cons v vs ih =>
    obtain ⟨hv, hvs⟩ := forall_mem_cons.mp hvs
    rw [flatMap_cons, flatMap_cons, append_assoc]
    exact Reads.trans (reads_copied hv _) (ih hvs)

/-- **A string between quotes is read.** -/
theorem parseStringHelper_of_reads (h : Reads o finishing (p ++ 0x22 :: t) content (0x22 :: t)) :
    ∃ storage, parseStringHelper o finishing (0x22 :: (p ++ 0x22 :: t)) [] 0 = ⟨.ok, content, t, storage, 0⟩ := by
  obtain ⟨rounds, storage, pending, hrounds, hcontent, heq⟩ :=
    @h ((p ++ 0x22 :: t).length + 1) [] [] (lt_add_one _)
  obtain ⟨rounds, rfl⟩ := Nat.exists_eq_succ_of_ne_zero (Nat.ne_of_gt (lt_of_le_of_lt (Nat.zero_le _) hrounds))
  rw [append_nil, nil_append] at hcontent
  have hquote : (0x22 : UInt8) ≠ 0x5c := by decide
  rw [parseStringHelper, if_pos rfl]
  simp only [heq]
  rw [stringLoop.eq_def]
  simp only [if_neg hquote, if_true]
  split_ifs with hstorage
  · rw [hstorage, nil_append] at hcontent
    exact ⟨[], by rw [hcontent]⟩
  · exact ⟨_, by rw [hcontent]⟩

/-! ## Safe and reversible -/

/-- **The fast path writes what `Escape` of a source writes.** -/
theorem escapePiece_eq (s : Text) : escapePiece s = escape (.array s) := by
  rw [escapePiece]
  split_ifs with hany
  · rfl
  · have hascii : ∀ n < 0x7f, needsEscaping (UInt8.ofNat n) = false →
        escaped n = [] ∧ encode n = [UInt8.ofNat n] := by
      decide +kernel
    have hplain : ∀ c ∈ s, copied (c.toNat, encode c.toNat) = [c] ∧ encode c.toNat = [c] ∧
        IsScalar c.toNat := by
      intro c hc
      have hno : needsEscaping c = false := by
        cases h : needsEscaping c with
        | false => rfl
        | true => exact absurd (any_eq_true.mpr ⟨c, hc, h⟩) hany
      have hlt : c.toNat < 0x7f := by
        by_contra hge
        rw [needsEscaping, decide_eq_false_iff_not] at hno
        exact hno (.inr (.inl (UInt8.le_iff_toNat_le.mpr (not_lt.mp hge))))
      obtain ⟨hempty, hencode⟩ := hascii c.toNat hlt (by rwa [UInt8.ofNat_toNat])
      rw [UInt8.ofNat_toNat] at hencode
      exact ⟨by rw [copied, if_pos hempty, hencode], hencode, .inl (lt_trans hlt (by decide))⟩
    have hencode : (s.map UInt8.toNat).flatMap encode = s := by
      rw [flatMap_map, flatMap_congr fun c hc => (hplain c hc).2.1, flatMap_singleton']
    have hescape := @escape_flatMap_encode (s.map UInt8.toNat) (by
      rw [forall_mem_map]
      exact fun c hc => (hplain c hc).2.2)
    rw [hencode, flatMap_map, flatMap_congr fun c hc => (hplain c hc).1, flatMap_singleton'] at hescape
    exact hescape.symm

/-- What is asked of `Escape`: it ends whatever the source, and what it writes is safe, is the same for all sources
of a text, is what the fast path writes and is read by the parser as the text, if that is well formed. -/
structure SafeAndReversible (o : Settings D) (s : Text) : Prop where
  safe : ∀ input : ByteSource, input.rest = s → ∃ out, escape input = some out ∧ safeText out = true ∧
    ∀ c ∈ out, 0x20 ≤ c ∧ c ≠ 0x7f ∧ c ≠ 0x3c ∧ c ≠ 0x3e
  indep : ∀ input input' : ByteSource, input.rest = s → input'.rest = s → escape input = escape input'
  piece : escapePiece s = escape (.array s)
  reversible : Utf8.WellFormed s → ∃ out, escapePiece s = some out ∧ ∀ finishing rest, ∃ storage,
    parseStringHelper o finishing (0x22 :: (out ++ 0x22 :: rest)) [] 0 = ⟨.ok, s, rest, storage, 0⟩

/-- **`Escape` is safe and reversible** if and only if no code point that is copied has a shorter encoding. -/
theorem safeAndReversible_iff (o : Settings D) (s : Text) : SafeAndReversible o s ↔ Shortest s := by
  constructor
  · exact fun h => (escape_indep_iff s).mp h.indep
  · intro hshortest
    refine ⟨fun input _ => ?_, (escape_indep_iff s).mpr hshortest, escapePiece_eq s, fun hwf => ?_⟩
    · obtain ⟨out, hout, hsafe⟩ := escape_safeText input
      exact ⟨out, hout, hsafe, mem_of_safeText hsafe⟩
    · obtain ⟨vs, hvs, rfl⟩ := hwf
      refine ⟨_, (escapePiece_eq _).trans (escape_flatMap_encode hvs), fun finishing rest => ?_⟩
      exact parseStringHelper_of_reads (reads_flatMap hvs _)

/-- An encoding that is longer than it has to be is copied where it is whole, and written shorter where it is cut. -/
theorem not_safeAndReversible_overlong :
    escape (.array [0xe0, 0x81, 0x81]) = some [0xe0, 0x81, 0x81] ∧
      escape (.bytes [0xe0, 0x81, 0x81]) = some [0xc1, 0x81] ∧
        ¬ SafeAndReversible (Settings.new (fun _ => some ()) fun _ => true) [0xe0, 0x81, 0x81] := by
  have harray : escape (.array [0xe0, 0x81, 0x81]) = some [0xe0, 0x81, 0x81] := by decide
  have hbytes : escape (.bytes [0xe0, 0x81, 0x81]) = some [0xc1, 0x81] := by decide
  refine ⟨harray, hbytes, fun h => ?_⟩
  have hsame := h.indep (.array [0xe0, 0x81, 0x81]) (.bytes [0xe0, 0x81, 0x81]) rfl rfl
  rw [harray, hbytes] at hsame
  exact absurd hsame (by decide)

end Protoc.Json
