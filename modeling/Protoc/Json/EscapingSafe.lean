import Mathlib.Tactic.IntervalCases
import Protoc.Json.EscapingLoops

/-!
# What JSON escaping writes
-/

namespace Protoc.Json

open Protoc.Lib
open List
open Protoc.Stubs (isxdigit)

/-! ## Bits -/

theorem or_c0 : ∀ x < 0x20, x ||| 0xc0 = 0xc0 + x := by decide

theorem or_e0 : ∀ x < 0x10, x ||| 0xe0 = 0xe0 + x := by decide

theorem or_f0 : ∀ x < 0x08, x ||| 0xf0 = 0xf0 + x := by decide

theorem and_3f (x : ℕ) : x &&& 0x3f = x % 0x40 := Nat.and_two_pow_sub_one_eq_mod x 6

theorem and_1f (x : ℕ) : x &&& 0x1f = x % 0x20 := Nat.and_two_pow_sub_one_eq_mod x 5

theorem and_0f (x : ℕ) : x &&& 0x0f = x % 0x10 := Nat.and_two_pow_sub_one_eq_mod x 4

theorem and_07 (x : ℕ) : x &&& 0x07 = x % 0x08 := Nat.and_two_pow_sub_one_eq_mod x 3

theorem continuationByte (x : ℕ) : (x &&& 0x3f) ||| 0x80 = 0x80 + x % 0x40 := by
  have h : ∀ y < 0x40, y ||| 0x80 = 0x80 + y := by decide
  rw [and_3f]
  exact h _ (Nat.mod_lt _ (by decide))

theorem push_bits (cp : ℕ) (ch : ℕ) : cp <<< 6 ||| (ch &&& 0x3f) = cp * 0x40 + ch % 0x40 := by
  rw [and_3f, ← Nat.shiftLeft_add_eq_or_of_lt (Nat.mod_lt _ (by decide)), Nat.shiftLeft_eq]

/-! ## The bytes of a code point -/

def IsContinuation (c : UInt8) : Prop := 0x80 ≤ c.toNat ∧ c.toNat ≤ 0xbf

/-- The bytes of a code point, of whatever length. -/
def Decodes : Text → ℕ → Prop
  | [a], cp => a.toNat ≤ 0x7f ∧ cp = a.toNat
  | [a, b], cp => (0xc0 ≤ a.toNat ∧ a.toNat ≤ 0xdf) ∧ IsContinuation b ∧
      cp = a.toNat % 0x20 * 0x40 + b.toNat % 0x40
  | [a, b, c], cp => (0xe0 ≤ a.toNat ∧ a.toNat ≤ 0xef) ∧ IsContinuation b ∧ IsContinuation c ∧
      cp = (a.toNat % 0x10 * 0x40 + b.toNat % 0x40) * 0x40 + c.toNat % 0x40
  | [a, b, c, d], cp => (0xf0 ≤ a.toNat ∧ a.toNat ≤ 0xf7) ∧ IsContinuation b ∧ IsContinuation c ∧ IsContinuation d ∧
      cp = ((a.toNat % 0x08 * 0x40 + b.toNat % 0x40) * 0x40 + c.toNat % 0x40) * 0x40 + d.toNat % 0x40
  | _, _ => False

variable {s raw out o : Text} {cp numLeft numRead : ℕ} {u : ℕ × Text} {us : List (ℕ × Text)} {W : ℕ × Text → Text → Prop}
  {f : ℕ × Text → Text} {size : ℕ → ℕ} {input : ByteSource}

theorem readMore_complete (h : (readMore cp (numLeft + 1) numRead s).isComplete) :
    ∃ c rest, s = c :: rest ∧ IsContinuation c ∧
      readMore cp (numLeft + 1) numRead s = readMore (cp * 0x40 + c.toNat % 0x40) numLeft (numRead + 1) rest := by
  cases s with
  | nil => exact absurd h.2 (Nat.succ_ne_zero _)
  | cons c rest =>
    refine ⟨c, rest, rfl, ?_⟩
    rw [readMore] at h ⊢
    by_cases hc : c < 0x80 ∨ 0xbf < c
    · simp only [if_pos hc] at h
      exact absurd h.1 Bool.false_ne_true
    · rw [not_or, UInt8.not_lt, UInt8.not_lt] at hc
      simp only [if_neg (not_or.mpr ⟨UInt8.not_lt.mpr hc.1, UInt8.not_lt.mpr hc.2⟩), push_bits]
      exact ⟨⟨UInt8.le_iff_toNat_le.mp hc.1, UInt8.le_iff_toNat_le.mp hc.2⟩, trivial⟩

/-- **What is read is what the bytes stand for.** -/
theorem decodes_readCodePoint (hs : s ≠ []) (h : (readCodePoint s 0 0).isComplete) :
    Decodes (s.take (readCodePoint s 0 0).numRead) (readCodePoint s 0 0).cp := by
  obtain ⟨a, s, rfl⟩ := exists_cons_of_ne_nil hs
  rw [readCodePoint, if_pos rfl] at h ⊢
  by_cases h7f : a ≤ 0x7f
  · simp only [if_pos h7f]
    exact ⟨UInt8.le_iff_toNat_le.mp h7f, rfl⟩
  by_cases hbf : a ≤ 0xbf
  · simp only [if_neg h7f, if_pos hbf] at h
    exact absurd h.1 Bool.false_ne_true
  by_cases hdf : a ≤ 0xdf
  · simp only [if_neg h7f, if_neg hbf, if_pos hdf] at h ⊢
    obtain ⟨b, s, rfl, hb, hread⟩ := readMore_complete h
    rw [hread, readMore]
    refine ⟨⟨?_, UInt8.le_iff_toNat_le.mp hdf⟩, hb, by rw [and_1f]⟩
    exact UInt8.lt_iff_toNat_lt.mp (UInt8.not_le.mp hbf)
  by_cases hef : a ≤ 0xef
  · simp only [if_neg h7f, if_neg hbf, if_neg hdf, if_pos hef] at h ⊢
    obtain ⟨b, s, rfl, hb, hread⟩ := readMore_complete h
    rw [hread] at h ⊢
    obtain ⟨c, s, rfl, hc, hread⟩ := readMore_complete h
    rw [hread, readMore]
    refine ⟨⟨?_, UInt8.le_iff_toNat_le.mp hef⟩, hb, hc, by rw [and_0f]⟩
    exact UInt8.lt_iff_toNat_lt.mp (UInt8.not_le.mp hdf)
  by_cases hf7 : a ≤ 0xf7
  · simp only [if_neg h7f, if_neg hbf, if_neg hdf, if_neg hef, if_pos hf7] at h ⊢
    obtain ⟨b, s, rfl, hb, hread⟩ := readMore_complete h
    rw [hread] at h ⊢
    obtain ⟨c, s, rfl, hc, hread⟩ := readMore_complete h
    rw [hread] at h ⊢
    obtain ⟨d, s, rfl, hd, hread⟩ := readMore_complete h
    rw [hread, readMore]
    refine ⟨⟨?_, UInt8.le_iff_toNat_le.mp hf7⟩, hb, hc, hd, by rw [and_07]⟩
    exact UInt8.lt_iff_toNat_lt.mp (UInt8.not_le.mp hef)
  · simp only [if_neg h7f, if_neg hbf, if_neg hdf, if_neg hef, if_neg hf7] at h
    exact absurd h.1 Bool.false_ne_true

theorem decodes_of_mem (hu : u ∈ codePoints s) : Decodes u.2 u.1 := by
  induction hn : s.length using Nat.strong_induction_on generalizing s with
  | _ n ih =>
    by_cases hs : s = []
    · subst hs
      exact absurd hu not_mem_nil
    · have hlt := length_drop_numRead hs
      rcases (readCodePoint s 0 0).cases with hinvalid | hunfinished | hcomplete
      · rw [codePoints_of_invalid hs hinvalid] at hu
        exact ih _ (hn ▸ hlt) hu rfl
      · rw [codePoints_of_isPartial hs hunfinished] at hu
        exact absurd hu not_mem_nil
      · rw [codePoints_of_complete hs hcomplete] at hu
        rcases mem_cons.mp hu with rfl | hu
        · exact decodes_readCodePoint hs hcomplete
        · exact ih _ (hn ▸ hlt) hu rfl

/-! ## Code points that are written again -/

theorem forced_two (h : cp < 0x800) : forced cp = [UInt8.ofNat (0xc0 + cp / 0x40), UInt8.ofNat (0x80 + cp % 0x40)] := by
  have hshift : cp >>> 6 = cp / 0x40 := Nat.shiftRight_eq_div_pow ..
  rw [forced, hshift, if_pos (by omega), continuationByte, or_c0 _ (by omega)]

theorem forced_three (h : 0x800 ≤ cp) (hlt : cp < 0x10000) :
    forced cp = [UInt8.ofNat (0xe0 + cp / 0x1000), UInt8.ofNat (0x80 + cp / 0x40 % 0x40),
      UInt8.ofNat (0x80 + cp % 0x40)] := by
  have hshift : cp >>> 6 = cp / 0x40 := Nat.shiftRight_eq_div_pow ..
  have hshift' : (cp / 0x40) >>> 6 = cp / 0x1000 := by
    rw [Nat.shiftRight_eq_div_pow, Nat.div_div_eq_div_mul]
  rw [forced, hshift, if_neg (by omega), hshift', if_pos (by omega), continuationByte, continuationByte,
    or_e0 _ (by omega)]

theorem forced_four (h : 0x10000 ≤ cp) (hlt : cp < 0x200000) :
    forced cp = [UInt8.ofNat (0xf0 + cp / 0x40000), UInt8.ofNat (0x80 + cp / 0x1000 % 0x40),
      UInt8.ofNat (0x80 + cp / 0x40 % 0x40), UInt8.ofNat (0x80 + cp % 0x40)] := by
  have hshift : cp >>> 6 = cp / 0x40 := Nat.shiftRight_eq_div_pow ..
  have hshift' : (cp / 0x40) >>> 6 = cp / 0x1000 := by
    rw [Nat.shiftRight_eq_div_pow, Nat.div_div_eq_div_mul]
  have hshift'' : (cp / 0x1000) >>> 6 = cp / 0x40000 := by
    rw [Nat.shiftRight_eq_div_pow, Nat.div_div_eq_div_mul]
  rw [forced, hshift, if_neg (by omega), hshift', if_neg (by omega), hshift'', and_07, Nat.mod_eq_of_lt (by omega),
    or_f0 _ (by omega), continuationByte, continuationByte, continuationByte]

def IsShortest (u : ℕ × Text) : Prop := (u.2.length = 3 → 0x800 ≤ u.1) ∧ (u.2.length = 4 → 0x10000 ≤ u.1)

/-- No code point that is copied has a shorter encoding of at least two bytes. -/
def Shortest (s : Text) : Prop := ∀ u ∈ codePoints s, escaped u.1 = [] → IsShortest u

theorem ofNat_of_eq {c : UInt8} {n : ℕ} (h : n = c.toNat) : UInt8.ofNat n = c := by
  rw [h, UInt8.ofNat_toNat]

/-- A code point in its shortest encoding is written again with the same bytes, another one with fewer. -/
theorem forced_of_decodes (h : Decodes raw cp) (hlong : 1 < raw.length) :
    IsShortest (cp, raw) ∧ forced cp = raw ∨ ¬ IsShortest (cp, raw) ∧ (forced cp).length < raw.length := by
  rcases raw with _ | ⟨a, _ | ⟨b, _ | ⟨c, _ | ⟨d, _ | ⟨e, raw⟩⟩⟩⟩⟩
  · exact absurd h id
  · exact absurd hlong (lt_irrefl 1)
  · obtain ⟨ha, hb, hcp⟩ := h
    refine .inl ⟨⟨nofun, nofun⟩, ?_⟩
    rw [IsContinuation] at hb
    rw [forced_two (by omega), ofNat_of_eq (c := a) (by omega), ofNat_of_eq (c := b) (by omega)]
  · obtain ⟨ha, hb, hc, hcp⟩ := h
    rw [IsContinuation] at hb hc
    by_cases hshort : 0x800 ≤ cp
    · refine .inl ⟨⟨fun _ => hshort, nofun⟩, ?_⟩
      rw [forced_three hshort (by omega), ofNat_of_eq (c := a) (by omega), ofNat_of_eq (c := b) (by omega),
        ofNat_of_eq (c := c) (by omega)]
    · refine .inr ⟨fun hshortest => hshort (hshortest.1 rfl), ?_⟩
      rw [forced_two (by omega)]
      exact Nat.lt_succ_self 2
  · obtain ⟨ha, hb, hc, hd, hcp⟩ := h
    rw [IsContinuation] at hb hc hd
    by_cases hshort : 0x10000 ≤ cp
    · refine .inl ⟨⟨nofun, fun _ => hshort⟩, ?_⟩
      rw [forced_four hshort (by omega), ofNat_of_eq (c := a) (by omega), ofNat_of_eq (c := b) (by omega),
        ofNat_of_eq (c := c) (by omega), ofNat_of_eq (c := d) (by omega)]
    · refine .inr ⟨fun hshortest => hshort (hshortest.2 rfl), ?_⟩
      by_cases htwo : cp < 0x800
      · rw [forced_two htwo]
        exact Nat.le_of_ble_eq_true rfl
      · rw [forced_three (by omega) (by omega)]
        exact Nat.lt_succ_self 3
  · exact absurd h id

/-! ## Cuts -/

theorem Writes.eq_flatMap (h : Writes (fun u o => o = f u) us out) : out = us.flatMap f := by
  induction h with
  | nil => rfl
  | cons hu _ ih => rw [flatMap_cons, hu, ih]

theorem escape_eq_flatMap (h : Agrees input.size (fun u o => o = f u) input.rest) :
    escape input = some ((codePoints input.rest).flatMap f) := by
  obtain ⟨out, hout, hwrites⟩ := escape_writes h
  rw [hout, hwrites.eq_flatMap]

def copied (u : ℕ × Text) : Text := if escaped u.1 = [] then u.2 else escaped u.1

/-- A code point without an escape is written again, if it has several bytes. -/
def rewritten (u : ℕ × Text) : Text :=
  if escaped u.1 = [] then if u.2.length ≤ 1 then u.2 else forced u.1 else escaped u.1

theorem agrees_array (s : Text) : Agrees (ByteSource.array s).size (fun u o => o = copied u) s where
  escape _ _ h := (if_neg h).symm
  single _ _ h _ := (if_pos h).symm
  whole _ _ _ h _ := (if_pos h).symm
  cut h := by
    obtain ⟨n, hn⟩ := h
    exact absurd hn (not_lt.mpr (Nat.le_succ n))

theorem agrees_bytes (s : Text) : Agrees (ByteSource.bytes s).size (fun u o => o = rewritten u) s where
  escape _ _ h := (if_neg h).symm
  single _ _ h hshort := by rw [rewritten, if_pos h, if_pos hshort]
  whole h := by
    obtain ⟨n, hn⟩ := h
    exact absurd hn (lt_irrefl 1)
  cut _ _ _ h hlong := by rw [rewritten, if_pos h, if_neg (not_le.mpr hlong)]

theorem Shortest.agrees (h : Shortest s) (size : ℕ → ℕ) : Agrees size (fun u o => o = copied u) s where
  escape _ _ h := (if_neg h).symm
  single _ _ h _ := (if_pos h).symm
  whole _ _ _ h _ := (if_pos h).symm
  cut _ u hu hempty hlong := by
    rw [copied, if_pos hempty]
    rcases forced_of_decodes (decodes_of_mem hu) hlong with ⟨-, heq⟩ | ⟨hnot, -⟩
    · exact heq
    · exact absurd (h u hu hempty) hnot

theorem length_rewritten_le (hu : u ∈ codePoints s) : (rewritten u).length ≤ (copied u).length := by
  rw [rewritten, copied]
  split_ifs with hempty hshort
  · exact le_rfl
  · rcases forced_of_decodes (decodes_of_mem hu) (not_le.mp hshort) with ⟨-, heq⟩ | ⟨-, hlt⟩
    · exact le_of_eq (congrArg _ heq)
    · exact le_of_lt hlt
  · exact le_rfl

theorem length_flatMap_le {f' : ℕ × Text → Text} (hle : ∀ u ∈ us, (f u).length ≤ (f' u).length) :
    (us.flatMap f).length ≤ (us.flatMap f').length := by
  induction us with
  | nil => exact le_rfl
  | cons v us ih =>
    obtain ⟨hv, hrest⟩ := forall_mem_cons.mp hle
    rw [flatMap_cons, flatMap_cons, length_append, length_append]
    exact Nat.add_le_add hv (ih hrest)

theorem length_flatMap_lt {f' : ℕ × Text → Text} (hle : ∀ u ∈ us, (f u).length ≤ (f' u).length) (hu : u ∈ us)
    (hlt : (f u).length < (f' u).length) : (us.flatMap f).length < (us.flatMap f').length := by
  obtain ⟨before, after, rfl⟩ := append_of_mem hu
  obtain ⟨hbefore, hrest⟩ := forall_mem_append.mp hle
  have hlt' := length_flatMap_le hbefore
  have hle' := length_flatMap_le (forall_mem_cons.mp hrest).2
  simp only [flatMap_append, flatMap_cons, length_append]
  omega

/-- **What is written does not depend on the cuts** if and only if no code point that is copied has a shorter
encoding. -/
theorem escape_indep_iff (s : Text) :
    (∀ input input' : ByteSource, input.rest = s → input'.rest = s → escape input = escape input') ↔ Shortest s := by
  constructor
  · intro h u hu hempty
    have hsame := h (.array s) (.bytes s) rfl rfl
    rw [escape_eq_flatMap (agrees_array s), escape_eq_flatMap (agrees_bytes s), Option.some.injEq] at hsame
    by_contra hnot
    have hlong : 1 < u.2.length := by
      by_contra hshort
      exact hnot ⟨fun h3 => by omega, fun h4 => by omega⟩
    have hlt : (rewritten u).length < (copied u).length := by
      rw [rewritten, copied, if_pos hempty, if_pos hempty, if_neg (not_le.mpr hlong)]
      rcases forced_of_decodes (decodes_of_mem hu) hlong with ⟨hshortest, -⟩ | ⟨-, hlt⟩
      · exact absurd hshortest hnot
      · exact hlt
    have hlt' := length_flatMap_lt (fun _ => length_rewritten_le) hu hlt
    exact lt_irrefl _ (hsame ▸ hlt')
  · rintro h input input' rfl hinput'
    rw [escape_eq_flatMap (h.agrees _), escape_eq_flatMap (hinput' ▸ h.agrees _), hinput']

/-! ## Safety -/

/-- Bytes that stand for themselves in a string inside HTML. -/
def isPlain (c : UInt8) : Bool := decide (0x20 ≤ c ∧ c ≠ 0x7f ∧ c ≠ 0x22 ∧ c ≠ 0x5c ∧ c ≠ 0x3c ∧ c ≠ 0x3e)

def simpleEscapes : Text := cString "\"\\/bfnrt"

/-- Texts that may stand in a string inside HTML: plain bytes and complete escapes. -/
def safeText : Text → Bool
  | [] => true
  | c :: s =>
    if c = 0x5c then
      match s with
      | e :: s =>
        if e = 0x75 then
          match s with
          | i :: j :: k :: l :: s => isxdigit i && isxdigit j && isxdigit k && isxdigit l && safeText s
          | _ => false
        else simpleEscapes.contains e && safeText s
      | [] => false
    else isPlain c && safeText s

theorem safeText_plain {c : UInt8} (hc : c ≠ 0x5c) : safeText (c :: s) = (isPlain c && safeText s) := by
  rw [safeText.eq_def]
  exact if_neg hc

theorem safeText_simple {e : UInt8} (he : e ≠ 0x75) :
    safeText (0x5c :: e :: s) = (simpleEscapes.contains e && safeText s) := by
  rw [safeText.eq_def]
  exact if_neg he

theorem safeText_append {t : Text} (hs : safeText s = true) (ht : safeText t = true) : safeText (s ++ t) = true := by
  fun_induction safeText s with
  | case1 => exact ht
  | case2 i j k l s ih =>
    rw [Bool.and_eq_true] at hs
    simp only [cons_append, safeText, if_true, Bool.and_eq_true]
    exact ⟨by simpa only [Bool.and_eq_true] using hs.1, ih hs.2⟩
  | case3 => exact absurd hs Bool.false_ne_true
  | case4 e s he ih =>
    rw [Bool.and_eq_true] at hs
    rw [cons_append, cons_append, safeText_simple he, hs.1, ih hs.2, Bool.and_self]
  | case5 => exact absurd hs Bool.false_ne_true
  | case6 c s hc ih =>
    rw [Bool.and_eq_true] at hs
    rw [cons_append, safeText_plain hc, hs.1, ih hs.2, Bool.and_self]

set_option maxRecDepth 4000 in
/-- The bytes of a safe text. -/
theorem mem_of_safeText (hs : safeText s = true) : ∀ c ∈ s, 0x20 ≤ c ∧ c ≠ 0x7f ∧ c ≠ 0x3c ∧ c ≠ 0x3e := by
  have hdigit : ∀ c, isxdigit c = true → 0x20 ≤ c ∧ c ≠ 0x7f ∧ c ≠ 0x3c ∧ c ≠ 0x3e := by
    intro c hc
    simp only [isxdigit, Bool.or_eq_true, decide_eq_true_eq, UInt8.le_iff_toNat_le] at hc
    simp only [ne_eq, UInt8.le_iff_toNat_le, ← UInt8.toNat_inj]
    simp only [UInt8.reduceToNat] at hc ⊢
    omega
  have hsimple : ∀ c ∈ simpleEscapes, 0x20 ≤ c ∧ c ≠ 0x7f ∧ c ≠ 0x3c ∧ c ≠ 0x3e := by decide +kernel
  fun_induction safeText s with
  | case1 => exact nofun
  | case2 i j k l s ih =>
    simp only [Bool.and_eq_true] at hs
    obtain ⟨⟨⟨⟨hi, hj⟩, hk⟩, hl⟩, hs⟩ := hs
    simp only [forall_mem_cons]
    exact ⟨by decide, by decide, hdigit i hi, hdigit j hj, hdigit k hk, hdigit l hl, ih hs⟩
  | case3 => exact absurd hs Bool.false_ne_true
  | case4 e s he ih =>
    rw [Bool.and_eq_true] at hs
    simp only [forall_mem_cons]
    exact ⟨by decide, hsimple e (contains_iff_mem.mp hs.1), ih hs.2⟩
  | case5 => exact absurd hs Bool.false_ne_true
  | case6 c s hc ih =>
    rw [Bool.and_eq_true, isPlain, decide_eq_true_eq] at hs
    obtain ⟨⟨hspace, hdelete, -, -, hless, hgreater⟩, hs⟩ := hs
    simp only [forall_mem_cons]
    exact ⟨⟨hspace, hdelete, hless, hgreater⟩, ih hs⟩

theorem safeText_of_high (hs : ∀ c ∈ s, 0x80 ≤ c.toNat) : safeText s = true := by
  induction s with
  | nil => rfl
  | cons c s ih =>
    obtain ⟨hc, hs⟩ := forall_mem_cons.mp hs
    have hplain : isPlain c = true := by
      simp only [isPlain, decide_eq_true_eq, ne_eq, UInt8.le_iff_toNat_le, ← UInt8.toNat_inj, UInt8.reduceToNat]
      omega
    have hne : c ≠ 0x5c := by
      rintro rfl
      exact absurd hc (by decide)
    rw [safeText_plain hne, hplain, ih hs, Bool.and_self]

theorem safeText_unicodeEscape (v : ℕ) : safeText (unicodeEscape v) = true := by
  have hdigit : ∀ d < 0x10, isxdigit (kHex d) = true := by decide
  have hbits : ∀ x : ℕ, isxdigit (kHex (x &&& 0x0f)) = true := fun x => by
    rw [and_0f]
    exact hdigit _ (Nat.mod_lt _ (by decide))
  rw [unicodeEscape, safeText, if_pos rfl]
  simp only [if_true, hbits, Bool.and_self, safeText]

theorem safeText_kCommonEscapes : ∀ e ∈ kCommonEscapes, safeText (cString e) = true := by decide +kernel

/-- **Escapes are safe.** -/
theorem safeText_escaped (cp : ℕ) : safeText (escaped cp) = true := by
  rw [escaped]
  split_ifs with hcommon
  · cases hentry : kCommonEscapes[cp]? with
    | some entry => exact safeText_kCommonEscapes entry (mem_of_getElem? hentry)
    | none => rfl
  · exact safeText_unicodeEscape _
  · exact safeText_append (safeText_unicodeEscape _) (safeText_unicodeEscape _)
  · rfl

theorem isPlain_of_escaped : ∀ cp < 0x80, escaped cp = [] → isPlain (UInt8.ofNat cp) = true := by
  decide +kernel

theorem forced_high (hlt : cp < 0x200000) : ∀ c ∈ forced cp, 0x80 ≤ c.toNat := by
  have hofNat : ∀ x, 0x80 ≤ x → x < 0x100 → 0x80 ≤ (UInt8.ofNat x).toNat := fun x h hx => by
    rwa [UInt8.toNat_ofNat_of_lt' hx]
  by_cases htwo : cp < 0x800
  · rw [forced_two htwo]
    simp only [forall_mem_cons]
    exact ⟨hofNat _ (by omega) (by omega), hofNat _ (by omega) (by omega), nofun⟩
  by_cases hthree : cp < 0x10000
  · rw [forced_three (by omega) hthree]
    simp only [forall_mem_cons]
    exact ⟨hofNat _ (by omega) (by omega), hofNat _ (by omega) (by omega), hofNat _ (by omega) (by omega),
      nofun⟩
  · rw [forced_four (by omega) hlt]
    simp only [forall_mem_cons]
    exact ⟨hofNat _ (by omega) (by omega), hofNat _ (by omega) (by omega), hofNat _ (by omega) (by omega),
      hofNat _ (by omega) (by omega), nofun⟩

theorem Decodes.bytes (h : Decodes raw cp) : (∃ c : UInt8, raw = [c] ∧ cp = c.toNat ∧ cp < 0x80) ∨
      1 < raw.length ∧ (∀ c ∈ raw, 0x80 ≤ c.toNat) ∧ cp < 0x200000 := by
  rcases raw with _ | ⟨a, _ | ⟨b, _ | ⟨c, _ | ⟨d, _ | ⟨e, raw⟩⟩⟩⟩⟩
  · exact absurd h id
  · exact .inl ⟨a, rfl, h.2, by have := h.1; have := h.2; omega⟩
  · obtain ⟨ha, hb, hcp⟩ := h
    refine .inr ⟨Nat.lt_succ_self 1, ?_, by omega⟩
    simp only [forall_mem_cons]
    exact ⟨by omega, hb.1, nofun⟩
  · obtain ⟨ha, hb, hc, hcp⟩ := h
    refine .inr ⟨Nat.le_of_ble_eq_true rfl, ?_, by omega⟩
    simp only [forall_mem_cons]
    exact ⟨by omega, hb.1, hc.1, nofun⟩
  · obtain ⟨ha, hb, hc, hd, hcp⟩ := h
    refine .inr ⟨Nat.le_of_ble_eq_true rfl, ?_, by omega⟩
    simp only [forall_mem_cons]
    exact ⟨by omega, hb.1, hc.1, hd.1, nofun⟩
  · exact absurd h id

/-- What may stand for a code point, in whatever source. -/
def Stands (u : ℕ × Text) (o : Text) : Prop :=
  escaped u.1 ≠ [] ∧ o = escaped u.1 ∨ escaped u.1 = [] ∧ (o = u.2 ∨ 1 < u.2.length ∧ o = forced u.1)

theorem agrees_stands (size : ℕ → ℕ) (s : Text) : Agrees size Stands s where
  escape _ _ h := .inl ⟨h, rfl⟩
  single _ _ h _ := .inr ⟨h, .inl rfl⟩
  whole _ _ _ h _ := .inr ⟨h, .inl rfl⟩
  cut _ _ _ h hlong := .inr ⟨h, .inr ⟨hlong, rfl⟩⟩

/-- **What stands for a code point is safe.** -/
theorem safeText_of_stands (hu : Decodes u.2 u.1) (ho : Stands u o) : safeText o = true := by
  rcases ho with ⟨-, rfl⟩ | ⟨hempty, ho⟩
  · exact safeText_escaped _
  · rcases hu.bytes with ⟨c, hc, hcp, hlt⟩ | ⟨-, hhigh, hlt⟩
    · rcases ho with rfl | ⟨hlong, -⟩
      · have hplain := isPlain_of_escaped _ hlt hempty
        rw [hcp, UInt8.ofNat_toNat] at hplain
        have hne : c ≠ 0x5c := by
          rintro rfl
          exact absurd hplain (by decide)
        rw [hc, safeText_plain hne, hplain]
        rfl
      · rw [hc] at hlong
        exact absurd hlong (lt_irrefl 1)
    · rcases ho with rfl | ⟨-, rfl⟩
      · exact safeText_of_high hhigh
      · exact safeText_of_high (forced_high hlt)

theorem Writes.safeText (h : Writes Stands us out) (hus : ∀ u ∈ us, Decodes u.2 u.1) : safeText out = true := by
  induction h with
  | nil => rfl
  | cons ho _ ih =>
    obtain ⟨hu, hus⟩ := forall_mem_cons.mp hus
    exact safeText_append (safeText_of_stands hu ho) (ih hus)

/-- **`Escape` of any source ends, and what it writes is safe.** -/
theorem escape_safeText (input : ByteSource) : ∃ out, escape input = some out ∧ safeText out = true := by
  obtain ⟨out, hout, hwrites⟩ := escape_writes (agrees_stands input.size input.rest)
  exact ⟨out, hout, hwrites.safeText fun _ => decodes_of_mem⟩

end Protoc.Json
