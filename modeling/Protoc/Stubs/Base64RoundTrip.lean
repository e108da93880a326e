import Protoc.Lib.Words
import Protoc.Stubs.Base64

/-!
# The base 64 round trip

The encoding is described by groups: four characters for three bytes, and a tail.  The
encoder writes it, in exactly the room that `CalculateBase64EscapedLen` computes, and the
decoder takes it apart group by group.
-/

namespace Protoc.Stubs

open Protoc.Lib
open List Option

/-- The table of characters and the one that takes them back. -/
structure Codec (base64 : List UInt8) (unbase64 : List ℤ) : Prop where
  value : ∀ i < 64, Unescape.unbase64At unbase64 (base64.getD i 0) = i
  ne_zero : ∀ i < 64, base64.getD i 0 ≠ 0
  pad : Unescape.unbase64At unbase64 61 = -1

theorem base64_codec : Codec kBase64Chars kUnBase64 where
  value := by decide
  ne_zero := by decide
  pad := by decide

theorem webSafe_codec : Codec kWebSafeBase64Chars kUnWebSafeBase64 where
  value := by decide
  ne_zero := by decide
  pad := by decide

/-! ## Bits -/

theorem toNat_load16 (a b : UInt8) : (load16 a b).toNat = a.toNat * 2 ^ 8 + b.toNat := by
  have ha := a.toNat_lt
  have hb := b.toNat_lt
  have hshift : (a.toUInt32 <<< 8).toNat = a.toNat * 2 ^ 8 := by
    rw [toNat_shiftLeft_of (n := 8) rfl (by rw [UInt8.toNat_toUInt32]; omega), UInt8.toNat_toUInt32]
  rw [load16, toNat_or_of_dvd (n := 8) (by rw [hshift]; omega)
    (by rw [UInt8.toNat_toUInt32]; omega), hshift, UInt8.toNat_toUInt32]

def bits24 (a b c : UInt8) : ℕ := a.toNat * 2 ^ 16 + b.toNat * 2 ^ 8 + c.toNat

theorem toNat_load32_shiftRight (a b c d : UInt8) : (load32 a b c d >>> 8).toNat = bits24 a b c := by
  have ha := a.toNat_lt
  have hb := b.toNat_lt
  have hc := c.toNat_lt
  have hd := d.toNat_lt
  have hshift24 : (a.toUInt32 <<< 24).toNat = a.toNat * 2 ^ 24 := by
    rw [toNat_shiftLeft_of (n := 24) rfl (by rw [UInt8.toNat_toUInt32]; omega),
      UInt8.toNat_toUInt32]
  have hshift16 : (b.toUInt32 <<< 16).toNat = b.toNat * 2 ^ 16 := by
    rw [toNat_shiftLeft_of (n := 16) rfl (by rw [UInt8.toNat_toUInt32]; omega),
      UInt8.toNat_toUInt32]
  have hshift8 : (c.toUInt32 <<< 8).toNat = c.toNat * 2 ^ 8 := by
    rw [toNat_shiftLeft_of (n := 8) rfl (by rw [UInt8.toNat_toUInt32]; omega), UInt8.toNat_toUInt32]
  have hab : (a.toUInt32 <<< 24 ||| b.toUInt32 <<< 16).toNat = a.toNat * 2 ^ 24 + b.toNat * 2 ^ 16 := by
    rw [toNat_or_of_dvd (n := 24) (by rw [hshift24]; omega) (by rw [hshift16]; omega), hshift24,
      hshift16]
  have habc : (a.toUInt32 <<< 24 ||| b.toUInt32 <<< 16 ||| c.toUInt32 <<< 8).toNat =
      a.toNat * 2 ^ 24 + b.toNat * 2 ^ 16 + c.toNat * 2 ^ 8 := by
    rw [toNat_or_of_dvd (n := 16) (by rw [hab]; omega) (by rw [hshift8]; omega), hab, hshift8]
  rw [toNat_shiftRight_of (n := 8) rfl, load32,
    toNat_or_of_dvd (n := 8) (by rw [habc]; omega) (by rw [UInt8.toNat_toUInt32]; omega), habc,
    UInt8.toNat_toUInt32, bits24]
  omega

/-! ## The encoding -/

section
variable (base64 : List UInt8)

def groupOf (v : ℕ) : List UInt8 :=
  [base64.getD (v / 2 ^ 18) 0, base64.getD (v / 2 ^ 12 % 2 ^ 6) 0, base64.getD (v / 2 ^ 6 % 2 ^ 6) 0,
    base64.getD (v % 2 ^ 6) 0]

def tailOfOne (a : UInt8) : List UInt8 :=
  [base64.getD (a.toNat / 2 ^ 2) 0, base64.getD (a.toNat % 2 ^ 2 * 2 ^ 4) 0]

def tailOfTwo (a b : UInt8) : List UInt8 :=
  let v := a.toNat * 2 ^ 8 + b.toNat
  [base64.getD (v / 2 ^ 10) 0, base64.getD (v / 2 ^ 4 % 2 ^ 6) 0, base64.getD (v % 2 ^ 4 * 2 ^ 2) 0]

def pads (doPadding : Bool) (n : ℕ) : List UInt8 := if doPadding then replicate n 61 else []

/-- The encoding by groups. -/
def encoded (doPadding : Bool) : List UInt8 → List UInt8
  | [] => []
  | [a] => tailOfOne base64 a ++ pads doPadding 2
  | [a, b] => tailOfTwo base64 a b ++ pads doPadding 1
  | a :: b :: c :: src => groupOf base64 (bits24 a b c) ++ encoded doPadding src

theorem escapeGroup_eq {bits : UInt32} {v : ℕ} (hv : bits.toNat = v) :
    escapeGroup base64 bits = groupOf base64 v := by
  have hfirst : (bits >>> 18).toNat = v / 2 ^ 18 := by
    rw [toNat_shiftRight_of (n := 18) rfl, hv]
  have hsecond : ((bits &&& 0x3FFFF) >>> 12).toNat = v / 2 ^ 12 % 2 ^ 6 := by
    rw [toNat_shiftRight_of (n := 12) rfl, toNat_and_of (n := 18) rfl, hv]
    omega
  have hthird : ((bits &&& 0xFFF) >>> 6).toNat = v / 2 ^ 6 % 2 ^ 6 := by
    rw [toNat_shiftRight_of (n := 6) rfl, toNat_and_of (n := 12) rfl, hv]
    omega
  have hfourth : (bits &&& 0x3F).toNat = v % 2 ^ 6 := by
    rw [toNat_and_of (n := 6) rfl, hv]
  simp only [escapeGroup, base64At, hfirst, hsecond, hthird, hfourth, groupOf]

theorem escapeTail_one (doPadding : Bool) (a : UInt8) {szdest : ℤ}
    (hroom : ((encoded base64 doPadding [a]).length : ℤ) ≤ szdest) :
    escapeTail base64 doPadding szdest [a] = (encoded base64 doPadding [a], true) := by
  have hfirst : (a.toUInt32 >>> 2).toNat = a.toNat / 2 ^ 2 := by
    rw [toNat_shiftRight_of (n := 2) rfl, UInt8.toNat_toUInt32]
  have hsecond : ((a.toUInt32 &&& 0x3) <<< 4).toNat = a.toNat % 2 ^ 2 * 2 ^ 4 := by
    have hand : (a.toUInt32 &&& 0x3).toNat = a.toNat % 2 ^ 2 := by
      rw [toNat_and_of (n := 2) rfl, UInt8.toNat_toUInt32]
    rw [toNat_shiftLeft_of (n := 4) rfl (by rw [hand]; omega), hand]
  cases doPadding with
  | false =>
    simp only [encoded, tailOfOne, pads, Bool.false_eq_true, if_false, append_nil,
      length_cons, length_nil] at hroom ⊢
    rw [escapeTail, if_neg (by omega)]
    simp only [Bool.false_eq_true, if_false, base64At, hfirst, hsecond]
  | true =>
    simp only [encoded, tailOfOne, pads, if_true, length_append, length_cons,
      length_nil, length_replicate] at hroom ⊢
    rw [escapeTail, if_neg (by omega)]
    simp only [if_true]
    rw [if_neg (by omega)]
    simp only [base64At, hfirst, hsecond]
    rfl

theorem escapeTail_two (doPadding : Bool) (a b : UInt8) {szdest : ℤ}
    (hroom : ((encoded base64 doPadding [a, b]).length : ℤ) ≤ szdest) :
    escapeTail base64 doPadding szdest [a, b] = (encoded base64 doPadding [a, b], true) := by
  have hload := toNat_load16 a b
  have hfirst : (load16 a b >>> 10).toNat = (a.toNat * 2 ^ 8 + b.toNat) / 2 ^ 10 := by
    rw [toNat_shiftRight_of (n := 10) rfl, hload]
  have hsecond : ((load16 a b &&& 0x3FF) >>> 4).toNat =
      (a.toNat * 2 ^ 8 + b.toNat) / 2 ^ 4 % 2 ^ 6 := by
    rw [toNat_shiftRight_of (n := 4) rfl, toNat_and_of (n := 10) rfl, hload]
    omega
  have hthird : ((load16 a b &&& 0x00F) <<< 2).toNat =
      (a.toNat * 2 ^ 8 + b.toNat) % 2 ^ 4 * 2 ^ 2 := by
    have hand : (load16 a b &&& 0x00F).toNat = (a.toNat * 2 ^ 8 + b.toNat) % 2 ^ 4 := by
      rw [toNat_and_of (n := 4) rfl, hload]
    rw [toNat_shiftLeft_of (n := 2) rfl (by rw [hand]; omega), hand]
  cases doPadding with
  | false =>
    simp only [encoded, tailOfTwo, pads, Bool.false_eq_true, if_false, append_nil,
      length_cons, length_nil] at hroom ⊢
    rw [escapeTail, if_neg (by omega)]
    simp only [Bool.false_eq_true, if_false, base64At, hfirst, hsecond, hthird]
  | true =>
    simp only [encoded, tailOfTwo, pads, if_true, length_append, length_cons,
      length_nil, length_replicate] at hroom ⊢
    rw [escapeTail, if_neg (by omega)]
    simp only [if_true]
    rw [if_neg (by omega)]
    simp only [base64At, hfirst, hsecond, hthird]
    rfl

theorem escapeTail_three (doPadding : Bool) (a b c : UInt8) {szdest : ℤ}
    (hroom : ((encoded base64 doPadding [a, b, c]).length : ℤ) ≤ szdest) :
    escapeTail base64 doPadding szdest [a, b, c] = (encoded base64 doPadding [a, b, c], true) := by
  have ha := a.toNat_lt
  have hload := toNat_load16 b c
  have hb := b.toNat_lt
  have hc := c.toNat_lt
  have hbits : (a.toUInt32 <<< 16 + load16 b c).toNat = bits24 a b c := by
    have hshift : (a.toUInt32 <<< 16).toNat = a.toNat * 2 ^ 16 := by
      rw [toNat_shiftLeft_of (n := 16) rfl (by rw [UInt8.toNat_toUInt32]; omega),
        UInt8.toNat_toUInt32]
    rw [UInt32.toNat_add, hshift, hload, bits24]
    omega
  simp only [encoded, append_nil] at hroom ⊢
  simp only [groupOf, length_cons, length_nil] at hroom
  rw [escapeTail, if_neg (by omega), escapeGroup_eq base64 hbits]

/-- The loop and the tail write the encoding, where there is room for it. -/
theorem escapeTail_escapeGroups (doPadding : Bool) (src : List UInt8) (szdest : ℤ)
    (hroom : ((encoded base64 doPadding src).length : ℤ) ≤ szdest) :
    (escapeTail base64 doPadding (szdest - (escapeGroups base64 src).1.length)
        (escapeGroups base64 src).2).2 = true ∧ (escapeGroups base64 src).1 ++
        (escapeTail base64 doPadding (szdest - (escapeGroups base64 src).1.length)
          (escapeGroups base64 src).2).1 = encoded base64 doPadding src := by
  induction src using encoded.induct generalizing szdest with
  | case1 => exact ⟨rfl, rfl⟩
  | case2 a =>
    simp only [escapeGroups, length_nil, Int.ofNat_zero, Int.sub_zero]
    rw [escapeTail_one base64 doPadding a hroom]
    exact ⟨rfl, rfl⟩
  | case3 a b =>
    simp only [escapeGroups, length_nil, Int.ofNat_zero, Int.sub_zero]
    rw [escapeTail_two base64 doPadding a b hroom]
    exact ⟨rfl, rfl⟩
  | case4 a b c src ih =>
    cases src with
    | nil =>
      simp only [escapeGroups, length_nil, Int.ofNat_zero, Int.sub_zero]
      rw [escapeTail_three base64 doPadding a b c hroom]
      exact ⟨rfl, rfl⟩
    | cons d src =>
      have hgroup := escapeGroup_eq base64 (toNat_load32_shiftRight a b c d)
      have hlength : (groupOf base64 (bits24 a b c)).length = 4 := rfl
      rw [encoded, length_append, hlength] at hroom
      simp only [escapeGroups, hgroup, length_append, hlength]
      have hszdest : szdest - ((4 + (escapeGroups base64 (d :: src)).1.length : ℕ) : ℤ) =
          szdest - 4 - (escapeGroups base64 (d :: src)).1.length := by omega
      obtain ⟨hall, hwritten⟩ := ih (szdest - 4) (by omega)
      rw [hszdest, encoded, append_assoc, hwritten]
      exact ⟨hall, rfl⟩

end

/-! ## Reading characters back -/

namespace Unescape

theorem toNat_bitsOf {i : ℕ} (hi : i < 2 ^ 6) : (bitsOf i).toNat = i := by
  have h : ∀ i < 64, (bitsOf (i : ℕ)).toNat = i := by decide
  exact h i hi

theorem toNat_shiftIn {temp : UInt32} {i n : ℕ} (hi : i < 2 ^ 6) (htemp : temp.toNat = n)
    (hn : n < 2 ^ 26) : (temp <<< 6 ||| bitsOf i).toNat = n * 2 ^ 6 + i := by
  have hshift : (temp <<< 6).toNat = n * 2 ^ 6 := by
    rw [toNat_shiftLeft_of (n := 6) rfl (by rw [htemp]; omega), htemp]
  rw [toNat_or_of_dvd (n := 6) (by rw [hshift]; omega) (by rw [toNat_bitsOf hi]; omega), hshift,
    toNat_bitsOf hi]

theorem toNat_four {i j k l : ℕ} (hi : i < 2 ^ 6) (hj : j < 2 ^ 6) (hk : k < 2 ^ 6) (hl : l < 2 ^ 6) :
    (bitsOf i <<< 18 ||| bitsOf j <<< 12 ||| bitsOf k <<< 6 ||| bitsOf l).toNat =
      i * 2 ^ 18 + j * 2 ^ 12 + k * 2 ^ 6 + l := by
  have hi' : (bitsOf i <<< 18).toNat = i * 2 ^ 18 := by
    rw [toNat_shiftLeft_of (n := 18) rfl (by rw [toNat_bitsOf hi]; omega), toNat_bitsOf hi]
  have hj' : (bitsOf j <<< 12).toNat = j * 2 ^ 12 := by
    rw [toNat_shiftLeft_of (n := 12) rfl (by rw [toNat_bitsOf hj]; omega), toNat_bitsOf hj]
  have hk' : (bitsOf k <<< 6).toNat = k * 2 ^ 6 := by
    rw [toNat_shiftLeft_of (n := 6) rfl (by rw [toNat_bitsOf hk]; omega), toNat_bitsOf hk]
  have hij : (bitsOf i <<< 18 ||| bitsOf j <<< 12).toNat = i * 2 ^ 18 + j * 2 ^ 12 := by
    rw [toNat_or_of_dvd (n := 18) (by rw [hi']; omega) (by rw [hj']; omega), hi', hj']
  have hijk : (bitsOf i <<< 18 ||| bitsOf j <<< 12 ||| bitsOf k <<< 6).toNat =
      i * 2 ^ 18 + j * 2 ^ 12 + k * 2 ^ 6 := by
    rw [toNat_or_of_dvd (n := 12) (by rw [hij]; omega) (by rw [hk']; omega), hij, hk']
  rw [toNat_or_of_dvd (n := 6) (by rw [hijk]; omega) (by rw [toNat_bitsOf hl]; omega), hijk,
    toNat_bitsOf hl]

theorem and_high_eq_zero_iff (x : UInt32) : x &&& 0x80000000 = 0 ↔ x.toNat.testBit 31 = false := by
  have hand : (x &&& 0x80000000).toNat = x.toNat &&& 2 ^ 31 := UInt32.toNat_and ..
  rw [← UInt32.toNat_inj, hand]
  constructor
  · intro hzero
    have hone : Nat.testBit (2 ^ 31) 31 = true := Nat.testBit_two_pow_self
    have hbit : (x.toNat &&& 2 ^ 31).testBit 31 = Nat.testBit 0 31 := congrArg (Nat.testBit · 31) hzero
    rwa [Nat.testBit_and, hone, Bool.and_true, Nat.zero_testBit] at hbit
  · intro hbit
    apply Nat.eq_of_testBit_eq
    intro i
    rw [Nat.testBit_and, Nat.testBit_two_pow]
    by_cases hi : 31 = i
    · simp [← hi, hbit]
    · simp [hi]

theorem testBit_or (x y : UInt32) :
    (x ||| y).toNat.testBit 31 = (x.toNat.testBit 31 || y.toNat.testBit 31) := by
  rw [UInt32.toNat_or, Nat.testBit_or]

theorem four_and_high_ne_zero (x y z : UInt32) : (x ||| y ||| bitsOf (-1) <<< 6 ||| z) &&& 0x80000000 ≠ 0 ∧
      (x ||| y ||| z ||| bitsOf (-1)) &&& 0x80000000 ≠ 0 := by
  have hshift : (bitsOf (-1) <<< 6).toNat.testBit 31 = true := by decide
  have hbits : (bitsOf (-1)).toNat.testBit 31 = true := by decide
  constructor
  · rw [ne_eq, and_high_eq_zero_iff, testBit_or, testBit_or, hshift, Bool.or_true, Bool.true_or]
    exact Bool.noConfusion
  · rw [ne_eq, and_high_eq_zero_iff, testBit_or, hbits, Bool.or_true]
    exact Bool.noConfusion

variable {base64 : List UInt8} {unbase64 : List ℤ} {szdest : ℕ} {d : Unescape}
  {dest : List UInt8}

/-- What follows the loop over four characters. -/
def finish (szdest : ℕ) (unbase64 : List ℤ) (d : Unescape) : Option (Option (List UInt8) × ℕ) := do
  if d.decode < 0 ∧ d.ch ≠ 0 ∧ ¬ isPad64 d.ch ∧ ¬ asciiIsspace d.ch then none
  else
    let d ←
      if isPad64 d.ch then some { d with src := d.ch :: d.src }
      else oneLoop unbase64 szdest d.src d
    let (d, expectedEquals) ← d.leftover szdest
    let equals ← countEquals 0 d.src
    if equals = 0 ∨ equals = expectedEquals then some (d.dest, d.destidx) else none

theorem base64UnescapeInternal_eq_finish (src : List UInt8) (dest : Option (List UInt8)) :
    base64UnescapeInternal src dest szdest unbase64 =
      (fourLoop unbase64 szdest (src.length + 1) ⟨src, dest, 0, 0, 0, 0, 0⟩).bind
        (finish szdest unbase64) := rfl

/-- The decoder before a group or a tail, with `dest` as its buffer. -/
structure Ready (szdest : ℕ) (d : Unescape) (dest : List UInt8) : Prop where
  dest_eq : d.dest = some dest
  length_eq : dest.length = szdest
  state_eq : d.state = 0
  ch_eq : d.ch = 0
  temp_lt : d.temp.toNat < 2 ^ 8

theorem toUInt8_of_toNat {x : UInt32} {b : UInt8} (h : x.toNat % 2 ^ 8 = b.toNat) : x.toUInt8 = b := by
  apply UInt8.toNat_inj.mp
  rw [UInt32.toNat_toUInt8, h]

/-- **A group** is taken apart. -/
theorem Ready.fourLoop_group (h : Ready szdest d dest) (codec : Codec base64 unbase64)
    {a b c : UInt8} {src : List UInt8} (hsrc : d.src = groupOf base64 (bits24 a b c) ++ src)
    (hroom : d.destidx + 3 ≤ szdest) (fuel : ℕ) :
    ∃ d', fourLoop unbase64 szdest (fuel + 1) d = fourLoop unbase64 szdest fuel d' ∧
      d'.src = src ∧ d'.destidx = d.destidx + 3 ∧ Ready szdest d' (Ring.blit dest d.destidx [a, b, c]) := by
  have ha := a.toNat_lt
  have hb := b.toNat_lt
  have hc := c.toNat_lt
  obtain ⟨v, hv⟩ : ∃ v, v = bits24 a b c := ⟨_, rfl⟩
  have hlt : v < 2 ^ 24 := by
    rw [hv, bits24]
    omega
  rw [← hv] at hsrc
  have hi : v / 2 ^ 18 < 2 ^ 6 := by omega
  have hj : v / 2 ^ 12 % 2 ^ 6 < 2 ^ 6 := Nat.mod_lt _ (by decide)
  have hk : v / 2 ^ 6 % 2 ^ 6 < 2 ^ 6 := Nat.mod_lt _ (by decide)
  have hl : v % 2 ^ 6 < 2 ^ 6 := Nat.mod_lt _ (by decide)
  have hfour := toNat_four hi hj hk hl
  generalize hx : bitsOf (v / 2 ^ 18 : ℕ) <<< 18 ||| bitsOf (v / 2 ^ 12 % 2 ^ 6 : ℕ) <<< 12 |||
    bitsOf (v / 2 ^ 6 % 2 ^ 6 : ℕ) <<< 6 ||| bitsOf (v % 2 ^ 6 : ℕ) = x at hfour
  have hvalue : x.toNat = v := by omega
  have hgood : x &&& 0x80000000 = 0 := by
    rw [and_high_eq_zero_iff, hvalue]
    exact Nat.testBit_lt_two_pow (by omega)
  have hnul : ¬ (base64.getD (v / 2 ^ 18) 0 = 0 ∨ base64.getD (v / 2 ^ 12 % 2 ^ 6) 0 = 0 ∨
      base64.getD (v / 2 ^ 6 % 2 ^ 6) 0 = 0) := by
    rintro (hzero | hzero | hzero)
    · exact codec.ne_zero _ hi hzero
    · exact codec.ne_zero _ hj hzero
    · exact codec.ne_zero _ hk hzero
  have hbytes : [(x >>> 16).toUInt8, (x >>> 8).toUInt8, x.toUInt8] = [a, b, c] := by
    rw [bits24] at hv
    have h₁ : (x >>> 16).toUInt8 = a :=
      toUInt8_of_toNat (by rw [toNat_shiftRight_of (n := 16) rfl, hvalue]; omega)
    have h₂ : (x >>> 8).toUInt8 = b :=
      toUInt8_of_toNat (by rw [toNat_shiftRight_of (n := 8) rfl, hvalue]; omega)
    have h₃ : x.toUInt8 = c := toUInt8_of_toNat (by rw [hvalue]; omega)
    rw [h₁, h₂, h₃]
  refine ⟨{ d with
    src
    dest := some (Ring.blit dest d.destidx [a, b, c])
    destidx := d.destidx + 3
    ch := 0
    temp := x >>> 16
    decode := -1 }, ?_, rfl, rfl, ?_⟩
  · rw [fourLoop, hsrc]
    simp only [groupOf, cons_append, nil_append, codec.value _ hi, codec.value _ hj,
      codec.value _ hk, codec.value _ hl, hx, hgood, hnul, decide_false, ne_eq, not_true_eq_false,
      or_false, Bool.false_eq_true, if_false]
    rw [writeThree]
    simp only [h.dest_eq, if_neg (Nat.not_lt.mpr hroom), hbytes, bind_some]
  · have hblit : d.destidx + [a, b, c].length ≤ dest.length := by
      rw [h.length_eq]
      exact hroom
    exact {
      dest_eq := rfl
      length_eq := by rw [Ring.length_blit hblit, h.length_eq]
      state_eq := h.state_eq
      ch_eq := rfl
      temp_lt := by
        simp only [toNat_shiftRight_of (x := x) (k := 16) (n := 16) rfl, hvalue]
        omega }

theorem oneLoop_data (codec : Codec base64 unbase64) {i : ℕ} (hi : i < 2 ^ 6) (src : List UInt8)
    (d : Unescape) (hstate : d.state + 1 ≠ 4) :
    oneLoop unbase64 szdest (base64.getD i 0 :: src) d = oneLoop unbase64 szdest src { d with
      ch := base64.getD i 0
      decode := i
      temp := d.temp <<< 6 ||| bitsOf i
      state := d.state + 1 } := by
  have hdecode : ¬ (i : ℤ) < 0 := Int.not_lt.mpr (Int.natCast_nonneg i)
  rw [oneLoop]
  simp only [codec.value i hi, hdecode, if_false, shiftIn, hstate]

theorem leftover_one (hstate : d.state = 2) (hdest : d.dest = some dest)
    (hroom : d.destidx + 1 ≤ szdest) {a : UInt8} {n : ℕ}
    (htemp : d.temp.toNat = n * 2 ^ 12 + a.toNat * 2 ^ 4) :
    d.leftover szdest = some ({ d with
      dest := some (Ring.blit dest d.destidx [a])
      temp := d.temp >>> 4
      destidx := d.destidx + 1 }, 2) := by
  have ha := a.toNat_lt
  have hbyte : (d.temp >>> 4).toUInt8 = a :=
    toUInt8_of_toNat (by rw [toNat_shiftRight_of (n := 4) rfl, htemp]; omega)
  rw [leftover]
  simp only [hstate, hdest, if_neg (Nat.not_lt.mpr hroom), hbyte]

theorem leftover_two (hstate : d.state = 3) (hdest : d.dest = some dest)
    (hroom : d.destidx + 2 ≤ szdest) {a b : UInt8} {n : ℕ}
    (htemp : d.temp.toNat = n * 2 ^ 18 + (a.toNat * 2 ^ 8 + b.toNat) * 2 ^ 2) :
    d.leftover szdest = some ({ d with
      dest := some (Ring.blit dest d.destidx [a, b])
      temp := d.temp >>> 2 >>> 8
      destidx := d.destidx + 2 }, 1) := by
  have ha := a.toNat_lt
  have hb := b.toNat_lt
  have hshift : (d.temp >>> 2).toNat = d.temp.toNat / 2 ^ 2 := toNat_shiftRight_of (n := 2) rfl
  have hfirst : (d.temp >>> 2 >>> 8).toUInt8 = a :=
    toUInt8_of_toNat (by rw [toNat_shiftRight_of (n := 8) rfl, hshift, htemp]; omega)
  have hsecond : (d.temp >>> 2).toUInt8 = b := toUInt8_of_toNat (by rw [hshift, htemp]; omega)
  rw [leftover]
  simp only [hstate, hdest, if_neg (Nat.not_lt.mpr hroom), hfirst, hsecond]

theorem finish_of_ch (hch : d.ch = 0) :
    finish szdest unbase64 d = (oneLoop unbase64 szdest d.src d).bind fun d =>
      (d.leftover szdest).bind fun r => (countEquals 0 r.1.src).bind fun equals =>
        if equals = 0 ∨ equals = r.2 then some (r.1.dest, r.1.destidx) else none := by
  have hpad : isPad64 0 = false := by decide
  rw [finish]
  simp [hch, hpad]

theorem finish_of_pad (hch : d.ch = 61) :
    finish szdest unbase64 d = (leftover szdest { d with src := 61 :: d.src }).bind fun r =>
      (countEquals 0 r.1.src).bind fun equals =>
        if equals = 0 ∨ equals = r.2 then some (r.1.dest, r.1.destidx) else none := by
  have hpad : isPad64 61 = true := by decide
  rw [finish]
  simp [hch, hpad]

theorem tail_indices (a b : UInt8) : a.toNat / 2 ^ 2 < 2 ^ 6 ∧ a.toNat % 2 ^ 2 * 2 ^ 4 < 2 ^ 6 ∧
      (a.toNat * 2 ^ 8 + b.toNat) / 2 ^ 10 < 2 ^ 6 ∧ (a.toNat * 2 ^ 8 + b.toNat) / 2 ^ 4 % 2 ^ 6 < 2 ^ 6 ∧
      (a.toNat * 2 ^ 8 + b.toNat) % 2 ^ 4 * 2 ^ 2 < 2 ^ 6 := by
  have ha := a.toNat_lt
  have hb := b.toNat_lt
  omega

theorem getInput_data (codec : Codec base64 unbase64) {i : ℕ} (hi : i < 2 ^ 6) (remain : ℕ)
    (d : Unescape) (src : List UInt8) : d.getInput unbase64 remain (base64.getD i 0 :: src) =
      (true, { d with src, ch := base64.getD i 0, decode := i }) := by
  have hdecode : ¬ (i : ℤ) < 0 := Int.not_lt.mpr (Int.natCast_nonneg i)
  rw [getInput]
  simp only [codec.value i hi, hdecode, if_false]

theorem getInput_pad (codec : Codec base64 unbase64) (remain : ℕ) (d : Unescape) (src : List UInt8) :
    d.getInput unbase64 remain (61 :: src) =
      (false, { d with src, ch := 61, decode := -1, state := 4 - remain }) := by
  have hspace : asciiIsspace 61 = false := by decide
  rw [getInput]
  simp [codec.pad, hspace]

/-- Where the third or the fourth of four characters is a pad character, they are read one at
a time. -/
theorem fourLoop_of_pad (codec : Codec base64 unbase64) {c₀ c₁ c₂ c₃ : UInt8}
    (hsrc : d.src = [c₀, c₁, c₂, c₃]) (hbad : c₂ = 61 ∨ c₃ = 61) {d' : Unescape}
    (hread : ∀ temp : UInt32, { d with temp }.readFour unbase64 = (false, d')) (fuel : ℕ) :
    fourLoop unbase64 szdest (fuel + 1) d = some d' := by
  obtain ⟨src, dest, destidx, state, ch, temp, decode⟩ := d
  obtain rfl : src = [c₀, c₁, c₂, c₃] := hsrc
  have hread' : ∀ temp : UInt32, readFour unbase64
      ⟨[c₀, c₁, c₂, c₃], dest, destidx, state, ch, temp, decode⟩ = (false, d') := hread
  have hhigh : (bitsOf (unbase64At unbase64 c₀) <<< 18 ||| bitsOf (unbase64At unbase64 c₁) <<< 12 |||
      bitsOf (unbase64At unbase64 c₂) <<< 6 ||| bitsOf (unbase64At unbase64 c₃)) &&&
        0x80000000 ≠ 0 := by
    rcases hbad with rfl | rfl
    · rw [codec.pad]
      exact (four_and_high_ne_zero _ _ _).1
    · rw [codec.pad]
      exact (four_and_high_ne_zero _ _ _).2
  rw [fourLoop]
  simp only [hhigh, ne_eq, not_false_eq_true, or_true, if_true]
  by_cases hnul : c₀ = 0 ∨ c₁ = 0 ∨ c₂ = 0
  · simp only [hnul, decide_true, if_true, hread', Bool.false_eq_true, if_false]
  · simp only [hnul, decide_false, hread', Bool.false_eq_true, if_false]

/-- **A byte** at the end. -/
theorem Ready.tail_one (h : Ready szdest d dest) (codec : Codec base64 unbase64)
    {doPadding : Bool} {a : UInt8} (hsrc : d.src = encoded base64 doPadding [a])
    (hroom : d.destidx + 1 ≤ szdest) (fuel : ℕ) :
    (fourLoop unbase64 szdest (fuel + 1) d).bind (finish szdest unbase64) =
      some (some (Ring.blit dest d.destidx [a]), d.destidx + 1) := by
  obtain ⟨hi, hj, -⟩ := tail_indices a 0
  have htemp := h.temp_lt
  cases doPadding with
  | false =>
    simp only [encoded, tailOfOne, pads, Bool.false_eq_true, if_false, append_nil] at hsrc
    rw [fourLoop, hsrc]
    simp only [bind_some]
    rw [finish_of_ch h.ch_eq, hsrc, oneLoop_data codec hi _ _ (by rw [h.state_eq]; decide),
      oneLoop_data codec hj _ _ (by simp [h.state_eq]), oneLoop]
    have hfirst := toNat_shiftIn hi (rfl : d.temp.toNat = _) (by omega)
    have hsecond := toNat_shiftIn hj hfirst (by omega)
    simp only [bind_some]
    rw [leftover_one (a := a) (n := d.temp.toNat) (by simp [h.state_eq]) (by exact h.dest_eq)
      (by exact hroom) (by simp only [hsecond]; omega)]
    simp [countEquals]
  | true =>
    have hsrc' : d.src = [base64.getD (a.toNat / 2 ^ 2) 0,
        base64.getD (a.toNat % 2 ^ 2 * 2 ^ 4) 0, 61, 61] := hsrc
    have hread : ∀ temp : UInt32, { d with temp }.readFour unbase64 = (false, { d with
        src := [61]
        ch := 61
        temp := bitsOf (a.toNat / 2 ^ 2 : ℕ) <<< 6 ||| bitsOf (a.toNat % 2 ^ 2 * 2 ^ 4 : ℕ)
        decode := -1
        state := 2 }) := by
      intro temp
      simp only [readFour, hsrc', h.dest_eq, getInput_data codec hi, getInput_data codec hj,
        getInput_pad codec, Bool.not_true, Bool.not_false, Bool.false_eq_true, if_false, if_true,
        isSome_some, shiftIn]
    have hfirst := toNat_bitsOf hi
    have hsecond := toNat_shiftIn hj hfirst (by omega)
    rw [fourLoop_of_pad codec hsrc' (.inl rfl) hread]
    simp only [bind_some]
    rw [finish_of_pad rfl, leftover_one (a := a) (n := 0) (by rfl) (by exact h.dest_eq)
      (by exact hroom) (by simp only [hsecond]; omega)]
    simp [countEquals, isPad64]

/-- **Two bytes** at the end. -/
theorem Ready.tail_two (h : Ready szdest d dest) (codec : Codec base64 unbase64)
    {doPadding : Bool} {a b : UInt8} (hsrc : d.src = encoded base64 doPadding [a, b])
    (hroom : d.destidx + 2 ≤ szdest) (fuel : ℕ) :
    (fourLoop unbase64 szdest (fuel + 1) d).bind (finish szdest unbase64) =
      some (some (Ring.blit dest d.destidx [a, b]), d.destidx + 2) := by
  obtain ⟨-, -, hi, hj, hk⟩ := tail_indices a b
  have htemp := h.temp_lt
  cases doPadding with
  | false =>
    simp only [encoded, tailOfTwo, pads, Bool.false_eq_true, if_false, append_nil] at hsrc
    rw [fourLoop, hsrc]
    simp only [bind_some]
    rw [finish_of_ch h.ch_eq, hsrc, oneLoop_data codec hi _ _ (by rw [h.state_eq]; decide),
      oneLoop_data codec hj _ _ (by simp [h.state_eq]),
      oneLoop_data codec hk _ _ (by simp [h.state_eq]), oneLoop]
    have hfirst := toNat_shiftIn hi (rfl : d.temp.toNat = _) (by omega)
    have hsecond := toNat_shiftIn hj hfirst (by omega)
    have hthird := toNat_shiftIn hk hsecond (by omega)
    simp only [bind_some]
    rw [leftover_two (a := a) (b := b) (n := d.temp.toNat) (by simp [h.state_eq])
      (by exact h.dest_eq) (by exact hroom) (by simp only [hthird]; omega)]
    simp [countEquals]
  | true =>
    have hsrc' : d.src = [base64.getD ((a.toNat * 2 ^ 8 + b.toNat) / 2 ^ 10) 0,
        base64.getD ((a.toNat * 2 ^ 8 + b.toNat) / 2 ^ 4 % 2 ^ 6) 0,
        base64.getD ((a.toNat * 2 ^ 8 + b.toNat) % 2 ^ 4 * 2 ^ 2) 0, 61] := hsrc
    have hread : ∀ temp : UInt32, { d with temp }.readFour unbase64 = (false, { d with
        src := []
        ch := 61
        temp := (bitsOf ((a.toNat * 2 ^ 8 + b.toNat) / 2 ^ 10 : ℕ) <<< 6 |||
          bitsOf ((a.toNat * 2 ^ 8 + b.toNat) / 2 ^ 4 % 2 ^ 6 : ℕ)) <<< 6 |||
            bitsOf ((a.toNat * 2 ^ 8 + b.toNat) % 2 ^ 4 * 2 ^ 2 : ℕ)
        decode := -1
        state := 3 }) := by
      intro temp
      simp only [readFour, hsrc', h.dest_eq, getInput_data codec hi, getInput_data codec hj,
        getInput_data codec hk, getInput_pad codec, Bool.not_true, Bool.not_false,
        Bool.false_eq_true, if_false, if_true, isSome_some, shiftIn]
    have hfirst := toNat_bitsOf hi
    have hsecond := toNat_shiftIn hj hfirst (by omega)
    have hthird := toNat_shiftIn hk hsecond (by omega)
    rw [fourLoop_of_pad codec hsrc' (.inr rfl) hread]
    simp only [bind_some]
    rw [finish_of_pad rfl, leftover_two (a := a) (b := b) (n := 0) (by rfl)
      (by exact h.dest_eq) (by exact hroom) (by simp only [hthird]; omega)]
    simp [countEquals, isPad64]

/-- **The decoder** takes the encoding apart. -/
theorem Ready.fourLoop_encoded (codec : Codec base64 unbase64) (doPadding : Bool)
    (s : List UInt8) (h : Ready szdest d dest) (hsrc : d.src = encoded base64 doPadding s)
    (hroom : d.destidx + s.length ≤ szdest) (fuel : ℕ) (hfuel : s.length < fuel) :
    ∃ dest', (fourLoop unbase64 szdest fuel d).bind (finish szdest unbase64) =
        some (some dest', d.destidx + s.length) ∧
      dest'.take (d.destidx + s.length) = dest.take d.destidx ++ s := by
  have htake : ∀ (dest : List UInt8) (n : ℕ) (bytes : List UInt8), n + bytes.length ≤ dest.length →
      (Ring.blit dest n bytes).take (n + bytes.length) = dest.take n ++ bytes := by
    intro dest n bytes hle
    rw [Ring.take_blit (by omega) (Nat.le_refl _), take_length]
  have hlength := h.length_eq
  induction s using encoded.induct generalizing d dest fuel with
  | case1 =>
    obtain ⟨fuel, rfl⟩ := Nat.exists_eq_succ_of_ne_zero (show fuel ≠ 0 by omega)
    refine ⟨dest, ?_, by simp⟩
    rw [fourLoop, hsrc]
    simp only [encoded, bind_some]
    rw [finish_of_ch h.ch_eq, hsrc]
    simp [encoded, oneLoop, leftover, h.state_eq, countEquals, h.dest_eq]
  | case2 a =>
    obtain ⟨fuel, rfl⟩ := Nat.exists_eq_succ_of_ne_zero (show fuel ≠ 0 by omega)
    exact ⟨_, h.tail_one codec hsrc hroom fuel, htake _ _ [a] (by rw [hlength]; exact hroom)⟩
  | case3 a b =>
    obtain ⟨fuel, rfl⟩ := Nat.exists_eq_succ_of_ne_zero (show fuel ≠ 0 by omega)
    exact ⟨_, h.tail_two codec hsrc hroom fuel, htake _ _ [a, b] (by rw [hlength]; exact hroom)⟩
  | case4 a b c src ih =>
    obtain ⟨fuel, rfl⟩ := Nat.exists_eq_succ_of_ne_zero (show fuel ≠ 0 by omega)
    simp only [length_cons] at hroom hfuel ⊢
    obtain ⟨d', hloop, hsrc', hidx, hready⟩ := h.fourLoop_group codec hsrc (by omega) fuel
    obtain ⟨dest', hrest, htaken⟩ := ih hready hsrc' (by omega) fuel (by omega) hready.length_eq
    have hgroup := htake dest d.destidx [a, b, c] (by
      rw [hlength, length_cons, length_cons, length_singleton]
      omega)
    have hcount : d.destidx + (src.length + 1 + 1 + 1) = d'.destidx + src.length := by omega
    refine ⟨dest', ?_, ?_⟩
    · rw [hloop, hcount]
      exact hrest
    · rw [hcount, htaken, hidx]
      simp only [length_cons, length_nil] at hgroup
      rw [hgroup, append_assoc]
      rfl

end Unescape

/-! ## Lengths -/

def encodedLen (doPadding : Bool) (n : ℕ) : ℕ :=
  n / 3 * 4 + if n % 3 = 0 then 0 else if n % 3 = 1 then 2 + (if doPadding then 2 else 0)
    else 3 + if doPadding then 1 else 0

theorem length_encoded (base64 : List UInt8) (doPadding : Bool) (s : List UInt8) :
    (encoded base64 doPadding s).length = encodedLen doPadding s.length := by
  induction s using encoded.induct with
  | case1 => rfl
  | case2 a => cases doPadding <;> simp [encoded, tailOfOne, pads, encodedLen]
  | case3 a b => cases doPadding <;> simp [encoded, tailOfTwo, pads, encodedLen]
  | case4 a b c src ih =>
    have hdiv : (src.length + 1 + 1 + 1) / 3 = src.length / 3 + 1 := by omega
    have hmod : (src.length + 1 + 1 + 1) % 3 = src.length % 3 := by omega
    rw [encoded, length_append, ih]
    simp only [encodedLen, length_cons, hdiv, hmod, groupOf, length_nil]
    omega

theorem wrapInt_of_lt {n : ℤ} (hn : 0 ≤ n) (h : n < 2 ^ 31) : wrapInt n = n := by
  rw [wrapInt, Int.bmod_def]
  split_ifs <;> omega

theorem calculateBase64EscapedLen_eq {n : ℕ} (h : n < 2 ^ 29) (doPadding : Bool) :
    calculateBase64EscapedLen n doPadding = encodedLen doPadding n := by
  have hdiv : (n : ℤ).tdiv 3 = (n / 3 : ℕ) := by
    rw [Int.tdiv_eq_ediv_of_nonneg (Int.natCast_nonneg n)]
    rfl
  have hmod : (n : ℤ).tmod 3 = (n % 3 : ℕ) := by
    rw [Int.tmod_eq_emod_of_nonneg (Int.natCast_nonneg n)]
    rfl
  have hlt : encodedLen doPadding n < 2 ^ 30 := by
    rw [encodedLen]
    split_ifs <;> omega
  rw [encodedLen] at hlt
  have hquot : wrapInt ((n / 3 : ℕ) * 4) = ((n / 3 * 4 : ℕ) : ℤ) := by
    rw [wrapInt_of_lt (by omega) (by omega)]
    omega
  have hzero : ((n % 3 : ℕ) : ℤ) = 0 ↔ n % 3 = 0 := by omega
  have hone : ((n % 3 : ℕ) : ℤ) = 1 ↔ n % 3 = 1 := by omega
  simp only [calculateBase64EscapedLen, hdiv, hmod, hquot, encodedLen, hzero, hone]
  split_ifs at hlt ⊢
  · rfl
  all_goals
    rw [wrapInt_of_lt (by omega) (by omega)]
    omega

/-! ## The encoder -/

variable {src : List UInt8}

theorem base64EscapeInternal_eq (h : src.length < 2 ^ 29) (base64 : List UInt8)
    (doPadding : Bool) (hroom : encodedLen doPadding src.length * 3 < 2 ^ 31) :
    base64EscapeInternal src (encodedLen doPadding src.length) base64 doPadding =
      ⟨encodedLen doPadding src.length, encoded base64 doPadding src⟩ := by
  have hlength := length_encoded base64 doPadding src
  have htoInt : toInt src.length = src.length := toInt_of_lt (by omega)
  by_cases hempty : src = []
  · subst hempty
    rfl
  · have hpos : 0 < src.length := length_pos_of_ne_nil hempty
    have henough : src.length * 4 ≤ encodedLen doPadding src.length * 3 := by
      rw [encodedLen]
      split_ifs <;> omega
    obtain ⟨hall, hwritten⟩ := escapeTail_escapeGroups base64 doPadding src
      (encodedLen doPadding src.length) (Int.le_of_eq (congrArg _ hlength))
    rw [base64EscapeInternal]
    simp only [htoInt]
    rw [if_neg (by omega), wrapInt_of_lt (by omega) (by omega), wrapInt_of_lt (by omega) (by omega),
      if_neg (by omega), hwritten, hlength, if_pos hall]

theorem base64EscapeInternal_overflow (h : src.length < 2 ^ 29) (base64 : List UInt8) (doPadding : Bool)
    (hroom : 2 ^ 31 ≤ encodedLen doPadding src.length * 3)
    (hlt : encodedLen doPadding src.length * 3 < 2 ^ 32) :
    base64EscapeInternal src (encodedLen doPadding src.length) base64 doPadding = ⟨0, []⟩ := by
  have htoInt : toInt src.length = src.length := toInt_of_lt (by omega)
  have hwrap : wrapInt ((encodedLen doPadding src.length : ℤ) * 3) < 0 := by
    have hmod : (encodedLen doPadding src.length : ℤ) * 3 % ((2 ^ 32 : ℕ) : ℤ) =
        encodedLen doPadding src.length * 3 := Int.emod_eq_of_lt (by omega) (by omega)
    rw [wrapInt, Int.bmod_def, hmod]
    split_ifs <;> omega
  rw [base64EscapeInternal]
  simp only [htoInt]
  split
  · rfl
  · rw [wrapInt_of_lt (n := (src.length : ℤ) * 4) (by omega) (by omega), if_pos (by omega)]

theorem base64EscapeString_eq (h : src.length < 2 ^ 29) (doPadding : Bool)
    (base64 : List UInt8) (hroom : encodedLen doPadding src.length * 3 < 2 ^ 31) :
    base64EscapeString src doPadding base64 = some (encoded base64 doPadding src) := by
  have hlength := length_encoded base64 doPadding src
  have hblit : Ring.blit (replicate (encodedLen doPadding src.length) 0) 0
      (encoded base64 doPadding src) = encoded base64 doPadding src := by
    rw [Ring.blit, take_zero, nil_append, zero_add, hlength,
      drop_eq_nil_of_le (by rw [length_replicate]), append_nil]
  rw [base64EscapeString]
  simp only [toInt_of_lt (show src.length < 2 ^ 31 by omega), calculateBase64EscapedLen_eq h]
  rw [if_neg (Int.not_lt.mpr (Int.natCast_nonneg _)), Int.toNat_natCast,
    base64EscapeInternal_eq h base64 doPadding hroom, hblit, ← hlength, take_length]

/-! ## The decoder on strings -/

variable {s : List UInt8}

theorem base64UnescapeString_encoded {base64 : List UInt8} {unbase64 : List ℤ}
    (codec : Codec base64 unbase64) (doPadding : Bool) (h : s.length < 2 ^ 29) :
    base64UnescapeString (encoded base64 doPadding s) unbase64 = some s := by
  have hlength := length_encoded base64 doPadding s
  have hlen : encodedLen doPadding s.length < 2 ^ 30 ∧
      s.length ≤ 3 * (encodedLen doPadding s.length / 4) + encodedLen doPadding s.length % 4 := by
    rw [encodedLen]
    split_ifs <;> omega
  obtain ⟨hlt, hle⟩ := hlen
  obtain ⟨slen, hslen⟩ : ∃ slen, slen = encodedLen doPadding s.length := ⟨_, rfl⟩
  rw [← hslen] at hlength hlt hle
  have hdiv : (slen : ℤ).tdiv 4 = (slen / 4 : ℕ) := by
    rw [Int.tdiv_eq_ediv_of_nonneg (Int.natCast_nonneg slen)]
    rfl
  have hmod : (slen : ℤ).tmod 4 = (slen % 4 : ℕ) := by
    rw [Int.tmod_eq_emod_of_nonneg (Int.natCast_nonneg slen)]
    rfl
  have hdest : wrapInt (wrapInt (3 * (slen : ℤ).tdiv 4) + (slen : ℤ).tmod 4) =
      (3 * (slen / 4) + slen % 4 : ℕ) := by
    rw [hdiv, hmod, wrapInt_of_lt (n := 3 * ((slen / 4 : ℕ) : ℤ)) (by omega) (by omega),
      wrapInt_of_lt (by omega) (by omega)]
    omega
  rw [base64UnescapeString]
  simp only [hlength, toInt_of_lt (show slen < 2 ^ 31 by omega), hdest,
    if_neg (Int.not_lt.mpr (Int.natCast_nonneg _)), Int.toNat_natCast]
  generalize hdestLen : 3 * (slen / 4) + slen % 4 = destLen at hle ⊢
  by_cases hempty : s = []
  · subst hempty
    have hzero : encodedLen doPadding 0 = 0 := rfl
    rw [length_nil, hzero] at hslen
    obtain rfl : destLen = 0 := by omega
    rfl
  · have hpos : 0 < s.length := length_pos_of_ne_nil hempty
    have hne : replicate destLen (0 : UInt8) ≠ [] := by
      apply ne_nil_of_length_pos
      rw [length_replicate]
      omega
    have hready : Unescape.Ready destLen
        ⟨encoded base64 doPadding s, some (replicate destLen 0), 0, 0, 0, 0, 0⟩
        (replicate destLen 0) := {
      dest_eq := rfl
      length_eq := length_replicate ..
      state_eq := rfl
      ch_eq := rfl
      temp_lt := Nat.two_pow_pos 8 }
    obtain ⟨dest', hloop, htaken⟩ := hready.fourLoop_encoded codec doPadding s rfl
      (by simp only; omega) (slen + 1) (by rw [← hslen] at *; omega)
    simp only [zero_add] at hloop htaken
    rw [if_neg hne, Unescape.base64UnescapeInternal_eq_finish, hlength, hloop]
    simp only [bind_eq_bind, bind_some, getD_some, htaken, take_zero, nil_append]

/-! ## The round trips -/

/-- Escaping gives a text of the length that was computed, writes nothing beyond it, and
unescaping the text gives the bytes back. -/
def Base64RoundTrips (escape unescape : List UInt8 → Option (List UInt8)) (base64 : List UInt8)
    (doPadding : Bool) (s : List UInt8) : Prop :=
  let len := calculateBase64EscapedLen (toInt s.length) doPadding
  ∃ text, escape s = some text ∧ (text.length : ℤ) = len ∧
    ((base64EscapeInternal s len base64 doPadding).written.length : ℤ) ≤ len ∧
    unescape text = some s

theorem base64RoundTrips_of_lt {base64 : List UInt8} {unbase64 : List ℤ}
    (codec : Codec base64 unbase64) {doPadding : Bool} (h : s.length < 2 ^ 29)
    (hroom : encodedLen doPadding s.length * 3 < 2 ^ 31) :
    Base64RoundTrips (base64EscapeString · doPadding base64) (base64UnescapeString · unbase64)
      base64 doPadding s := by
  have hlength := length_encoded base64 doPadding s
  rw [Base64RoundTrips, toInt_of_lt (show s.length < 2 ^ 31 by omega),
    calculateBase64EscapedLen_eq h]
  refine ⟨encoded base64 doPadding s, base64EscapeString_eq h doPadding base64 hroom, ?_, ?_,
    base64UnescapeString_encoded codec doPadding h⟩
  · rw [hlength]
  · rw [base64EscapeInternal_eq h base64 doPadding hroom]
    exact Int.le_of_eq (congrArg _ hlength)

theorem not_base64RoundTrips_of_le {base64 : List UInt8} {unbase64 : List ℤ} {doPadding : Bool} (h : s.length < 2 ^ 29)
    (hroom : 2 ^ 31 ≤ encodedLen doPadding s.length * 3) (hlt : encodedLen doPadding s.length * 3 < 2 ^ 32) :
    ¬ Base64RoundTrips (base64EscapeString · doPadding base64)
      (base64UnescapeString · unbase64) base64 doPadding s := by
  rw [Base64RoundTrips, toInt_of_lt (show s.length < 2 ^ 31 by omega),
    calculateBase64EscapedLen_eq h]
  rintro ⟨text, htext, hlength, -⟩
  rw [base64EscapeString] at htext
  simp only [toInt_of_lt (show s.length < 2 ^ 31 by omega), calculateBase64EscapedLen_eq h,
    if_neg (Int.not_lt.mpr (Int.natCast_nonneg _)),
    base64EscapeInternal_overflow h base64 doPadding hroom hlt, take_zero,
    some.injEq] at htext
  rw [← htext, length_nil] at hlength
  omega

theorem encodedLen_lt_iff {n : ℕ} (h : n < 2 ^ 29) : encodedLen true n * 3 < 2 ^ 31 ↔ n ≠ 2 ^ 29 - 1 := by
  simp only [encodedLen, if_true]
  split_ifs <;> omega

theorem base64RoundTrips_padded_iff {base64 : List UInt8} {unbase64 : List ℤ}
    (codec : Codec base64 unbase64) (h : s.length < 2 ^ 29) :
    Base64RoundTrips (base64EscapeString · true base64) (base64UnescapeString · unbase64)
      base64 true s ↔ s.length ≠ 2 ^ 29 - 1 := by
  rw [← encodedLen_lt_iff h]
  constructor
  · intro hround
    by_contra hroom
    have hlt : encodedLen true s.length * 3 < 2 ^ 32 := by
      rw [encodedLen]
      split_ifs <;> omega
    exact not_base64RoundTrips_of_le h (Nat.not_lt.mp hroom) hlt hround
  · exact base64RoundTrips_of_lt codec h

/-- **The round trips**, for every byte string of length below 2^29.  The unpadded form always
gives the bytes back.  With padding, `szdest * 3` overflows for the last length, the encoder
takes the buffer for too small, and the text is empty. -/
theorem base64_roundTrips_iff (s : List UInt8) (h : s.length < 2 ^ 29) :
    (Base64RoundTrips base64Escape base64Unescape kBase64Chars true s ↔ s.length ≠ 2 ^ 29 - 1) ∧
      Base64RoundTrips webSafeBase64Escape webSafeBase64Unescape kWebSafeBase64Chars false s ∧
      (Base64RoundTrips webSafeBase64EscapeWithPadding webSafeBase64Unescape
          kWebSafeBase64Chars true s ↔
        s.length ≠ 2 ^ 29 - 1) := by
  refine ⟨base64RoundTrips_padded_iff base64_codec h, ?_, base64RoundTrips_padded_iff webSafe_codec h⟩
  apply base64RoundTrips_of_lt webSafe_codec h
  simp only [encodedLen, Bool.false_eq_true, if_false]
  split_ifs <;> omega

theorem base64_roundTrips_four :
    Base64RoundTrips base64Escape base64Unescape kBase64Chars true [3, 2, 1, 255] ∧
      Base64RoundTrips webSafeBase64Escape webSafeBase64Unescape kWebSafeBase64Chars false
        [3, 2, 1, 255] := by
  have h := base64_roundTrips_iff [3, 2, 1, 255] (by decide)
  exact ⟨h.1.mpr (by decide), h.2.1⟩

/-- The longest string is escaped to nothing. -/
theorem not_base64RoundTrips_last : ¬ Base64RoundTrips base64Escape base64Unescape kBase64Chars true
      (replicate (2 ^ 29 - 1) 0) := by
  obtain ⟨n, hn⟩ : ∃ n, n = 2 ^ 29 - 1 := ⟨_, rfl⟩
  rw [← hn]
  have hlength : (replicate n (0 : UInt8)).length = n := length_replicate ..
  have hiff := base64RoundTrips_padded_iff base64_codec (s := replicate n 0) (by omega)
  intro hround
  exact hiff.mp hround (hlength.trans hn)

end Protoc.Stubs
