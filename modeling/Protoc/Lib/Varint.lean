import Mathlib.Data.BitVec
import Mathlib.Tactic.Ring

/-!
# Base 128 varints and zigzag

A varint holds seven bits a byte, lowest first; every byte but the last one has its
high bit set.
-/

namespace Protoc.Lib

/-! ## The zigzag of a word -/

variable {w : ℕ}

/-- The word moved up by one bit, under a mask that is its sign. -/
def zigzag (x : BitVec w) : BitVec w := x <<< 1 ^^^ x.sshiftRight (w - 1)

/-- The word moved down by one bit, under a mask that is its lowest bit. -/
def unzigzag (x : BitVec w) : BitVec w := x >>> 1 ^^^ (~~~(x &&& 1#w) + 1#w)

def spread (w : ℕ) (b : Bool) : BitVec w := if b then BitVec.allOnes w else 0#w

theorem getLsbD_spread (b : Bool) (i : ℕ) : (spread w b).getLsbD i = (decide (i < w) && b) := by
  cases b <;> simp [spread]

section
variable (x : BitVec w)
include x

theorem sshiftRight_pred : x.sshiftRight (w - 1) = spread w x.msb := by
  apply BitVec.eq_of_getLsbD_eq
  intro i hi
  rw [BitVec.getLsbD_sshiftRight, getLsbD_spread]
  split
  · next hfirst =>
    obtain rfl : i = 0 := by omega
    simp [hi, hi.ne', BitVec.msb_eq_getLsbD_last]
  · simp [hi]

theorem not_and_one_add_one : ~~~(x &&& 1#w) + 1#w = spread w (x.getLsbD 0) := by
  rw [← BitVec.neg_eq_not_add, BitVec.and_one_eq_setWidth_ofBool_getLsbD]
  cases x.getLsbD 0 with
  | false => simp [spread]
  | true =>
    have hone : BitVec.setWidth w (BitVec.ofBool true) = 1#w := BitVec.eq_of_toNat_eq (by simp)
    rw [hone, spread, if_pos rfl, ← BitVec.neg_one_eq_allOnes]

theorem getLsbD_zigzag_zero : (zigzag x).getLsbD 0 = x.msb := by
  rw [zigzag, sshiftRight_pred, BitVec.getLsbD_xor, getLsbD_spread]
  rcases Nat.eq_zero_or_pos w with rfl | hpos
  · simp [BitVec.msb_eq_getLsbD_last]
  · simp [hpos]

theorem getLsbD_zigzag_succ {i : ℕ} (hi : i + 1 < w) : (zigzag x).getLsbD (i + 1) = (x.getLsbD i ^^ x.msb) := by
  rw [zigzag, sshiftRight_pred, BitVec.getLsbD_xor, getLsbD_spread, BitVec.getLsbD_shiftLeft]
  simp [hi]

theorem getLsbD_unzigzag {i : ℕ} (hi : i < w) :
    (unzigzag x).getLsbD i = (x.getLsbD (i + 1) ^^ x.getLsbD 0) := by
  rw [unzigzag, not_and_one_add_one, BitVec.getLsbD_xor, getLsbD_spread, BitVec.getLsbD_ushiftRight,
    add_comm 1 i]
  simp [hi]

theorem msb_unzigzag : (unzigzag x).msb = x.getLsbD 0 := by
  rw [BitVec.msb_eq_getLsbD_last]
  rcases Nat.eq_zero_or_pos w with rfl | hpos
  · simp
  · rw [getLsbD_unzigzag x (Nat.sub_lt hpos Nat.one_pos), Nat.sub_add_cancel hpos,
      BitVec.getLsbD_of_ge x w le_rfl, Bool.false_xor]

/-- **Encoding and decoding.** -/
theorem unzigzag_zigzag : unzigzag (zigzag x) = x := by
  apply BitVec.eq_of_getLsbD_eq
  intro i hi
  rw [getLsbD_unzigzag _ hi, getLsbD_zigzag_zero]
  rcases lt_or_ge (i + 1) w with hlt | hge
  · rw [getLsbD_zigzag_succ x hlt, Bool.xor_assoc, Bool.xor_self, Bool.xor_false]
  · -- the highest bit is the sign
    obtain rfl : w = i + 1 := by omega
    rw [BitVec.getLsbD_of_ge _ _ le_rfl, Bool.false_xor, BitVec.msb_eq_getLsbD_last, Nat.add_sub_cancel]

/-- **Decoding and encoding.** -/
theorem zigzag_unzigzag : zigzag (unzigzag x) = x := by
  apply BitVec.eq_of_getLsbD_eq
  intro i hi
  cases i with
  | zero => rw [getLsbD_zigzag_zero, msb_unzigzag]
  | succ i =>
    rw [getLsbD_zigzag_succ _ hi, getLsbD_unzigzag x (Nat.lt_of_succ_lt hi), msb_unzigzag, Bool.xor_assoc,
      Bool.xor_self, Bool.xor_false]

end

end Protoc.Lib

namespace Protoc.Lib

/-! ## Base 128 varints -/

/-- The varint of at most `n` bytes at the head of the bytes, and its length. -/
def readVarint : ℕ → List UInt8 → Option (ℕ × ℕ)
  | 0, _ => none
  | _ + 1, [] => none
  | n + 1, b :: rest =>
    if b.toNat < 0x80 then some (b.toNat, 1)
    else (readVarint n rest).map fun r => (b.toNat - 0x80 + 0x80 * r.1, r.2 + 1)

variable {n : ℕ}

theorem readVarint_cons_of_lt {b : UInt8} (rest : List UInt8) (h : b.toNat < 0x80) :
    readVarint (n + 1) (b :: rest) = some (b.toNat, 1) := by
  simp [readVarint, h]

theorem readVarint_cons_of_le {b : UInt8} (rest : List UInt8) (h : 0x80 ≤ b.toNat) :
    readVarint (n + 1) (b :: rest) =
      (readVarint n rest).map fun r => (b.toNat - 0x80 + 0x80 * r.1, r.2 + 1) := by
  rw [readVarint, if_neg (by omega)]

variable {bytes : List UInt8}

theorem readVarint_length {n v len : ℕ}
    (h : readVarint n bytes = some (v, len)) : 0 < len ∧ len ≤ n ∧ len ≤ bytes.length := by
  induction n generalizing bytes v len with
  | zero => simp [readVarint] at h
  | succ n ih =>
    cases bytes with
    | nil => simp [readVarint] at h
    | cons b rest =>
      by_cases hb : b.toNat < 0x80
      · rw [readVarint_cons_of_lt rest hb] at h
        cases h
        simp
      · rw [readVarint_cons_of_le rest (by omega), Option.map_eq_some_iff] at h
        obtain ⟨⟨v', len'⟩, hrest, hr⟩ := h
        cases hr
        obtain ⟨hpos, hn, hlen⟩ := ih hrest
        simp only [List.length_cons]
        omega

theorem readVarint_append (bytes more : List UInt8) (h : n ≤ bytes.length ∨ ∃ b ∈ bytes, b.toNat < 0x80) :
    readVarint n (bytes ++ more) = readVarint n bytes := by
  induction n generalizing bytes with
  | zero => simp [readVarint]
  | succ n ih =>
    cases bytes with
    | nil => simp at h
    | cons b rest =>
      by_cases hb : b.toNat < 0x80
      · rw [List.cons_append, readVarint_cons_of_lt _ hb, readVarint_cons_of_lt _ hb]
      · have hrest : n ≤ rest.length ∨ ∃ b ∈ rest, b.toNat < 0x80 := by
          rcases h with hlen | ⟨b', hmem, hb'⟩
          · exact .inl (by simpa using hlen)
          · rcases List.mem_cons.mp hmem with rfl | hmem
            · exact absurd hb' hb
            · exact .inr ⟨b', hmem, hb'⟩
        rw [List.cons_append, readVarint_cons_of_le _ (by omega),
          readVarint_cons_of_le _ (by omega), ih rest hrest]

/-- The value of the varint whose last byte stands at index `k`. -/
def varintValue : ℕ → List UInt8 → ℕ
  | _, [] => 0
  | 0, b :: _ => b.toNat
  | k + 1, b :: rest => b.toNat - 0x80 + 0x80 * varintValue k rest

theorem readVarint_of_terminator {n k : ℕ} (hkn : k < n)
    (hk : k < bytes.length) (hlast : (bytes[k]).toNat < 0x80)
    (hbefore : ∀ i, (hi : i < k) → 0x80 ≤ (bytes[i]).toNat) :
    readVarint n bytes = some (varintValue k bytes, k + 1) := by
  induction k generalizing n bytes with
  | zero =>
    obtain ⟨n, rfl⟩ : ∃ m, n = m + 1 := ⟨n - 1, by omega⟩
    cases bytes with
    | nil => simp at hk
    | cons b rest => exact readVarint_cons_of_lt rest hlast
  | succ k ih =>
    obtain ⟨n, rfl⟩ : ∃ m, n = m + 1 := ⟨n - 1, by omega⟩
    cases bytes with
    | nil => simp at hk
    | cons b rest =>
      have hb : 0x80 ≤ b.toNat := hbefore 0 (by omega)
      have hrest : readVarint n rest = some (varintValue k rest, k + 1) :=
        ih (by omega) (by simpa using hk) hlast fun i hi => hbefore (i + 1) (by omega)
      rw [readVarint_cons_of_le rest hb, hrest]
      rfl

theorem readVarint_of_unterminated (h : ∀ i, (hi : i < bytes.length) → i < n → 0x80 ≤ (bytes[i]).toNat) :
    readVarint n bytes = none := by
  induction n generalizing bytes with
  | zero => rfl
  | succ n ih =>
    cases bytes with
    | nil => rfl
    | cons b rest =>
      have hb : 0x80 ≤ b.toNat := h 0 (by simp) (by omega)
      have hrest : readVarint n rest = none := by
        apply ih
        intro i hi hin
        exact h (i + 1) (by simpa using hi) (by omega)
      rw [readVarint_cons_of_le rest hb, hrest]
      rfl

theorem readVarint_eq_none_iff : readVarint n bytes = none ↔ ∀ b ∈ bytes.take n, 0x80 ≤ b.toNat := by
  induction n generalizing bytes with
  | zero => simp [readVarint]
  | succ n ih =>
    cases bytes with
    | nil => simp [readVarint]
    | cons b rest =>
      rw [List.take_succ_cons, List.forall_mem_cons]
      by_cases hb : b.toNat < 0x80
      · rw [readVarint_cons_of_lt rest hb]
        simp only [reduceCtorEq, false_iff, not_and]
        omega
      · rw [readVarint_cons_of_le rest (not_lt.mp hb), Option.map_eq_none_iff, ih]
        exact ⟨fun h => ⟨not_lt.mp hb, h⟩, fun h => h.2⟩

/-- Bytes that are one varint, and its value. -/
inductive Varint : List UInt8 → ℕ → Prop
  | last {b : UInt8} (h : b.toNat < 0x80) : Varint [b] b.toNat
  | more {b : UInt8} {rest : List UInt8} {value : ℕ} (h : 0x80 ≤ b.toNat)
      (hrest : Varint rest value) : Varint (b :: rest) (b.toNat - 0x80 + 0x80 * value)

variable {value : ℕ}

theorem Varint.length_pos (h : Varint bytes value) : 0 < bytes.length := by
  cases h <;> simp

theorem Varint.ends (h : Varint bytes value) : ∃ b ∈ bytes, b.toNat < 0x80 := by
  induction h with
  | last hb => exact ⟨_, List.mem_singleton_self _, hb⟩
  | more hb hrest ih =>
    obtain ⟨b, hmem, hb⟩ := ih
    exact ⟨b, List.mem_cons_of_mem _ hmem, hb⟩

theorem Varint.readVarint {n value : ℕ} (h : Varint bytes value) (hn : bytes.length ≤ n) (more : List UInt8) :
    Lib.readVarint n (bytes ++ more) = some (value, bytes.length) := by
  induction h generalizing n with
  | last h =>
    obtain ⟨n, rfl⟩ : ∃ m, n = m + 1 := ⟨n - 1, by simp at hn; omega⟩
    exact readVarint_cons_of_lt more h
  | more h hrest ih =>
    obtain ⟨n, rfl⟩ : ∃ m, n = m + 1 := ⟨n - 1, by simp at hn; omega⟩
    rw [List.cons_append, readVarint_cons_of_le _ h, ih (by simpa using hn)]
    rfl

theorem varint_of_readVarint {n value len : ℕ}
    (h : readVarint n bytes = some (value, len)) : Varint (bytes.take len) value := by
  induction n generalizing bytes value len with
  | zero => cases h
  | succ n ih =>
    cases bytes with
    | nil => cases h
    | cons b rest =>
      by_cases hb : b.toNat < 0x80
      · rw [readVarint_cons_of_lt rest hb] at h
        cases h
        exact .last hb
      · have hle : 0x80 ≤ b.toNat := not_lt.mp hb
        rw [readVarint_cons_of_le rest hle, Option.map_eq_some_iff] at h
        obtain ⟨⟨value', len'⟩, hrest, heq⟩ := h
        cases heq
        exact .more hle (ih hrest)

/-- The varint of a number. -/
def varintBytes (value : ℕ) : List UInt8 :=
  if value < 0x80 then [UInt8.ofNat value]
  else (UInt8.ofNat value ||| 0x80) :: varintBytes (value >>> 7)
termination_by value
decreasing_by
  rw [Nat.shiftRight_eq_div_pow]
  omega

theorem length_varintBytes_le {n value : ℕ} (h : value < 2 ^ (7 * (n + 1))) :
    (varintBytes value).length ≤ n + 1 := by
  induction n generalizing value with
  | zero =>
    rw [varintBytes, if_pos (by simpa using h)]
    simp
  | succ n ih =>
    rw [varintBytes]
    split
    · simp
    · have hshift : value >>> 7 < 2 ^ (7 * (n + 1)) := by
        rw [Nat.shiftRight_eq_div_pow, Nat.div_lt_iff_lt_mul (Nat.two_pow_pos 7), ← pow_add]
        exact h
      have hlen := ih hshift
      simp only [List.length_cons]
      omega

theorem toNat_or_0x80 (b : UInt8) : (b ||| 0x80).toNat = b.toNat % 128 + 0x80 := by
  have hb := b.toNat_lt
  have hlow : b.toNat % 128 < 2 ^ 7 := Nat.mod_lt _ (by decide)
  have hset : b.toNat % 128 ||| 0x80 = b.toNat % 128 + 0x80 := by
    rw [Nat.or_comm, add_comm]
    exact (Nat.two_pow_add_eq_or_of_lt hlow 1).symm
  rw [UInt8.toNat_or, show (0x80 : UInt8).toNat = 0x80 by rfl, ← hset]
  rcases lt_or_ge b.toNat 128 with hlt | hge
  · rw [Nat.mod_eq_of_lt hlt]
  · have hsplit : b.toNat = b.toNat % 128 ||| 0x80 := by omega
    conv_lhs => rw [hsplit]
    rw [Nat.or_assoc, Nat.or_self]

theorem varintBytes_of_lt (h : value < 0x80) : varintBytes value = [UInt8.ofNat value] := by
  rw [varintBytes, if_pos h]

theorem varintBytes_of_le (h : 0x80 ≤ value) :
    varintBytes value = (UInt8.ofNat value ||| 0x80) :: varintBytes (value / 0x80) := by
  rw [varintBytes, if_neg (not_lt.mpr h), Nat.shiftRight_eq_div_pow]

theorem varint_varintBytes (value : ℕ) : Varint (varintBytes value) value := by
  induction value using Nat.strong_induction_on with
  | _ value ih =>
    rcases lt_or_ge value 0x80 with hlt | hge
    · have hbyte : (UInt8.ofNat value).toNat = value := by
        rw [UInt8.toNat_ofNat', Nat.mod_eq_of_lt (by omega)]
      have hlast : Varint [UInt8.ofNat value] (UInt8.ofNat value).toNat := .last (by omega)
      rwa [hbyte, ← varintBytes_of_lt hlt] at hlast
    · have hbyte : (UInt8.ofNat value ||| 0x80).toNat = value % 128 + 0x80 := by
        rw [toNat_or_0x80, UInt8.toNat_ofNat']
        omega
      have hmore : Varint ((UInt8.ofNat value ||| 0x80) :: varintBytes (value / 0x80))
          ((UInt8.ofNat value ||| 0x80).toNat - 0x80 + 0x80 * (value / 0x80)) :=
        .more (by omega) (ih _ (by omega))
      rwa [hbyte, Nat.add_sub_cancel, Nat.mod_add_div, ← varintBytes_of_le hge] at hmore

/-- **No varint of a number is shorter, and no other one is as short.** -/
theorem Varint.eq_or_longer (h : Varint bytes value) :
    bytes = varintBytes value ∨ (varintBytes value).length < bytes.length := by
  induction h with
  | @last b hb =>
    refine .inl ?_
    rw [varintBytes_of_lt hb, UInt8.ofNat_toNat]
  | @more b rest value hb hrest ih =>
    have hlt := b.toNat_lt
    rcases Nat.eq_zero_or_pos value with rfl | hpos
    · -- a continued zero
      refine .inr ?_
      rw [varintBytes_of_lt (by omega)]
      exact Nat.succ_lt_succ hrest.length_pos
    · have hdiv : (b.toNat - 0x80 + 0x80 * value) / 0x80 = value := by omega
      have hbyte : UInt8.ofNat (b.toNat - 0x80 + 0x80 * value) ||| 0x80 = b := by
        apply UInt8.toNat_inj.mp
        rw [toNat_or_0x80, UInt8.toNat_ofNat']
        omega
      rw [varintBytes_of_le (by omega), hdiv, hbyte]
      rcases ih with rfl | hlonger
      · exact .inl rfl
      · exact .inr (Nat.succ_lt_succ hlonger)

theorem length_varintBytes (value : ℕ) : (varintBytes value).length = value.log2 / 7 + 1 := by
  induction value using Nat.strong_induction_on with
  | _ value ih =>
    rcases lt_or_ge value 0x80 with hlt | hge
    · have hlog : value.log2 < 7 := by
        rcases Nat.eq_zero_or_pos value with rfl | hpos
        · decide
        · exact (Nat.log2_lt hpos.ne').mpr hlt
      rw [varintBytes_of_lt hlt, Nat.div_eq_of_lt hlog]
      rfl
    · have hne : value / 0x80 ≠ 0 := by omega
      obtain ⟨hle, hlt⟩ := (Nat.log2_eq_iff hne).mp rfl
      have hlog : value.log2 = (value / 0x80).log2 + 7 := by
        rw [Nat.log2_eq_iff (by omega), add_right_comm, pow_add, pow_add]
        omega
      rw [varintBytes_of_le hge, List.length_cons, ih _ (by omega), hlog,
        Nat.add_div_right _ (by decide)]

end Protoc.Lib
