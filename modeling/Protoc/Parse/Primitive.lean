import Protoc.Lib.Words
import Protoc.Lib.Decode
import Protoc.Lib.Varint
import Protoc.Io.ZeroCopyStream

/-!
# Reading primitive values

The functions of `parse_context` that read a tag, a size, a varint or a fixed-width number
at a pointer, without a check of bounds.  A pointer is the list of the bytes from there on;
the result is the value and how far the pointer moves, or none for a null pointer.
-/

namespace Protoc.Parse

open Protoc.Lib Protoc.Io
open Option List BitVec

/-- `EpsCopyInputStream::kSlopBytes`. -/
def kSlopBytes : ℕ := 16

/-- `res += (byte - 1) << (7 * i)`. -/
def addByte {w : ℕ} (res : BitVec w) (byte : UInt8) (i : ℕ) : BitVec w :=
  res + (BitVec.ofNat w byte.toNat - 1) <<< (7 * i)

/-- The loop over the `n` bytes from the `i`-th on; `last` is what comes after it. -/
def varintLoop {w : ℕ} (last : BitVec w → Option (ℕ × BitVec w)) (p : List UInt8) :
    ℕ → ℕ → BitVec w → Option (ℕ × BitVec w)
  | 0, _, res => last res
  | n + 1, i, res => do
      let byte ← p[i]?
      let res := addByte res byte i
      if byte.toNat < 128 then some (i + 1, res) else varintLoop last p n (i + 1) res

/-- `VarintParseSlow64`. -/
def varintParseSlow64 (p : List UInt8) (res : BitVec 32) : Option (ℕ × BitVec 64) :=
  varintLoop (fun _ => none) p 8 2 (res.setWidth 64)

/-- `VarintParse<uint64>`. -/
def varintParse : Decoder UInt8 (BitVec 64) := fun p => do
  let first ← p[0]?
  let res := BitVec.ofNat 32 first.toNat
  if first.toNat < 128 then some (1, res.setWidth 64)
  else
    let byte ← p[1]?
    let res := addByte res byte 1
    if byte.toNat < 128 then some (2, res.setWidth 64) else varintParseSlow64 p res

/-- `ReadTagFallback`. -/
def readTagFallback (p : List UInt8) (res : BitVec 32) : Option (ℕ × BitVec 32) :=
  varintLoop (fun _ => none) p 3 2 res

/-- `ReadTag`. -/
def readTag : Decoder UInt8 (BitVec 32) := fun p => do
  let first ← p[0]?
  let res := BitVec.ofNat 32 first.toNat
  if first.toNat < 128 then some (1, res)
  else
    let second ← p[1]?
    let res := addByte res second 1
    if second.toNat < 128 then some (2, res) else readTagFallback p res

/-- `ReadSizeFallback`: sizes from 2 GB on, and those too close to `INT_MAX`, are
rejected. -/
def readSizeFallback (p : List UInt8) (res : BitVec 32) : Option (ℕ × BitVec 32) :=
  varintLoop (fun res => do
    let byte ← p[4]?
    if 8 ≤ byte.toNat then none
    else
      let res := addByte res byte 4
      if INT_MAX - kSlopBytes < res.toNat then none else some (5, res)) p 3 1 res

/-- `ReadSize`. -/
def readSize : Decoder UInt8 (BitVec 32) := fun p => do
  let first ← p[0]?
  let res := BitVec.ofNat 32 first.toNat
  if first.toNat < 128 then some (1, res) else readSizeFallback p res

/-- `UnalignedLoad` of `n` bytes; the pointer then moves over them. -/
def unalignedLoad (n : ℕ) : Decoder UInt8 ℕ := fun p =>
  if n ≤ p.length then some (n, leValue (p.take n)) else none

/-! ## How far they look -/

theorem varintLoop_looks {w m : ℕ} {last : List UInt8 → BitVec w → Option (ℕ × BitVec w)}
    {i n : ℕ} (hlast : ∀ res, Decoder.Looks (i + n) m fun p => last p res) (hm : i + n ≤ m)
    (res : BitVec w) : Decoder.Looks i m fun p => varintLoop (last p) p n i res := by
  induction n generalizing i res with
  | zero => exact hlast res
  | succ n ih =>
    apply Decoder.Looks.step (by omega)
    intro byte
    apply ih
    · rwa [Nat.add_right_comm, Nat.add_assoc]
    · omega

theorem varintParse_local : varintParse.Local 10 := by
  apply Decoder.Looks.step (by omega)
  intro first
  apply Decoder.Looks.step (by omega)
  intro byte
  exact varintLoop_looks (fun _ => Decoder.looks_none _ _) (by omega) _

theorem readTag_local : readTag.Local 5 := by
  apply Decoder.Looks.step (by omega)
  intro first
  apply Decoder.Looks.step (by omega)
  intro second
  exact varintLoop_looks (fun _ => Decoder.looks_none _ _) (by omega) _

theorem readSize_local : readSize.Local 5 := by
  apply Decoder.Looks.step (by omega)
  intro first
  apply varintLoop_looks ?_ (by omega)
  intro res p len v h
  obtain ⟨byte, hbyte, hthen⟩ := bind_eq_some_iff.mp h
  have hlength : 4 < p.length := (List.getElem?_eq_some_iff.mp hbyte).1
  by_cases hlarge : 8 ≤ byte.toNat
  · simp [if_pos hlarge] at hthen
  · rw [if_neg hlarge] at hthen
    by_cases hmax : INT_MAX - kSlopBytes < (addByte res byte 4).toNat
    · simp [if_pos hmax] at hthen
    · simp only [if_neg hmax] at hthen
      cases hthen
      refine ⟨by omega, by omega, by omega, ?_⟩
      intro q hq
      simp only [getElem?_of_take_eq hq (Nat.lt_succ_self 4), hbyte, bind_eq_bind,
        bind_some, if_neg hlarge, if_neg hmax]

theorem unalignedLoad_local {n : ℕ} (hn : 0 < n) : (unalignedLoad n).Local n := by
  intro p len v h
  rw [unalignedLoad] at h
  by_cases hle : n ≤ p.length
  · rw [if_pos hle] at h
    cases h
    refine ⟨hn, le_rfl, hle, ?_⟩
    intro q hq
    have hlength := congrArg List.length hq
    simp only [length_take] at hlength
    rw [unalignedLoad, if_pos (by omega), hq]
  · rw [if_neg hle] at h
    cases h

/-! ## What they read -/

theorem ofNat_two_pow (w k : ℕ) : BitVec.ofNat w (2 ^ k) = twoPow w k := by
  apply eq_of_toNat_eq
  rw [toNat_ofNat, toNat_twoPow]

theorem addByte_eq {w : ℕ} (low : ℕ) (byte : UInt8) (i : ℕ) :
    addByte (BitVec.ofNat w (low + 2 ^ (7 * i))) byte i = BitVec.ofNat w (low + byte.toNat * 2 ^ (7 * i)) := by
  rw [addByte, shiftLeft_eq_mul_twoPow, ← ofNat_two_pow, ofNat_add, ofNat_add, ofNat_mul]
  ring

/-- The loop reads the rest of a varint; `G` is what becomes of the length and the value. -/
theorem varintLoop_eq {w k : ℕ} {last : BitVec w → Option (ℕ × BitVec w)} {p : List UInt8}
    {G : ℕ → ℕ → Option (ℕ × BitVec w)} {n i low : ℕ} (hlow : low < 2 ^ (7 * i))
    (hG : ∀ len value, value < 2 ^ (7 * (i + n)) → G len value = some (len, BitVec.ofNat w value))
    (hlast : ∀ low, low < 2 ^ (7 * (i + n)) → last (BitVec.ofNat w (low + 2 ^ (7 * (i + n)))) =
      (readVarint k (p.drop (i + n))).bind fun r => G (i + n + r.2) (low + r.1 * 2 ^ (7 * (i + n)))) :
    varintLoop last p n i (BitVec.ofNat w (low + 2 ^ (7 * i))) =
      (readVarint (n + k) (p.drop i)).bind fun r => G (i + r.2) (low + r.1 * 2 ^ (7 * i)) := by
  induction n generalizing i low with
  | zero =>
    rw [Nat.zero_add]
    exact hlast low hlow
  | succ n ih =>
    have hpow : 2 ^ (7 * (i + 1)) = 0x80 * 2 ^ (7 * i) := by
      rw [Nat.mul_add, Nat.pow_add, Nat.mul_comm]
    have hcount : n + 1 + k = n + k + 1 := Nat.add_right_comm n 1 k
    rw [varintLoop, hcount]
    cases hbyte : p[i]? with
    | none =>
      rw [drop_eq_nil_of_le (List.getElem?_eq_none_iff.mp hbyte)]
      rfl
    | some byte =>
      have hdrop : p.drop i = byte :: p.drop (i + 1) := by
        obtain ⟨hlt, hget⟩ := List.getElem?_eq_some_iff.mp hbyte
        rw [drop_eq_getElem_cons hlt, hget]
      simp only [bind_eq_bind, bind_some, addByte_eq, hdrop]
      by_cases hend : byte.toNat < 128
      · have hvalue : low + byte.toNat * 2 ^ (7 * i) < 2 ^ (7 * (i + (n + 1))) := by
          have hle : byte.toNat * 2 ^ (7 * i) ≤ 127 * 2 ^ (7 * i) :=
            Nat.mul_le_mul_right _ (by omega)
          have hgrow : 2 ^ (7 * (i + 1)) ≤ 2 ^ (7 * (i + (n + 1))) :=
            Nat.pow_le_pow_right (by decide) (by omega)
          omega
        rw [if_pos hend, readVarint_cons_of_lt _ hend, bind_some, hG _ _ hvalue]
      · have hle : 0x80 ≤ byte.toNat := Nat.le_of_not_lt hend
        have hsplit : low + byte.toNat * 2 ^ (7 * i) =
            low + (byte.toNat - 0x80) * 2 ^ (7 * i) + 2 ^ (7 * (i + 1)) := by
          rw [hpow, Nat.sub_mul]
          have hmono : 0x80 * 2 ^ (7 * i) ≤ byte.toNat * 2 ^ (7 * i) := Nat.mul_le_mul_right _ hle
          omega
        have hless : low + (byte.toNat - 0x80) * 2 ^ (7 * i) < 2 ^ (7 * (i + 1)) := by
          have hbyte := byte.toNat_lt
          have hmono : (byte.toNat - 0x80) * 2 ^ (7 * i) ≤ 0x7F * 2 ^ (7 * i) :=
            Nat.mul_le_mul_right _ (by omega)
          omega
        rw [if_neg hend, hsplit, readVarint_cons_of_le _ hle]
        have hnext : i + 1 + n = i + (n + 1) := by omega
        rw [ih hless (by rwa [hnext]) (by rwa [hnext]), bind_map]
        congr 1
        funext r
        simp only [Function.comp_apply]
        congr 1
        · omega
        · rw [hpow]
          ring

theorem varintLoop_all {w n : ℕ} (p : List UInt8) : varintLoop (fun _ => none) p n 0 (BitVec.ofNat w 1) =
      (readVarint n p).map fun r => (r.2, BitVec.ofNat w r.1) := by
  have hloop : varintLoop (fun _ => none) p n 0 (BitVec.ofNat w (0 + 2 ^ (7 * 0))) =
      (readVarint (n + 0) (p.drop 0)).bind fun r =>
        some (0 + r.2, BitVec.ofNat w (0 + r.1 * 2 ^ (7 * 0))) :=
    varintLoop_eq (G := fun len value => some (len, BitVec.ofNat w value)) (by decide)
      (fun _ _ _ => rfl) (fun _ _ => rfl)
  have hone : 0 + 2 ^ (7 * 0) = 1 := rfl
  rw [hone] at hloop
  rw [hloop, drop_zero, Nat.add_zero]
  cases readVarint n p with
  | none => rfl
  | some r => simp

theorem varintLoop_first {w n : ℕ} (last : BitVec w → Option (ℕ × BitVec w)) (p : List UInt8) :
    varintLoop last p (n + 1) 0 (BitVec.ofNat w 1) = p[0]?.bind fun first =>
      if first.toNat < 128 then some (1, BitVec.ofNat w first.toNat)
      else varintLoop last p n 1 (BitVec.ofNat w first.toNat) := by
  have hres : ∀ first, addByte (BitVec.ofNat w 1) first 0 = BitVec.ofNat w first.toNat := by
    intro first
    have hzero := addByte_eq (w := w) 0 first 0
    simpa using hzero
  rw [varintLoop]
  simp only [hres]
  rfl

/-- **`ReadTag`** reads a varint of at most 5 bytes, modulo 2^32. -/
theorem readTag_eq (p : List UInt8) : readTag p = (readVarint 5 p).map fun r => (r.2, BitVec.ofNat 32 r.1) := by
  rw [← varintLoop_all, varintLoop_first, readTag]
  rfl

theorem setWidth_addByte {first : UInt8} (h : ¬ first.toNat < 128) (byte : UInt8) :
    (addByte (BitVec.ofNat 32 first.toNat) byte 1).setWidth 64 =
      addByte (BitVec.ofNat 64 first.toNat) byte 1 := by
  have hfirst := first.toNat_lt
  have hbyte := byte.toNat_lt
  have hsplit : first.toNat = first.toNat - 0x80 + 2 ^ (7 * 1) := by omega
  rw [hsplit, addByte_eq, addByte_eq]
  apply eq_of_toNat_eq
  simp only [toNat_setWidth, toNat_ofNat]
  omega

/-- **`VarintParse`** reads a varint of at most 10 bytes, modulo 2^64. -/
theorem varintParse_eq (p : List UInt8) :
    varintParse p = (readVarint 10 p).map fun r => (r.2, BitVec.ofNat 64 r.1) := by
  have hall := varintLoop_all (w := 64) (n := 10) p
  rw [varintLoop_first] at hall
  apply Eq.trans ?_ hall
  simp only [varintParse, bind_eq_bind]
  cases p[0]? with
  | none => simp only [bind_none]
  | some first =>
    simp only [bind_some]
    by_cases hend : first.toNat < 128
    · have hsame : (BitVec.ofNat 32 first.toNat).setWidth 64 = BitVec.ofNat 64 first.toNat := by
        apply eq_of_toNat_eq
        simp only [toNat_setWidth, toNat_ofNat]
        omega
      rw [if_pos hend, if_pos hend, hsame]
    · rw [if_neg hend, if_neg hend, varintLoop]
      simp only [setWidth_addByte hend, varintParseSlow64, bind_eq_bind]

/-- What `ReadSize` makes of a varint. -/
def readSizeOf (len value : ℕ) : Option (ℕ × BitVec 32) :=
  if value ≤ INT_MAX - kSlopBytes then some (len, BitVec.ofNat 32 value) else none

/-- The fifth byte of a size. -/
def readSizeLast (p : List UInt8) (res : BitVec 32) : Option (ℕ × BitVec 32) := do
  let byte ← p[4]?
  if 8 ≤ byte.toNat then none
  else
    let res := addByte res byte 4
    if INT_MAX - kSlopBytes < res.toNat then none else some (5, res)

theorem readSizeLast_eq (p : List UInt8) {low : ℕ} (hlow : low < 2 ^ (7 * 4)) :
    readSizeLast p (BitVec.ofNat 32 (low + 2 ^ (7 * 4))) =
      (readVarint 1 (p.drop 4)).bind fun r => readSizeOf (4 + r.2) (low + r.1 * 2 ^ (7 * 4)) := by
  rw [readSizeLast]
  cases hbyte : p[4]? with
  | none =>
    rw [drop_eq_nil_of_le (List.getElem?_eq_none_iff.mp hbyte)]
    rfl
  | some byte =>
    have hdrop : p.drop 4 = byte :: p.drop 5 := by
      obtain ⟨hlt, hget⟩ := List.getElem?_eq_some_iff.mp hbyte
      rw [drop_eq_getElem_cons hlt, hget]
    have hmax : INT_MAX - kSlopBytes = 2 ^ 31 - 17 := rfl
    simp only [bind_eq_bind, bind_some, addByte_eq, hdrop, readSizeOf, hmax]
    by_cases hlarge : 8 ≤ byte.toNat
    · rw [if_pos hlarge]
      by_cases hend : byte.toNat < 0x80
      · rw [readVarint_cons_of_lt _ hend, bind_some, if_neg (by omega)]
      · rw [readVarint_cons_of_le _ (by omega)]
        rfl
    · have hvalue : (BitVec.ofNat 32 (low + byte.toNat * 2 ^ (7 * 4))).toNat =
          low + byte.toNat * 2 ^ (7 * 4) := by
        rw [toNat_ofNat]
        omega
      rw [if_neg hlarge, readVarint_cons_of_lt _ (by omega), bind_some, hvalue]
      by_cases hexceeds : low + byte.toNat * 2 ^ (7 * 4) ≤ 2 ^ 31 - 17
      · rw [if_neg (by omega), if_pos hexceeds]
        rfl
      · rw [if_pos (by omega), if_neg hexceeds]

/-- **`ReadSize`** reads a varint of at most 5 bytes, and takes no larger size. -/
theorem readSize_eq (p : List UInt8) : readSize p = (readVarint 5 p).bind fun r => readSizeOf r.2 r.1 := by
  have hloop : varintLoop (readSizeLast p) p 4 0 (BitVec.ofNat 32 (0 + 2 ^ (7 * 0))) =
      (readVarint (4 + 1) (p.drop 0)).bind fun r =>
        readSizeOf (0 + r.2) (0 + r.1 * 2 ^ (7 * 0)) := by
    apply varintLoop_eq (by decide)
    · intro len value hvalue
      rw [readSizeOf, if_pos]
      exact le_trans (le_of_lt hvalue) (by decide)
    · intro low hlow
      exact readSizeLast_eq p hlow
  have hone : 0 + 2 ^ (7 * 0) = 1 := rfl
  rw [hone, varintLoop_first] at hloop
  simp only [drop_zero, Nat.zero_add, Nat.mul_zero, Nat.pow_zero, Nat.mul_one] at hloop
  rw [← hloop, readSize]
  rfl

end Protoc.Parse
