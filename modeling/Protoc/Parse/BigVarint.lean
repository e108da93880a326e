import Protoc.Parse.Primitive

/-!
# Reading integers exactly

`VarintParse<uint32>` skips what is above 32 bits.  `ParseBigVarint` takes two bytes at a time: an
addition cancels the high bit of the first byte, and the carry says whether the second one counts.
Both read the varint of the reference, as the readers of tags and of sizes do.
-/

namespace Protoc.Parse

open Protoc.Lib Protoc.Io
open Option BitVec

/-- The bytes of a varint that add nothing, `n` from the `i`-th on. -/
def skipLoop {w : ℕ} (p : List UInt8) (res : BitVec w) : ℕ → ℕ → Option (ℕ × BitVec w)
  | 0, _ => none
  | n + 1, i => do
      let byte ← p[i]?
      if byte.toNat < 128 then some (i + 1, res) else skipLoop p res n (i + 1)

/-- `VarintParseSlow32`. -/
def varintParseSlow32 (p : List UInt8) (res : BitVec 32) : Option (ℕ × BitVec 32) :=
  varintLoop (fun res => skipLoop p res 5 5) p 3 2 res

/-- `VarintParse<uint32>`. -/
def varintParse32 : Decoder UInt8 (BitVec 32) := fun p => do
  let first ← p[0]?
  let res := BitVec.ofNat 32 first.toNat
  if first.toNat < 128 then some (1, res)
  else
    let byte ← p[1]?
    let res := addByte res byte 1
    if byte.toNat < 128 then some (2, res) else varintParseSlow32 p res

/-- `DecodeTwoBytes`: how far the pointer moves, and twice the value. -/
def decodeTwoBytes (p : List UInt8) : Option (ℕ × BitVec 32) := do
  let loaded ← unalignedLoad 2 p
  let value := BitVec.ofNat 32 loaded.2
  -- the continuation bit of the low byte is its sign
  let x := (value.setWidth 8).signExtend 32
  let value := value + x
  some (if value < x then 2 else 1, value &&& (x + x))

/-- The loop of `ParseBigVarint`, over `n` pairs of bytes from the `i`-th on. -/
def parseBigLoop (p : List UInt8) : ℕ → ℕ → BitVec 64 → Option (ℕ × BitVec 64)
  | 0, _, _ => none
  | n + 1, i, res => do
      let (moved, tmp) ← decodeTwoBytes (p.drop (2 * i))
      let res := res + (tmp.setWidth 64 - 2) <<< (14 * i - 1)
      if 0 ≤ (tmp.setWidth 16).toInt then some (2 * i + moved, res) else parseBigLoop p n (i + 1) res

/-- `ParseBigVarint`. -/
def parseBigVarint : Decoder UInt8 (BitVec 64) := fun p => do
  let (moved, tmp) ← decodeTwoBytes p
  let res := (tmp >>> 1).setWidth 64
  if 0 ≤ (tmp.setWidth 16).toInt then some (moved, res) else parseBigLoop p 4 1 res

/-! ## 32 bits -/

variable {p : List UInt8}

theorem skipLoop_eq {w : ℕ} (p : List UInt8) (res : BitVec w) (n i : ℕ) :
    skipLoop p res n i = (readVarint n (p.drop i)).map fun r => (i + r.2, res) := by
  induction n generalizing i with
  | zero => rfl
  | succ n ih =>
    rw [skipLoop]
    cases hbyte : p[i]? with
    | none =>
      rw [List.drop_eq_nil_of_le (List.getElem?_eq_none_iff.mp hbyte)]
      rfl
    | some byte =>
      have hdrop : p.drop i = byte :: p.drop (i + 1) := by
        obtain ⟨hlt, hget⟩ := List.getElem?_eq_some_iff.mp hbyte
        rw [List.drop_eq_getElem_cons hlt, hget]
      rw [bind_eq_bind, bind_some, hdrop]
      by_cases hend : byte.toNat < 128
      · rw [if_pos hend, readVarint_cons_of_lt _ hend]
        rfl
      · rw [if_neg hend, readVarint_cons_of_le _ (not_lt.mp hend), ih, map_map]
        congr 1
        funext r
        simp only [Function.comp_apply]
        congr 1
        omega

/-- **`VarintParse<uint32>`** reads a varint of at most 10 bytes, modulo 2^32. -/
theorem varintParse32_eq (p : List UInt8) :
    varintParse32 p = (readVarint 10 p).map fun r => (r.2, BitVec.ofNat 32 r.1) := by
  have hloop : varintLoop (fun res => skipLoop p res 5 5) p 5 0 (BitVec.ofNat 32 (0 + 2 ^ (7 * 0))) =
      (readVarint (5 + 5) (p.drop 0)).bind fun r =>
        some (0 + r.2, BitVec.ofNat 32 (0 + r.1 * 2 ^ (7 * 0))) := by
    refine varintLoop_eq (G := fun len value => some (len, BitVec.ofNat 32 value)) (by decide)
      (fun _ _ _ => rfl) ?_
    intro low hlow
    -- 35 bits have been read, so that the rest is out of the word
    have hout : ∀ v, BitVec.ofNat 32 (low + 2 ^ (7 * (0 + 5))) =
        BitVec.ofNat 32 (low + v * 2 ^ (7 * (0 + 5))) := by
      intro v
      apply eq_of_toNat_eq
      rw [toNat_ofNat, toNat_ofNat]
      omega
    rw [skipLoop_eq, map_eq_bind]
    refine congrArg (Option.bind _) (funext fun r => ?_)
    rw [← hout r.1]
    rfl
  have hone : 0 + 2 ^ (7 * 0) = 1 := rfl
  rw [hone, varintLoop_first, List.drop_zero] at hloop
  have hmap : (readVarint 10 p).map (fun r => (r.2, BitVec.ofNat 32 r.1)) =
      (readVarint (5 + 5) p).bind fun r =>
        some (0 + r.2, BitVec.ofNat 32 (0 + r.1 * 2 ^ (7 * 0))) := by
    cases readVarint (5 + 5) p with
    | none => rfl
    | some r => simp
  rw [hmap, ← hloop]
  rfl

/-! ## Two bytes at a time -/

theorem toNat_signExtend_byte (lo : UInt8) : ((BitVec.ofNat 8 lo.toNat).signExtend 32).toNat =
      if lo.toNat < 128 then lo.toNat else 2 ^ 32 - 256 + lo.toNat :=
  forall_byte (P := fun lo => ((BitVec.ofNat 8 lo.toNat).signExtend 32).toNat =
    if lo.toNat < 128 then lo.toNat else 2 ^ 32 - 256 + lo.toNat) (by decide +kernel) lo

/-- What two bytes hold of a varint, and how many of them count. -/
def twoBytes (lo hi : UInt8) : ℕ × ℕ :=
  if lo.toNat < 128 then (1, lo.toNat) else (2, lo.toNat - 128 + 128 * hi.toNat)

/-- **`DecodeTwoBytes`**: the mask keeps the high byte if the low one has its high bit set. -/
theorem decodeTwoBytes_eq (lo hi : UInt8) (rest : List UInt8) : decodeTwoBytes (lo :: hi :: rest) =
      some ((twoBytes lo hi).1, BitVec.ofNat 32 (2 * (twoBytes lo hi).2)) := by
  have hlo := lo.toNat_lt
  have hhi := hi.toNat_lt
  have hload : unalignedLoad 2 (lo :: hi :: rest) = some (2, lo.toNat + 256 * hi.toNat) := by
    rw [unalignedLoad, if_pos (by simp)]
    simp [leValue]
  have hlow : (BitVec.ofNat 32 (lo.toNat + 256 * hi.toNat)).setWidth 8 = BitVec.ofNat 8 lo.toNat := by
    apply eq_of_toNat_eq
    rw [toNat_setWidth, toNat_ofNat, toNat_ofNat]
    omega
  have hsign := toNat_signExtend_byte lo
  rw [decodeTwoBytes, hload]
  simp only [bind_eq_bind, bind_some, hlow]
  generalize (BitVec.ofNat 8 lo.toNat).signExtend 32 = x at hsign
  have hvalue : (BitVec.ofNat 32 (lo.toNat + 256 * hi.toNat)).toNat = lo.toNat + 256 * hi.toNat := by
    rw [toNat_ofNat]
    omega
  generalize BitVec.ofNat 32 (lo.toNat + 256 * hi.toNat) = value at hvalue
  have hsum : (value + x).toNat = (value.toNat + x.toNat) % 2 ^ 32 := BitVec.toNat_add ..
  have hmask : (x + x).toNat = (x.toNat + x.toNat) % 2 ^ 32 := BitVec.toNat_add ..
  have hand : ((value + x) &&& (x + x)).toNat = (value + x).toNat &&& (x + x).toNat :=
    toNat_and ..
  have hdiv := Nat.and_div_two_pow (a := (value + x).toNat) (b := (x + x).toNat) (n := 8)
  have hmod := Nat.and_mod_two_pow (a := (value + x).toNat) (b := (x + x).toNat) (n := 8)
  rw [twoBytes]
  by_cases hend : lo.toNat < 128
  · rw [if_pos hend] at hsign ⊢
    have hless : ¬ value + x < x := by
      rw [lt_def, hsum, hsign]
      omega
    have hhigh : (x + x).toNat / 2 ^ 8 = 0 := by omega
    have hsame : (value + x).toNat % 2 ^ 8 = (x + x).toNat % 2 ^ 8 := by omega
    rw [hhigh, Nat.and_zero] at hdiv
    rw [hsame, Nat.and_self] at hmod
    rw [if_neg hless]
    congr 2
    apply eq_of_toNat_eq
    rw [hand, toNat_ofNat]
    omega
  · rw [if_neg hend] at hsign ⊢
    have hless : value + x < x := by
      rw [lt_def, hsum, hsign]
      omega
    have hhigh : (x + x).toNat / 2 ^ 8 = 2 ^ 24 - 1 := by omega
    have hsame : (value + x).toNat % 2 ^ 8 = (x + x).toNat % 2 ^ 8 := by omega
    rw [hhigh, Nat.and_two_pow_sub_one_eq_mod] at hdiv
    rw [hsame, Nat.and_self] at hmod
    rw [if_pos hless]
    congr 2
    apply eq_of_toNat_eq
    rw [hand, toNat_ofNat]
    omega

theorem twoBytes_cases (lo hi : UInt8) : (twoBytes lo hi).2 < 2 ^ 14 ∧
        (∀ n rest, readVarint (n + 2) (lo :: hi :: rest) = some ((twoBytes lo hi).2, (twoBytes lo hi).1)) ∨
      ∃ low < 2 ^ 14, (twoBytes lo hi).2 = low + 2 ^ 14 ∧ ∀ n rest, readVarint (n + 2) (lo :: hi :: rest) =
          (readVarint n rest).map fun r => (low + 2 ^ 14 * r.1, r.2 + 2) := by
  have hlo := lo.toNat_lt
  have hhi := hi.toNat_lt
  rw [twoBytes]
  by_cases hend : lo.toNat < 128
  · rw [if_pos hend]
    exact .inl ⟨by omega, fun n rest => readVarint_cons_of_lt _ hend⟩
  · have hlarge : 0x80 ≤ lo.toNat := not_lt.mp hend
    rw [if_neg hend]
    by_cases hend' : hi.toNat < 128
    · refine .inl ⟨by omega, fun n rest => ?_⟩
      rw [readVarint_cons_of_le _ hlarge, readVarint_cons_of_lt _ hend', map_some]
    · refine .inr ⟨lo.toNat - 128 + 128 * (hi.toNat - 128), by omega, by omega, fun n rest => ?_⟩
      rw [readVarint_cons_of_le _ hlarge, readVarint_cons_of_le _ (not_lt.mp hend'), map_map]
      refine congrArg (fun f => Option.map f _) (funext fun r => ?_)
      exact congrArg₂ Prod.mk (by simp only; omega) rfl

theorem toInt_tmp {v : ℕ} (h : v < 2 ^ 15) :
    0 ≤ ((BitVec.ofNat 32 (2 * v)).setWidth 16).toInt ↔ v < 2 ^ 14 := by
  have htoNat : ((BitVec.ofNat 32 (2 * v)).setWidth 16).toNat = 2 * v := by
    rw [toNat_setWidth, toNat_ofNat]
    omega
  rw [toInt_eq_toNat_cond, htoNat]
  split <;> omega

theorem addTwoBytes_eq (low v : ℕ) {i : ℕ} (hi : 0 < i) (hv : v < 2 ^ 15) :
    BitVec.ofNat 64 (low + 2 ^ (14 * i)) + ((BitVec.ofNat 32 (2 * v)).setWidth 64 - 2) <<< (14 * i - 1) =
      BitVec.ofNat 64 (low + v * 2 ^ (14 * i)) := by
  have hwide : (BitVec.ofNat 32 (2 * v)).setWidth 64 = BitVec.ofNat 64 2 * BitVec.ofNat 64 v := by
    rw [← ofNat_mul]
    apply eq_of_toNat_eq
    rw [toNat_setWidth, toNat_ofNat, toNat_ofNat]
    omega
  have hpow : 2 ^ (14 * i) = 2 * 2 ^ (14 * i - 1) := by
    rw [← Nat.pow_succ', Nat.succ_eq_add_one, Nat.sub_add_cancel (by omega)]
  have htwo : (2 : BitVec 64) = BitVec.ofNat 64 2 := rfl
  rw [hwide, shiftLeft_eq_mul_twoPow, ← ofNat_two_pow, hpow, ofNat_add,
    ofNat_add, ofNat_mul, ofNat_mul, ofNat_mul, htwo]
  ring

theorem twoBytes_lt (lo hi : UInt8) : (twoBytes lo hi).2 < 2 ^ 15 := by
  have hlo := lo.toNat_lt
  have hhi := hi.toNat_lt
  rw [twoBytes]
  split <;> simp only <;> omega

/-- The loop reads the rest of a varint. -/
theorem parseBigLoop_eq {n i low : ℕ} (hi : 0 < i) (hp : 2 * (i + n) ≤ p.length) :
    parseBigLoop p n i (BitVec.ofNat 64 (low + 2 ^ (14 * i))) =
      (readVarint (2 * n) (p.drop (2 * i))).map fun r =>
        (2 * i + r.2, BitVec.ofNat 64 (low + r.1 * 2 ^ (14 * i))) := by
  induction n generalizing i low with
  | zero => rfl
  | succ n ih =>
    obtain ⟨lo, hi', hdrop⟩ : ∃ lo hi', p.drop (2 * i) = lo :: hi' :: p.drop (2 * (i + 1)) := by
      have hfirst : 2 * i < p.length := by omega
      have hsecond : 2 * i + 1 < p.length := by omega
      exact ⟨p[2 * i], p[2 * i + 1], by
        rw [List.drop_eq_getElem_cons hfirst, List.drop_eq_getElem_cons hsecond]; rfl⟩
    have hlt := twoBytes_lt lo hi'
    rw [parseBigLoop, hdrop, decodeTwoBytes_eq]
    simp only [bind_eq_bind, bind_some, addTwoBytes_eq _ _ hi hlt, toInt_tmp hlt]
    obtain ⟨hend, hread⟩ | ⟨low', hlow', hvalue, hread⟩ := twoBytes_cases lo hi'
    · have hcount : 2 * (n + 1) = 2 * n + 2 := rfl
      rw [if_pos hend, hcount, hread, map_some]
    · have hcount : 2 * (n + 1) = 2 * n + 2 := rfl
      have hpow : 2 ^ (14 * (i + 1)) = 2 ^ 14 * 2 ^ (14 * i) := by
        rw [Nat.mul_add, pow_add, mul_comm]
      have hsplit : low + (low' + 2 ^ 14) * 2 ^ (14 * i) =
          low + low' * 2 ^ (14 * i) + 2 ^ (14 * (i + 1)) := by
        rw [hpow]
        ring
      rw [hvalue, if_neg (by omega), hsplit, ih (by omega) (by omega), hcount, hread, map_map]
      refine congrArg (fun f => Option.map f _) (funext fun r => ?_)
      refine congrArg₂ Prod.mk (by simp only; omega) (congrArg (BitVec.ofNat 64) ?_)
      rw [hpow]
      ring

/-- **`ParseBigVarint`** reads a varint of at most 10 bytes, modulo 2^64. -/
theorem parseBigVarint_eq (hp : 10 ≤ p.length) :
    parseBigVarint p = (readVarint 10 p).map fun r => (r.2, BitVec.ofNat 64 r.1) := by
  match p, hp with
  | lo :: hi :: rest, hp =>
    have hlt := twoBytes_lt lo hi
    have hres : (BitVec.ofNat 32 (2 * (twoBytes lo hi).2) >>> 1).setWidth 64 =
        BitVec.ofNat 64 (twoBytes lo hi).2 := by
      apply eq_of_toNat_eq
      rw [toNat_setWidth, toNat_ushiftRight, toNat_ofNat, toNat_ofNat, Nat.shiftRight_eq_div_pow]
      omega
    rw [parseBigVarint, decodeTwoBytes_eq]
    simp only [bind_eq_bind, bind_some, hres, toInt_tmp hlt]
    obtain ⟨hend, hread⟩ | ⟨low, hlow, hvalue, hread⟩ := twoBytes_cases lo hi
    · rw [if_pos hend, hread 8 rest, map_some]
    · have hloop := @parseBigLoop_eq (lo :: hi :: rest) 4 1 low (by decide) hp
      rw [hvalue, if_neg (by omega), hread 8 rest, map_map]
      refine hloop.trans ?_
      refine congrArg (fun f => Option.map f _) (funext fun r => ?_)
      exact congrArg₂ Prod.mk (by simp only; omega) (congrArg (BitVec.ofNat 64) (by simp only; omega))

/-! ## The readers -/

def readsAs {w : ℕ} (r : Option (ℕ × BitVec w)) : Option (ℕ × ℕ) := r.map fun r => (r.1, r.2.toNat)

theorem readsAs_map {w : ℕ} (r : Option (ℕ × ℕ)) :
    readsAs (r.map fun r => (r.2, BitVec.ofNat w r.1)) = r.map fun r => (r.2, r.1 % 2 ^ w) := by
  cases r with
  | none => rfl
  | some r => simp [readsAs]

theorem readsAs_readSizeOf (len value : ℕ) :
    readsAs (readSizeOf len value) = if value ≤ INT_MAX - 16 then some (len, value) else none := by
  rw [readSizeOf, show kSlopBytes = 16 from rfl]
  split
  · next hle =>
    have hmax : INT_MAX - 16 < 2 ^ 32 := by decide
    have hlt : value < 2 ^ 32 := lt_of_le_of_lt hle hmax
    rw [readsAs, map_some, toNat_ofNat, Nat.mod_eq_of_lt hlt]
  · rfl

/-- **The readers are exact**: on sixteen bytes that can be read, they agree with the varint of at
most 10 bytes, or of at most 5, modulo the size of their words. -/
theorem readers_exact (p : List UInt8) (hp : 16 ≤ p.length) :
    (readsAs (varintParse p) = (readVarint 10 p).map (fun r => (r.2, r.1 % 2 ^ 64)) ∧
        (varintParse p = none ↔ ∀ b ∈ p.take 10, 0x80 ≤ b.toNat)) ∧
      (readsAs (parseBigVarint p) = (readVarint 10 p).map (fun r => (r.2, r.1 % 2 ^ 64)) ∧
        (parseBigVarint p = none ↔ ∀ b ∈ p.take 10, 0x80 ≤ b.toNat)) ∧
      (readsAs (varintParse32 p) = (readVarint 10 p).map (fun r => (r.2, r.1 % 2 ^ 32)) ∧
        (varintParse32 p = none ↔ varintParse p = none)) ∧
      readsAs (readTag p) = (readVarint 5 p).map (fun r => (r.2, r.1 % 2 ^ 32)) ∧
      readsAs (readSize p) =
        (readVarint 5 p).bind fun r => if r.1 ≤ INT_MAX - 16 then some (r.2, r.1) else none := by
  have hnone : readVarint 10 p = none ↔ ∀ b ∈ p.take 10, 0x80 ≤ b.toNat := readVarint_eq_none_iff
  rw [varintParse_eq, parseBigVarint_eq (by omega), varintParse32_eq, readTag_eq, readSize_eq]
  simp only [readsAs_map, map_eq_none_iff]
  refine ⟨⟨trivial, hnone⟩, ⟨trivial, hnone⟩, ⟨trivial, trivial⟩, trivial, ?_⟩
  cases readVarint 5 p with
  | none => rfl
  | some r => exact readsAs_readSizeOf r.2 r.1

/-- Two bytes of a varint, and fourteen behind it. -/
theorem readers_exact_two :
    readsAs (parseBigVarint (0xAC :: 0x02 :: List.replicate 14 0xFF)) = some (2, 300) := by
  have h := (readers_exact (0xAC :: 0x02 :: List.replicate 14 0xFF) (by decide)).2.1.1
  rw [h]
  decide

end Protoc.Parse
