import Protoc.Lib.Words

/-!
# Structural validity of UTF-8

The state tables of `structurally_valid.cc` and the scans over them.  Positions count from the
first byte of the string; `addr` is its address, whose low bits decide where the words are
aligned.  A scan that reads outside the string is `none`.
-/

namespace Protoc.Stubs

/-! ## Tables -/

def kExitIllegalStructure : ℕ := 240
def kExitOK : ℕ := 241
def kExitReject : ℕ := 242
def kExitDoAgain : ℕ := 253

/-- `X__` of the tables. -/
abbrev X_ : ℕ := kExitIllegalStructure

/-- `RJ_` of the tables. -/
abbrev RJ_ : ℕ := kExitReject

/-- An entry of a table in which equal entries in a row are written as a count and the entry. -/
def entry : List (ℕ × ℕ) → ℕ → ℕ
  | [], _ => 0
  | (count, e) :: rest, i => if i < count then e else entry rest (i - count)

/-- The nine state blocks of 256 entries each. -/
def utf8acceptnonsurrogatesStates : List (List (ℕ × ℕ)) := [ -- state[0] 0x000000 Byte 1
    [(128, 0), (66, X_), (30, 1), (1, 2), (12, 3), (1, 7), (2, 3), (1, 4), (3, 5), (1, 6), (11, X_)],
    -- state[1] 0x000080 Byte 2 of 2
    [(128, X_), (64, 0), (64, X_)],
    -- state[2] 0x000000 Byte 2 of 3
    [(160, X_), (32, 1), (64, X_)],
    -- state[3] 0x001000 Byte 2 of 3
    [(128, X_), (64, 1), (64, X_)],
    -- state[4] 0x000000 Byte 2 of 4
    [(144, X_), (48, 3), (64, X_)],
    -- state[5] 0x040000 Byte 2 of 4
    [(128, X_), (64, 3), (64, X_)],
    -- state[6] 0x100000 Byte 2 of 4
    [(128, X_), (16, 3), (112, X_)],
    -- state[7] 0x00d000 Byte 2 of 3
    [(128, X_), (32, 1), (32, 8), (64, X_)],
    -- state[8] 0x00d800 Byte 3 of 3
    [(128, X_), (64, RJ_), (64, X_)]]

def utf8acceptnonsurrogates (i : ℕ) : ℕ := entry utf8acceptnonsurrogatesStates.flatten i

def utf8acceptnonsurrogatesFast (i : ℕ) : ℕ := entry [(128, 0), (128, 1)] i

/-- The members of `UTF8StateMachineObj` that the scans use. -/
structure UTF8ScanObj where
  state0 : ℕ
  state0Size : ℕ
  entryShift : ℕ
  losub : BitVec 32
  hiadd : BitVec 32
  stateTable : ℕ → ℕ
  fastState : ℕ → ℕ

def utf8acceptnonsurrogatesObj : UTF8ScanObj where
  state0 := 0
  state0Size := 256
  entryShift := 8
  losub := 0x20202020
  hiadd := 0
  stateTable := utf8acceptnonsurrogates
  fastState := utf8acceptnonsurrogatesFast

/-! ## Scans -/

/-- `reinterpret_cast<const uint32*>(src)[0]` on a little-endian machine. -/
def loadWord (str : List UInt8) (src : ℕ) : Option (BitVec 32) := do
  let b0 ← str[src]?
  let b1 ← str[src + 1]?
  let b2 ← str[src + 2]?
  let b3 ← str[src + 3]?
  some (b3.toBitVec ++ b2.toBitVec ++ b1.toBitVec ++ b0.toBitVec)

def highBits : BitVec 32 := 0x80808080

/-- Skips bytes one at a time until `src` is 8-byte aligned, `count` at most. -/
def skipUnaligned (addr : ℕ) (str : List UInt8) (identity : UInt8 → Bool) : ℕ → ℕ → Option ℕ
  | 0, src => some src
  | count + 1, src =>
    if (addr + src) % 8 = 0 then some src
    else do
      let c ← str[src]?
      if identity c then skipUnaligned addr str identity count (src + 1) else some src

/-- Skips bytes one at a time, `count` at most. -/
def skipBytes (str : List UInt8) (identity : UInt8 → Bool) : ℕ → ℕ → Option ℕ
  | 0, src => some src
  | count + 1, src => do
      let c ← str[src]?
      if identity c then skipBytes str identity count (src + 1) else some src

/-- `Tbl2[src[0]] | Tbl2[src[1]] | Tbl2[src[2]] | Tbl2[src[3]]` -/
def fastState4 (st : UTF8ScanObj) (str : List UInt8) (src : ℕ) : Option ℕ := do
  let c0 ← str[src]?
  let c1 ← str[src + 1]?
  let c2 ← str[src + 2]?
  let c3 ← str[src + 3]?
  some ((st.fastState c0.toNat ||| st.fastState c1.toNat) |||
    (st.fastState c2.toNat ||| st.fastState c3.toNat))

/-- Skips groups of 8 identity bytes that begin before `srclimit8`; every round moves on, so
`srclimit8` rounds are enough. -/
def skipGroups (st : UTF8ScanObj) (str : List UInt8) (srclimit8 : ℕ) : ℕ → ℕ → Option ℕ
  | 0, src => some src
  | rounds + 1, src =>
    if src < srclimit8 then do
      let s0123 ← loadWord str src
      let s4567 ← loadWord str (src + 4)
      let temp := (s0123 - st.losub) ||| (s0123 + st.hiadd) |||
        (s4567 - st.losub) ||| (s4567 + st.hiadd)
      if temp &&& highBits ≠ 0 then do
        let e0123 ← fastState4 st str src
        if e0123 ≠ 0 then some src
        else do
          let e4567 ← fastState4 st str (src + 4)
          if e4567 ≠ 0 then some (src + 4) else skipGroups st str srclimit8 rounds (src + 8)
      else skipGroups st str srclimit8 rounds (src + 8)
    else some src

/-- The byte-at-a-time scan of `count` bytes: the last entry, `Tbl - Tbl_0` and `src`. -/
def scanBytes (st : UTF8ScanObj) (str : List UInt8) : ℕ → ℕ → ℕ → ℕ → Option (ℕ × ℕ × ℕ)
  | 0, src, tbl, e => some (e, tbl, src)
  | count + 1, src, tbl, _ => do
      let c ← str[src]?
      let e := st.stateTable (st.state0 + tbl + c.toNat)
      if kExitIllegalStructure ≤ e then some (e, tbl, src + 1)
      else scanBytes st str count (src + 1) (e <<< st.entryShift) e

/-- `do { src--; } while ((src > isrc) && ((src[0] & 0xc0) == 0x80));` -/
def backUp (str : List UInt8) : ℕ → Option ℕ
  | 0 => none
  | src + 1 =>
    if 0 < src then do
      let c ← str[src]?
      if c &&& 0xc0 = 0x80 then backUp str src else some src
    else some src

/-- `InStateZero` -/
def inStateZero (st : UTF8ScanObj) (tbl : ℕ) : Bool := decide (tbl < st.state0Size)

/-- The exit code and `src` after the byte-at-a-time scan. -/
def exitScan (st : UTF8ScanObj) (str : List UInt8) (e tbl src : ℕ) : Option (ℕ × ℕ) :=
  if kExitIllegalStructure ≤ e then
    -- back up over the rejected byte, and over the rest of its character
    if inStateZero st tbl then some (e, src - 1)
    else (backUp str (src - 1)).map fun src => (e, src)
  else if inStateZero st tbl then some (kExitOK, src)
  else (backUp str src).map fun src => (kExitIllegalStructure, src)

/-- The scan from `DoAgain`, which may be reached `again` times. -/
def scanFrom (st : UTF8ScanObj) (addr : ℕ) (str : List UInt8) (srclimit srclimit8 : ℕ) :
    ℕ → ℕ → Option (ℕ × ℕ)
  | 0, _ => none
  | again + 1, src => do
      let src ← skipUnaligned addr str (fun c => st.fastState c.toNat == 0) (srclimit - src) src
      let src ← (if (addr + src) % 8 = 0 then skipGroups st str srclimit8 srclimit8 src else some src)
      let (e, tbl, src) ← scanBytes st str (srclimit - src) src 0 0
      let (e, src) ← exitScan st str e tbl src
      if e = kExitDoAgain then scanFrom st addr str srclimit srclimit8 again src else some (e, src)

/-- `str_length < 7 ? isrc : srclimit - 7` -/
def limit8 (strLength : ℤ) : ℕ := if strLength < 7 then 0 else (strLength - 7).toNat

/-- `UTF8GenericScan`: the exit code and the bytes consumed.  A negative length puts `srclimit`
before the string. -/
def utf8GenericScan (st : UTF8ScanObj) (addr : ℕ) (str : List UInt8) (strLength : ℤ) : Option (ℕ × ℕ) :=
  if strLength = 0 then some (kExitOK, 0)
  else
    scanFrom st addr str strLength.toNat (limit8 strLength) (strLength.toNat + 1) 0

/-- Skips groups of 8 ASCII bytes that begin before `srclimit8`. -/
def skipAsciiGroups (str : List UInt8) (srclimit8 : ℕ) : ℕ → ℕ → Option ℕ
  | 0, src => some src
  | rounds + 1, src =>
    if src < srclimit8 then do
      let s0123 ← loadWord str src
      let s4567 ← loadWord str (src + 4)
      if (s0123 ||| s4567) &&& highBits = 0 then skipAsciiGroups str srclimit8 rounds (src + 8)
      else some src
    else some src

/-- `src[0] < 0x80` -/
def isAscii (c : UInt8) : Bool := decide (c.toNat < 0x80)

/-- The loop of `UTF8GenericScanFastAscii`, which runs again while the exit code says so. -/
def scanFastAscii (st : UTF8ScanObj) (addr : ℕ) (str : List UInt8) (strLength : ℤ) :
    ℕ → ℕ → Option (ℕ × ℕ)
  | 0, _ => none
  | again + 1, src => do
      let src ← skipUnaligned addr str isAscii (strLength.toNat - src) src
      let src ←
        (if (addr + src) % 8 = 0 then
          skipAsciiGroups str (limit8 strLength) (limit8 strLength) src
        else some src)
      let src ← skipBytes str isAscii (strLength.toNat - src) src
      let (exitReason, restConsumed) ←
        utf8GenericScan st (addr + src) (str.drop src) (strLength - src)
      let src := src + restConsumed
      if exitReason = kExitDoAgain then scanFastAscii st addr str strLength again src
      else some (exitReason, src)

/-- `UTF8GenericScanFastAscii` -/
def utf8GenericScanFastAscii (st : UTF8ScanObj) (addr : ℕ) (str : List UInt8) (strLength : ℤ) :
    Option (ℕ × ℕ) :=
  if strLength = 0 then some (kExitOK, 0)
  else scanFastAscii st addr str strLength (strLength.toNat + 1) 0

/-! ## The functions -/

/-- `std::numeric_limits<int>::max()` -/
def intMax : ℕ := 2 ^ 31 - 1

/-- A `size_t` passed as an `int`. -/
def sizeToInt (n : ℕ) : ℤ := (BitVec.ofNat 32 n).toInt

/-- `IsStructurallyValidUTF8`, which answers true until the module is initialized. -/
def isStructurallyValidUTF8 (moduleInitialized : Bool) (addr : ℕ) (buf : List UInt8) (len : ℤ) : Option Bool :=
  if moduleInitialized then
    (utf8GenericScanFastAscii utf8acceptnonsurrogatesObj addr buf len).map fun r =>
      decide ((r.2 : ℤ) = len)
  else some true

/-- `UTF8SpnStructurallyValid` -/
def utf8SpnStructurallyValid (moduleInitialized : Bool) (addr : ℕ) (str : List UInt8) : Option ℤ :=
  if moduleInitialized then
    (utf8GenericScanFastAscii utf8acceptnonsurrogatesObj addr str (sizeToInt str.length)).map
      fun r => (r.2 : ℤ)
  else some (sizeToInt str.length)

end Protoc.Stubs
