import Mathlib.Algebra.Group.Int.Defs
import Mathlib.Algebra.Group.Nat.Defs
import Mathlib.Data.List.DropRight

/-!
# Integers and their decimal texts

The printers `FastInt32ToBuffer` to `FastUInt64ToBufferLeft` and the parsers `safe_strto32` to
`safe_strtou64`.  A computation that leaves its type and a write outside of the buffer are
undefined; here they are `none`.
-/

namespace Protoc.Stubs

/-! ## Integers -/

/-- The values of an integer type. -/
structure IntType where
  min : ℤ
  max : ℤ

/-- `int32`. -/
def IntType.int32 : IntType := ⟨-2 ^ 31, 2 ^ 31 - 1⟩

/-- `int64`. -/
def IntType.int64 : IntType := ⟨-2 ^ 63, 2 ^ 63 - 1⟩

/-- `uint32`. -/
def IntType.uint32 : IntType := ⟨0, 2 ^ 32 - 1⟩

/-- `uint64`. -/
def IntType.uint64 : IntType := ⟨0, 2 ^ 64 - 1⟩

def IntType.check (t : IntType) (n : ℤ) : Option ℤ := if t.min ≤ n ∧ n ≤ t.max then some n else none

/-! ## Printing -/

/-- A pointer into a buffer. -/
structure Cursor where
  buffer : List UInt8
  p : ℤ
  deriving DecidableEq

/-- `*p = c`. -/
def Cursor.poke (c : ℤ) (k : Cursor) : Option Cursor :=
  if 0 ≤ k.p ∧ k.p < k.buffer.length then
    some { k with buffer := k.buffer.set k.p.toNat (UInt8.ofInt c) }
  else none

/-- `*p++ = c`. -/
def Cursor.put (c : ℤ) (k : Cursor) : Option Cursor :=
  (k.poke c).map fun k => { k with p := k.p + 1 }

/-- `*p-- = c`. -/
def Cursor.putBack (c : ℤ) (k : Cursor) : Option Cursor :=
  (k.poke c).map fun k => { k with p := k.p - 1 }

theorem tdiv_toNat_lt {i n : ℤ} (hi : 0 < i) (hn : 1 < n) : (i.tdiv n).toNat < i.toNat := by
  have hlt : i / n < i := Int.ediv_lt_self_of_pos_of_ne_one hi (by omega)
  rw [Int.tdiv_eq_ediv_of_nonneg (Int.le_of_lt hi)]
  omega

theorem pos_of_tdiv_pos {i : ℤ} (h : 0 < i.tdiv 10) : 0 < i := by
  by_contra hi
  have hneg := Int.tdiv_nonneg (show 0 ≤ -i by omega) (show (0 : ℤ) ≤ 10 by decide)
  rw [Int.neg_tdiv] at hneg
  omega

/-- `do { *p-- = '0' + i % 10; i /= 10; } while (i > 0);` -/
def digitsLoop (i : ℤ) (k : Cursor) : Option Cursor := (k.putBack (48 + i.tmod 10)).bind fun k =>
    if 0 < i.tdiv 10 then digitsLoop (i.tdiv 10) k else some k
termination_by i.toNat
decreasing_by exact tdiv_toNat_lt (pos_of_tdiv_pos ‹_›) (by decide)

/-- `FastInt32ToBuffer` and `FastInt64ToBuffer`: the buffer behind the call, and where in it the
output begins. -/
def fastIntToBuffer (t : IntType) (offset i : ℤ) (buffer : List UInt8) :
    Option (List UInt8 × ℤ) := do
  let k ← Cursor.putBack 0 ⟨buffer, offset⟩
  if 0 ≤ i then
    let k ← digitsLoop i k
    return (k.buffer, k.p + 1)
  else if -10 < i then
    let i ← t.check (-i)
    let k ← k.putBack (48 + i)
    let k ← k.poke 45
    return (k.buffer, k.p)
  else
    -- the least value has no negation
    let i ← t.check (i + 10)
    let i ← t.check (-i)
    let k ← k.putBack (48 + i.tmod 10)
    let i ← t.check (i.tdiv 10 + 1)
    let k ← digitsLoop i k
    let k ← k.poke 45
    return (k.buffer, k.p)

/-- `kFastInt32ToBufferOffset`. -/
def kFastInt32ToBufferOffset : ℤ := 11

/-- `kFastInt64ToBufferOffset`. -/
def kFastInt64ToBufferOffset : ℤ := 21

/-- `FastInt32ToBuffer`. -/
def fastInt32ToBuffer (i : Int32) (buffer : List UInt8) : Option (List UInt8 × ℤ) :=
  fastIntToBuffer .int32 kFastInt32ToBufferOffset i.toInt buffer

/-- `FastInt64ToBuffer`. -/
def fastInt64ToBuffer (i : Int64) (buffer : List UInt8) : Option (List UInt8 × ℤ) :=
  fastIntToBuffer .int64 kFastInt64ToBufferOffset i.toInt buffer

/-- `two_ASCII_digits`. -/
def twoASCIIDigits : List (ℤ × ℤ) := [
  (48, 48), (48, 49), (48, 50), (48, 51), (48, 52), (48, 53), (48, 54), (48, 55), (48, 56), (48, 57),
  (49, 48), (49, 49), (49, 50), (49, 51), (49, 52), (49, 53), (49, 54), (49, 55), (49, 56), (49, 57),
  (50, 48), (50, 49), (50, 50), (50, 51), (50, 52), (50, 53), (50, 54), (50, 55), (50, 56), (50, 57),
  (51, 48), (51, 49), (51, 50), (51, 51), (51, 52), (51, 53), (51, 54), (51, 55), (51, 56), (51, 57),
  (52, 48), (52, 49), (52, 50), (52, 51), (52, 52), (52, 53), (52, 54), (52, 55), (52, 56), (52, 57),
  (53, 48), (53, 49), (53, 50), (53, 51), (53, 52), (53, 53), (53, 54), (53, 55), (53, 56), (53, 57),
  (54, 48), (54, 49), (54, 50), (54, 51), (54, 52), (54, 53), (54, 54), (54, 55), (54, 56), (54, 57),
  (55, 48), (55, 49), (55, 50), (55, 51), (55, 52), (55, 53), (55, 54), (55, 55), (55, 56), (55, 57),
  (56, 48), (56, 49), (56, 50), (56, 51), (56, 52), (56, 53), (56, 54), (56, 55), (56, 56), (56, 57),
  (57, 48), (57, 49), (57, 50), (57, 51), (57, 52), (57, 53), (57, 54), (57, 55), (57, 56), (57, 57)]

/-- `buffer[0] = ASCII_digits[0]; buffer[1] = ASCII_digits[1]; buffer += 2;` -/
def putTwo (digits : ℤ) (k : Cursor) : Option Cursor := do
  let ASCII_digits ← if 0 ≤ digits then twoASCIIDigits[digits.toNat]? else none
  let k ← k.put ASCII_digits.1
  k.put ASCII_digits.2

/-- `u -= digits * n;` for a `uint32 u`, and `digits` of that type. -/
def subDigits (t : IntType) (u digits n : ℤ) : Option ℤ := do
  let product ← t.check (digits * n)
  IntType.uint32.check (u - product)

/-- `done`. -/
def done (k : Cursor) : Option Cursor := k.poke 0

/-- `lt100`. -/
def lt100 (u : ℤ) (k : Cursor) : Option Cursor := do
  let k ← putTwo u k
  done k

/-- `sublt100`. -/
def sublt100 (digits u : ℤ) (k : Cursor) : Option Cursor := do
  let u ← subDigits .uint32 u digits 100
  lt100 u k

/-- `lt10_000`. -/
def lt10000 (u : ℤ) (k : Cursor) : Option Cursor := do
  let digits := u.tdiv 100
  let k ← putTwo digits k
  sublt100 digits u k

/-- `sublt10_000`. -/
def sublt10000 (digits u : ℤ) (k : Cursor) : Option Cursor := do
  let u ← subDigits .uint32 u digits 10000
  lt10000 u k

/-- `lt1_000_000`. -/
def lt1000000 (u : ℤ) (k : Cursor) : Option Cursor := do
  let digits := u.tdiv 10000
  let k ← putTwo digits k
  sublt10000 digits u k

/-- `sublt1_000_000`. -/
def sublt1000000 (digits u : ℤ) (k : Cursor) : Option Cursor := do
  let u ← subDigits .uint32 u digits 1000000
  lt1000000 u k

/-- `lt100_000_000`. -/
def lt100000000 (u : ℤ) (k : Cursor) : Option Cursor := do
  let digits := u.tdiv 1000000
  let k ← putTwo digits k
  sublt1000000 digits u k

/-- `sublt100_000_000`. -/
def sublt100000000 (digits u : ℤ) (k : Cursor) : Option Cursor := do
  let u ← subDigits .uint32 u digits 100000000
  lt100000000 u k

/-- `FastUInt32ToBufferLeft`, from a pointer on. -/
def putUInt32 (u : ℤ) (k : Cursor) : Option Cursor :=
  if 1000000000 ≤ u then do
    let digits := u.tdiv 100000000
    let k ← putTwo digits k
    sublt100000000 digits u k
  else if u < 100 then
    if 10 ≤ u then lt100 u k
    else do
      let k ← k.put (48 + u)
      done k
  else if u < 10000 then
    if 1000 ≤ u then lt10000 u k
    else do
      let digits := u.tdiv 100
      let k ← k.put (48 + digits)
      sublt100 digits u k
  else if u < 1000000 then
    if 100000 ≤ u then lt1000000 u k
    else do
      let digits := u.tdiv 10000
      let k ← k.put (48 + digits)
      sublt10000 digits u k
  else if u < 100000000 then
    if 10000000 ≤ u then lt100000000 u k
    else do
      let digits := u.tdiv 1000000
      let k ← k.put (48 + digits)
      sublt1000000 digits u k
  else do
    let digits := u.tdiv 100000000
    let k ← k.put (48 + digits)
    sublt100000000 digits u k

/-- `FastUInt64ToBufferLeft`, from a pointer on. -/
def putUInt64 (u64 : ℤ) (k : Cursor) : Option Cursor :=
  -- no `uint64` is negative
  if u64 < 0 then none
  else if u64 % 2 ^ 32 = u64 then putUInt32 (u64 % 2 ^ 32) k
  else do
    let top_11_digits := u64.tdiv 1000000000
    let k ← putUInt64 top_11_digits k
    let product ← IntType.uint64.check (top_11_digits * 1000000000)
    let rest ← IntType.uint64.check (u64 - product)
    let u := rest % 2 ^ 32
    let digits := u.tdiv 10000000
    let k ← putTwo digits k
    let u ← subDigits .int32 u digits 10000000
    let digits := u.tdiv 100000
    let k ← putTwo digits k
    let u ← subDigits .int32 u digits 100000
    let digits := u.tdiv 1000
    let k ← putTwo digits k
    let u ← subDigits .int32 u digits 1000
    let digits := u.tdiv 10
    let k ← putTwo digits k
    let digits ← subDigits .int32 u digits 10
    let k ← k.put (48 + digits)
    k.poke 0
termination_by u64.toNat
decreasing_by exact tdiv_toNat_lt (by omega) (by decide)

/-- A signed value in front of the printer of its absolute value: `u -= i` and `u = i` are
computed modulo the size of the unsigned type. -/
def putSigned (size : ℤ) (putUnsigned : ℤ → Cursor → Option Cursor) (i : ℤ) (k : Cursor) : Option Cursor :=
  if i < 0 then do
    let k ← k.put 45
    putUnsigned ((0 - i) % size) k
  else putUnsigned (i % size) k

/-- What a printer at the start of the buffer leaves: the buffer, and where the text ends. -/
def toBufferLeft (put : Cursor → Option Cursor) (buffer : List UInt8) : Option (List UInt8 × ℤ) :=
  (put ⟨buffer, 0⟩).map fun k => (k.buffer, k.p)

/-- `FastUInt32ToBufferLeft`. -/
def fastUInt32ToBufferLeft (u : UInt32) : List UInt8 → Option (List UInt8 × ℤ) :=
  toBufferLeft (putUInt32 u.toNat)

/-- `FastInt32ToBufferLeft`. -/
def fastInt32ToBufferLeft (i : Int32) : List UInt8 → Option (List UInt8 × ℤ) :=
  toBufferLeft (putSigned (2 ^ 32) putUInt32 i.toInt)

/-- `FastUInt64ToBufferLeft`. -/
def fastUInt64ToBufferLeft (u64 : UInt64) : List UInt8 → Option (List UInt8 × ℤ) :=
  toBufferLeft (putUInt64 u64.toNat)

/-- `FastInt64ToBufferLeft`. -/
def fastInt64ToBufferLeft (i : Int64) : List UInt8 → Option (List UInt8 × ℤ) :=
  toBufferLeft (putSigned (2 ^ 64) putUInt64 i.toInt)

/-! ## Parsing -/

/-- `safe_parse_sign`: whether there is a minus, and the text behind the sign; none when it
returns false. -/
def safeParseSign (text : List UInt8) : Option (Bool × List UInt8) :=
  let text := (text.dropWhile (· == 32)).rdropWhile (· == 32)
  match text with
  | [] => none
  | c :: rest =>
    if c = 45 ∨ c = 43 then
      if rest = [] then none else some (c = 45, rest)
    else some (false, c :: rest)

/-- The loop of `safe_parse_positive_int`: what it returns, and `*value_p`. -/
def safeParsePositiveLoop (t : IntType) (value : ℤ) : List UInt8 → Option (Bool × ℤ)
  | [] => some (true, value)
  | c :: text =>
    let digit : ℤ := c.toNat - 48
    if 10 ≤ digit ∨ digit < 0 then some (false, value)
    else if t.max.tdiv 10 < value then some (false, t.max)
    else do
      let value ← t.check (value * 10)
      let room ← t.check (t.max - digit)
      if room < value then some (false, t.max)
      else do
        let value ← t.check (value + digit)
        safeParsePositiveLoop t value text

/-- `safe_parse_positive_int`. -/
def safeParsePositiveInt (t : IntType) (text : List UInt8) : Option (Bool × ℤ) :=
  safeParsePositiveLoop t 0 text

/-- `vmin_over_base`. -/
def vminOverBase (t : IntType) : ℤ := if 0 < t.min.tmod 10 then t.min.tdiv 10 + 1 else t.min.tdiv 10

/-- The loop of `safe_parse_negative_int`. -/
def safeParseNegativeLoop (t : IntType) (value : ℤ) : List UInt8 → Option (Bool × ℤ)
  | [] => some (true, value)
  | c :: text =>
    let digit : ℤ := c.toNat - 48
    if 10 ≤ digit ∨ digit < 0 then some (false, value)
    else if value < vminOverBase t then some (false, t.min)
    else do
      let value ← t.check (value * 10)
      let room ← t.check (t.min + digit)
      if value < room then some (false, t.min)
      else do
        let value ← t.check (value - digit)
        safeParseNegativeLoop t value text

/-- `safe_parse_negative_int`. -/
def safeParseNegativeInt (t : IntType) (text : List UInt8) : Option (Bool × ℤ) :=
  safeParseNegativeLoop t 0 text

/-- `safe_int_internal`: what it returns, and `*value_p`. -/
def safeIntInternal (t : IntType) (text : List UInt8) : Option (Bool × ℤ) :=
  match safeParseSign text with
  | none => some (false, 0)
  | some (negative, text) =>
    if negative then safeParseNegativeInt t text else safeParsePositiveInt t text

/-- `safe_uint_internal`. -/
def safeUintInternal (t : IntType) (text : List UInt8) : Option (Bool × ℤ) :=
  match safeParseSign text with
  | none => some (false, 0)
  | some (negative, text) => if negative then some (false, 0) else safeParsePositiveInt t text

/-- `safe_strto32`. -/
def safeStrto32 (str : List UInt8) : Option (Bool × ℤ) := safeIntInternal .int32 str

/-- `safe_strtou32`. -/
def safeStrtou32 (str : List UInt8) : Option (Bool × ℤ) := safeUintInternal .uint32 str

/-- `safe_strto64`. -/
def safeStrto64 (str : List UInt8) : Option (Bool × ℤ) := safeIntInternal .int64 str

/-- `safe_strtou64`. -/
def safeStrtou64 (str : List UInt8) : Option (Bool × ℤ) := safeUintInternal .uint64 str

end Protoc.Stubs
