import Protoc.Lib.Ring
import Protoc.Stubs.Strutil

/-!
# Base 64

`Base64Escape` and its web-safe forms, and the unescaper.  The encoder pumps whole groups of
three bytes as long as four are left, and has a case for each tail.  The decoder has a loop
over four characters, which falls back to one character at a time, and cleans up what is
left.
-/

namespace Protoc.Stubs

open Protoc.Lib

/-- An `int` after an overflow. -/
def wrapInt (n : ℤ) : ℤ := Int.bmod n (2 ^ 32)

/-- `CalculateBase64EscapedLen`. -/
def calculateBase64EscapedLen (inputLen : ℤ) (doPadding : Bool) : ℤ :=
  let len := wrapInt (inputLen.tdiv 3 * 4)
  if inputLen.tmod 3 = 0 then len
  else if inputLen.tmod 3 = 1 then wrapInt (len + 2 + if doPadding then 2 else 0)
  else wrapInt (len + 3 + if doPadding then 1 else 0)

/-- `kBase64Chars`. -/
def kBase64Chars : List UInt8 := [
  65, 66, 67, 68, 69, 70, 71, 72, 73, 74, 75, 76, 77, 78, 79, 80, 81, 82, 83, 84, 85, 86, 87, 88,
  89, 90, 97, 98, 99, 100, 101, 102, 103, 104, 105, 106, 107, 108, 109, 110, 111, 112, 113, 114,
  115, 116, 117, 118, 119, 120, 121, 122, 48, 49, 50, 51, 52, 53, 54, 55, 56, 57, 43, 47]

/-- `kWebSafeBase64Chars`. -/
def kWebSafeBase64Chars : List UInt8 := [
  65, 66, 67, 68, 69, 70, 71, 72, 73, 74, 75, 76, 77, 78, 79, 80, 81, 82, 83, 84, 85, 86, 87, 88,
  89, 90, 97, 98, 99, 100, 101, 102, 103, 104, 105, 106, 107, 108, 109, 110, 111, 112, 113, 114,
  115, 116, 117, 118, 119, 120, 121, 122, 48, 49, 50, 51, 52, 53, 54, 55, 56, 57, 45, 95]

/-- `kUnBase64`. -/
def kUnBase64 : List ℤ := [
  -1, -1, -1, -1, -1, -1, -1, -1, -1, -1, -1, -1, -1, -1, -1, -1, -1, -1, -1, -1, -1, -1, -1, -1,
  -1, -1, -1, -1, -1, -1, -1, -1, -1, -1, -1, -1, -1, -1, -1, -1, -1, -1, -1, 62, -1, -1, -1, 63,
  52, 53, 54, 55, 56, 57, 58, 59, 60, 61, -1, -1, -1, -1, -1, -1, -1, 0, 1, 2, 3, 4, 5, 6, 7, 8,
  9, 10, 11, 12, 13, 14, 15, 16, 17, 18, 19, 20, 21, 22, 23, 24, 25, -1, -1, -1, -1, -1, -1, 26,
  27, 28, 29, 30, 31, 32, 33, 34, 35, 36, 37, 38, 39, 40, 41, 42, 43, 44, 45, 46, 47, 48, 49, 50,
  51, -1, -1, -1, -1, -1, -1, -1, -1, -1, -1, -1, -1, -1, -1, -1, -1, -1, -1, -1, -1, -1, -1, -1,
  -1, -1, -1, -1, -1, -1, -1, -1, -1, -1, -1, -1, -1, -1, -1, -1, -1, -1, -1, -1, -1, -1, -1, -1,
  -1, -1, -1, -1, -1, -1, -1, -1, -1, -1, -1, -1, -1, -1, -1, -1, -1, -1, -1, -1, -1, -1, -1, -1,
  -1, -1, -1, -1, -1, -1, -1, -1, -1, -1, -1, -1, -1, -1, -1, -1, -1, -1, -1, -1, -1, -1, -1, -1,
  -1, -1, -1, -1, -1, -1, -1, -1, -1, -1, -1, -1, -1, -1, -1, -1, -1, -1, -1, -1, -1, -1, -1, -1,
  -1, -1, -1, -1, -1, -1, -1, -1, -1, -1, -1, -1, -1, -1]

/-- `kUnWebSafeBase64`. -/
def kUnWebSafeBase64 : List ℤ := [
  -1, -1, -1, -1, -1, -1, -1, -1, -1, -1, -1, -1, -1, -1, -1, -1, -1, -1, -1, -1, -1, -1, -1, -1,
  -1, -1, -1, -1, -1, -1, -1, -1, -1, -1, -1, -1, -1, -1, -1, -1, -1, -1, -1, -1, -1, 62, -1, -1,
  52, 53, 54, 55, 56, 57, 58, 59, 60, 61, -1, -1, -1, -1, -1, -1, -1, 0, 1, 2, 3, 4, 5, 6, 7, 8,
  9, 10, 11, 12, 13, 14, 15, 16, 17, 18, 19, 20, 21, 22, 23, 24, 25, -1, -1, -1, -1, 63, -1, 26,
  27, 28, 29, 30, 31, 32, 33, 34, 35, 36, 37, 38, 39, 40, 41, 42, 43, 44, 45, 46, 47, 48, 49, 50,
  51, -1, -1, -1, -1, -1, -1, -1, -1, -1, -1, -1, -1, -1, -1, -1, -1, -1, -1, -1, -1, -1, -1, -1,
  -1, -1, -1, -1, -1, -1, -1, -1, -1, -1, -1, -1, -1, -1, -1, -1, -1, -1, -1, -1, -1, -1, -1, -1,
  -1, -1, -1, -1, -1, -1, -1, -1, -1, -1, -1, -1, -1, -1, -1, -1, -1, -1, -1, -1, -1, -1, -1, -1,
  -1, -1, -1, -1, -1, -1, -1, -1, -1, -1, -1, -1, -1, -1, -1, -1, -1, -1, -1, -1, -1, -1, -1, -1,
  -1, -1, -1, -1, -1, -1, -1, -1, -1, -1, -1, -1, -1, -1, -1, -1, -1, -1, -1, -1, -1, -1, -1, -1,
  -1, -1, -1, -1, -1, -1, -1, -1, -1, -1, -1, -1, -1, -1]

/-! ## Escaping -/

/-- `base64[i]`. -/
def base64At (base64 : List UInt8) (i : UInt32) : UInt8 := base64.getD i.toNat 0

def escapeGroup (base64 : List UInt8) (bits : UInt32) : List UInt8 :=
  [base64At base64 (bits >>> 18), base64At base64 ((bits &&& 0x3FFFF) >>> 12),
    base64At base64 ((bits &&& 0xFFF) >>> 6), base64At base64 (bits &&& 0x3F)]

/-- `BigEndian::Load32`. -/
def load32 (a b c d : UInt8) : UInt32 :=
  a.toUInt32 <<< 24 ||| b.toUInt32 <<< 16 ||| c.toUInt32 <<< 8 ||| d.toUInt32

/-- `BigEndian::Load16`. -/
def load16 (a b : UInt8) : UInt32 := a.toUInt32 <<< 8 ||| b.toUInt32

/-- The loop of `Base64EscapeInternal`, as long as four bytes are left: what it writes, and
the tail. -/
def escapeGroups (base64 : List UInt8) : List UInt8 → List UInt8 × List UInt8
  | a :: b :: c :: d :: src =>
    let r := escapeGroups base64 (d :: src)
    (escapeGroup base64 (load32 a b c d >>> 8) ++ r.1, r.2)
  | src => ([], src)

/-- The tail, in the `szdest` bytes that are left: what it writes, and whether there was room
for all of it. -/
def escapeTail (base64 : List UInt8) (doPadding : Bool) (szdest : ℤ) :
    List UInt8 → List UInt8 × Bool
  | [] => ([], true)
  | [a] =>
    if szdest - 2 < 0 then ([], false)
    else
      let bits := a.toUInt32
      let written := [base64At base64 (bits >>> 2), base64At base64 ((bits &&& 0x3) <<< 4)]
      if doPadding then
        if szdest - 2 - 2 < 0 then (written, false) else (written ++ [61, 61], true)
      else (written, true)
  | [a, b] =>
    if szdest - 3 < 0 then ([], false)
    else
      let bits := load16 a b
      let written := [base64At base64 (bits >>> 10), base64At base64 ((bits &&& 0x3FF) >>> 4),
        base64At base64 ((bits &&& 0x00F) <<< 2)]
      if doPadding then
        if szdest - 3 - 1 < 0 then (written, false) else (written ++ [61], true)
      else (written, true)
  | a :: b :: c :: _ =>
    if szdest - 4 < 0 then ([], false)
    else (escapeGroup base64 (a.toUInt32 <<< 16 + load16 b c), true)

/-- What `Base64EscapeInternal` returns, and the bytes it writes from `dest` on. -/
structure Escaped where
  returned : ℕ
  written : List UInt8
  deriving DecidableEq

/-- `Base64EscapeInternal`. -/
def base64EscapeInternal (src : List UInt8) (szdest : ℤ) (base64 : List UInt8) (doPadding : Bool) : Escaped :=
  let szsrc := toInt src.length
  if szsrc ≤ 0 then ⟨0, []⟩
  else if wrapInt (szsrc * 4) > wrapInt (szdest * 3) then ⟨0, []⟩
  else
    let groups := escapeGroups base64 src
    let tail := escapeTail base64 doPadding (szdest - groups.1.length) groups.2
    let written := groups.1 ++ tail.1
    ⟨if tail.2 then written.length else 0, written⟩

/-- `Base64EscapeInternal` on a string, which cannot get a negative size. -/
def base64EscapeString (src : List UInt8) (doPadding : Bool) (base64 : List UInt8) : Option (List UInt8) :=
  let calcEscapedSize := calculateBase64EscapedLen (toInt src.length) doPadding
  if calcEscapedSize < 0 then none
  else
    let dest := List.replicate calcEscapedSize.toNat 0
    let escaped := base64EscapeInternal src calcEscapedSize base64 doPadding
    some ((Ring.blit dest 0 escaped.written).take escaped.returned)

/-- `Base64Escape`. -/
def base64Escape (src : List UInt8) : Option (List UInt8) :=
  base64EscapeString src true kBase64Chars

/-- `WebSafeBase64Escape`. -/
def webSafeBase64Escape (src : List UInt8) : Option (List UInt8) :=
  base64EscapeString src false kWebSafeBase64Chars

/-- `WebSafeBase64EscapeWithPadding`. -/
def webSafeBase64EscapeWithPadding (src : List UInt8) : Option (List UInt8) :=
  base64EscapeString src true kWebSafeBase64Chars

/-! ## Unescaping -/

/-- `ascii_isspace`. -/
def asciiIsspace (c : UInt8) : Bool := c = 32 || c = 9 || c = 10 || c = 11 || c = 12 || c = 13

/-- `kPad64Equals` or `kPad64Dot`. -/
def isPad64 (c : UInt8) : Bool := c = 61 || c = 46

/-- The variables of `Base64UnescapeInternal`.  `szsrc` is the length of `src`; there is no
`dest` when the input is only checked. -/
structure Unescape where
  src : List UInt8
  dest : Option (List UInt8)
  destidx : ℕ
  state : ℕ
  ch : UInt8
  temp : UInt32
  decode : ℤ
  deriving DecidableEq

namespace Unescape

/-- `unbase64[ch]`. -/
def unbase64At (unbase64 : List ℤ) (c : UInt8) : ℤ := unbase64.getD c.toNat (-1)

/-- An index as an `unsigned`. -/
def bitsOf (decode : ℤ) : UInt32 := UInt32.ofInt decode

/-- `GET_INPUT`: whether a data byte was read.  If not, the loop is left. -/
def getInput (unbase64 : List ℤ) (remain : ℕ) (d : Unescape) : List UInt8 → Bool × Unescape
  | [] => (false, { d with src := [] })
  | ch :: src =>
    let decode := unbase64At unbase64 ch
    if decode < 0 then
      if asciiIsspace ch ∧ remain ≤ src.length then getInput unbase64 remain d src
      else (false, { d with src, ch, decode, state := 4 - remain })
    else (true, { d with src, ch, decode })

/-- `temp = (temp << 6) | decode`. -/
def shiftIn (d : Unescape) : Unescape := { d with temp := d.temp <<< 6 ||| bitsOf d.decode }

/-- Three bytes of `temp` to `dest[destidx..]`, where there is room. -/
def writeThree (szdest : ℕ) (d : Unescape) : Option Unescape :=
  match d.dest with
  | none => some { d with destidx := d.destidx + 3 }
  | some dest =>
    if szdest < d.destidx + 3 then none
    else
      some { d with
        dest := some (Ring.blit dest d.destidx
          [(d.temp >>> 16).toUInt8, (d.temp >>> 8).toUInt8, d.temp.toUInt8])
        temp := d.temp >>> 16
        destidx := d.destidx + 3 }

/-- Four characters, one at a time: whether all were data. -/
def readFour (unbase64 : List ℤ) (d : Unescape) : Bool × Unescape :=
  let first := d.getInput unbase64 4 d.src
  if !first.1 then first
  else
    let d := if d.dest.isSome then { first.2 with temp := bitsOf first.2.decode } else first.2
    let second := d.getInput unbase64 3 d.src
    if !second.1 then second
    else
      let d := if d.dest.isSome then second.2.shiftIn else second.2
      let third := d.getInput unbase64 2 d.src
      if !third.1 then third
      else
        let d := if d.dest.isSome then third.2.shiftIn else third.2
        let fourth := d.getInput unbase64 1 d.src
        if !fourth.1 then fourth
        else (true, if d.dest.isSome then fourth.2.shiftIn else fourth.2)

/-- The loop over four characters, at most `fuel` times; it returns -1 when the buffer is
full. -/
def fourLoop (unbase64 : List ℤ) (szdest : ℕ) : ℕ → Unescape → Option Unescape
  | 0, d => some d
  | fuel + 1, d =>
    match d.src with
    | c₀ :: c₁ :: c₂ :: c₃ :: src =>
      let nul := decide (c₀ = 0 ∨ c₁ = 0 ∨ c₂ = 0)
      let four := bitsOf (unbase64At unbase64 c₀) <<< 18 |||
        bitsOf (unbase64At unbase64 c₁) <<< 12 |||
        bitsOf (unbase64At unbase64 c₂) <<< 6 ||| bitsOf (unbase64At unbase64 c₃)
      let d := if nul then d else { d with temp := four }
      if nul ∨ four &&& 0x80000000 ≠ 0 then
        let r := d.readFour unbase64
        if r.1 then (r.2.writeThree szdest).bind (fourLoop unbase64 szdest fuel)
        else some r.2
      else
        ({ d with src, decode := -1, ch := 0 }.writeThree szdest).bind
          (fourLoop unbase64 szdest fuel)
    | _ => some d

/-- The loop over one character; it returns -1 for a bad character. -/
def oneLoop (unbase64 : List ℤ) (szdest : ℕ) : List UInt8 → Unescape → Option Unescape
  | [], d => some { d with src := [] }
  | ch :: src, d =>
    let decode := unbase64At unbase64 ch
    let d := { d with ch, decode }
    if decode < 0 then
      if asciiIsspace ch then oneLoop unbase64 szdest src d
      else if ch = 0 then some { d with src }
      else if isPad64 ch then some { d with src := ch :: src }
      else none
    else
      let d : Unescape := { d.shiftIn with state := d.state + 1 }
      if d.state = 4 then
        match d.writeThree szdest with
        | none => none
        | some d => oneLoop unbase64 szdest src { d with state := 0, temp := 0 }
      else oneLoop unbase64 szdest src d

/-- What is left in `temp`, and how many pad characters are expected. -/
def leftover (szdest : ℕ) (d : Unescape) : Option (Unescape × ℕ) :=
  match d.state with
  | 0 => some (d, 0)
  | 2 =>
    match d.dest with
    | none => some ({ d with destidx := d.destidx + 1 }, 2)
    | some dest =>
      if szdest < d.destidx + 1 then none
      else
        some ({ d with
          dest := some (Ring.blit dest d.destidx [(d.temp >>> 4).toUInt8])
          temp := d.temp >>> 4
          destidx := d.destidx + 1 }, 2)
  | 3 =>
    match d.dest with
    | none => some ({ d with destidx := d.destidx + 2 }, 1)
    | some dest =>
      if szdest < d.destidx + 2 then none
      else
        some ({ d with
          dest := some (Ring.blit dest d.destidx
            [(d.temp >>> 2 >>> 8).toUInt8, (d.temp >>> 2).toUInt8])
          temp := d.temp >>> 2 >>> 8
          destidx := d.destidx + 2 }, 1)
  | _ => none

/-- The pad characters at the end, up to a zero; none for anything but these and white
space. -/
def countEquals : ℕ → List UInt8 → Option ℕ
  | equals, [] => some equals
  | equals, c :: src =>
    if c = 0 then some equals
    else if isPad64 c then countEquals (equals + 1) src
    else if asciiIsspace c then countEquals equals src
    else none

end Unescape

/-- `Base64UnescapeInternal`: the buffer and the number of bytes in it, or none for -1. -/
def base64UnescapeInternal (src : List UInt8) (dest : Option (List UInt8)) (szdest : ℕ)
    (unbase64 : List ℤ) : Option (Option (List UInt8) × ℕ) := do
  let d ← Unescape.fourLoop unbase64 szdest (src.length + 1) ⟨src, dest, 0, 0, 0, 0, 0⟩
  if d.decode < 0 ∧ d.ch ≠ 0 ∧ ¬ isPad64 d.ch ∧ ¬ asciiIsspace d.ch then none
  else
    let d ←
      if isPad64 d.ch then some { d with src := d.ch :: d.src }
      else Unescape.oneLoop unbase64 szdest d.src d
    let (d, expectedEquals) ← d.leftover szdest
    let equals ← Unescape.countEquals 0 d.src
    if equals = 0 ∨ equals = expectedEquals then some (d.dest, d.destidx) else none

/-- `Base64UnescapeInternal` on a string; an empty string has no buffer. -/
def base64UnescapeString (src : List UInt8) (unbase64 : List ℤ) : Option (List UInt8) := do
  let slen := toInt src.length
  let destLen := wrapInt (wrapInt (3 * slen.tdiv 4) + slen.tmod 4)
  if destLen < 0 then none
  else
    let dest := List.replicate destLen.toNat 0
    let r ← base64UnescapeInternal src (if dest = [] then none else some dest) destLen.toNat
      unbase64
    some ((r.1.getD []).take r.2)

/-- `Base64Unescape`. -/
def base64Unescape (src : List UInt8) : Option (List UInt8) := base64UnescapeString src kUnBase64

/-- `WebSafeBase64Unescape`. -/
def webSafeBase64Unescape (src : List UInt8) : Option (List UInt8) :=
  base64UnescapeString src kUnWebSafeBase64

end Protoc.Stubs
