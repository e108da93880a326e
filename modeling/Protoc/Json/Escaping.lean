import Protoc.Json.StreamParser

/-!
# JSON escaping

`JsonEscaping::Escape` reads code points from a source that may cut them, and writes them to a sink.  A sink
is the bytes that were written.  A code point is below `2 ^ 21`, and lengths are below `2 ^ 31`.
-/

namespace Protoc.Json

open Protoc.Lib

/-! ## Sources -/

/-- `ByteSource`: how many bytes `Peek` returns may depend on how many are left. -/
structure ByteSource where
  rest : Text
  size : ℕ → ℕ
  size_pos : ∀ n, 0 < size n

namespace ByteSource

/-- `ArrayByteSource`. -/
def array (rest : Text) : ByteSource := ⟨rest, fun n => n + 1, fun _ => Nat.succ_pos _⟩

def bytes (rest : Text) : ByteSource := ⟨rest, fun _ => 1, fun _ => Nat.one_pos⟩

variable (input : ByteSource)

/-- `Available`. -/
def available : ℕ := input.rest.length

/-- `Peek`. -/
def peek : Text := input.rest.take (input.size input.rest.length)

/-- `Skip`. -/
def skip (n : ℕ) : ByteSource := { input with rest := input.rest.drop n }

/-- What `CopyTo` writes. -/
def copied (n : ℕ) : Text := input.rest.take n

end ByteSource

/-! ## Code points -/

/-- `IsSurrogate`. -/
def isSurrogate (c : ℕ) : Bool := decide (c &&& 0xfffff800 = kMinHighSurrogate)

def kMaxCodePoint : ℕ := 0x10ffff

/-- `IsValidCodePoint` of `json_escaping.cc`. -/
def isCodePoint (cp : ℕ) : Bool := decide (cp ≤ kMaxCodePoint)

/-- `ToLowSurrogate`. -/
def toLowSurrogate (cp : ℕ) : ℕ := (cp &&& (kMaxLowSurrogate - kMinLowSurrogate)) + kMinLowSurrogate

/-- `ToHighSurrogate`. -/
def toHighSurrogate (cp : ℕ) : ℕ := (cp >>> 10) + (kMinHighSurrogate - kMinSupplementaryCodePoint >>> 10)

/-- What `ReadCodePoint` returns, and leaves in `cp`, `num_left` and `num_read`. -/
structure ReadResult where
  ok : Bool
  cp : ℕ
  numLeft : ℕ
  numRead : ℕ
  deriving DecidableEq

/-- The loop of `ReadCodePoint`. -/
def readMore (cp : ℕ) : ℕ → ℕ → Text → ReadResult
  | 0, numRead, _ => ⟨!isSurrogate cp && isCodePoint cp, cp, 0, numRead⟩
  | numLeft + 1, numRead, [] => ⟨true, cp, numLeft + 1, numRead⟩
  | numLeft + 1, numRead, ch :: str =>
    let cp := cp <<< 6 ||| (ch.toNat &&& 0x3f)
    if ch < 0x80 ∨ 0xbf < ch then ⟨false, cp, numLeft, numRead + 1⟩
    else readMore cp numLeft (numRead + 1) str

theorem le_readMore_numRead {s : Text} {cp numLeft numRead : ℕ} : numRead ≤ (readMore cp numLeft numRead s).numRead := by
  fun_induction readMore cp numLeft numRead s with
  | case1 => exact le_rfl
  | case2 => exact le_rfl
  | case3 => exact Nat.le_succ _
  | case4 cp numLeft numRead ch s cp' hch ih => exact Nat.le_of_succ_le ih

/-- `ReadCodePoint`, of the text at the position. -/
def readCodePoint (str : Text) (cp numLeft : ℕ) : ReadResult :=
  if numLeft = 0 then
    match str with
    | [] => ⟨true, cp, 0, 0⟩
    | c :: str =>
      if c ≤ 0x7f then ⟨true, c.toNat, 0, 1⟩
      else if c ≤ 0xbf then ⟨false, c.toNat, 0, 1⟩
      else if c ≤ 0xdf then readMore (c.toNat &&& 0x1f) 1 1 str
      else if c ≤ 0xef then readMore (c.toNat &&& 0x0f) 2 1 str
      else if c ≤ 0xf7 then readMore (c.toNat &&& 0x07) 3 1 str
      else ⟨false, c.toNat, 0, 1⟩
  else readMore cp numLeft 0 str

/-! ## Escapes -/

def cString (s : String) : Text := s.toList.map Char.toUInt8

/-- `kCommonEscapes`. -/
def kCommonEscapes : List String := [
  -- C0 (ASCII and derivatives) control characters
  "\\u0000", "\\u0001", "\\u0002", "\\u0003",
  "\\u0004", "\\u0005", "\\u0006", "\\u0007", "\\b", "\\t", "\\n", "\\u000b",
  "\\f", "\\r", "\\u000e", "\\u000f", "\\u0010", "\\u0011", "\\u0012",
  "\\u0013",
  "\\u0014", "\\u0015", "\\u0016", "\\u0017", "\\u0018", "\\u0019", "\\u001a",
  "\\u001b", "\\u001c", "\\u001d", "\\u001e", "\\u001f",
  -- Escaping of " and \ is required by the definition of strings, of < and > for HTML security.
  "", "", "\\\"", "", "", "", "", "",
  "", "", "", "", "", "", "", "", "", "", "", "", "", "", "", "",
  "", "", "", "", "\\u003c", "", "\\u003e", "", "", "", "", "", "", "", "",
  "",
  "", "", "", "", "", "", "", "", "", "", "", "", "", "", "", "",
  "", "", "", "", "\\\\", "", "", "", "", "", "", "", "", "", "", "",
  "", "", "", "", "", "", "", "", "", "", "", "", "", "", "", "",
  "", "", "", "", "", "", "", "\\u007f",
  -- C1 (ISO 8859 and Unicode) extended control characters
  "\\u0080", "\\u0081", "\\u0082", "\\u0083",
  "\\u0084", "\\u0085", "\\u0086", "\\u0087", "\\u0088", "\\u0089", "\\u008a",
  "\\u008b", "\\u008c", "\\u008d", "\\u008e", "\\u008f", "\\u0090", "\\u0091",
  "\\u0092", "\\u0093",
  "\\u0094", "\\u0095", "\\u0096", "\\u0097", "\\u0098", "\\u0099", "\\u009a",
  "\\u009b", "\\u009c", "\\u009d", "\\u009e", "\\u009f"]

/-- `kHex[d]`. -/
def kHex (d : ℕ) : UInt8 := UInt8.ofNat (if d < 10 then 0x30 + d else 0x57 + d)

/-- The buffer of `Escape`, at first. -/
def initialBuffer : Text := cString "\\udead\\ubee" ++ [0]

/-- Four hexadecimal digits up to a position of the buffer. -/
def writeHex (cp last : ℕ) (buffer : Text) : Text :=
  (((buffer.set last (kHex (cp &&& 0x0f))).set (last - 1) (kHex (cp >>> 4 &&& 0x0f))).set (last - 2)
    (kHex (cp >>> 8 &&& 0x0f))).set (last - 3) (kHex (cp >>> 12 &&& 0x0f))

/-- `ToHex`: the text, and the buffer. -/
def toHex (cp : ℕ) (buffer : Text) : Text × Text :=
  let buffer := writeHex cp 5 buffer
  (buffer.take 6, buffer)

/-- `ToSurrogateHex`: the text, and the buffer. -/
def toSurrogateHex (cp : ℕ) (buffer : Text) : Text × Text :=
  let buffer := writeHex (toHighSurrogate cp) 5 (writeHex (toLowSurrogate cp) 11 buffer)
  (buffer.take 12, buffer)

/-- The code points from 0xa0 up to 0xffff that are escaped. -/
def isEscapedPlane0 (cp : ℕ) : Bool :=
  -- zero width no-break space, interlinear annotations, soft hyphen
  decide (cp = 0xfeff ∨ cp = 0xfff9 ∨ cp = 0xfffa ∨ cp = 0xfffb ∨ cp = 0x00ad) ||
  -- Arabic end of ayah, Syriac abbreviation mark, Khmer vowels
  decide (cp = 0x06dd ∨ cp = 0x070f ∨ cp = 0x17b4 ∨ cp = 0x17b5) ||
  -- Arabic signs, zero width, separators, invisible, shaping
  decide (0x0600 ≤ cp ∧ cp ≤ 0x0603 ∨ 0x200b ≤ cp ∧ cp ≤ 0x200f ∨ 0x2028 ≤ cp ∧ cp ≤ 0x202e ∨
    0x2060 ≤ cp ∧ cp ≤ 0x2064 ∨ 0x206a ≤ cp ∧ cp ≤ 0x206f)

/-- The code points above 0xffff that are escaped: the language tag, music formatting, tag symbols. -/
def isEscapedSupplementary (cp : ℕ) : Bool :=
  decide (cp = 0x000e0001 ∨ 0x0001d173 ≤ cp ∧ cp ≤ 0x0001d17a ∨ 0x000e0020 ≤ cp ∧ cp ≤ 0x000e007f)

/-- `EscapeCodePoint`: the text, which is empty where no escape is needed, and the buffer. -/
def escapeCodePoint (cp : ℕ) (buffer : Text) : Text × Text :=
  if cp < 0xa0 then (cString (kCommonEscapes[cp]?.getD ""), buffer)
  else if isEscapedPlane0 cp then toHex cp buffer
  else if isEscapedSupplementary cp then toSurrogateHex cp buffer
  else ([], buffer)

/-- A code point in UTF-8, at the end of the first six bytes of the buffer. -/
def writeUtf8 (cp : ℕ) (buffer : Text) : Text × Text :=
  let buffer := buffer.set 5 (UInt8.ofNat ((cp &&& 0x3f) ||| 0x80))
  let cp := cp >>> 6
  if cp ≤ 0x1f then
    let buffer := buffer.set 4 (UInt8.ofNat (cp ||| 0xc0))
    ((buffer.drop 4).take 2, buffer)
  else
    let buffer := buffer.set 4 (UInt8.ofNat ((cp &&& 0x3f) ||| 0x80))
    let cp := cp >>> 6
    if cp ≤ 0x0f then
      let buffer := buffer.set 3 (UInt8.ofNat (cp ||| 0xe0))
      ((buffer.drop 3).take 3, buffer)
    else
      let buffer := buffer.set 3 (UInt8.ofNat ((cp &&& 0x3f) ||| 0x80))
      let buffer := buffer.set 2 (UInt8.ofNat ((cp >>> 6 &&& 0x07) ||| 0xf0))
      ((buffer.drop 2).take 4, buffer)

/-- `EscapeCodePoint` with `force_output`. -/
def forceEscapeCodePoint (cp : ℕ) (buffer : Text) (forceOutput : Bool) : Text × Text :=
  let sp := escapeCodePoint cp buffer
  if forceOutput && sp.1.isEmpty then writeUtf8 cp sp.2 else sp

/-! ## Escape -/

/-- What the inner loop of `Escape` leaves in the variables. -/
structure Scan where
  ok : Bool
  i : ℕ
  numRead : ℕ
  cp : ℕ
  numLeft : ℕ
  escaped : Text
  buffer : Text

/-- The inner loop of `Escape`; each round takes a byte of `str`. -/
def scanLoop (str : Text) (cpWasSplit : Bool) : ℕ → ℕ → ℕ → ℕ → Text → Scan
  | 0, i, cp, numLeft, buffer => ⟨true, i, 0, cp, numLeft, [], buffer⟩
  | rounds + 1, i, cp, numLeft, buffer =>
    let r := readCodePoint (str.drop i) cp numLeft
    if 0 < r.numLeft ∨ !r.ok then ⟨r.ok, i, r.numRead, r.cp, r.numLeft, [], buffer⟩
    else
      let escaped := forceEscapeCodePoint r.cp buffer cpWasSplit
      if escaped.1 ≠ [] then ⟨true, i, r.numRead, r.cp, 0, escaped.1, escaped.2⟩
      else if i + r.numRead < str.length then
        scanLoop str cpWasSplit rounds (i + r.numRead) r.cp 0 escaped.2
      else ⟨true, i + r.numRead, 0, r.cp, 0, [], escaped.2⟩

/-- The outer loop of `Escape`, with a bound on the rounds. -/
def escapeLoop : ℕ → ByteSource → ℕ → ℕ → Text → Text → Option Text
  | 0, _, _, _, _, _ => none
  | rounds + 1, input, cp, numLeft, buffer, output =>
    if input.available = 0 then some output
    else
      let str := input.peek
      let s := scanLoop str (decide (0 < numLeft)) str.length 0 cp numLeft buffer
      let output := output ++ input.copied s.i
      let input := (input.skip s.i).skip s.numRead
      if !s.ok then escapeLoop rounds input s.cp 0 s.buffer output
      else if s.numLeft = 0 ∧ s.escaped ≠ [] then
        escapeLoop rounds input s.cp s.numLeft s.buffer (output ++ s.escaped)
      else escapeLoop rounds input s.cp s.numLeft s.buffer output

/-- `Escape` of a source; each round takes a byte. -/
def escape (input : ByteSource) : Option Text :=
  escapeLoop (input.rest.length + 1) input 0 0 initialBuffer []

/-- Characters that `Escape` of a `StringPiece` looks for; those above 0x7f are negative, or large. -/
def needsEscaping (c : UInt8) : Bool :=
  decide (c < 0x20 ∨ 0x7f ≤ c ∨ c = 0x22 ∨ c = 0x3c ∨ c = 0x3e ∨ c = 0x5c)

/-- `Escape` of a `StringPiece`. -/
def escapePiece (input : Text) : Option Text :=
  if input.any needsEscaping then escape (.array input) else some input

end Protoc.Json
