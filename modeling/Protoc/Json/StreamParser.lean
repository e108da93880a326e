import Mathlib.Data.List.DropRight
import Protoc.Lib.Utf8
import Protoc.Stubs.Strutil

/-!
# The strings of the JSON stream parser

`JsonStreamParser` is given a text piece by piece, and cancels where the text ends in the middle of a
token.  These are the functions that read a string: its escapes, and its end, which may come later.
The message of a failure also quotes the text around `p_`; that is left out.  Lengths are below `2 ^ 31`.
-/

namespace Protoc.Json

open Protoc.Lib
open Protoc.Stubs (isxdigit hexDigitToInt)

universe u

abbrev Text := List UInt8

/-! ## Numbers and names of the source -/

def kUnicodeEscapedLength : ℕ := 6

def kMinHighSurrogate : ℕ := 0xd800
def kMaxHighSurrogate : ℕ := 0xdbff
def kMinLowSurrogate : ℕ := 0xdc00
def kMaxLowSurrogate : ℕ := 0xdfff
def kMinSupplementaryCodePoint : ℕ := 0x010000

def kDefaultMaxRecursionDepth : ℤ := 100

/-- `ParseErrorType`. -/
inductive ParseErrorType
  | octalOrHexAreNotValidJsonValues
  | expectedColon
  | expectedCommaOrBracket
  | expectedValue
  | expectedCommaOrBraces
  | expectedObjectKeyOrBraces
  | expectedValueOrBracket
  | invalidKeyOrVariableName
  | nonUtf8
  | parsingTerminatedBeforeEndOfInput
  | unexpectedToken
  | expectedClosingQuote
  | illegalHexString
  | invalidEscapeSequence
  | missingLowSurrogate
  | invalidLowSurrogate
  | invalidUnicode
  | unableToParseNumber
  | numberExceedsRangeDouble
  deriving DecidableEq

/-- `util::Status`, as far as the parser returns it. -/
inductive Status
  | ok
  | cancelled
  | failure (message : String) (code : ParseErrorType)
  | tooDeep
  deriving DecidableEq

/-! ## State -/

/-- The options, and the double arithmetic of the platform. -/
structure Settings (D : Type u) where
  allowNoRootElement : Bool
  coerceToUtf8 : Bool
  allowEmptyNull : Bool
  allowPermissiveKeyNaming : Bool
  looseFloatNumberConversion : Bool
  maxRecursionDepth : ℤ
  safeStrtod : Text → Option D
  isfinite : D → Bool

/-- The options that the constructor sets. -/
def Settings.new {D : Type u} (safeStrtod : Text → Option D) (isfinite : D → Bool) : Settings D where
  allowNoRootElement := false
  coerceToUtf8 := false
  allowEmptyNull := false
  allowPermissiveKeyNaming := false
  looseFloatNumberConversion := false
  maxRecursionDepth := kDefaultMaxRecursionDepth
  safeStrtod := safeStrtod
  isfinite := isfinite

/-! ## Characters -/

/-- `kUTF8LenTbl`: from 0xc0 there are 2, from 0xe0 3, from 0xf0 4 up to 0xf4. -/
def kUTF8LenTbl (c : UInt8) : ℕ :=
  if c < 0xc0 then 1 else if c < 0xe0 then 2 else if c < 0xf0 then 3 else if c < 0xf5 then 4 else 1

/-- `UTF8FirstLetterNumBytes`. -/
def utf8FirstLetterNumBytes : Text → ℕ
  | [] => 0
  | c :: _ => kUTF8LenTbl c

/-- `IsValidCodePoint`. -/
def isValidCodePoint (codePoint : ℕ) : Bool := decide (Utf8.IsScalar codePoint)

/-- `EncodeAsUTF8Char`. -/
def encodeAsUTF8Char (codePoint : ℕ) : Text :=
  if codePoint ≤ 0x7f then [UInt8.ofNat codePoint]
  else if codePoint ≤ 0x7ff then
    [UInt8.ofNat (0xc0 ||| (codePoint &&& 0x7c0) >>> 6), UInt8.ofNat (0x80 ||| codePoint &&& 0x3f)]
  else if codePoint ≤ 0xffff then
    [UInt8.ofNat (0xe0 ||| (codePoint &&& 0xf000) >>> 12), UInt8.ofNat (0x80 ||| (codePoint &&& 0xfc0) >>> 6),
      UInt8.ofNat (0x80 ||| codePoint &&& 0x3f)]
  else
    [UInt8.ofNat (0xf0 ||| (codePoint &&& 0x1c0000) >>> 18),
      UInt8.ofNat (0x80 ||| (codePoint &&& 0x3f000) >>> 12),
      UInt8.ofNat (0x80 ||| (codePoint &&& 0xfc0) >>> 6), UInt8.ofNat (0x80 ||| codePoint &&& 0x3f)]

/-! ## Tokens -/

section Functions

variable {D : Type u} (o : Settings D) (finishing : Bool)

/-- `ReportFailure`. -/
def reportFailure (message : String) (code : ParseErrorType) : Status := .failure message code

def hexValue : ℕ → Text → Option ℕ
  | code, [] => some code
  | code, c :: rest => if isxdigit c then hexValue (code <<< 4 + (hexDigitToInt c).toNat) rest else none

/-- `ParseUnicodeEscape`: the encoded character, and the text behind the escape. -/
def parseUnicodeEscape (p : Text) : Except Status (Text × Text) :=
  if p.length < kUnicodeEscapedLength then
    if !finishing then .error .cancelled else .error (reportFailure "Illegal hex string." .illegalHexString)
  else
    match hexValue 0 ((p.take kUnicodeEscapedLength).drop 2) with
    | none => .error (reportFailure "Invalid escape sequence." .invalidEscapeSequence)
    | some code =>
      -- the code point and how much was read
      let character : Except Status (ℕ × ℕ) :=
        if kMinHighSurrogate ≤ code ∧ code ≤ kMaxHighSurrogate then
          if p.length < 2 * kUnicodeEscapedLength then
            if !finishing then .error .cancelled
            else if !o.coerceToUtf8 then
              .error (reportFailure "Missing low surrogate." .missingLowSurrogate)
            else .ok (code, kUnicodeEscapedLength)
          else if p[kUnicodeEscapedLength]? = some 0x5c ∧ p[kUnicodeEscapedLength + 1]? = some 0x75 then
            match hexValue 0 ((p.take (2 * kUnicodeEscapedLength)).drop (kUnicodeEscapedLength + 2)) with
            | none => .error (reportFailure "Invalid escape sequence." .invalidEscapeSequence)
            | some lowCode =>
              if kMinLowSurrogate ≤ lowCode ∧ lowCode ≤ kMaxLowSurrogate then
                .ok (((code &&& 0x3ff) <<< 10 ||| (lowCode &&& 0x3ff)) + kMinSupplementaryCodePoint,
                  2 * kUnicodeEscapedLength)
              else if !o.coerceToUtf8 then
                .error (reportFailure "Invalid low surrogate." .invalidLowSurrogate)
              else .ok (code, kUnicodeEscapedLength)
          else if !o.coerceToUtf8 then
            .error (reportFailure "Missing low surrogate." .missingLowSurrogate)
          else .ok (code, kUnicodeEscapedLength)
        else .ok (code, kUnicodeEscapedLength)
      character.bind fun r =>
        if !o.coerceToUtf8 && !isValidCodePoint r.1 then
          .error (reportFailure "Invalid unicode code point." .invalidUnicode)
        else .ok (encodeAsUTF8Char r.1, p.drop r.2)

/-- The characters behind a backslash that stand for another one. -/
def unescaped (c : UInt8) : UInt8 :=
  if c = 0x62 then 0x08
  else if c = 0x66 then 0x0c
  else if c = 0x6e then 0x0a
  else if c = 0x72 then 0x0d
  else if c = 0x74 then 0x09
  else if c = 0x76 then 0x0b
  else c

/-- What `ParseStringHelper` returns: the status, the text if there is one, `p_`, `parsed_storage_` and
`string_open_`. -/
structure StringResult where
  status : Status
  parsed : Text
  p : Text
  parsedStorage : Text
  stringOpen : UInt8

/-- The loop of `ParseStringHelper`.  `pending` is the text from `last` to `p_`.  Each round takes a byte. -/
def stringLoop (quote : UInt8) : ℕ → Text → Text → Text → StringResult
  | 0, storage, pending, p => ⟨.cancelled, [], p, storage ++ pending, quote⟩
  | rounds + 1, storage, pending, p =>
    match p with
    | [] =>
      -- the closing quote may come later
      if !finishing then ⟨.cancelled, [], [], storage ++ pending, quote⟩
      else
        ⟨reportFailure "Closing quote expected in string." .expectedClosingQuote, [], [], storage ++ pending, 0⟩
    | c :: rest =>
      if c = 0x5c then
        match rest with
        | [] =>
          if !finishing then ⟨.cancelled, [], p, storage ++ pending, quote⟩
          else
            ⟨reportFailure "Closing quote expected in string." .expectedClosingQuote, [], p,
              storage ++ pending, quote⟩
        | e :: behind =>
          if e = 0x75 then
            match parseUnicodeEscape o finishing p with
            | .error status => ⟨status, [], p, storage ++ pending, quote⟩
            | .ok (character, p) => stringLoop quote rounds (storage ++ pending ++ character) [] p
          else stringLoop quote rounds (storage ++ pending ++ [unescaped e]) [] behind
      else if c = quote then
        if storage = [] then ⟨.ok, pending, rest, [], 0⟩
        else ⟨.ok, storage ++ pending, rest, storage ++ pending, 0⟩
      else
        let n := min p.length (utf8FirstLetterNumBytes p)
        stringLoop quote rounds storage (pending ++ p.take n) (p.drop n)

/-- `ParseStringHelper`. -/
def parseStringHelper (p storage : Text) (stringOpen : UInt8) : StringResult :=
  if stringOpen = 0 then
    match p with
    | [] => ⟨.cancelled, [], p, storage, stringOpen⟩
    | quote :: rest => stringLoop o finishing quote (rest.length + 1) storage [] rest
  else stringLoop o finishing stringOpen (p.length + 1) storage [] p

end Functions

end Protoc.Json
