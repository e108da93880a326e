import Protoc.Io.ParseString
import Protoc.Io.ZeroCopyStream
import Protoc.Lib.Settle

/-!
# The tokenizer

`tokenizer.cc`: the input is read a buffer at a time, and a token or a comment is recorded by
its offset in the buffer.  What the buffer still holds of it goes to its string before the
buffer is given up.
-/

namespace Protoc.Io

open Protoc.Lib

/-- A `std::string`. -/
abbrev Text := List UInt8

/-! ## Character classes -/

/-- `Whitespace`. -/
def whitespace (c : UInt8) : Bool := c == 32 || c == 10 || c == 9 || c == 13 || c == 11 || c == 12

/-- `WhitespaceNoNewline`. -/
def whitespaceNoNewline (c : UInt8) : Bool := c == 32 || c == 9 || c == 13 || c == 11 || c == 12

/-- `Unprintable`. -/
def unprintable (c : UInt8) : Bool := decide (c < 32 ∧ 0 < c)

/-- `Digit`. -/
def digit (c : UInt8) : Bool := decide (48 ≤ c ∧ c ≤ 57)

/-- `Letter`. -/
def letter (c : UInt8) : Bool := decide (97 ≤ c ∧ c ≤ 122) || decide (65 ≤ c ∧ c ≤ 90) || c == 95

/-- `Alphanumeric`. -/
def alphanumeric (c : UInt8) : Bool :=
  decide (97 ≤ c ∧ c ≤ 122) || decide (65 ≤ c ∧ c ≤ 90) || decide (48 ≤ c ∧ c ≤ 57) || c == 95

/-- `Escape`. -/
def escape (c : UInt8) : Bool :=
  c == 97 || c == 98 || c == 102 || c == 110 || c == 114 || c == 116 || c == 118 || c == 92 ||
    c == 63 || c == 39 || c == 34

/-! ## Tokens and errors -/

/-- `TokenType`. -/
inductive TokenType
  | start | «end» | identifier | integer | float | string | symbol
  deriving DecidableEq

/-- `Token`. -/
structure Token where
  type : TokenType
  text : Text
  line : Int32
  column : Int32
  endColumn : Int32
  deriving DecidableEq

/-- What `ErrorCollector::AddError` is told. -/
structure TokenizerError where
  line : Int32
  column : Int32
  message : String
  deriving DecidableEq

/-- `CommentStyle`. -/
inductive CommentStyle
  | cpp | sh
  deriving DecidableEq

/-- `kTabWidth`. -/
def kTabWidth : Int32 := 8

def positionAfter (c : UInt8) (line column : Int32) : Int32 × Int32 :=
  if c = 10 then (line + 1, 0)
  else if c = 9 then (line, column + (kTabWidth - column % kTabWidth))
  else (line, column + 1)

/-! ## The state -/

/-- `Tokenizer`; `buffer` with its size.  The string that a recording appends to is lent to
`recordTarget` until the recording stops. -/
structure Tokenizer where
  input : ZeroCopyInputStream
  currentChar : UInt8
  buffer : Text
  bufferPos : ℕ
  readError : Bool
  line : Int32
  column : Int32
  recordTarget : Option Text
  recordStart : ℤ
  allowFAfterFloat : Bool
  commentStyle : CommentStyle
  requireSpaceAfterNumber : Bool
  allowMultilineStrings : Bool
  current : Token
  previous : Token
  errors : List TokenizerError

namespace Tokenizer

/-- `Refresh`. -/
def refresh (s : Tokenizer) : Tokenizer :=
  if s.readError then { s with currentChar := 0 }
  else
    -- the rest of the buffer belongs to what is recorded
    let s := match s.recordTarget with
      | none => s
      | some target =>
        if s.recordStart < s.buffer.length then
          { s with
            recordTarget := some (target ++ s.buffer.drop s.recordStart.toNat), recordStart := 0 }
        else s
    match s.input.nextNonEmpty with
    | (none, input) =>
      { s with input := input, buffer := [], bufferPos := 0, readError := true, currentChar := 0 }
    | (some data, input) =>
      { s with input := input, buffer := data, bufferPos := 0, currentChar := data.getD 0 0 }

/-- `NextChar`. -/
def nextChar (s : Tokenizer) : Tokenizer :=
  let position := positionAfter s.currentChar s.line s.column
  let s := { s with line := position.1, column := position.2, bufferPos := s.bufferPos + 1 }
  if s.bufferPos < s.buffer.length then { s with currentChar := s.buffer.getD s.bufferPos 0 }
  else s.refresh

/-- `RecordTo`. -/
def recordTo (target : Text) (s : Tokenizer) : Tokenizer :=
  { s with recordTarget := some target, recordStart := s.bufferPos }

def startOfInput : Token := ⟨.start, [], 0, 0, 0⟩

/-- The constructor. -/
def new (input : ZeroCopyInputStream) : Tokenizer := refresh
    { input := input, currentChar := 0, buffer := [], bufferPos := 0, readError := false
      line := 0, column := 0, recordTarget := none, recordStart := -1
      allowFAfterFloat := false, commentStyle := .cpp, requireSpaceAfterNumber := true
      allowMultilineStrings := false
      current := startOfInput, previous := startOfInput, errors := [] }

end Tokenizer

abbrev Scan := StateT Tokenizer Option

namespace Tokenizer

/-! ## Methods on one character -/

/-- `StopRecording`, with the string that was recorded into. -/
def stopRecording : Scan Text := fun s =>
  match s.recordTarget with
  | none => none
  | some target =>
    let text :=
      if (s.bufferPos : ℤ) ≠ s.recordStart then
        target ++ (s.buffer.drop s.recordStart.toNat).take (s.bufferPos - s.recordStart.toNat)
      else target
    some (text, { s with recordTarget := none, recordStart := -1 })

/-- `error_collector_->AddError`. -/
def addErrorAt (line column : Int32) (message : String) : Scan Unit :=
  modify fun s => { s with errors := s.errors ++ [⟨line, column, message⟩] }

/-- `AddError`. -/
def addError (message : String) : Scan Unit :=
  modify fun s => { s with errors := s.errors ++ [⟨s.line, s.column, message⟩] }

/-- `StartToken`. -/
def startToken : Scan Unit := modify fun s => recordTo []
    { s with current := ⟨.start, [], s.line, s.column, s.current.endColumn⟩ }

/-- `EndToken`, behind the assignment to the type. -/
def endToken (type : TokenType) : Scan Unit := do
  let text ← stopRecording
  modify fun s => { s with
    current := ⟨type, text, s.current.line, s.current.column, s.column⟩ }

/-- `TryConsumeOne`. -/
def tryConsumeOne (inClass : UInt8 → Bool) : Scan Bool := do
  let c ← reads currentChar
  if inClass c then do
    modify nextChar
    return true
  else
    return false

/-- `TryConsume`. -/
def tryConsume (c : UInt8) : Scan Bool := tryConsumeOne fun d => d == c

def bytesLeft (s : Tokenizer) : ℕ := s.buffer.length - s.bufferPos + s.input.remaining.length

/-- A loop of the tokenizer.  Each round but the last moves on, so one more round than there
are bytes left is enough. -/
def rounds {α β : Type} (body : β → Scan (α ⊕ β)) (b : β) : Scan α := do
  let left ← reads bytesLeft
  loop body (left + 1) b

/-- `ConsumeZeroOrMore`. -/
def consumeZeroOrMore (inClass : UInt8 → Bool) : Scan Unit :=
  rounds (fun _ => do
    let consumed ← tryConsumeOne inClass
    return if consumed then .inr () else .inl ()) ()

/-- `ConsumeOneOrMore`. -/
def consumeOneOrMore (inClass : UInt8 → Bool) (error : String) : Scan Unit := do
  let c ← reads currentChar
  if inClass c then do
    modify nextChar
    consumeZeroOrMore inClass
  else addError error

/-! ## Strings and numbers -/

/-- An escape sequence of `ConsumeString`, behind the backslash. -/
def consumeEscape : Scan Unit := do
  if ← tryConsumeOne escape then
    return ()
  else if ← tryConsumeOne octalDigit then
    -- more octal digits are left to the loop of the string
    return ()
  else if ← tryConsume 120 then do
    if ← tryConsumeOne hexDigit then
      return ()
    else
      addError "Expected hex digits for escape sequence."
  else if ← tryConsume 117 then do
    if ← tryConsumeOne hexDigit <&&> tryConsumeOne hexDigit <&&> tryConsumeOne hexDigit <&&>
        tryConsumeOne hexDigit then
      return ()
    else
      addError "Expected four hex digits for \\u escape sequence."
  else if ← tryConsume 85 then do
    if ← tryConsume 48 <&&> tryConsume 48 <&&> (tryConsume 48 <||> tryConsume 49) <&&>
        tryConsumeOne hexDigit <&&> tryConsumeOne hexDigit <&&> tryConsumeOne hexDigit <&&>
        tryConsumeOne hexDigit <&&> tryConsumeOne hexDigit then
      return ()
    else
      addError "Expected eight hex digits up to 10ffff for \\U escape sequence"
  else
    addError "Invalid escape sequence in string literal."

/-- `ConsumeString`, behind the delimiter. -/
def consumeString (delimiter : UInt8) : Scan Unit :=
  rounds (fun _ => do
    let c ← reads currentChar
    if c = 0 then do
      addError "Unexpected end of string."
      return .inl ()
    else if c = 10 then do
      let multiline ← reads allowMultilineStrings
      if multiline then do
        modify nextChar
        return .inr ()
      else do
        addError "String literals cannot cross line boundaries."
        return .inl ()
    else if c = 92 then do
      modify nextChar
      consumeEscape
      return .inr ()
    else do
      modify nextChar
      return if c = delimiter then .inl () else .inr ()) ()

/-- The point of a decimal number and the digits behind it: whether there is one. -/
def consumePoint (startedWithDot : Bool) : Scan Bool := do
  if startedWithDot then
    return true
  else if ← tryConsume 46 then do
    consumeZeroOrMore digit
    return true
  else
    return false

/-- The exponent of a decimal number: whether there is one. -/
def consumeExponent : Scan Bool := do
  if ← tryConsume 101 <||> tryConsume 69 then do
    let _ ← tryConsume 45 <||> tryConsume 43
    consumeOneOrMore digit "\"e\" must be followed by exponent."
    return true
  else
    return false

/-- The `f` of a decimal number: whether there is one. -/
def consumeSuffix : Scan Bool := do
  let allowF ← reads allowFAfterFloat
  pure allowF <&&> (tryConsume 102 <||> tryConsume 70)

/-- A decimal number of `ConsumeNumber`: whether it is a float. -/
def consumeDecimal (startedWithDot : Bool) : Scan Bool := do
  consumeZeroOrMore digit
  let point ← consumePoint startedWithDot
  let exponent ← consumeExponent
  let suffix ← consumeSuffix
  return point || exponent || suffix

/-- The digits of `ConsumeNumber`: whether they are a float. -/
def consumeDigits (startedWithZero startedWithDot : Bool) : Scan Bool := do
  if ← pure startedWithZero <&&> (tryConsume 120 <||> tryConsume 88) then do
    consumeOneOrMore hexDigit "\"0x\" must be followed by hex digits."
    return false
  else do
    let c ← reads currentChar
    if startedWithZero && digit c then do
      consumeZeroOrMore octalDigit
      let c ← reads currentChar
      if digit c then do
        addError "Numbers starting with leading zero must be in octal."
        consumeZeroOrMore digit
        return false
      else
        return false
    else
      consumeDecimal startedWithDot

/-- `ConsumeNumber`. -/
def consumeNumber (startedWithZero startedWithDot : Bool) : Scan TokenType := do
  let isFloat ← consumeDigits startedWithZero startedWithDot
  let type := if isFloat then TokenType.float else .integer
  let c ← reads currentChar
  let requireSpace ← reads requireSpaceAfterNumber
  if letter c && requireSpace then do
    addError "Need space between number and identifier."
    return type
  else if c = 46 then do
    addError (if isFloat then "Already saw decimal point or exponent; can't have another one."
      else "Hex and octal numbers must be integers.")
    return type
  else
    return type

/-! ## Comments -/

/-- `RecordTo` for the content of a comment, which may be `NULL`. -/
def recordContent : Option Text → Scan Unit
  | none => return ()
  | some target => modify (recordTo target)

/-- `StopRecording` for the content of a comment. -/
def stopContent : Option Text → Scan (Option Text)
  | none => return none
  | some _ => do
      let text ← stopRecording
      return some text

/-- `ConsumeLineComment`. -/
def consumeLineComment (content : Option Text) : Scan (Option Text) := do
  recordContent content
  consumeZeroOrMore fun c => c != 0 && c != 10
  let _ ← tryConsume 10
  stopContent content

/-- A round of the loop of `ConsumeBlockComment`. -/
def blockCommentRound (startLine startColumn : Int32) (content : Option Text) :
    Scan (Option Text ⊕ Option Text) := do
  consumeZeroOrMore fun c => c != 0 && c != 42 && c != 47 && c != 10
  if ← tryConsume 10 then do
    let content ← stopContent content
    -- the leading whitespace and asterisk of a line are no content
    consumeZeroOrMore whitespaceNoNewline
    if ← tryConsume 42 <&&> tryConsume 47 then
      return .inl content
    else do
      recordContent content
      return .inr content
  else if ← tryConsume 42 <&&> tryConsume 47 then do
    let content ← stopContent content
    -- strip the trailing "*/"
    return .inl (content.map fun text => text.take (text.length - 2))
  else if ← tryConsume 47 <&&> reads fun s => s.currentChar == 42 then do
    -- the asterisk stays, a slash behind it ends the comment
    addError "\"/*\" inside block comment.  Block comments cannot be nested."
    return .inr content
  else do
    let c ← reads currentChar
    if c = 0 then do
      addError "End-of-file inside block comment."
      addErrorAt startLine startColumn "  Comment started here."
      let content ← stopContent content
      return .inl content
    else
      return .inr content

/-- `ConsumeBlockComment`. -/
def consumeBlockComment (content : Option Text) : Scan (Option Text) := do
  let startLine ← reads line
  let startColumn ← reads column
  recordContent content
  rounds (blockCommentRound startLine (startColumn - 2)) content

/-- `NextCommentStatus`. -/
inductive NextCommentStatus
  | lineComment | blockComment | slashNotComment | noComment
  deriving DecidableEq

/-- The `current_` of a slash that starts no comment. -/
def setSlash (s : Tokenizer) : Tokenizer :=
  { s with current := ⟨.symbol, [47], s.line, s.column - 1, s.column⟩ }

/-- `TryConsumeCommentStart`. -/
def tryConsumeCommentStart : Scan NextCommentStatus := do
  let style ← reads commentStyle
  if ← pure (style == .cpp) <&&> tryConsume 47 then do
    if ← tryConsume 47 then
      return .lineComment
    else if ← tryConsume 42 then
      return .blockComment
    else do
      modify setSlash
      return .slashNotComment
  else if ← pure (style == .sh) <&&> tryConsume 35 then
    return .lineComment
  else
    return .noComment

/-! ## Tokens -/

/-- A number that starts with a dot, behind its first digit. -/
def consumeDotNumber : Scan TokenType := do
  let s ← reads fun s => (s.previous, s.current, s.line, s.column)
  if s.1.type = .identifier ∧ s.2.1.line = s.1.line ∧ s.2.1.column = s.1.endColumn then do
    -- "blah.123" is not accepted
    addErrorAt s.2.2.1 (s.2.2.2 - 2) "Need space between identifier and decimal point."
    consumeNumber false true
  else
    consumeNumber false true

/-- A character of its own. -/
def consumeSymbol : Scan TokenType := do
  let c ← reads currentChar
  if c &&& 0x80 ≠ 0 then do
    addError s!"Interpreting non ascii codepoint {c.toNat}."
    modify nextChar
    return .symbol
  else do
    modify nextChar
    return .symbol

/-- A token of `Next`, between `StartToken` and `EndToken`: its type. -/
def readToken : Scan TokenType := do
  if ← tryConsumeOne letter then do
    consumeZeroOrMore alphanumeric
    return .identifier
  else if ← tryConsume 48 then
    consumeNumber true false
  else if ← tryConsume 46 then do
    if ← tryConsumeOne digit then
      consumeDotNumber
    else
      return .symbol
  else if ← tryConsumeOne digit then
    consumeNumber false false
  else if ← tryConsume 34 then do
    consumeString 34
    return .string
  else if ← tryConsume 39 then do
    consumeString 39
    return .string
  else
    consumeSymbol

/-- The unprintable characters of `Next`, behind the first one.  After the end the current
character is `'\0'` too, and is not consumed. -/
def skipUnprintable : Scan Unit :=
  rounds (fun _ => do
    let consumed ← (tryConsumeOne unprintable <||>
      (reads (fun s => !s.readError) <&&> tryConsume 0))
    return if consumed then .inr () else .inl ()) ()

/-- A round of the loop of `Next`; it leaves with whether there is a token. -/
def nextRound : Scan (Bool ⊕ Unit) := do
  if ← reads readError then
    return .inl false
  else do
    consumeZeroOrMore whitespace
    match ← tryConsumeCommentStart with
    | .lineComment => do
        let _ ← consumeLineComment none
        return .inr ()
    | .blockComment => do
        let _ ← consumeBlockComment none
        return .inr ()
    | .slashNotComment => return .inl true
    | .noComment =>
      if ← reads readError then
        return .inl false
      else do
        let c ← reads currentChar
        if unprintable c || c == 0 then do
          addError "Invalid control characters encountered in text."
          modify nextChar
          skipUnprintable
          return .inr ()
        else do
          startToken
          let type ← readToken
          endToken type
          return .inl true

/-- The `current_` at the end of the input. -/
def setEnd (s : Tokenizer) : Tokenizer :=
  { s with current := ⟨.end, [], s.line, s.column, s.column⟩ }

/-- `Next`. -/
def next : Scan Bool := do
  modify fun s => { s with previous := s.current }
  if ← rounds (fun _ => nextRound) () then
    return true
  else do
    modify setEnd
    return false

end Tokenizer

/-! ## The comments around a token -/

/-- The strings that `NextWithComments` is given; `none` for `NULL`. -/
structure Comments where
  prevTrailing : Option Text
  detached : Option (List Text)
  nextLeading : Option Text
  deriving DecidableEq

/-- `CommentCollector`. -/
structure CommentCollector where
  comments : Comments
  commentBuffer : Text
  hasComment : Bool
  isLineComment : Bool
  canAttachToPrev : Bool

namespace CommentCollector

def new (comments : Comments) : CommentCollector :=
  ⟨⟨comments.prevTrailing.map fun _ => [], comments.detached.map fun _ => [],
    comments.nextLeading.map fun _ => []⟩, [], false, false, true⟩

/-- The destructor: what is in the buffer is a leading comment. -/
def destroy (c : CommentCollector) : Comments :=
  if c.hasComment then
    { c.comments with nextLeading := c.comments.nextLeading.map fun _ => c.commentBuffer }
  else c.comments

/-- `ClearBuffer`. -/
def clearBuffer (c : CommentCollector) : CommentCollector :=
  { c with commentBuffer := [], hasComment := false }

/-- `Flush`. -/
def flush (c : CommentCollector) : CommentCollector :=
  if c.hasComment then
    if c.canAttachToPrev then
      { c with
        comments := { c.comments with
          prevTrailing := c.comments.prevTrailing.map fun text => text ++ c.commentBuffer }
        canAttachToPrev := false }.clearBuffer
    else
      { c with
        comments := { c.comments with
          detached := c.comments.detached.map fun texts => texts ++ [c.commentBuffer] } }.clearBuffer
  else c

/-- `DetachFromPrev`. -/
def detachFromPrev (c : CommentCollector) : CommentCollector := { c with canAttachToPrev := false }

/-- `GetBufferForLineComment`; the buffer is `commentBuffer`. -/
def getBufferForLineComment (c : CommentCollector) : CommentCollector :=
  { (if c.hasComment && !c.isLineComment then c.flush else c) with
    hasComment := true, isLineComment := true }

/-- `GetBufferForBlockComment`; the buffer is `commentBuffer`. -/
def getBufferForBlockComment (c : CommentCollector) : CommentCollector :=
  { (if c.hasComment then c.flush else c) with hasComment := true, isLineComment := false }

end CommentCollector

namespace Tokenizer

def collectLineComment (collector : CommentCollector) : Scan CommentCollector := do
  let collector := collector.getBufferForLineComment
  let content ← consumeLineComment (some collector.commentBuffer)
  return { collector with commentBuffer := content.getD [] }

def collectBlockComment (collector : CommentCollector) : Scan CommentCollector := do
  let collector := collector.getBufferForBlockComment
  let content ← consumeBlockComment (some collector.commentBuffer)
  return { collector with commentBuffer := content.getD [] }

/-- `Next` at the end of `NextWithComments`, when the token is on the line of the last one. -/
def nextOnLine (collector : CommentCollector) : Scan (Bool × Comments) := do
  let result ← next
  return (result, collector.destroy)

def closesScope (token : Token) : Bool := token.text == [125] || token.text == [93] || token.text == [41]

/-- A round of the loop of `NextWithComments`, on the lines after the previous token. -/
def commentsRound (collector : CommentCollector) :
    Scan ((Bool × Comments) ⊕ CommentCollector) := do
  consumeZeroOrMore whitespaceNoNewline
  match ← tryConsumeCommentStart with
  | .lineComment => do
      let collector ← collectLineComment collector
      return .inr collector
  | .blockComment => do
      let collector ← collectBlockComment collector
      -- the rest of the line is not taken for a blank one
      consumeZeroOrMore whitespaceNoNewline
      let _ ← tryConsume 10
      return .inr collector
  | .slashNotComment => return .inl (true, collector.destroy)
  | .noComment =>
    if ← tryConsume 10 then
      return .inr collector.flush.detachFromPrev
    else do
      let result ← next
      let token ← reads current
      return .inl (result, (if !result || closesScope token then collector.flush else collector).destroy)

/-- The comments on the line of the previous token. -/
def commentsOnLine (collector : CommentCollector) : Scan (Bool × Comments) := do
  consumeZeroOrMore whitespaceNoNewline
  match ← tryConsumeCommentStart with
  | .lineComment => do
      let collector ← collectLineComment collector
      rounds commentsRound collector.flush
  | .blockComment => do
      let collector ← collectBlockComment collector
      consumeZeroOrMore whitespaceNoNewline
      if ← tryConsume 10 then
        rounds commentsRound collector.flush
      else
        nextOnLine collector.clearBuffer
  | .slashNotComment => return (true, collector.destroy)
  | .noComment =>
    if ← tryConsume 10 then
      rounds commentsRound collector
    else
      nextOnLine collector

/-- `NextWithComments`: the result, and what is left in the strings. -/
def nextWithComments (comments : Comments) : Scan (Bool × Comments) := do
  let collector := CommentCollector.new comments
  let token ← reads current
  if token.type = .start then do
    -- a byte order mark at the start is passed over
    if ← tryConsume 0xEF then do
      if ← tryConsume 0xBB <&&> tryConsume 0xBF then
        rounds commentsRound collector.detachFromPrev
      else do
        addError ("Proto file starts with 0xEF but not UTF-8 BOM. " ++
          "Only UTF-8 is accepted for proto file.")
        return (false, collector.destroy)
    else
      rounds commentsRound collector.detachFromPrev
  else
    commentsOnLine collector

end Tokenizer

/-! ## Callers -/

/-- A call of a caller. -/
inductive TokenizerCall
  | next
  | nextWithComments (comments : Comments)
  | setAllowFAfterFloat (value : Bool)
  | setCommentStyle (style : CommentStyle)
  | setRequireSpaceAfterNumber (require : Bool)
  | setAllowMultilineStrings (allow : Bool)

/-- All that the caller can see after a call: the result, the comments, the tokens and every
error so far. -/
structure TokenizerOutcome where
  result : Bool
  comments : Comments
  current : Token
  previous : Token
  errors : List TokenizerError
  deriving DecidableEq

namespace Tokenizer

/-- The result and the comments of a call. -/
def callResult : TokenizerCall → Scan (Bool × Comments)
  | .next => do
      let result ← next
      return (result, ⟨none, none, none⟩)
  | .nextWithComments comments => nextWithComments comments
  | .setAllowFAfterFloat value => do
      modify fun s => { s with allowFAfterFloat := value }
      return (true, ⟨none, none, none⟩)
  | .setCommentStyle style => do
      modify fun s => { s with commentStyle := style }
      return (true, ⟨none, none, none⟩)
  | .setRequireSpaceAfterNumber require => do
      modify fun s => { s with requireSpaceAfterNumber := require }
      return (true, ⟨none, none, none⟩)
  | .setAllowMultilineStrings allow => do
      modify fun s => { s with allowMultilineStrings := allow }
      return (true, ⟨none, none, none⟩)

def call (c : TokenizerCall) : Scan TokenizerOutcome := do
  let result ← callResult c
  reads fun s => ⟨result.1, result.2, s.current, s.previous, s.errors⟩

/-- The calls one after the other. -/
def calls : List TokenizerCall → Scan (List TokenizerOutcome)
  | [] => return []
  | c :: cs => do
      let outcome ← call c
      let outcomes ← calls cs
      return outcome :: outcomes

end Tokenizer

def tokenize (chunks : List Text) (cs : List TokenizerCall) : Option (List TokenizerOutcome) :=
  (Tokenizer.calls cs (Tokenizer.new ⟨chunks, 0⟩)).map Prod.fst

end Protoc.Io
