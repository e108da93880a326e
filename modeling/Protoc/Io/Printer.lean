import Protoc.Lib.Ring
import Protoc.Io.ZeroCopyStream
import Protoc.Util.FieldMask

/-!
# The printer

Templates with variables between delimiters are written to a stream, indented, and the place of each
variable's value in the output is remembered.

A call that is a fatal error has no result, and neither has one with a length that is not an `int`.
-/

namespace Protoc.Io

open Protoc.Lib
open Protoc.Util (Str)

def newline : UInt8 := 10

/-- The places of variables in the output, first and behind the last byte. -/
abbrev Substitutions := Str → Option (ℕ × ℕ)

/-- `Printer`, with the memory of the stream, of which the last bytes are the buffer's rest. -/
structure Printer where
  variableDelimiter : UInt8
  output : ZeroCopyOutputStream
  bufferSize : ℕ
  offset : ℕ
  indentation : Str
  atStartOfLine : Bool
  failed : Bool
  substitutions : Substitutions
  lineStartVariables : List Str

namespace Printer

/-- The constructor. -/
def ofStream (output : ZeroCopyOutputStream) (variableDelimiter : UInt8) : Printer where
  variableDelimiter := variableDelimiter
  output := output
  bufferSize := 0
  offset := 0
  indentation := []
  atStartOfLine := true
  failed := false
  substitutions := fun _ => none
  lineStartVariables := []

/-- The destructor leaves the stream behind what was printed. -/
def destroy (p : Printer) : ZeroCopyOutputStream :=
  if 0 < p.bufferSize ∧ p.failed = false then p.output.backUp p.bufferSize else p.output

/-- `memcpy` to the buffer. -/
def put (p : Printer) (data : Str) : Printer :=
  { p with
    output.bytes := Ring.blit p.output.bytes (p.output.bytes.length - p.bufferSize) data
    bufferSize := p.bufferSize - data.length
    offset := p.offset + data.length }

section
variable (buffers : Buffers)

/-- The loop of `CopyToBuffer`, at most `fuel` times; an empty buffer is passed over by its next round. -/
def copyLoop : ℕ → Str → Printer → Printer
  | 0, _, p => p
  | fuel + 1, data, p =>
    if p.bufferSize < data.length then
      let rest := data.drop p.bufferSize
      let p := p.put (data.take p.bufferSize)
      match p.output.nextNonEmpty buffers with
      | none => { p with failed := true }
      | some (size, output) => copyLoop fuel rest { p with output, bufferSize := size }
    else p.put data

/-- `CopyToBuffer`; each time but the first one copies a byte at least. -/
def copyToBuffer (p : Printer) (data : Str) : Option Printer :=
  if data.length < 2 ^ 31 then
    some (if p.failed ∨ data = [] then p else copyLoop buffers (data.length + 2) data p)
  else none

def shift (n : ℕ) (range : ℕ × ℕ) : ℕ × ℕ := (range.1 + n, range.2 + n)

/-- The variables at the start of the line are moved behind the indentation. -/
def fixUp (p : Printer) : Printer :=
  let move (substitutions : Substitutions) (name : Str) : Substitutions :=
    Function.update substitutions name
      (some (shift p.indentation.length ((substitutions name).getD (0, 0))))
  { p with substitutions := p.lineStartVariables.foldl move p.substitutions }

/-- `WriteRaw`. -/
def writeRaw (p : Printer) (data : Str) : Option Printer :=
  if data.length < 2 ^ 31 then
    if p.failed ∨ data = [] then some p
    else if p.atStartOfLine ∧ data.head? ≠ some newline then do
      -- insert an indent
      let p ← copyToBuffer buffers { p with atStartOfLine := false } p.indentation
      if p.failed then some p
      else copyToBuffer buffers { p.fixUp with lineStartVariables := [] } data
    else copyToBuffer buffers { p with lineStartVariables := [] } data
  else none

/-- A difference of two `size_t`. -/
def sizeSub (a b : ℕ) : ℕ := if b ≤ a then a - b else a + 2 ^ 64 - b

/-- The place of a variable whose value was just written; a second one gets a negative length. -/
def insertSubstitution (p : Printer) (varname : Str) (size : ℕ) : Printer :=
  { p with
    substitutions := Function.update p.substitutions varname
      (if p.substitutions varname = none then some (sizeSub p.offset size, p.offset) else some (1, 0)) }

def writeVariable (p : Printer) (varname value : Str) : Option Printer :=
  let p := if p.atStartOfLine ∧ value = [] then
    { p with lineStartVariables := p.lineStartVariables ++ [varname] } else p
  (p.writeRaw buffers value).map fun p => p.insertSubstitution varname value.length

/-- The loop of `Print`, with the text from `pos` to `i` and the text from `i` on. -/
def printLoop (vars : Str → Option Str) (pending text : Str) (p : Printer) : Option Printer :=
  match text with
  | [] => p.writeRaw buffers pending
  | c :: text =>
    if c = newline then
      (p.writeRaw buffers (pending ++ [c])).bind fun p =>
        printLoop vars [] text { p with atStartOfLine := true, lineStartVariables := [] }
    else if c = p.variableDelimiter then
      let varname := text.takeWhile (· ≠ c)
      let rest := text.drop (varname.length + 1)
      -- `strchr` finds no closing delimiter
      if varname.length = text.length then none
      else (p.writeRaw buffers pending).bind fun p =>
        if varname = [] then (p.writeRaw buffers [c]).bind fun p => printLoop vars [] rest p
        else (vars varname).bind fun value =>
          (p.writeVariable buffers varname value).bind fun p => printLoop vars [] rest p
    else printLoop vars (pending ++ [c]) text p
termination_by text.length
decreasing_by all_goals simp only [List.length_drop, List.length_cons]; omega

/-- `Print`. -/
def print (p : Printer) (vars : Str → Option Str) (text : Str) : Option Printer :=
  if text.length < 2 ^ 31 then
    printLoop buffers vars [] text { p with substitutions := fun _ => none, lineStartVariables := [] }
  else none

/-- `Indent`. -/
def indent (p : Printer) : Printer := { p with indentation := p.indentation ++ [32, 32] }

/-- `Outdent`. -/
def outdent (p : Printer) : Option Printer :=
  if p.indentation = [] then none
  else some { p with indentation := p.indentation.take (p.indentation.length - 2) }

/-- `PrintRaw`. -/
def printRaw (p : Printer) (data : Str) : Option Printer := p.writeRaw buffers data

end

/-- `GetSubstitutionRange`. -/
def getSubstitutionRange (p : Printer) (varname : Str) : Option (ℕ × ℕ) :=
  (p.substitutions varname).bind fun range => if range.2 < range.1 then none else some range

/-- `Annotate`: what the collector is called with. -/
def annotate (p : Printer) (beginVarname endVarname : Str) : Option (ℕ × ℕ) := do
  let begin_ ← p.getSubstitutionRange beginVarname
  let end_ ← p.getSubstitutionRange endVarname
  if end_.2 < begin_.1 then none else some (begin_.1, end_.2)

end Printer

/-- A call. -/
inductive PrinterOp
  | indent
  | outdent
  | print (vars : Str → Option Str) (text : Str)
  | printRaw (data : Str)

/-- A call on a printer. -/
def Printer.perform (buffers : Buffers) (p : Printer) : PrinterOp → Option Printer
  | .indent => some p.indent
  | .outdent => p.outdent
  | .print vars text => p.print buffers vars text
  | .printRaw data => p.printRaw buffers data

def Printer.performAll (buffers : Buffers) (p : Printer) (ops : List PrinterOp) : Option Printer :=
  ops.foldlM (Printer.perform buffers) p

end Protoc.Io
