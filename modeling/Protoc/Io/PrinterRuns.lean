import Protoc.Io.EpsCopyOutputBytes
import Protoc.Io.PrinterText

/-!
# Sequences of calls of the printer
-/

namespace Protoc.Io

open Protoc.Lib
open Option
open Protoc.Util (Str)
open Protoc.Lib.Indented List

/-! ## What the calls should print -/

/-- What has been printed, and the level of indentation. -/
structure Sheet where
  page : Page UInt8
  level : ℕ
  deriving DecidableEq

def indentationOf (level : ℕ) : Str := replicate (2 * level) 32

/-- The pieces that a call prints; none where a variable is not defined or not closed. -/
def PrinterOp.pieces (delimiter : UInt8) : PrinterOp → Option (List (Piece UInt8))
  | .indent => some []
  | .outdent => some []
  | .print vars text => (parseTemplate delimiter none text).bind fun template =>
    template.mapM (TemplatePiece.piece vars)
  | .printRaw data => some [.text data]

/-- The level after a call; it does not get below zero. -/
def PrinterOp.level : PrinterOp → ℕ → Option ℕ
  | .indent, level => some (level + 1)
  | .outdent, 0 => none
  | .outdent, level + 1 => some level
  | .print _ _, level => some level
  | .printRaw _, level => some level

namespace Sheet

variable (place : Str → Line → Str → Str) (delimiter : UInt8)

def empty : Sheet := ⟨.empty, 0⟩

def perform (σ : Sheet) (op : PrinterOp) : Option Sheet :=
  (op.pieces delimiter).bind fun pieces => (op.level σ.level).map fun level =>
    ⟨σ.page.writeAll newline place (indentationOf σ.level) pieces, level⟩

def performAll : Sheet → List PrinterOp → Option Sheet
  | σ, [] => some σ
  | σ, op :: ops => (σ.perform place delimiter op).bind fun σ => performAll σ ops

end Sheet

/-- The lengths of a call are of type `int`. -/
structure PrinterOp.Short (delimiter : UInt8) (level : ℕ) (op : PrinterOp) : Prop where
  indentation : 2 * level < 2 ^ 31
  text : ∀ vars text, op = .print vars text → text.length < 2 ^ 31
  pieces : ∀ pieces, op.pieces delimiter = some pieces → ∀ s, Piece.text s ∈ pieces → s.length < 2 ^ 31

/-- **The condition** on a call: its lengths are of type `int`, and where the indentation is not empty, no
text that begins with a newline begins a line, and nothing else follows one that did. -/
structure Meets (delimiter : UInt8) (σ : Sheet) (op : PrinterOp) : Prop where
  short : op.Short delimiter σ.level
  kept : ∀ pieces, op.pieces delimiter = some pieces →
    KeptAll newline (indentationOf σ.level) σ.page.line pieces

def MeetsAll (delimiter : UInt8) : Sheet → List PrinterOp → Prop
  | _, [] => True
  | σ, op :: ops => Meets delimiter σ op ∧
      ∀ σ', σ.perform exactText delimiter op = some σ' → MeetsAll delimiter σ' ops

def ShortAll (delimiter : UInt8) : ℕ → List PrinterOp → Prop
  | _, [] => True
  | level, op :: ops => op.Short delimiter level ∧
      ∀ level', op.level level = some level' → ShortAll delimiter level' ops

/-! ## What they print -/

namespace Printer

/-- The printer is where a sheet is that puts the indentation off. -/
structure At (start : Str) (delimiter : UInt8) (p : Printer) (σ : Sheet) : Prop where
  prints : Prints start p σ.page
  indentation : p.indentation = indentationOf σ.level
  delimiter : p.variableDelimiter = delimiter

def Places (delimiter : UInt8) (p : Printer) (out : Str) (op : PrinterOp) : Prop :=
  ∀ vars text template, op = .print vars text → parseTemplate delimiter none text = some template →
    Recorded vars template p out

variable {buffers : Buffers} {start : Str} {delimiter : UInt8} {p : Printer} {σ σ' : Sheet} {op : PrinterOp}
  {ops : List PrinterOp}

theorem indentationOf_succ (level : ℕ) : indentationOf level ++ [32, 32] = indentationOf (level + 1) := by
  rw [indentationOf, indentationOf, Nat.mul_succ, replicate_add]
  rfl

theorem ofStream_at (stream : ZeroCopyOutputStream) (delimiter : UInt8) :
    At stream.bytes delimiter (ofStream stream delimiter) .empty where
  prints := ⟨ofStream_holds stream delimiter, iff_of_true rfl (by rintro ⟨⟩)⟩
  indentation := rfl
  delimiter := rfl

/-- **A call** puts the indentation off. -/
theorem At.perform_spec (hsucceeds : ∀ n, buffers.result n ≠ none) (h : At start delimiter p σ)
    (hshort : op.Short delimiter σ.level) (hσ : σ.perform (delayedText newline) delimiter op = some σ') :
    ∃ q, p.perform buffers op = some q ∧ At start delimiter q σ' ∧ Places delimiter q σ'.page.out op := by
  have hindentation : p.indentation.length < 2 ^ 31 := by
    rw [h.indentation, indentationOf, length_replicate]
    exact hshort.indentation
  rw [Sheet.perform, bind_eq_some_iff] at hσ
  obtain ⟨pieces, hpieces, hσ⟩ := hσ
  rw [map_eq_some_iff] at hσ
  obtain ⟨level, hlevel, rfl⟩ := hσ
  cases op with
  | indent =>
    obtain rfl := some.inj hpieces
    obtain rfl := some.inj hlevel
    refine ⟨p.indent, rfl, ⟨⟨?_, h.prints.line⟩, ?_, h.delimiter⟩, by rintro _ _ _ ⟨⟩⟩
    · have hholds := h.prints.holds
      exact ⟨hholds.noError, hholds.size_le, hholds.last_le, hholds.out_eq, hholds.offset_eq⟩
    · rw [indent, h.indentation]
      exact indentationOf_succ σ.level
  | outdent =>
    obtain rfl := some.inj hpieces
    obtain ⟨page, level'⟩ := σ
    cases level' with
    | zero => cases hlevel
    | succ level' =>
      obtain rfl := some.inj hlevel
      have hne : p.indentation ≠ [] := by
        rw [h.indentation, ← indentationOf_succ]
        exact append_ne_nil_of_right_ne_nil _ (cons_ne_nil _ _)
      have htake : p.indentation.take (p.indentation.length - 2) = indentationOf level' := by
        rw [h.indentation, ← indentationOf_succ, length_append]
        exact take_left
      rw [perform, outdent, if_neg hne]
      refine ⟨_, rfl, ⟨⟨?_, h.prints.line⟩, htake, h.delimiter⟩, by rintro _ _ _ ⟨⟩⟩
      have hholds := h.prints.holds
      exact ⟨hholds.noError, hholds.size_le, hholds.last_le, hholds.out_eq, hholds.offset_eq⟩
  | print vars text =>
    obtain rfl := some.inj hlevel
    have hlength := hshort.text vars text rfl
    have hpieceLengths := hshort.pieces pieces hpieces
    rw [PrinterOp.pieces, bind_eq_some_iff] at hpieces
    obtain ⟨template, hparse, hpieces⟩ := hpieces
    have hholds := h.prints.holds
    have hprints : Prints start { p with substitutions := fun _ => none, lineStartVariables := [] } σ.page :=
      ⟨⟨hholds.noError, hholds.size_le, hholds.last_le, hholds.out_eq, hholds.offset_eq⟩, h.prints.line⟩
    have hrecorded : Recorded vars [] { p with substitutions := fun _ => none, lineStartVariables := [] }
        σ.page.out :=
      ⟨fun _ => le_rfl, by rintro _ ⟨⟩, fun _ => rfl⟩
    obtain ⟨q, hloop, hprints', hindent, hdelimiter, hrecorded'⟩ :=
      printLoop_spec hsucceeds [] text hprints hindentation (by rw [length_nil]; omega) not_mem_nil
        (h.delimiter ▸ hparse) hpieces hpieceLengths hrecorded
    rw [writeDelayed_nil] at hprints' hrecorded'
    simp only [h.indentation] at hprints' hrecorded'
    rw [perform, print, if_pos hlength]
    refine ⟨q, hloop, ⟨hprints', hindent.trans h.indentation, hdelimiter.trans h.delimiter⟩, ?_⟩
    intro vars' text' template' hop hparse'
    obtain ⟨rfl, rfl⟩ := PrinterOp.print.inj hop
    obtain rfl := some.inj (hparse.symm.trans hparse')
    exact hrecorded'
  | printRaw data =>
    obtain rfl := some.inj hpieces
    obtain rfl := some.inj hlevel
    obtain ⟨q, page', hwrite, rfl, hprints, hindent, hdelimiter, -⟩ :=
      h.prints.writeRaw_spec hsucceeds (hshort.pieces _ rfl data mem_cons_self) hindentation
    rw [h.indentation] at hprints
    exact ⟨q, hwrite, ⟨hprints, hindent.trans h.indentation, hdelimiter.trans h.delimiter⟩, by rintro _ _ _ ⟨⟩⟩

/-- **A sequence of calls** puts every indentation off. -/
theorem performAll_delayed (hsucceeds : ∀ n, buffers.result n ≠ none) (h : At start delimiter p σ)
    (hshort : ShortAll delimiter σ.level ops)
    (hσ : σ.performAll (delayedText newline) delimiter ops = some σ') :
    ∃ q, p.performAll buffers ops = some q ∧ At start delimiter q σ' ∧
      ∀ op, ops.getLast? = some op → Places delimiter q σ'.page.out op := by
  induction ops generalizing p σ with
  | nil =>
    obtain rfl := some.inj hσ
    exact ⟨p, rfl, h, by rintro _ ⟨⟩⟩
  | cons op ops ih =>
    rw [Sheet.performAll, bind_eq_some_iff] at hσ
    obtain ⟨σ₁, hop, hops⟩ := hσ
    obtain ⟨q₁, hperform, hat, hplaces⟩ := h.perform_spec hsucceeds hshort.1 hop
    have hlevel : op.level σ.level = some σ₁.level := by
      rw [Sheet.perform, bind_eq_some_iff] at hop
      obtain ⟨pieces, -, hop⟩ := hop
      rw [map_eq_some_iff] at hop
      obtain ⟨level, hlevel, rfl⟩ := hop
      exact hlevel
    obtain ⟨q, hrest, hat', hlast⟩ := ih hat (hshort.2 _ hlevel) hops
    refine ⟨q, ?_, hat', ?_⟩
    · rw [performAll, foldlM_cons, hperform]
      exact hrest
    · cases ops with
      | nil =>
        obtain rfl := some.inj hops
        obtain rfl := some.inj hrest
        intro op' hop'
        obtain rfl := some.inj hop'
        exact hplaces
      | cons op' ops => exact fun last hlast' => hlast last (by rwa [List.getLast?_cons_cons] at hlast')

end Printer

/-! ## When that makes no difference -/

variable {delimiter : UInt8} {σ σ' : Sheet} {op : PrinterOp} {ops : List PrinterOp}

theorem Sheet.level_perform {place : Str → Line → Str → Str} (h : σ.perform place delimiter op = some σ') :
    op.level σ.level = some σ'.level := by
  rw [Sheet.perform, bind_eq_some_iff] at h
  obtain ⟨pieces, -, h⟩ := h
  rw [map_eq_some_iff] at h
  obtain ⟨level, hlevel, rfl⟩ := h
  exact hlevel

theorem Meets.perform_eq (h : Meets delimiter σ op) :
    σ.perform (delayedText newline) delimiter op = σ.perform exactText delimiter op := by
  rw [Sheet.perform, Sheet.perform]
  cases hpieces : op.pieces delimiter with
  | none => rfl
  | some pieces => rw [bind_some, bind_some, (h.kept pieces hpieces).writeAll_eq]

theorem MeetsAll.performAll_eq (h : MeetsAll delimiter σ ops) :
    σ.performAll (delayedText newline) delimiter ops = σ.performAll exactText delimiter ops := by
  induction ops generalizing σ with
  | nil => rfl
  | cons op ops ih =>
    rw [Sheet.performAll, Sheet.performAll, h.1.perform_eq]
    cases hop : σ.perform exactText delimiter op with
    | none => rfl
    | some σ₁ => exact ih (h.2 σ₁ hop)

theorem MeetsAll.shortAll (h : MeetsAll delimiter σ ops) (hσ : σ.performAll exactText delimiter ops = some σ') :
    ShortAll delimiter σ.level ops := by
  induction ops generalizing σ with
  | nil => trivial
  | cons op ops ih =>
    rw [Sheet.performAll, bind_eq_some_iff] at hσ
    obtain ⟨σ₁, hop, hops⟩ := hσ
    refine ⟨h.1.short, fun level hlevel => ?_⟩
    obtain rfl := some.inj (hlevel.symm.trans (Sheet.level_perform hop))
    exact ih (h.2 σ₁ hop) hops

theorem Sheet.atLineStart_performAll (h : σ.page.AtLineStart newline)
    (hσ : σ.performAll exactText delimiter ops = some σ') : σ'.page.AtLineStart newline := by
  induction ops generalizing σ with
  | nil =>
    obtain rfl := some.inj hσ
    exact h
  | cons op ops ih =>
    rw [Sheet.performAll, bind_eq_some_iff] at hσ
    obtain ⟨σ₁, hop, hops⟩ := hσ
    rw [Sheet.perform, bind_eq_some_iff] at hop
    obtain ⟨pieces, -, hop⟩ := hop
    rw [map_eq_some_iff] at hop
    obtain ⟨level, -, rfl⟩ := hop
    exact ih h.writeAll hops

variable {vars : Str → Option Str}

theorem Recorded.getSubstitutionRange {template : List TemplatePiece} {p : Printer}
    {out name value : Str} (h : Recorded vars template p out) (honce : template.count (.var name) = 1)
    (hvalue : vars name = some value) :
    ∃ range, p.getSubstitutionRange name = some range ∧ range.2 = range.1 + value.length ∧
      range.2 ≤ out.length ∧ (out.drop range.1).take value.length = value := by
  have hrange := h.range name
  rw [honce] at hrange
  cases hplace : p.substitutions name with
  | none =>
    rw [hplace] at hrange
    exact absurd hrange Nat.one_ne_zero
  | some range =>
    rw [hplace] at hrange
    rcases hrange with ⟨-, value', hvalue', hlength, hle, htake⟩ | ⟨htwo, -⟩
    · obtain rfl := some.inj (hvalue.symm.trans hvalue')
      refine ⟨range, ?_, hlength, hle, htake⟩
      rw [Printer.getSubstitutionRange, hplace, bind_some, if_neg (by omega)]
    · omega

/-- **What is printed is exact**, over every stream that never fails and in every sequence of calls that
meet the condition: the bytes are the templates with their variables replaced and an indentation
before the first character of each line that is not empty, which is the start of a line of the
output; `offset_` is their number; and each variable that the last template uses once has the place of
its value. -/
theorem printed_exactly {buffers : Buffers} (hsucceeds : ∀ n, buffers.result n ≠ none)
    (stream : ZeroCopyOutputStream) {delimiter : UInt8} {ops : List PrinterOp} {σ : Sheet}
    (hσ : Sheet.empty.performAll exactText delimiter ops = some σ) (hmeets : MeetsAll delimiter .empty ops) :
    ∃ p, (Printer.ofStream stream delimiter).performAll buffers ops = some p ∧
      p.destroy.bytes = stream.bytes ++ σ.page.out ∧ p.offset = σ.page.out.length ∧
      (σ.page.line = .fresh → σ.page.out = [] ∨ σ.page.out.getLast? = some newline) ∧
      ∀ vars text template, ops.getLast? = some (.print vars text) →
        parseTemplate delimiter none text = some template →
        ∀ name value, template.count (.var name) = 1 → vars name = some value →
          ∃ range, p.getSubstitutionRange name = some range ∧ range.2 = range.1 + value.length ∧
            range.2 ≤ σ.page.out.length ∧ (σ.page.out.drop range.1).take value.length = value := by
  obtain ⟨p, hperform, hat, hplaces⟩ := Printer.performAll_delayed hsucceeds
    (Printer.ofStream_at stream delimiter) (hmeets.shortAll hσ) (hmeets.performAll_eq.trans hσ)
  refine ⟨p, hperform, hat.prints.holds.destroy_bytes, hat.prints.holds.offset_eq,
    Sheet.atLineStart_performAll (fun _ => .inl rfl) hσ, ?_⟩
  intro vars text template hlast hparse name value honce hvalue
  exact (hplaces _ hlast vars text template rfl hparse).getSubstitutionRange honce hvalue

/-- Variables `x` with a value and `y` without one. -/
def twoVariables (value : Str) : Str → Option Str := fun name =>
  if name = [120] then some value else if name = [121] then some [] else none

/-- Indented, `$y$$x$!`, an empty line and `.`; the variable `y` is empty. -/
def twoLines : List PrinterOp := [.indent, .print (twoVariables [97, 98]) [36, 121, 36, 36, 120, 36, 33, 10, 10, 46]]

/-- Two spaces, `ab!`, an empty line, two spaces and `.`. -/
def twoLinesSheet : Sheet := ⟨⟨[32, 32, 97, 98, 33, 10, 10, 32, 32, 46], .begun⟩, 1⟩

theorem short_print {text : Str} {pieces : List (Piece UInt8)}
    (htext : text.length < 2 ^ 31) (hpieces : (PrinterOp.print vars text).pieces delimiter = some pieces)
    (hshort : ∀ piece ∈ pieces, ∀ s, piece = .text s → s.length < 2 ^ 31) :
    (PrinterOp.print vars text).Short delimiter 1 where
  indentation := by decide
  text vars' text' hop := by
    obtain ⟨-, rfl⟩ := PrinterOp.print.inj hop
    exact htext
  pieces pieces' hpieces' s hs := by
    obtain rfl := some.inj (hpieces.symm.trans hpieces')
    exact hshort _ hs s rfl

theorem short_indent : PrinterOp.indent.Short delimiter 0 where
  indentation := by decide
  text := by rintro _ _ ⟨⟩
  pieces pieces hpieces s hs := by
    obtain rfl := some.inj hpieces
    exact absurd hs not_mem_nil

theorem meetsAll_print {text : Str} {pieces : List (Piece UInt8)}
    (htext : text.length < 2 ^ 31) (hpieces : (PrinterOp.print vars text).pieces delimiter = some pieces)
    (hshort : ∀ piece ∈ pieces, ∀ s, piece = .text s → s.length < 2 ^ 31)
    (hkept : KeptAll newline [32, 32] .fresh pieces) :
    MeetsAll delimiter .empty [.indent, .print vars text] := by
  refine ⟨⟨short_indent, fun pieces' hpieces' => ?_⟩, fun σ hσ => ⟨?_, fun _ _ => trivial⟩⟩
  · obtain rfl := some.inj hpieces'
    trivial
  · obtain rfl := some.inj hσ
    refine ⟨short_print htext hpieces hshort, fun pieces' hpieces' => ?_⟩
    obtain rfl := some.inj (hpieces.symm.trans hpieces')
    exact hkept

theorem printed_exactly_twoLines :
    ∃ p, (Printer.ofStream ⟨[], 0, 0⟩ 36).performAll CodedOutputStream.mixedBuffers twoLines = some p ∧
      p.destroy.bytes = twoLinesSheet.page.out ∧ p.offset = 10 ∧
      ∃ range, p.getSubstitutionRange [120] = some range ∧ range.2 = range.1 + 2 := by
  have hpieces : (PrinterOp.print (twoVariables [97, 98]) [36, 121, 36, 36, 120, 36, 33, 10, 10, 46]).pieces 36 =
      some [.text [], .text [97, 98], .text [33], .endLine, .endLine, .text [46]] := by decide
  have hshort : ∀ piece ∈ [Piece.text [], .text [97, 98], .text [33], .endLine, .endLine, .text [46]],
      ∀ s : Str, piece = .text s → s.length < 2 ^ 31 := by
    simp
  obtain ⟨p, hperform, hbytes, hoffset, -, hplaces⟩ := printed_exactly CodedOutputStream.mixedBuffers_succeeds
    ⟨[], 0, 0⟩ (show Sheet.empty.performAll exactText 36 twoLines = some twoLinesSheet by decide)
    (meetsAll_print (by decide) hpieces hshort (by decide))
  obtain ⟨range, hrange, hlength, -⟩ := hplaces _ _
    [.var [121], .var [120], .char 33, .endLine, .endLine, .char 46] rfl (by decide) [120] [97, 98] (by decide) rfl
  exact ⟨p, hperform, hbytes, hoffset, range, hrange, hlength⟩

/-- Indented, `$x$y` with a value of `x` that begins with a newline. -/
def newlineValue : List PrinterOp := [.indent, .print (twoVariables [10, 102]) [36, 120, 36, 121]]

/-- The indentation should stand before the value, and stands inside the second line of the output. -/
theorem printed_midLine :
    Sheet.empty.performAll exactText 36 newlineValue = some ⟨⟨[32, 32, 10, 102, 121], .begun⟩, 1⟩ ∧
      ∃ p, (Printer.ofStream ⟨[], 0, 0⟩ 36).performAll CodedOutputStream.mixedBuffers newlineValue = some p ∧
        p.destroy.bytes = [10, 102, 32, 32, 121] := by
  refine ⟨by decide, ?_⟩
  have hpieces : (PrinterOp.print (twoVariables [10, 102]) [36, 120, 36, 121]).pieces 36 =
      some [.text [10, 102], .text [121]] := by decide
  have hshort : ShortAll 36 Sheet.empty.level newlineValue := by
    refine ⟨short_indent, fun level hlevel => ⟨?_, fun _ _ => trivial⟩⟩
    obtain rfl := some.inj hlevel
    exact short_print (by decide) hpieces (by simp)
  have hdelayed : Sheet.empty.performAll (delayedText newline) 36 newlineValue =
      some ⟨⟨[10, 102, 32, 32, 121], .begun⟩, 1⟩ := by decide
  obtain ⟨p, hperform, hat, -⟩ := Printer.performAll_delayed CodedOutputStream.mixedBuffers_succeeds
    (Printer.ofStream_at ⟨[], 0, 0⟩ 36) hshort hdelayed
  exact ⟨p, hperform, hat.prints.holds.destroy_bytes⟩

end Protoc.Io
