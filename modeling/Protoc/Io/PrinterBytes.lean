import Protoc.Io.Printer
import Protoc.Lib.Indented

/-!
# The bytes that are printed

What was printed stands in the stream's memory before the rest of the buffer, whatever the sizes of
the buffers.
-/

namespace Protoc.Io

open Protoc.Lib
open List
open Protoc.Util (Str)
open Protoc.Lib.Indented (Page Line Piece delayedText delayedText_nil)

namespace Printer

/-- What was printed after what the stream held at first. -/
structure Holds (start : Str) (p : Printer) (out : Str) : Prop where
  noError : p.failed = false
  size_le : p.bufferSize ≤ p.output.bytes.length
  last_le : p.bufferSize ≤ p.output.last
  out_eq : p.output.bytes.take (p.output.bytes.length - p.bufferSize) = start ++ out
  offset_eq : p.offset = out.length

variable {buffers : Buffers} {p : Printer} {start out data : Str}

theorem ofStream_holds (stream : ZeroCopyOutputStream) (delimiter : UInt8) :
    Holds stream.bytes (ofStream stream delimiter) [] where
  noError := rfl
  size_le := Nat.zero_le _
  last_le := Nat.zero_le _
  out_eq := by rw [ofStream, Nat.sub_zero, take_length, append_nil]
  offset_eq := rfl

theorem Holds.destroy_bytes (h : Holds start p out) : p.destroy.bytes = start ++ out := by
  rw [destroy, ← h.out_eq]
  by_cases hsize : 0 < p.bufferSize
  · rw [if_pos ⟨hsize, h.noError⟩, ZeroCopyOutputStream.backUp, min_eq_left h.last_le]
  · rw [if_neg fun hif => hsize hif.1, Nat.eq_zero_of_not_pos hsize, Nat.sub_zero, take_length]

theorem Holds.put_holds (h : Holds start p out) (hfits : data.length ≤ p.bufferSize) :
    Holds start (p.put data) (out ++ data) := by
  have hsize := h.size_le
  have hlength : (p.put data).output.bytes.length = p.output.bytes.length :=
    Ring.length_blit (by omega)
  exact {
    noError := h.noError
    size_le := by
      rw [hlength]
      exact le_trans (Nat.sub_le _ _) hsize
    last_le := le_trans (Nat.sub_le _ _) h.last_le
    out_eq := by
      have htake : p.output.bytes.length - (p.put data).bufferSize =
          p.output.bytes.length - p.bufferSize + data.length := by
        simp only [put]
        omega
      rw [hlength, htake]
      simp only [put]
      rw [Ring.take_blit (by omega) le_rfl, h.out_eq, take_length, append_assoc]
    offset_eq := by
      simp only [put]
      rw [h.offset_eq, length_append] }

def advanced (p : Printer) (output : ZeroCopyOutputStream) (bufferSize n : ℕ) : Printer :=
  { p with output, bufferSize, offset := p.offset + n }

theorem copyLoop_spec (hsucceeds : ∀ n, buffers.result n ≠ none) (fuel : ℕ) (h : Holds start p out)
    (hfuel : data.length < fuel ∧ 0 < p.bufferSize ∨ data.length + 1 < fuel) :
    ∃ output bufferSize, copyLoop buffers fuel data p = p.advanced output bufferSize data.length ∧
      Holds start (copyLoop buffers fuel data p) (out ++ data) := by
  induction fuel generalizing p out data with
  | zero => omega
  | succ fuel ih =>
    rw [copyLoop]
    by_cases hmore : p.bufferSize < data.length
    · have htake : (data.take p.bufferSize).length = p.bufferSize := by
        rw [length_take]
        omega
      have hput := h.put_holds (le_of_eq htake)
      obtain ⟨buffer, calls, hbuffer, hnext⟩ := ZeroCopyOutputStream.nextNonEmpty_eq_some hsucceeds
        (p.put (data.take p.bufferSize)).output
      have hzero : (p.put (data.take p.bufferSize)).bufferSize = 0 := by
        simp only [put, htake, Nat.sub_self]
      have hout := hput.out_eq
      rw [hzero, Nat.sub_zero, take_length] at hout
      rw [if_pos hmore]
      simp only [hnext]
      have hholds : Holds start { p.put (data.take p.bufferSize) with
          output := ⟨(p.put (data.take p.bufferSize)).output.bytes ++ buffer, calls, buffer.length⟩
          bufferSize := buffer.length } (out ++ data.take p.bufferSize) := {
        noError := h.noError
        size_le := by
          rw [length_append]
          exact Nat.le_add_left _ _
        last_le := le_rfl
        out_eq := by rw [length_append, Nat.add_sub_cancel, take_left, hout]
        offset_eq := hput.offset_eq }
      have hpos : 0 < buffer.length := length_pos_of_ne_nil hbuffer
      have hrest : (data.drop p.bufferSize).length < fuel := by
        rw [length_drop]
        omega
      obtain ⟨output, bufferSize, heq, hnew⟩ := ih hholds (.inl ⟨hrest, hpos⟩)
      rw [append_assoc, take_append_drop] at hnew
      refine ⟨output, bufferSize, ?_, hnew⟩
      rw [heq]
      simp only [advanced, put, htake, length_drop]
      congr 1
      omega
    · rw [if_neg hmore]
      exact ⟨_, _, rfl, h.put_holds (not_lt.mp hmore)⟩

/-- **`CopyToBuffer`** appends. -/
theorem copyToBuffer_spec (hsucceeds : ∀ n, buffers.result n ≠ none) (h : Holds start p out)
    (hlength : data.length < 2 ^ 31) :
    ∃ output bufferSize, p.copyToBuffer buffers data = some (p.advanced output bufferSize data.length) ∧
      Holds start (p.advanced output bufferSize data.length) (out ++ data) := by
  rw [copyToBuffer, if_pos hlength, h.noError]
  by_cases hnil : data = []
  · rw [if_pos (.inr hnil), hnil, append_nil]
    exact ⟨p.output, p.bufferSize, rfl, h⟩
  · rw [if_neg fun hif => hif.elim Bool.false_ne_true hnil]
    obtain ⟨output, bufferSize, heq, hholds⟩ := copyLoop_spec hsucceeds (data.length + 2) h
      (.inr (Nat.lt_succ_self (data.length + 1)))
    rw [heq] at hholds ⊢
    exact ⟨output, bufferSize, rfl, hholds⟩

/-! ## Raw writes -/

/-- What a raw write does to the places of variables, with the output before it and after it. -/
inductive Moved (p q : Printer) (out out' : Str) : Prop
  | kept (hsubstitutions : q.substitutions = p.substitutions)
      (hvariables : q.lineStartVariables = p.lineStartVariables ∨ q.lineStartVariables = [])
      (hout : out <+: out')
  | indented (hsubstitutions : q.substitutions = p.fixUp.substitutions)
      (hvariables : q.lineStartVariables = []) (hout : out ++ p.indentation <+: out')

/-- The printer is where a page is that puts the indentation off. -/
structure Prints (start : Str) (p : Printer) (page : Page UInt8) : Prop where
  holds : Holds start p page.out
  line : p.atStartOfLine = true ↔ page.line ≠ .begun

variable {page : Page UInt8}

theorem writeRaw_nil (p : Printer) : p.writeRaw buffers [] = some p := by
  rw [writeRaw, if_pos (by decide), if_pos (.inr rfl)]

theorem write_nil (indent : Str) : page.write newline (delayedText newline) indent (.text []) = page := by
  rw [Page.write, delayedText_nil, append_nil, Line.text_nil]

section
variable (hsucceeds : ∀ n, buffers.result n ≠ none)
include hsucceeds

section
variable (h : Prints start p page) (hlength : data.length < 2 ^ 31)
include h hlength

/-- After the indentation. -/
theorem Prints.writeRaw_indented (hindentation : p.indentation.length < 2 ^ 31) (hne : data ≠ [])
    (hstart : p.atStartOfLine = true) (hhead : data.head? ≠ some newline) :
    ∃ q, p.writeRaw buffers data = some q ∧
      Prints start q (page.write newline (delayedText newline) p.indentation (.text data)) ∧
      q.indentation = p.indentation ∧ q.variableDelimiter = p.variableDelimiter ∧
      Moved p q page.out (page.out ++ (p.indentation ++ data)) := by
  have hbegun := h.line.mp hstart
  have hholds : Holds start { p with atStartOfLine := false } page.out :=
    ⟨h.holds.noError, h.holds.size_le, h.holds.last_le, h.holds.out_eq, h.holds.offset_eq⟩
  obtain ⟨output₁, size₁, hcopy₁, hholds₁⟩ := copyToBuffer_spec hsucceeds hholds hindentation
  generalize hp₁ : ({ p with atStartOfLine := false } : Printer).advanced output₁ size₁ p.indentation.length = p₁
    at hcopy₁ hholds₁
  have hholds₂ : Holds start { p₁.fixUp with lineStartVariables := [] } (page.out ++ p.indentation) :=
    ⟨hholds₁.noError, hholds₁.size_le, hholds₁.last_le, hholds₁.out_eq, hholds₁.offset_eq⟩
  obtain ⟨output, size, hcopy, hholds'⟩ := copyToBuffer_spec hsucceeds hholds₂ hlength
  have hpage : page.write newline (delayedText newline) p.indentation (.text data) =
      ⟨page.out ++ (p.indentation ++ data), .begun⟩ := by
    rw [Page.write, delayedText, if_pos ⟨hne, hbegun, hhead⟩, Line.text,
      if_neg fun hif => hif.elim hne hbegun, if_neg hhead]
  refine ⟨({ p₁.fixUp with lineStartVariables := [] } : Printer).advanced output size data.length,
    ?_, ?_, ?_, ?_, ?_⟩
  · rw [writeRaw, if_pos hlength, if_neg fun hif => hif.elim (fun hfailed => by simp [h.holds.noError] at hfailed) hne,
      if_pos ⟨hstart, hhead⟩, hcopy₁]
    simp only [Option.bind_eq_bind, Option.bind_some, hholds₁.noError, Bool.false_eq_true, if_false]
    exact hcopy
  · rw [hpage]
    rw [append_assoc] at hholds'
    refine ⟨hholds', ⟨fun hstart' => ?_, fun hline => absurd rfl hline⟩⟩
    subst hp₁
    exact absurd hstart' Bool.false_ne_true
  · subst hp₁
    rfl
  · subst hp₁
    rfl
  · apply Moved.indented
    · subst hp₁
      rfl
    · rfl
    · rw [← append_assoc]
      exact prefix_append _ _

theorem Prints.writeRaw_plain (hne : data ≠ [])
    (hplain : ¬ (p.atStartOfLine = true ∧ data.head? ≠ some newline)) : ∃ q, p.writeRaw buffers data = some q ∧
      Prints start q (page.write newline (delayedText newline) p.indentation (.text data)) ∧
      q.indentation = p.indentation ∧ q.variableDelimiter = p.variableDelimiter ∧
      Moved p q page.out (page.out ++ data) := by
  have hholds : Holds start { p with lineStartVariables := [] } page.out :=
    ⟨h.holds.noError, h.holds.size_le, h.holds.last_le, h.holds.out_eq, h.holds.offset_eq⟩
  obtain ⟨output, size, hcopy, hholds'⟩ := copyToBuffer_spec hsucceeds hholds hlength
  have hpage : page.write newline (delayedText newline) p.indentation (.text data) =
      ⟨page.out ++ data, page.line.text newline data⟩ := by
    rw [Page.write, delayedText, if_neg fun hif => hplain ⟨h.line.mpr hif.2.1, hif.2.2⟩]
  refine ⟨({ p with lineStartVariables := [] } : Printer).advanced output size data.length,
    ?_, ?_, rfl, rfl, ?_⟩
  · rw [writeRaw, if_pos hlength, if_neg fun hif => hif.elim (fun hfailed => by simp [h.holds.noError] at hfailed) hne,
      if_neg hplain]
    exact hcopy
  · rw [hpage]
    refine ⟨hholds', h.line.trans ?_⟩
    rw [Line.text]
    by_cases hbegun : page.line = .begun
    · rw [if_pos (.inr hbegun)]
    · have hhead : data.head? = some newline := Decidable.not_not.mp fun hhead => hplain ⟨h.line.mpr hbegun, hhead⟩
      rw [if_neg fun hif => hif.elim hne hbegun, if_pos hhead]
      exact iff_of_true hbegun (by rintro ⟨⟩)
  · exact .kept rfl (.inr rfl) (prefix_append _ _)

/-- **A raw write** puts the indentation off. -/
theorem Prints.writeRaw_spec (hindentation : p.indentation.length < 2 ^ 31) :
    ∃ q page', p.writeRaw buffers data = some q ∧
      page' = page.write newline (delayedText newline) p.indentation (.text data) ∧ Prints start q page' ∧
      q.indentation = p.indentation ∧ q.variableDelimiter = p.variableDelimiter ∧
      Moved p q page.out page'.out := by
  by_cases hne : data = []
  · rw [hne]
    exact ⟨p, page, writeRaw_nil p, (write_nil _).symm, h, rfl, rfl, .kept rfl (.inl rfl) (prefix_refl _)⟩
  by_cases hplain : p.atStartOfLine = true ∧ data.head? ≠ some newline
  · obtain ⟨q, hwrite, hprints, hindent, hdelimiter, hmoved⟩ :=
      h.writeRaw_indented hsucceeds hlength hindentation hne hplain.1 hplain.2
    refine ⟨q, _, hwrite, rfl, hprints, hindent, hdelimiter, ?_⟩
    rw [Page.write, delayedText, if_pos ⟨hne, h.line.mp hplain.1, hplain.2⟩]
    exact hmoved
  · obtain ⟨q, hwrite, hprints, hindent, hdelimiter, hmoved⟩ :=
      h.writeRaw_plain hsucceeds hlength hne hplain
    refine ⟨q, _, hwrite, rfl, hprints, hindent, hdelimiter, ?_⟩
    rw [Page.write, delayedText, if_neg fun hif => hplain ⟨h.line.mpr hif.2.1, hif.2.2⟩]
    exact hmoved

end

end

end Printer

end Protoc.Io
