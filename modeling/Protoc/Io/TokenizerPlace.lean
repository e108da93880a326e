import Mathlib.Data.List.GetD
import Protoc.Io.Tokenizer

/-!
# Where a tokenizer stands

The buffer is one way to hold the rest of the input.  What settles everything else is the
offset in the whole input, where a recording started, and what a caller can see.
-/

namespace Protoc.Io.Tokenizer

open Protoc.Lib
open List

/-- The line and the column of the character at an offset. -/
def positionAt (input : Text) (offset : ℕ) : Int32 × Int32 :=
  (input.take offset).foldl (fun p c => positionAfter c p.1 p.2) (0, 0)

theorem positionAt_succ {input : Text} {offset : ℕ} (h : offset < input.length) :
    positionAt input (offset + 1) =
      positionAfter (input.getD offset 0) (positionAt input offset).1 (positionAt input offset).2 := by
  rw [positionAt, take_add_one, foldl_append, List.getElem?_eq_getElem h, getD_eq_getElem _ _ h]
  rfl

def slice (input : Text) (start stop : ℕ) : Text := (input.drop start).take (stop - start)

theorem slice_self (input : Text) (start : ℕ) : slice input start start = [] := by
  simp [slice]

theorem slice_succ {input : Text} {start stop : ℕ} (hstart : start ≤ stop) (hstop : stop < input.length) :
    slice input start (stop + 1) = slice input start stop ++ [input.getD stop 0] := by
  rw [slice, slice, Nat.sub_add_comm hstart, take_add_one, List.getElem?_drop,
    Nat.add_sub_cancel' hstart, List.getElem?_eq_getElem hstop, getD_eq_getElem _ _ hstop]
  rfl

theorem slice_length {input : Text} {start stop : ℕ} (hstart : start ≤ stop)
    (hstop : stop ≤ input.length) : (slice input start stop).length = stop - start := by
  rw [slice, length_take, length_drop]
  omega

/-! ## Places -/

/-- The part of the state that the characters do not move. -/
structure Shown where
  allowFAfterFloat : Bool
  commentStyle : CommentStyle
  requireSpaceAfterNumber : Bool
  allowMultilineStrings : Bool
  current : Token
  previous : Token
  errors : List TokenizerError

def shown (s : Tokenizer) : Shown :=
  ⟨s.allowFAfterFloat, s.commentStyle, s.requireSpaceAfterNumber, s.allowMultilineStrings,
    s.current, s.previous, s.errors⟩

/-- A place in the input.  A recording is what its string held before, and the offset where it
started. -/
structure Place (input : Text) where
  offset : ℕ
  offset_le : offset ≤ input.length
  recording : Option (Text × ℕ)
  shown : Shown

/-- What is recorded up to an offset: some of it is in the string, the rest in the buffer. -/
def Records (input : Text) (offset : ℕ) : Option (Text × ℕ) → Tokenizer → Prop
  | none, s => s.recordTarget = none
  | some (base, start), s => start ≤ offset ∧ ∃ target from_, s.recordTarget = some target ∧
      s.recordStart = (from_ : ℕ) ∧ from_ ≤ s.bufferPos ∧
      target ++ slice s.buffer from_ s.bufferPos = base ++ slice input start offset

variable {input : Text}

/-- The state `s` stands for the place `x`. -/
structure Stands (input : Text) (x : Place input) (s : Tokenizer) : Prop where
  rest : s.buffer.drop s.bufferPos ++ s.input.remaining = input.drop x.offset
  char : s.currentChar = input.getD x.offset 0
  ended : s.readError = decide (x.offset = input.length)
  within : x.offset < input.length → s.bufferPos < s.buffer.length
  position : (s.line, s.column) = positionAt input x.offset
  records : Records input x.offset x.recording s
  shows : s.shown = x.shown

variable {s : Tokenizer} {x : Place input}

theorem Stands.line (h : Stands input x s) :
    s.line = (positionAt input x.offset).1 := by rw [← h.position]

theorem Stands.column (h : Stands input x s) :
    s.column = (positionAt input x.offset).2 := by rw [← h.position]

theorem Stands.bytesLeft (h : Stands input x s) : s.bytesLeft = input.length - x.offset := by
  have hlength := congrArg List.length h.rest
  rw [length_append, length_drop, length_drop] at hlength
  exact hlength

theorem Stands.buffer_char (h : Stands input x s)
    (hx : x.offset < input.length) : s.buffer.getD s.bufferPos 0 = input.getD x.offset 0 := by
  have hpos := h.within hx
  have hrest := h.rest
  rw [drop_eq_getElem_cons hpos, drop_eq_getElem_cons hx] at hrest
  rw [getD_eq_getElem _ _ hpos, getD_eq_getElem _ _ hx]
  exact (List.cons.inj hrest).1

def held (s : Tokenizer) :=
  (s.input, s.currentChar, s.buffer, s.bufferPos, s.readError, s.line, s.column, s.recordTarget, s.recordStart)

theorem Stands.show {s t : Tokenizer} (h : Stands input x s)
    (hheld : t.held = s.held) {shown' : Shown} (hshown : t.shown = shown') :
    Stands input { x with shown := shown' } t := by
  simp only [held, Prod.mk.injEq] at hheld
  obtain ⟨hinput, hchar, hbuffer, hpos, herror, hline, hcolumn, htarget, hstart⟩ := hheld
  have hrecords := h.records
  refine ⟨?_, hchar.trans h.char, herror.trans h.ended, ?_, ?_, ?_, hshown⟩
  · rw [hinput, hbuffer, hpos]
    exact h.rest
  · rw [hbuffer, hpos]
    exact h.within
  · rw [hline, hcolumn]
    exact h.position
  · cases hrecording : x.recording with
    | none =>
      rw [hrecording] at hrecords
      exact htarget.trans hrecords
    | some r =>
      rw [hrecording] at hrecords
      simp only [Records, htarget, hstart, hbuffer, hpos]
      exact hrecords

/-! ## A new buffer -/

/-- The first half of `Refresh`: what the buffer holds of the recording goes to its string. -/
def saved (s : Tokenizer) : Tokenizer :=
  match s.recordTarget with
  | none => s
  | some target =>
    if s.recordStart < s.buffer.length then
      { s with
        recordTarget := some (target ++ s.buffer.drop s.recordStart.toNat), recordStart := 0 }
    else s

/-- The second half: the next buffer. -/
def reloaded (s : Tokenizer) : Tokenizer :=
  match s.input.nextNonEmpty with
  | (none, input) =>
    { s with input := input, buffer := [], bufferPos := 0, readError := true, currentChar := 0 }
  | (some data, input) =>
    { s with input := input, buffer := data, bufferPos := 0, currentChar := data.getD 0 0 }

theorem refresh_eq (h : s.readError = false) : s.refresh = s.saved.reloaded := by
  rw [refresh, if_neg (by simp [h])]
  rfl

theorem saved_frame (s : Tokenizer) : s.saved.shown = s.shown ∧ s.saved.input = s.input ∧
    s.saved.line = s.line ∧ s.saved.column = s.column ∧ s.saved.readError = s.readError := by
  unfold saved
  cases s.recordTarget with
  | none => exact ⟨rfl, rfl, rfl, rfl, rfl⟩
  | some target =>
    dsimp only
    split <;> exact ⟨rfl, rfl, rfl, rfl, rfl⟩

/-- A recording that has been saved holds all of its text, and goes on from the next buffer. -/
def Saved (input : Text) (offset : ℕ) : Option (Text × ℕ) → Tokenizer → Prop
  | none, s => s.recordTarget = none
  | some (base, start), s => start ≤ offset ∧
      s.recordTarget = some (base ++ slice input start offset) ∧ s.recordStart = 0

theorem saved_saves {offset : ℕ} {recording : Option (Text × ℕ)}
    (hend : s.bufferPos = s.buffer.length) (hrecords : Records input offset recording s)
    (hstart : recording ≠ none → s.recordStart < s.buffer.length) : Saved input offset recording s.saved := by
  cases recording with
  | none =>
    have htarget : s.recordTarget = none := hrecords
    simp only [Saved, saved, htarget]
  | some r =>
    obtain ⟨hle, target, from_, htarget, hfrom, -, htext⟩ := hrecords
    have hlt := hstart (by simp)
    have hsaved : s.saved = { s with
        recordTarget := some (target ++ s.buffer.drop from_), recordStart := 0 } := by
      simp only [saved, htarget]
      rw [if_pos hlt, hfrom, Int.toNat_natCast]
    refine ⟨hle, ?_, by rw [hsaved]⟩
    have hall : slice s.buffer from_ s.bufferPos = s.buffer.drop from_ := by
      rw [slice, hend, take_of_length_le (by rw [length_drop])]
    rw [hsaved, ← htext, hall]

theorem reloaded_stands (herror : s.readError = false) (hrest : s.input.remaining = input.drop x.offset)
    (hposition : (s.line, s.column) = positionAt input x.offset)
    (hsaved : Saved input x.offset x.recording s) (hshown : s.shown = x.shown) : Stands input x s.reloaded := by
  have hrecords : ∀ t : Tokenizer, t.recordTarget = s.recordTarget → t.recordStart = s.recordStart →
      t.bufferPos = 0 → Records input x.offset x.recording t := by
    intro t htarget hstart hpos
    cases hrecording : x.recording with
    | none =>
      rw [hrecording] at hsaved
      exact htarget.trans hsaved
    | some r =>
      rw [hrecording] at hsaved
      refine ⟨hsaved.1, _, 0, htarget.trans hsaved.2.1, hstart.trans hsaved.2.2, Nat.zero_le _, ?_⟩
      rw [hpos, slice_self, append_nil]
  have hspec := s.input.nextNonEmpty_spec
  unfold reloaded
  generalize hnext : s.input.nextNonEmpty = r at hspec ⊢
  obtain ⟨found, stream⟩ := r
  rcases hspec with ⟨hnone, hempty, hleft⟩ | ⟨data, hsome, hne, hdata, -⟩
  · obtain rfl : found = none := hnone
    have hend : x.offset = input.length := by
      have hlength := congrArg List.length (hrest.symm.trans hempty)
      rw [length_drop, length_nil] at hlength
      have := x.offset_le
      omega
    refine ⟨?_, ?_, ?_, ?_, hposition, hrecords _ rfl rfl rfl, hshown⟩
    · simpa [hend] using hleft
    · simp [hend]
    · simp [hend]
    · intro hlt
      omega
  · obtain rfl : found = some data := hsome
    rw [hrest] at hdata
    have hlt : x.offset < input.length := by
      have hlength := congrArg List.length hdata
      have hpos := List.length_pos_iff.mpr hne
      rw [length_drop, length_append] at hlength
      omega
    refine ⟨hdata.symm, ?_, ?_, ?_, hposition, hrecords _ rfl rfl rfl, hshown⟩
    · cases data with
      | nil => exact absurd rfl hne
      | cons c data =>
        rw [drop_eq_getElem_cons hlt] at hdata
        rw [getD_eq_getElem _ _ hlt]
        exact (List.cons.inj hdata).1.symm
    · simpa [herror] using ne_of_lt hlt
    · intro _
      exact List.length_pos_iff.mpr hne

theorem refresh_stands (herror : s.readError = false)
    (hend : s.bufferPos = s.buffer.length) (hrest : s.input.remaining = input.drop x.offset)
    (hposition : (s.line, s.column) = positionAt input x.offset)
    (hrecords : Records input x.offset x.recording s)
    (hstart : x.recording ≠ none → s.recordStart < s.buffer.length)
    (hshown : s.shown = x.shown) : Stands input x s.refresh := by
  obtain ⟨hshows, hinput, hline, hcolumn, hread⟩ := saved_frame s
  rw [refresh_eq herror]
  refine reloaded_stands (hread.trans herror) ?_ ?_ (saved_saves hend hrecords hstart)
    (hshows.trans hshown)
  · rw [hinput, hrest]
  · rw [hline, hcolumn, hposition]

/-! ## One character -/

def Place.succ (x : Place input) (h : x.offset < input.length) : Place input :=
  { x with offset := x.offset + 1, offset_le := h }

theorem records_succ {s t : Tokenizer} (h : Stands input x s)
    (hx : x.offset < input.length) (htarget : t.recordTarget = s.recordTarget)
    (hstart : t.recordStart = s.recordStart) (hbuffer : t.buffer = s.buffer)
    (hpos : t.bufferPos = s.bufferPos + 1) : Records input (x.offset + 1) x.recording t := by
  have hrecords := h.records
  cases hrecording : x.recording with
  | none =>
    rw [hrecording] at hrecords
    exact htarget.trans hrecords
  | some r =>
    rw [hrecording] at hrecords
    obtain ⟨hle, target, from_, htarget', hfrom, hfrom_le, htext⟩ := hrecords
    refine ⟨by omega, target, from_, htarget.trans htarget', hstart.trans hfrom, by omega, ?_⟩
    rw [hbuffer, hpos, slice_succ hfrom_le (h.within hx), slice_succ hle hx, h.buffer_char hx,
      ← append_assoc, htext, append_assoc]

/-- **`NextChar`**: one character further, in every buffer. -/
theorem nextChar_stands (h : Stands input x s)
    (hx : x.offset < input.length) : Stands input (x.succ hx) s.nextChar := by
  have hpos := h.within hx
  have herror : s.readError = false := by
    rw [h.ended, decide_eq_false_iff_not]
    omega
  have hposition : positionAfter s.currentChar s.line s.column = positionAt input (x.offset + 1) := by
    rw [positionAt_succ hx, h.char, h.line, h.column]
  have hdrop : s.buffer.drop (s.bufferPos + 1) ++ s.input.remaining =
      input.drop (x.offset + 1) := by
    have hrest := h.rest
    rw [drop_eq_getElem_cons hpos, drop_eq_getElem_cons hx] at hrest
    exact (List.cons.inj hrest).2
  rw [nextChar]
  dsimp only
  split
  · next hwithin =>
    have hlt : x.offset + 1 < input.length := by
      have hlength := congrArg List.length hdrop
      rw [length_append, length_drop, length_drop] at hlength
      omega
    have hnext : s.buffer.getD (s.bufferPos + 1) 0 = input.getD (x.offset + 1) 0 := by
      have hcons := hdrop
      rw [drop_eq_getElem_cons hwithin, drop_eq_getElem_cons hlt] at hcons
      rw [getD_eq_getElem _ _ hwithin, getD_eq_getElem _ _ hlt]
      exact (List.cons.inj hcons).1
    refine ⟨hdrop, hnext, ?_, fun _ => hwithin, hposition, records_succ h hx rfl rfl rfl rfl,
      h.shows⟩
    rw [herror]
    exact (decide_eq_false (ne_of_lt hlt)).symm
  · next hover =>
    have hend : s.bufferPos + 1 = s.buffer.length := by omega
    refine refresh_stands (x := x.succ hx) herror hend ?_ hposition
      (records_succ h hx rfl rfl rfl rfl) ?_ h.shows
    · rw [hend, drop_length] at hdrop
      exact hdrop
    · intro hrecording
      have hrecords := h.records
      cases hr : x.recording with
      | none => exact absurd hr hrecording
      | some r =>
        rw [hr] at hrecords
        obtain ⟨-, -, from_, -, hfrom, hle, -⟩ := hrecords
        rw [hfrom]
        exact_mod_cast lt_of_le_of_lt hle hpos

def Place.first (input : Text) : Place input :=
  ⟨0, Nat.zero_le _, none, ⟨false, .cpp, true, false, startOfInput, startOfInput, []⟩⟩

theorem new_stands (chunks : List Text) : Stands chunks.flatten (.first chunks.flatten) (.new ⟨chunks, 0⟩) :=
  refresh_stands rfl rfl rfl rfl rfl (fun h => absurd rfl h) rfl

/-! ## Recordings -/

def Place.recorded (x : Place input) (recording : Option (Text × ℕ)) : Place input :=
  { x with recording := recording }

theorem recordTo_stands (h : Stands input x s) (target : Text) :
    Stands input (x.recorded (some (target, x.offset))) (recordTo target s) := by
  refine ⟨h.rest, h.char, h.ended, h.within, h.position, ?_, h.shows⟩
  refine ⟨le_rfl, target, s.bufferPos, rfl, rfl, le_rfl, ?_⟩
  change target ++ slice s.buffer s.bufferPos s.bufferPos = target ++ slice input x.offset x.offset
  rw [slice_self, slice_self]

/-- **`StopRecording`**: the text since the start, in every buffer. -/
theorem stopRecording_stands (h : Stands input x s)
    {base : Text} {start : ℕ} (hrecording : x.recording = some (base, start)) :
    ∃ s', stopRecording s = some (base ++ slice input start x.offset, s') ∧
      Stands input (x.recorded none) s' := by
  have hrecords := h.records
  rw [hrecording] at hrecords
  obtain ⟨-, target, from_, htarget, hfrom, hle, htext⟩ := hrecords
  refine ⟨{ s with recordTarget := none, recordStart := -1 }, ?_,
    ⟨h.rest, h.char, h.ended, h.within, h.position, rfl, h.shows⟩⟩
  simp only [stopRecording, htarget, hfrom, Int.toNat_natCast]
  rw [← htext]
  split
  · rfl
  · next hsame =>
    have hpos : s.bufferPos = from_ := by omega
    rw [hpos, slice_self, append_nil]

end Protoc.Io.Tokenizer
