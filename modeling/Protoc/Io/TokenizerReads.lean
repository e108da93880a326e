import Protoc.Io.TokenizerChunks
import Protoc.Lib.Quiet

/-!
# What a call without errors has read

Errors are only ever added.  So a call that reports none has passed through no branch that
reports one, and the text that it has read is what these branches let through.
-/

namespace Protoc.Io.Tokenizer

open Protoc.Lib List

variable {input : Text} {α β : Type}

/-! ## Errors stay -/

theorem reloaded_errors (s : Tokenizer) : s.reloaded.errors = s.errors := by
  unfold reloaded
  rcases s.input.nextNonEmpty with ⟨_ | data, rest⟩ <;> rfl

theorem refresh_errors (s : Tokenizer) : s.refresh.errors = s.errors := by
  cases herror : s.readError with
  | true => rw [refresh, if_pos herror]
  | false =>
    rw [refresh_eq herror, reloaded_errors]
    exact congrArg Shown.errors s.saved_frame.1

theorem nextChar_errors (s : Tokenizer) : s.nextChar.errors = s.errors := by
  rw [nextChar]
  dsimp only
  split
  · rfl
  · exact refresh_errors _

theorem grows_of_errors {f : Tokenizer → Tokenizer} (h : ∀ s, (f s).errors = s.errors) :
    Grows errors (modify f : Scan Unit) :=
  .modify fun s => (h s) ▸ prefix_rfl

instance grows_nextChar : Grows errors (modify nextChar : Scan Unit) :=
  grows_of_errors nextChar_errors

instance grows_recordTo (target : Text) : Grows errors (modify (recordTo target) : Scan Unit) :=
  grows_of_errors fun _ => rfl

instance grows_addErrorAt (line column : Int32) (message : String) :
    Grows errors (addErrorAt line column message) :=
  .modify fun _ => prefix_append _ _

instance grows_addError (message : String) : Grows errors (addError message) :=
  .modify fun _ => prefix_append _ _

instance grows_stopRecording : Grows errors stopRecording where
  grows s a s' h := by
    unfold stopRecording at h
    rcases htarget : s.recordTarget with _ | target
    · simp only [htarget] at h
      cases h
    · simp only [htarget, Option.some.injEq, Prod.mk.injEq] at h
      obtain ⟨-, rfl⟩ := h
      exact prefix_rfl

instance grows_startToken : Grows errors startToken := grows_of_errors fun _ => rfl

instance grows_setCurrent (token : Tokenizer → Token) :
    Grows errors (modify fun s => { s with current := token s } : Scan Unit) :=
  grows_of_errors fun _ => rfl

instance grows_endToken (type : TokenType) : Grows errors (endToken type) := by
  unfold endToken
  infer_instance

instance grows_tryConsumeOne (inClass : UInt8 → Bool) : Grows errors (tryConsumeOne inClass) := by
  unfold tryConsumeOne
  infer_instance

instance grows_tryConsume (c : UInt8) : Grows errors (tryConsume c) :=
  grows_tryConsumeOne _

instance grows_rounds {body : β → Scan (α ⊕ β)} [∀ b, Grows errors (body b)] (b : β) :
    Grows errors (rounds body b) := by
  unfold rounds
  infer_instance

instance grows_consumeZeroOrMore (inClass : UInt8 → Bool) : Grows errors (consumeZeroOrMore inClass) := by
  unfold consumeZeroOrMore
  infer_instance

instance grows_consumeOneOrMore (inClass : UInt8 → Bool) (error : String) :
    Grows errors (consumeOneOrMore inClass error) := by
  unfold consumeOneOrMore
  infer_instance

set_option synthInstance.maxSize 2000 in
instance grows_consumeEscape : Grows errors consumeEscape := by
  unfold consumeEscape
  infer_instance

set_option synthInstance.maxSize 1000 in
instance grows_consumeString (delimiter : UInt8) : Grows errors (consumeString delimiter) := by
  unfold consumeString
  infer_instance

instance grows_consumePoint (startedWithDot : Bool) : Grows errors (consumePoint startedWithDot) := by
  unfold consumePoint
  infer_instance

instance grows_consumeExponent : Grows errors consumeExponent := by
  unfold consumeExponent
  infer_instance

instance grows_consumeSuffix : Grows errors consumeSuffix := by
  unfold consumeSuffix
  infer_instance

instance grows_consumeDecimal (startedWithDot : Bool) : Grows errors (consumeDecimal startedWithDot) := by
  unfold consumeDecimal
  infer_instance

set_option synthInstance.maxSize 1000 in
instance grows_consumeDigits (startedWithZero startedWithDot : Bool) :
    Grows errors (consumeDigits startedWithZero startedWithDot) := by
  unfold consumeDigits
  infer_instance

instance grows_consumeNumber (startedWithZero startedWithDot : Bool) :
    Grows errors (consumeNumber startedWithZero startedWithDot) := by
  unfold consumeNumber
  infer_instance

instance grows_consumeDotNumber : Grows errors consumeDotNumber := by
  unfold consumeDotNumber
  infer_instance

instance grows_consumeSymbol : Grows errors consumeSymbol := by
  unfold consumeSymbol
  infer_instance

set_option synthInstance.maxSize 1000 in
instance grows_readToken : Grows errors readToken := by
  unfold readToken
  infer_instance

instance grows_recordContent (content : Option Text) : Grows errors (recordContent content) := by
  cases content
  · exact Grows.pure ()
  · exact grows_recordTo _

instance grows_stopContent (content : Option Text) : Grows errors (stopContent content) := by
  cases content
  · exact Grows.pure none
  · unfold stopContent
    infer_instance

instance grows_consumeLineComment (content : Option Text) : Grows errors (consumeLineComment content) := by
  unfold consumeLineComment
  infer_instance

set_option synthInstance.maxSize 1000 in
instance grows_blockCommentRound (startLine startColumn : Int32) (content : Option Text) :
    Grows errors (blockCommentRound startLine startColumn content) := by
  unfold blockCommentRound
  infer_instance

instance grows_consumeBlockComment (content : Option Text) : Grows errors (consumeBlockComment content) := by
  unfold consumeBlockComment
  infer_instance

instance grows_setSlash : Grows errors (modify setSlash : Scan Unit) := grows_of_errors fun _ => rfl

instance grows_tryConsumeCommentStart : Grows errors tryConsumeCommentStart := by
  unfold tryConsumeCommentStart
  infer_instance

instance grows_skipUnprintable : Grows errors skipUnprintable := by
  unfold skipUnprintable
  infer_instance

theorem grows_status (f : NextCommentStatus → Scan β) [hline : Grows errors (f .lineComment)]
    [hblock : Grows errors (f .blockComment)] [hslash : Grows errors (f .slashNotComment)]
    [hnone : Grows errors (f .noComment)] : ∀ status, Grows errors (f status) := by
  intro status
  cases status
  · exact hline
  · exact hblock
  · exact hslash
  · exact hnone

/-- What follows `TryConsumeCommentStart` depends on the status. -/
instance grows_bindStatus {m : Scan NextCommentStatus} {f : NextCommentStatus → Scan β}
    [Grows errors m] [hline : Grows errors (f .lineComment)]
    [hblock : Grows errors (f .blockComment)] [hslash : Grows errors (f .slashNotComment)]
    [hnone : Grows errors (f .noComment)] : Grows errors (m >>= f) := by
  have hf := grows_status f
  infer_instance

set_option synthInstance.maxSize 1000 in
instance grows_nextRound : Grows errors nextRound := by
  unfold nextRound
  infer_instance

instance grows_setPrevious (token : Tokenizer → Token) :
    Grows errors (modify fun s => { s with previous := token s } : Scan Unit) :=
  grows_of_errors fun _ => rfl

instance grows_setEnd : Grows errors (modify setEnd : Scan Unit) := grows_of_errors fun _ => rfl

instance grows_next : Grows errors next := by
  unfold next
  infer_instance

/-! ## The text between two places -/

def Place.rest (x : Place input) : Text := input.drop x.offset

theorem Place.char_eq (x : Place input) : x.char = x.rest.headD 0 := by
  rw [Place.char, Place.rest, List.headD_eq_head?_getD, List.head?_drop, getD_eq_getElem?_getD]

theorem Place.rest_eq_cons (x : Place input) (hx : x.offset < input.length) :
    x.rest = x.char :: (x.succ hx).rest := by
  rw [Place.rest, drop_eq_getElem_cons hx, Place.char, getD_eq_getElem _ _ hx]
  rfl

/-- A later place, with the text before it and nothing else changed. -/
structure Reads (x : Place input) (text : Text) (y : Place input) : Prop where
  offset : y.offset = x.offset + text.length
  rest : x.rest = text ++ y.rest
  recording : y.recording = x.recording
  shown : y.shown = x.shown

namespace Reads

variable {x y z : Place input} {text text' : Text}

theorem refl (x : Place input) : Reads x [] x := ⟨rfl, rfl, rfl, rfl⟩

theorem trans (h : Reads x text y) (h' : Reads y text' z) : Reads x (text ++ text') z := by
  refine ⟨?_, ?_, h'.recording.trans h.recording, h'.shown.trans h.shown⟩
  · rw [h'.offset, h.offset, length_append, add_assoc]
  · rw [h.rest, h'.rest, append_assoc]

theorem succ (x : Place input) (hx : x.offset < input.length) : Reads x [x.char] (x.succ hx) :=
  ⟨rfl, x.rest_eq_cons hx, rfl, rfl⟩

theorem slice_eq (h : Reads x text y) : slice input x.offset y.offset = text := by
  have hrest := h.rest
  rw [Place.rest] at hrest
  rw [slice, h.offset, hrest, Nat.add_sub_cancel_left, take_left]

end Reads

variable {inClass : UInt8 → Bool}

theorem Tried.reads {x y : Place input} (h : Tried inClass x true y) :
    inClass x.char = true ∧ Reads x [x.char] y := by
  obtain ⟨hclass, hx, rfl⟩ := h
  exact ⟨hclass, .succ x hx⟩

/-! ## Methods on characters -/

abbrev Quiet (m : Scan α) (x : Place input) (post : α → Place input → Prop) : Prop :=
  Quietly (Stands input) errors m x post

variable {message : String}

theorem quiet_addErrorAt {line column : Int32} {x : Place input}
    {post : Unit → Place input → Prop} : Quiet (addErrorAt line column message) x post := by
  refine .loud ?_
  intro s b s' h
  have hs : some ((), { s with errors := s.errors ++ [⟨line, column, message⟩] }) = some (b, s') := h
  simp only [Option.some.injEq, Prod.mk.injEq] at hs
  simp [← hs.2]

theorem quiet_addError {x : Place input} {post : Unit → Place input → Prop} :
    Quiet (addError message) x post := by
  intro s b s' hs h
  exact (quiet_addErrorAt : Quiet (addErrorAt s.line s.column message) x post) s b s' hs h

variable {post : α → Place input → Prop}

theorem quiet_addError_bind {f : Unit → Scan α} [∀ u, Grows errors (f u)] {x : Place input} :
    Quiet (addError message >>= f) x post := by
  have hnever : Quiet (addError message) x fun _ _ => False := quiet_addError
  exact hnever.bind fun _ _ h => h.elim

theorem quiet_addErrorAt_bind {line column : Int32} {f : Unit → Scan α}
    [∀ u, Grows errors (f u)] {x : Place input} : Quiet (addErrorAt line column message >>= f) x post := by
  have hnever : Quiet (addErrorAt line column message) x fun _ _ => False := quiet_addErrorAt
  exact hnever.bind fun _ _ h => h.elim

theorem quiet_reads {f : Tokenizer → α} {x : Place input} (v : α)
    (hv : ∀ s, Stands input x s → f s = v) : Quiet (reads f) x fun a y => a = v ∧ y = x := by
  intro s a s' hs h _
  have hsome : some (f s, s) = some (a, s') := h
  simp only [Option.some.injEq, Prod.mk.injEq] at hsome
  obtain ⟨rfl, rfl⟩ := hsome
  exact ⟨x, hs, hv s hs, rfl⟩

theorem quiet_tryConsumeOne (hzero : inClass 0 = false)
    (x : Place input) : Quiet (tryConsumeOne inClass) x (Tried inClass x) :=
  .of_settles (tryConsumeOne_tried hzero x)

theorem quiet_tryConsume {c : UInt8} (hc : (0 == c) = false) (x : Place input) :
    Quiet (tryConsume c) x (Tried (fun d => d == c) x) :=
  .of_settles (tryConsume_tried hc x)

theorem Tried.reads_char {c : UInt8} {x y : Place input} (h : Tried (fun d => d == c) x true y) :
    x.char = c ∧ Reads x [c] y := by
  obtain ⟨hclass, hreads⟩ := h.reads
  have hc : x.char = c := by simpa using hclass
  rw [hc] at hreads
  exact ⟨hc, hreads⟩

theorem quiet_nextChar {x : Place input} (hx : x.offset < input.length) :
    Quiet (modify nextChar : Scan Unit) x fun _ y => Reads x [x.char] y :=
  .of_settles ((nextChar_settles hx).mono fun _ _ h => h ▸ .succ x hx)

theorem quiet_bindStatus {m : Scan NextCommentStatus} {f : NextCommentStatus → Scan α}
    [Grows errors m] [Grows errors (f .lineComment)] [Grows errors (f .blockComment)]
    [Grows errors (f .slashNotComment)] [Grows errors (f .noComment)] {x : Place input}
    {mid : NextCommentStatus → Place input → Prop}
    (hm : Quiet m x mid) (hf : ∀ status y, mid status y → Quiet (f status) y post) :
    Quiet (m >>= f) x post := by
  have hgrows := grows_status f
  exact hm.bind hf

theorem quiet_consumeZeroOrMore (hzero : inClass 0 = false)
    (x : Place input) : Quiet (consumeZeroOrMore inClass) x fun _ y =>
      ∃ text, Reads x text y ∧ (∀ c ∈ text, inClass c = true) ∧ inClass y.char = false := by
  refine .reads (input.length - x.offset) (fun _ h => h.bytesLeft) ?_
  refine .loop (fun _ y => ∃ text, Reads x text y ∧ ∀ c ∈ text, inClass c = true) ?_
    ⟨[], .refl x, by simp⟩
  rintro ⟨⟩ y ⟨text, hreads, htext⟩
  refine (quiet_tryConsumeOne hzero y).bind ?_
  intro consumed z hz
  cases consumed with
  | true =>
    obtain ⟨hclass, hyz⟩ := hz.reads
    refine .pure ⟨text ++ [y.char], hreads.trans hyz, ?_⟩
    intro c hc
    rcases List.mem_append.mp hc with hc | hc
    · exact htext c hc
    · exact List.mem_singleton.mp hc ▸ hclass
  | false =>
    obtain ⟨hout, rfl⟩ := hz
    exact .pure ⟨text, hreads, htext, hout⟩

theorem quiet_consumeOneOrMore (hzero : inClass 0 = false)
    (error : String) (x : Place input) : Quiet (consumeOneOrMore inClass error) x fun _ y =>
      ∃ text, Reads x text y ∧ text ≠ [] ∧ ∀ c ∈ text, inClass c = true := by
  refine .reads x.char (fun _ h => h.char) ?_
  refine .ite ?_ (fun _ => quiet_addError)
  intro hin
  refine (quiet_nextChar (lt_of_class hzero hin)).bind ?_
  intro _ y hxy
  refine (quiet_consumeZeroOrMore hzero y).mono ?_
  rintro _ z ⟨text, hyz, htext, -⟩
  refine ⟨[x.char] ++ text, hxy.trans hyz, by simp, ?_⟩
  simpa [hin] using htext

/-! ## Alternatives and sequences of characters -/

/-- Where the method returns true, it has read a text that meets `p`. -/
def Accepts (input : Text) (m : Scan Bool) (p : Text → Prop) : Prop :=
  ∀ x : Place input, Quiet m x fun b y => b = true → ∃ text, Reads x text y ∧ p text

theorem accepts_one (hzero : inClass 0 = false) :
    Accepts input (tryConsumeOne inClass) fun text => ∃ c, text = [c] ∧ inClass c = true := by
  intro x
  refine (quiet_tryConsumeOne hzero x).mono ?_
  rintro b y h rfl
  obtain ⟨hclass, hreads⟩ := h.reads
  exact ⟨_, hreads, _, rfl, hclass⟩

theorem accepts_char {c : UInt8} (hc : (0 == c) = false) :
    Accepts input (tryConsume c) fun text => text = [c] := by
  intro x
  refine (quiet_tryConsume hc x).mono ?_
  rintro b y h rfl
  exact ⟨_, h.reads_char.2, rfl⟩

theorem Accepts.andM {m m' : Scan Bool} [Grows errors m] [Grows errors m'] {p q : Text → Prop}
    (hm : Accepts input m p) (hm' : Accepts input m' q) :
    Accepts input (m <&&> m') fun text => ∃ t t', text = t ++ t' ∧ p t ∧ q t' := by
  intro x
  refine (hm x).andM ?_ (fun y _ h => absurd h (by decide))
  intro y hy
  obtain ⟨t, hxy, ht⟩ := hy rfl
  refine (hm' y).mono ?_
  intro b z hz hb
  obtain ⟨t', hyz, ht'⟩ := hz hb
  exact ⟨t ++ t', hxy.trans hyz, t, t', rfl, ht, ht'⟩

end Protoc.Io.Tokenizer
