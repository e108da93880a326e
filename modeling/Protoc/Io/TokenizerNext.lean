import Protoc.Io.TokenizerGap

/-!
# The next token of a call without errors

`Next` passes over the gap in front of it, and then reads one token; or the gap reaches to the
end of the input.
-/

namespace Protoc.Io.Tokenizer

open Protoc.Lib

variable {input : Text}

set_option synthInstance.maxSize 1000

/-! ## The start of a comment -/

/-- Where a token starts, with its first character read as one of its own. -/
structure SlashToken (x y : Place input) : Prop where
  rest : x.rest = 47 :: y.rest
  recording : y.recording = x.recording
  shown : ∃ token, y.shown = { x.shown with current := token } ∧ token.type = .symbol ∧
    token.text = [47]

/-- What `TryConsumeCommentStart` finds at a place. -/
def Begins (x : Place input) : NextCommentStatus → Place input → Prop
  | .lineComment, y => (∃ mark, Reads x mark y) ∧
      gapItem x.shown.commentStyle x.rest = some (lineItem y.rest)
  | .blockComment, y => (∃ mark, Reads x mark y) ∧ gapItem x.shown.commentStyle x.rest =
      (blockText false y.rest).map fun p => (.block p.1, p.2)
  | .slashNotComment, y => SlashToken x y ∧ gapItem x.shown.commentStyle x.rest = none
  | .noComment, y => y = x ∧
      (whitespace x.char = false → gapItem x.shown.commentStyle x.rest = none)

theorem gapItem_none {style : CommentStyle} {text : Text} (hspace : whitespace (text.headD 0) = false)
    (hslash : style = .cpp → text.headD 0 ≠ 47) (hhash : style = .sh → text.headD 0 ≠ 35) :
    gapItem style text = none := by
  cases text with
  | nil => rfl
  | cons c text =>
    rw [List.headD_cons] at hspace hslash hhash
    have hblank : whitespaceNoNewline c ≠ true := by
      intro hblank
      simp only [whitespace, whitespaceNoNewline, Bool.or_eq_true, Bool.or_eq_false_iff] at *
      simp_all
    have hnewline : c ≠ 10 := by
      rintro rfl
      exact absurd hspace (by decide)
    rw [gapItem, if_neg hblank, if_neg hnewline]
    cases style with
    | cpp => simp [commentItem, hslash rfl]
    | sh => simp [commentItem, hhash rfl]

theorem quiet_tryStyle {c : UInt8} (hc : (0 == c) = false) (style : Bool) (x : Place input) :
    Quiet (pure style <&&> tryConsume c) x fun b y => (b = true → style = true ∧ Reads x [c] y) ∧
        (b = false → y = x ∧ (style = true → x.char ≠ c)) := by
  have hstyle : Quiet (pure style : Scan Bool) x fun b y => b = style ∧ y = x := .pure ⟨rfl, rfl⟩
  refine hstyle.andM ?_ ?_
  · rintro y ⟨hs, rfl⟩
    refine (quiet_tryConsume hc y).mono ?_
    intro b z hz
    cases b with
    | true => exact ⟨fun _ => ⟨hs.symm, hz.reads_char.2⟩, fun h => absurd h (by decide)⟩
    | false =>
      obtain ⟨hchar, rfl⟩ := hz
      exact ⟨fun h => absurd h (by decide), fun _ => ⟨rfl, fun _ => by simpa using hchar⟩⟩
  · rintro y ⟨hs, rfl⟩
    exact ⟨fun h => absurd h (by decide), fun _ => ⟨rfl, fun h => absurd (hs.trans h) (by decide)⟩⟩

theorem setSlash_settles {x y : Place input} (hxy : Reads x [47] y) :
    Settles (Stands input) (modify setSlash : Scan Unit) y fun _ z => SlashToken x z := by
  let token : Token := ⟨.symbol, [47], (positionAt input y.offset).1,
    (positionAt input y.offset).2 - 1, (positionAt input y.offset).2⟩
  have hshown : (y.withCurrent token).shown = { x.shown with current := token } := by
    rw [← hxy.shown]
    rfl
  refine .modify (y.withCurrent token) ?_ ⟨hxy.rest, hxy.recording, token, hshown, rfl, rfl⟩
  intro s h
  have hstands := withCurrent_stands h ⟨.symbol, [47], s.line, s.column - 1, s.column⟩
  rw [h.line, h.column] at hstands
  rw [setSlash, h.line, h.column]
  exact hstands

theorem quiet_tryConsumeCommentStart (x : Place input) : Quiet tryConsumeCommentStart x (Begins x) := by
  refine .reads x.shown.commentStyle (fun _ h => by rw [← h.shows]; rfl) ?_
  refine (quiet_tryStyle rfl _ x).bind ?_
  rintro slash y ⟨htrue, hfalse⟩
  refine .ite ?_ ?_
  · intro hslash
    obtain ⟨hstyle, hxy⟩ := htrue hslash
    have hcpp : x.shown.commentStyle = .cpp := eq_of_beq hstyle
    refine (quiet_tryConsume rfl y).bind ?_
    intro line z hz
    refine .ite ?_ ?_
    · rintro rfl
      have hyz := hz.reads_char.2
      refine .pure ⟨⟨_, hxy.trans hyz⟩, ?_⟩
      rw [hcpp, hxy.rest, hyz.rest]
      rfl
    · intro hline
      have hline' : line = false := by simpa using hline
      subst hline'
      obtain ⟨hnotLine, rfl⟩ := hz
      refine (quiet_tryConsume rfl z).bind ?_
      intro block w hw
      refine .ite ?_ ?_
      · rintro rfl
        have hzw := hw.reads_char.2
        refine .pure ⟨⟨_, hxy.trans hzw⟩, ?_⟩
        rw [hcpp, hxy.rest, hzw.rest]
        rfl
      · intro hblock
        have hblock' : block = false := by simpa using hblock
        subst hblock'
        obtain ⟨hnotBlock, rfl⟩ := hw
        refine (Quietly.of_settles (setSlash_settles hxy)).bind ?_
        rintro - v hv
        refine .pure ⟨hv, ?_⟩
        have hl : w.rest.head? ≠ some 47 := fun h => by
          simp [(Place.head?_rest (by decide)).mp h] at hnotLine
        have hb : w.rest.head? ≠ some 42 := fun h => by
          simp [(Place.head?_rest (by decide)).mp h] at hnotBlock
        rw [hcpp, hxy.rest, List.singleton_append, gapItem, if_neg (by decide), if_neg (by decide),
          commentItem, if_neg (by simp [hl]), if_neg (by simp [hb])]
  · intro hslash
    obtain ⟨rfl, hnot⟩ := hfalse (by simpa using hslash)
    refine (quiet_tryStyle rfl _ y).bind ?_
    rintro hash z ⟨htrue', hfalse'⟩
    refine .ite ?_ ?_
    · intro hhash
      obtain ⟨hstyle, hyz⟩ := htrue' hhash
      have hsh : y.shown.commentStyle = .sh := eq_of_beq hstyle
      refine .pure ⟨⟨_, hyz⟩, ?_⟩
      rw [hsh, hyz.rest]
      rfl
    · intro hhash
      obtain ⟨rfl, hnot'⟩ := hfalse' (by simpa using hhash)
      refine .pure ⟨rfl, fun hspace => ?_⟩
      rw [z.char_eq] at hspace hnot hnot'
      exact gapItem_none hspace (fun h => hnot (beq_iff_eq.mpr h)) fun h => hnot' (beq_iff_eq.mpr h)

/-! ## Tokens -/

/-- The gap behind `x` and the token that is read behind it; at the end there is no text. -/
structure NextToken (x : Place input) (found : Bool) (y : Place input) : Prop where
  gap : ∃ items, Gap x.shown.commentStyle x.rest items (y.shown.current.text ++ y.rest)
  recording : y.recording = none
  token : found = true → TokenText y.shown.current.type y.shown.current.text
  ended : found = false →
    y.shown.current.type = .end ∧ y.shown.current.text = [] ∧ y.rest = []

/-- What a round of `Next` has passed over. -/
structure Passed (x y : Place input) : Prop where
  reads : ∃ read, Reads x read y
  gap : ∃ items, Gap x.shown.commentStyle x.rest items y.rest

theorem Passed.refl (x : Place input) : Passed x x := ⟨⟨[], .refl x⟩, ⟨[], .nil⟩⟩

theorem Passed.trans {x y z : Place input} (h : Passed x y) (h' : Passed y z) : Passed x z := by
  obtain ⟨read, hread⟩ := h.reads
  obtain ⟨read', hread'⟩ := h'.reads
  obtain ⟨items, hgap⟩ := h.gap
  obtain ⟨items', hgap'⟩ := h'.gap
  rw [hread.shown] at hgap'
  exact ⟨⟨_, hread.trans hread'⟩, ⟨_, hgap.append hgap'⟩⟩

theorem quiet_endToken {type : TokenType} {y : Place input} {start : ℕ}
    (hy : y.recording = some ([], start)) : Quiet (endToken type) y fun _ z =>
      z.rest = y.rest ∧ z.recording = none ∧ z.shown.current.type = type ∧
        z.shown.current.text = slice input start y.offset := by
  refine (Quietly.of_settles (stopRecording_settles hy)).bind ?_
  rintro text z ⟨rfl, rfl⟩
  refine .of_settles (.modify ((y.recorded none).withCurrent ⟨type, slice input start y.offset,
    y.shown.current.line, y.shown.current.column, (positionAt input y.offset).2⟩) ?_
    ⟨rfl, rfl, rfl, rfl⟩)
  intro s hs
  have htoken : s.current = y.shown.current := congrArg Shown.current hs.shows
  have hstands := withCurrent_stands hs ⟨type, slice input start y.offset,
    y.shown.current.line, y.shown.current.column, s.column⟩
  rw [hs.column] at hstands
  rw [htoken, hs.column]
  exact hstands

variable {x : Place input}

theorem Reads.rest_eq_nil (h : x.offset = input.length) : x.rest = [] := by
  rw [Place.rest, h, List.drop_length]

/-- **A round of `Next`.** -/
theorem quiet_nextRound (hx : x.recording = none) : Quiet nextRound x fun r y => match r with
      | .inl true => NextToken x true y
      | .inl false => Passed x y ∧ y.rest = []
      | .inr () => Passed x y := by
  have hended : ∀ {z : Place input} {m : Scan (Bool ⊕ Unit)}
      {post : Bool ⊕ Unit → Place input → Prop} [Grows errors m],
      (z.rest = [] → post (.inl false) z) → Quiet m z post →
      Quiet (do if ← reads readError then return .inl false else m) z post := by
    intro z m post _ hend hm
    refine .reads (decide (z.offset = input.length)) (fun _ h => h.ended) ?_
    refine .ite ?_ (fun _ => hm)
    intro h
    exact .pure (hend (Reads.rest_eq_nil (of_decide_eq_true h)))
  refine hended (fun h => ⟨.refl x, h⟩) ?_
  refine (quiet_consumeZeroOrMore rfl x).bind ?_
  rintro - y ⟨spaces, hxy, hspaces, hspace⟩
  have hpassed : Passed x y := by
    obtain ⟨items, hitems⟩ : ∃ items, Gap x.shown.commentStyle _ items y.rest :=
      gap_whitespace hspaces y.rest
    rw [← hxy.rest] at hitems
    exact ⟨⟨_, hxy⟩, ⟨items, hitems⟩⟩
  have hy : y.recording = none := hxy.recording.trans hx
  refine quiet_bindStatus (quiet_tryConsumeCommentStart y) ?_
  intro status z hz
  cases status with
  | lineComment =>
    obtain ⟨⟨mark, hyz⟩, hitem⟩ := hz
    refine (quiet_consumeLineComment (hyz.recording.trans hy) none).bind ?_
    rintro - w ⟨-, hzw⟩
    refine .pure (hpassed.trans ⟨⟨_, hyz.trans hzw⟩, [.line (lineText z.rest)], .single ?_⟩)
    have hdrop : z.rest.drop (lineText z.rest).length = w.rest := by
      have hrest := hzw.rest
      calc z.rest.drop (lineText z.rest).length
          = (lineText z.rest ++ w.rest).drop (lineText z.rest).length := by rw [← hrest]
        _ = w.rest := List.drop_left
    rw [hitem, lineItem, hdrop]
  | blockComment =>
    obtain ⟨⟨mark, hyz⟩, hitem⟩ := hz
    refine (quiet_consumeBlockComment (hyz.recording.trans hy) none).bind ?_
    rintro content w hw
    obtain ⟨read, text, hzw, -, hblock⟩ := hw.read
    refine .pure (hpassed.trans ⟨⟨_, hyz.trans hzw⟩, [.block text], .single ?_⟩)
    rw [hitem, hblock]
    rfl
  | slashNotComment =>
    obtain ⟨hslash, -⟩ := hz
    obtain ⟨items, hgap⟩ := hpassed.gap
    obtain ⟨token, hshown, htype, htext⟩ := hslash.shown
    refine .pure ⟨⟨items, ?_⟩, hslash.recording.trans hy, fun _ => ?_, fun h => absurd h (by decide)⟩
    · rw [hshown, htext]
      rw [hslash.rest] at hgap
      exact hgap
    · rw [hshown, htype, htext]
      exact .other (by decide) (by decide)
  | noComment =>
    obtain ⟨rfl, -⟩ := hz
    refine hended (fun h => ⟨hpassed, h⟩) ?_
    refine .reads z.char (fun _ h => h.char) ?_
    refine .ite (fun _ => quiet_addError_bind) ?_
    intro hchar
    have hne : z.char ≠ 0 := by
      intro hzero
      simp [hzero] at hchar
    refine (Quietly.of_settles (startToken_settles z)).bind ?_
    rintro - w rfl
    refine (quiet_readToken (x := z.begun) hne).bind ?_
    rintro type w ⟨text, hzw, htext⟩
    refine (quiet_endToken hzw.recording).bind ?_
    rintro - v ⟨hrest, hrecording, htype, hslice⟩
    have hv : v.shown.current.text = text := hslice.trans hzw.slice_eq
    obtain ⟨items, hgap⟩ := hpassed.gap
    have hzrest : z.rest = text ++ w.rest := hzw.rest
    refine .pure ⟨⟨items, ?_⟩, hrecording, fun _ => ?_, fun h => absurd h (by decide)⟩
    · rw [hv, hrest, ← hzrest]
      exact hgap
    · rw [htype, hv]
      exact htext

/-- **`Next`**: the gap, and then a token or the end. -/
theorem quiet_next (hx : x.recording = none) : Quiet next x (NextToken x) := by
  have hprevious : Quiet (modify fun s => { s with previous := s.current } : Scan Unit) x
      fun _ y => y.rest = x.rest ∧ y.recording = none ∧
        y.shown.commentStyle = x.shown.commentStyle := by
    refine .of_settles (.modify
      { x with shown := { x.shown with previous := x.shown.current } } ?_ ⟨rfl, hx, rfl⟩)
    intro s h
    exact h.show (by rfl) (by rw [← h.shows]; rfl)
  refine hprevious.bind ?_
  rintro - y ⟨hrest, hy, hstyle⟩
  have hrounds : Quiet (rounds (fun _ => nextRound) ()) y fun found z =>
      (found = true → NextToken x true z) ∧ (found = false → Passed y z ∧ z.rest = []) := by
    refine .reads (input.length - y.offset) (fun _ h => h.bytesLeft) ?_
    refine .loop (fun _ z => Passed y z) ?_ (.refl y)
    rintro ⟨⟩ z hz
    obtain ⟨read, hyz⟩ := hz.reads
    obtain ⟨items, hgap⟩ := hz.gap
    refine (quiet_nextRound (hyz.recording.trans hy)).mono ?_
    rintro (found | _) w hw
    · cases found with
      | true =>
        refine ⟨fun _ => ⟨?_, hw.recording, hw.token, hw.ended⟩, fun h => absurd h (by decide)⟩
        obtain ⟨items', hgap'⟩ := hw.gap
        rw [hyz.shown, hstyle] at hgap'
        rw [hrest, hstyle] at hgap
        exact ⟨_, hgap.append hgap'⟩
      | false => exact ⟨fun h => absurd h (by decide), fun _ => ⟨hz.trans hw.1, hw.2⟩⟩
    · exact hz.trans hw
  refine hrounds.bind ?_
  rintro found z ⟨htoken, hended⟩
  refine .ite (fun hfound => .pure (htoken hfound)) ?_
  intro hfound
  obtain ⟨hpassed, hnil⟩ := hended (by simpa using hfound)
  obtain ⟨read, hyz⟩ := hpassed.reads
  obtain ⟨items, hgap⟩ := hpassed.gap
  have hset : Settles (Stands input) (modify setEnd : Scan Unit) z fun _ w =>
      NextToken x false w := by
    let token : Token := ⟨.end, [], (positionAt input z.offset).1, (positionAt input z.offset).2,
      (positionAt input z.offset).2⟩
    refine .modify (z.withCurrent token) ?_ ⟨⟨items, ?_⟩, hyz.recording.trans hy,
      fun h => absurd h (by decide), fun _ => ⟨rfl, rfl, hnil⟩⟩
    · intro s h
      have hstands := withCurrent_stands h ⟨.end, [], s.line, s.column, s.column⟩
      rw [h.line, h.column] at hstands
      rw [setEnd, h.line, h.column]
      exact hstands
    · rw [hrest, hstyle] at hgap
      exact hgap
  refine (Quietly.of_settles hset).bind ?_
  rintro - w hw
  exact .pure hw

end Protoc.Io.Tokenizer
