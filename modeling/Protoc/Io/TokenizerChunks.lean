import Protoc.Io.TokenizerScan

/-!
# Tokens, whatever the chunks, up to the end

A call that asks for a token reports the end or consumes a character, so there are at most as
many tokens in front of the end as there are characters.
-/

namespace Protoc.Io.Tokenizer

/-! ## The tokens do not depend on the chunks -/

open Protoc.Lib

variable {input : Text} {α : Type}

/-! ## Comments -/

/-- The place records the content of a comment, unless that is `NULL`. -/
def Recording (content : Option Text) (x : Place input) : Prop :=
  ∃ start, x.recording = content.map fun target => (target, start)

variable {content : Option Text}

theorem Recording.onward {x y : Place input} (h : Recording content x)
    (hxy : Onward x y) : Recording content y := by
  obtain ⟨start, hstart⟩ := h
  exact ⟨start, hxy.recording.trans hstart⟩

variable {x : Place input}

theorem recorded_self (h : x.recording = none) : x.recorded none = x := by
  obtain ⟨offset, hle, recording, shown⟩ := x
  subst h
  rfl

/-- From a place without a recording to one behind it. -/
structure Past (x y : Place input) : Prop where
  fresh : x.recording = none
  onward : Onward x (y.recorded none)

theorem Past.trans {x y z : Place input} (h : Past x y) (hyz : Onward y z) : Past x z :=
  ⟨h.fresh, h.onward.trans ⟨hyz.le, rfl, hyz.shown⟩⟩

theorem Past.recorded {x y : Place input} (h : Past x y) (recording : Option (Text × ℕ)) :
    Past x (y.recorded recording) := ⟨h.fresh, h.onward⟩

theorem Past.start (h : x.recording = none) : Past x x :=
  ⟨h, by rw [recorded_self h]; exact .refl x⟩

theorem recordContent_settles (hx : x.recording = none)
    (content : Option Text) : Settles (Stands input) (recordContent content) x fun _ y =>
      y = x.recorded (content.map fun target => (target, x.offset)) := by
  cases content with
  | none => exact .pure (recorded_self hx).symm
  | some target => exact .modify _ (fun _ h => recordTo_stands h target) rfl

theorem stopRecording_settles {base : Text} {start : ℕ} (hx : x.recording = some (base, start)) :
    Settles (Stands input) stopRecording x fun text y =>
      text = base ++ slice input start x.offset ∧ y = x.recorded none :=
  ⟨_, _, fun _ h => stopRecording_stands h hx, rfl, rfl⟩

theorem stopContent_settles (hx : Recording content x) :
    Settles (Stands input) (stopContent content) x fun _ y => y = x.recorded none := by
  obtain ⟨start, hstart⟩ := hx
  cases content with
  | none => exact .pure (recorded_self hstart).symm
  | some target =>
    refine (stopRecording_settles hstart).bind ?_
    rintro text y ⟨-, rfl⟩
    exact .pure rfl

theorem consumeLineComment_settles (hx : x.recording = none) (content : Option Text) :
    Settles (Stands input) (consumeLineComment content) x fun _ y => Onward x y := by
  refine (recordContent_settles hx content).bind ?_
  rintro - y rfl
  have hpast : Past x (x.recorded (content.map fun target => (target, x.offset))) :=
    (Past.start hx).recorded _
  refine (scans_consumeZeroOrMore rfl _).bind ?_
  rintro - y hy
  refine (scans_tryConsume rfl y).bind ?_
  rintro - z hz
  have hrecording : Recording content z := Recording.onward ⟨x.offset, rfl⟩ (hy.trans hz)
  refine (stopContent_settles hrecording).mono ?_
  rintro - w rfl
  exact (hpast.trans (hy.trans hz)).onward

theorem tryBoth_settles {c : UInt8} (hc : (0 == c) = false) {m : Scan Bool} (hm : Scans input m)
    (x : Place input) : Settles (Stands input) (tryConsume c <&&> m) x fun b y =>
      Onward x y ∧ (x.offset < y.offset ∨ (b = false ∧ y = x ∧ x.char ≠ c)) := by
  refine (tryConsume_tried hc x).andM ?_ ?_
  · intro y hy
    refine (hm y).mono ?_
    intro _ z hyz
    exact ⟨hy.onward.trans hyz, .inl (lt_of_lt_of_le hy.lt hyz.le)⟩
  · intro y hy
    obtain ⟨hchar, rfl⟩ := hy
    exact ⟨.refl y, .inr ⟨rfl, rfl, by simpa using hchar⟩⟩

theorem blockCommentRound_settles {x y : Place input} (startLine startColumn : Int32) (hpast : Past x y) (hrecording : Recording content y) :
    Settles (Stands input) (blockCommentRound startLine startColumn content) y fun r z =>
      match r with
      | .inl _ => Onward x z
      | .inr content' => (Past x z ∧ Recording content' z) ∧ y.offset < z.offset := by
  refine (consumeZeroOrMore_settles rfl y).bind ?_
  rintro - z ⟨hyz, hstop⟩
  refine (tryConsume_tried rfl z).bind ?_
  intro newline w hw
  have hyw := hyz.trans hw.onward
  refine .ite ?_ ?_
  · rintro rfl
    have hlt : y.offset < w.offset := lt_of_le_of_lt hyz.le hw.lt
    refine (stopContent_settles (hrecording.onward hyw)).bind ?_
    rintro content' - rfl
    refine (scans_consumeZeroOrMore rfl _).bind ?_
    rintro - v hv
    refine ((scans_tryConsume rfl).andM (scans_tryConsume rfl) v).bind ?_
    intro b u hu
    have hwu := hv.trans hu
    have hxu : Onward x u := (hpast.trans hyw).onward.trans hwu
    refine .ite (fun _ => .pure hxu) (fun _ => ?_)
    have hnone : u.recording = none := hwu.recording
    refine (recordContent_settles hnone content').bind ?_
    rintro - t rfl
    refine .pure ⟨⟨⟨hpast.fresh, ?_⟩, ⟨u.offset, rfl⟩⟩, lt_of_lt_of_le hlt hwu.le⟩
    exact hxu.trans ⟨le_rfl, hnone.symm, rfl⟩
  · intro hnewline
    have hfalse : newline = false := by simpa using hnewline
    subst hfalse
    obtain ⟨hten, rfl⟩ := hw
    refine (tryBoth_settles rfl (scans_tryConsume rfl) w).bind ?_
    rintro ended v ⟨hwv, hmoved⟩
    have hyv := hyw.trans hwv
    refine .ite ?_ ?_
    · intro _
      refine (stopContent_settles (hrecording.onward hyv)).bind ?_
      rintro content' - rfl
      exact .pure (hpast.trans hyv).onward
    · intro _
      have hreads : Scans input (reads fun s => s.currentChar == 42) :=
        scans_reads _ (fun p => p.char == 42) fun _ _ h => by rw [h.char]; rfl
      refine (tryBoth_settles rfl hreads v).bind ?_
      rintro nested u ⟨hvu, hmoved'⟩
      have hyu := hyv.trans hvu
      -- the loop stopped at one of four characters, so a round that goes on has consumed one
      have hlt : nested = true ∨ u.char ≠ 0 → y.offset < u.offset := by
        intro hgoes
        have hle := hyz.le
        rcases hmoved with hmoved | ⟨-, rfl, hstar⟩
        · exact lt_of_le_of_lt hle (lt_of_lt_of_le hmoved hvu.le)
        · rcases hmoved' with hmoved' | ⟨rfl, rfl, hslash⟩
          · exact lt_of_le_of_lt hle hmoved'
          · simp only [Bool.false_eq_true, false_or] at hgoes
            simp_all
      refine .ite ?_ ?_
      · intro hnested
        refine (scans_addError _ u).bind ?_
        rintro - t hut
        exact .pure ⟨⟨hpast.trans (hyu.trans hut), hrecording.onward (hyu.trans hut)⟩,
          lt_of_lt_of_le (hlt (.inl hnested)) hut.le⟩
      · intro _
        refine .reads u.char (fun _ h => h.char) ?_
        refine .ite ?_ ?_
        · intro _
          refine (scans_addError _ u).bind ?_
          rintro - t hut
          refine (scans_addErrorAt _ _ _ t).bind ?_
          rintro - r htr
          have hyr := hyu.trans (hut.trans htr)
          refine (stopContent_settles (hrecording.onward hyr)).bind ?_
          rintro content' - rfl
          exact .pure (hpast.trans hyr).onward
        · intro hchar
          exact .pure ⟨⟨hpast.trans hyu, hrecording.onward hyu⟩, hlt (.inr hchar)⟩

theorem consumeBlockComment_settles (hx : x.recording = none) (content : Option Text) :
    Settles (Stands input) (consumeBlockComment content) x fun _ y => Onward x y := by
  refine .reads _ (fun _ h => h.line) ?_
  refine .reads _ (fun _ h => h.column) ?_
  refine (recordContent_settles hx content).bind ?_
  rintro - y rfl
  refine rounds_settles (fun content' z => Past x z ∧ Recording content' z) ?_
    ⟨(Past.start hx).recorded _, x.offset, rfl⟩
  rintro content' y ⟨hpast, hrecording⟩
  refine (blockCommentRound_settles _ _ hpast hrecording).mono ?_
  rintro (result | content'') z hz
  · exact hz
  · exact hz

/-! ## Tokens -/

/-- The token is the part of the input at its position, up to its last column.  Only before the
first token and at the end there is no text. -/
def Faithful (input : Text) (token : Token) : Prop :=
  ∃ start, start + token.text.length ≤ input.length ∧
    positionAt input start = (token.line, token.column) ∧
    slice input start (start + token.text.length) = token.text ∧
    (positionAt input (start + token.text.length)).2 = token.endColumn ∧
    (token.text = [] ↔ token.type = .start ∨ token.type = .end) ∧
    (token.type = .end → start = input.length)

variable {type : TokenType}

theorem faithful_slice {start stop : ℕ} (hlt : start < stop) (hstop : stop ≤ input.length) (htype : type ≠ .start ∧ type ≠ .end) :
    Faithful input ⟨type, slice input start stop, (positionAt input start).1,
      (positionAt input start).2, (positionAt input stop).2⟩ := by
  have hlength : (slice input start stop).length = stop - start :=
    slice_length (le_of_lt hlt) hstop
  have hsum : start + (slice input start stop).length = stop := by omega
  have hne : slice input start stop ≠ [] := by
    intro hnil
    rw [hnil, List.length_nil] at hlength
    omega
  refine ⟨start, ?_, rfl, ?_, ?_, ?_, fun h => absurd h htype.2⟩
  · dsimp only
    omega
  · dsimp only
    rw [hsum]
  · dsimp only
    rw [hsum]
  · simp [hne, htype]

theorem faithful_startOfInput : Faithful input startOfInput :=
  ⟨0, Nat.zero_le _, rfl, rfl, rfl, by simp [startOfInput], by simp [startOfInput]⟩

/-- A place between two tokens. -/
structure Between (x : Place input) : Prop where
  fresh : x.recording = none
  current : Faithful input x.shown.current
  previous : Faithful input x.shown.previous

theorem Between.onward {x y : Place input} (h : Between x) (hxy : Onward x y) : Between y := by
  refine ⟨hxy.recording.trans h.fresh, ?_, ?_⟩
  · rw [hxy.shown]
    exact h.current
  · rw [hxy.shown]
    exact h.previous

def Place.withCurrent (x : Place input) (token : Token) : Place input :=
  { x with shown := { x.shown with current := token } }

theorem Between.withCurrent (h : Between x) {token : Token}
    (htoken : Faithful input token) : Between (x.withCurrent token) :=
  ⟨h.fresh, htoken, h.previous⟩

theorem withCurrent_stands {s : Tokenizer} (h : Stands input x s)
    (token : Token) : Stands input (x.withCurrent token) { s with current := token } :=
  h.show (by rfl) (by rw [← h.shows]; rfl)

/-- What `TryConsumeCommentStart` does. -/
def Started (x : Place input) : NextCommentStatus → Place input → Prop
  | .lineComment, y => Onward x y ∧ x.offset < y.offset
  | .blockComment, y => Onward x y ∧ x.offset < y.offset
  | .slashNotComment, y => Between y
  | .noComment, y => y = x

theorem slash_faithful (hx : x.offset < input.length) (hchar : x.char = 47) :
    Faithful input ⟨.symbol, [47], (positionAt input (x.offset + 1)).1,
      (positionAt input (x.offset + 1)).2 - 1, (positionAt input (x.offset + 1)).2⟩ := by
  have hposition : positionAt input (x.offset + 1) =
      ((positionAt input x.offset).1, (positionAt input x.offset).2 + 1) := by
    have hget : input.getD x.offset 0 = 47 := hchar
    rw [positionAt_succ hx, hget]
    rfl
  have htext : slice input x.offset (x.offset + 1) = [47] := by
    have hget : input.getD x.offset 0 = 47 := hchar
    rw [slice_succ le_rfl hx, slice_self, hget]
    rfl
  have htype : TokenType.symbol ≠ .start ∧ TokenType.symbol ≠ .end := ⟨by decide, by decide⟩
  have hfaithful := faithful_slice (Nat.lt_succ_self x.offset) hx htype
  rw [htext] at hfaithful
  have hcolumn : (positionAt input (x.offset + 1)).2 - 1 = (positionAt input x.offset).2 := by
    rw [hposition]
    exact Int32.add_sub_cancel _ _
  have hline : (positionAt input (x.offset + 1)).1 = (positionAt input x.offset).1 := by
    rw [hposition]
  rw [hcolumn, hline]
  exact hfaithful

theorem tryStyle_settles {c : UInt8} (hc : (0 == c) = false) (style : Bool) (x : Place input) :
    Settles (Stands input) (pure style <&&> tryConsume c) x fun r y =>
      (r = true → x.char = c ∧ ∃ hx, y = x.succ hx) ∧ (r = false → y = x) := by
  have hstyle : Settles (Stands input) (pure style : Scan Bool) x fun _ y => y = x := .pure rfl
  refine hstyle.andM ?_ ?_
  · rintro y rfl
    refine (tryConsume_tried hc y).mono ?_
    intro r z hz
    cases r with
    | true => exact ⟨fun _ => ⟨by simpa using hz.1, hz.2⟩, fun h => absurd h (by decide)⟩
    | false => exact ⟨fun h => absurd h (by decide), fun _ => hz.2⟩
  · intro y hy
    exact ⟨fun h => absurd h (by decide), fun _ => hy⟩

theorem tryConsumeCommentStart_settles (hx : Between x) :
    Settles (Stands input) tryConsumeCommentStart x fun status y =>
      Started x status y ∧ (status = .slashNotComment → x.offset < y.offset) := by
  refine .reads x.shown.commentStyle (fun _ h => by rw [← h.shows]; rfl) ?_
  refine (tryStyle_settles rfl _ x).bind ?_
  rintro r y ⟨htrue, hfalse⟩
  refine .ite ?_ ?_
  · intro hr
    obtain ⟨hchar, hlt, rfl⟩ := htrue hr
    have hmoved : ∀ z, Onward (x.succ hlt) z → Onward x z ∧ x.offset < z.offset := fun z hz =>
      ⟨(Onward.succ x hlt).trans hz, lt_of_lt_of_le (Nat.lt_succ_self _) hz.le⟩
    refine (tryConsume_tried rfl _).bind ?_
    intro line z hz
    refine .ite (fun _ => .pure ⟨hmoved z hz.onward, fun _ => (hmoved z hz.onward).2⟩) ?_
    intro hline
    have hline' : line = false := by simpa using hline
    subst hline'
    obtain ⟨-, rfl⟩ := hz
    refine (tryConsume_tried rfl _).bind ?_
    intro block z hz
    refine .ite (fun _ => .pure ⟨hmoved z hz.onward, fun _ => (hmoved z hz.onward).2⟩) ?_
    intro hblock
    have hblock' : block = false := by simpa using hblock
    subst hblock'
    obtain ⟨-, rfl⟩ := hz
    have hslash := slash_faithful hlt hchar
    have hset : Settles (Stands input) (modify setSlash : Scan Unit) (x.succ hlt) fun _ y =>
        Between y ∧ x.offset < y.offset := by
      refine .modify _ ?_ ⟨(hx.onward (.succ x hlt)).withCurrent hslash, Nat.lt_succ_self _⟩
      intro s h
      have hstands := withCurrent_stands h ⟨.symbol, [47], s.line, s.column - 1, s.column⟩
      rw [h.line, h.column] at hstands
      rw [setSlash, h.line, h.column]
      exact hstands
    refine hset.bind ?_
    rintro - y ⟨hy, hlt⟩
    exact .pure ⟨hy, fun _ => hlt⟩
  · intro hr
    obtain rfl := hfalse (by simpa using hr)
    refine (tryStyle_settles rfl _ y).bind ?_
    rintro r' z ⟨htrue', hfalse'⟩
    refine .ite ?_ ?_
    · intro hr'
      obtain ⟨-, hlt, rfl⟩ := htrue' hr'
      exact .pure ⟨⟨.succ y hlt, Nat.lt_succ_self _⟩, fun _ => Nat.lt_succ_self _⟩
    · intro hr'
      exact .pure ⟨hfalse' (by simpa using hr'), fun h => absurd h (by decide)⟩

/-! ## The next token -/

/-- From the first character of a token to behind it. -/
structure ReadsToken (x : Place input) (type : TokenType) (y : Place input) : Prop where
  onward : Onward x y
  lt : x.offset < y.offset
  type : type ≠ .start ∧ type ≠ .end

variable {inClass : UInt8 → Bool}

theorem readsToken_of_tried {x y : Place input}
    (h : Tried inClass x true y) {z : Place input} (hyz : Onward y z)
    (htype : type ≠ .start ∧ type ≠ .end) : ReadsToken x type z :=
  ⟨h.onward.trans hyz, lt_of_lt_of_le h.lt hyz.le, htype⟩

theorem NumberType.ne (h : NumberType type) : type ≠ .start ∧ type ≠ .end := by
  rcases h with rfl | rfl <;> exact ⟨by decide, by decide⟩

/-- A branch of the token reader: one character of a class, or the next branch from the same
place. -/
theorem branch_settles (hzero : inClass 0 = false)
    {m m' : Scan TokenType}
    (hm : ∀ y, Tried inClass x true y → Settles (Stands input) m y (ReadsToken x))
    (hm' : Settles (Stands input) m' x (ReadsToken x)) :
    Settles (Stands input) (do if ← tryConsumeOne inClass then m else m') x (ReadsToken x) := by
  refine (tryConsumeOne_tried hzero x).bind ?_
  intro consumed y hy
  refine .ite ?_ ?_
  · rintro rfl
    exact hm y hy
  · intro hconsumed
    have hfalse : consumed = false := by simpa using hconsumed
    subst hfalse
    obtain ⟨-, rfl⟩ := hy
    exact hm'

theorem fixedType_settles {x y : Place input}
    (h : Tried inClass x true y) {m : Scan Unit} (hm : Scans input m)
    (htype : type ≠ .start ∧ type ≠ .end) :
    Settles (Stands input) (do m; return type) y (ReadsToken x) := by
  refine (hm y).bind ?_
  rintro - z hyz
  exact .pure (readsToken_of_tried h hyz htype)

theorem number_settles {x y : Place input} (h : Tried inClass x true y)
    (startedWithZero startedWithDot : Bool) :
    Settles (Stands input) (consumeNumber startedWithZero startedWithDot) y (ReadsToken x) := by
  refine (consumeNumber_settles _ _ y).mono ?_
  rintro type z ⟨hyz, htype⟩
  exact readsToken_of_tried h hyz htype.ne

theorem consumeDotNumber_settles (x : Place input) :
    Settles (Stands input) consumeDotNumber x fun type y => Onward x y ∧ NumberType type := by
  refine .reads (x.shown.previous, x.shown.current, positionAt input x.offset) ?_ ?_
  · intro s h
    rw [← h.shows, ← h.position]
    rfl
  · refine .ite ?_ ?_
    · intro _
      refine (scans_addErrorAt _ _ _ x).bind ?_
      rintro - y hxy
      refine (consumeNumber_settles false true y).mono ?_
      rintro type z ⟨hyz, htype⟩
      exact ⟨hxy.trans hyz, htype⟩
    · intro _
      exact consumeNumber_settles false true x

theorem consumeSymbol_settles (hx : x.char ≠ 0) : Settles (Stands input) consumeSymbol x (ReadsToken x) := by
  have hstep : ∀ y : Place input, Onward x y → y.offset = x.offset →
      Settles (Stands input) (do modify nextChar; return TokenType.symbol) y (ReadsToken x) := by
    intro y hxy hoffset
    have hlt := Place.lt_of_char hx
    refine (nextChar_settles (x := y) (by omega)).bind ?_
    rintro - z rfl
    refine .pure ⟨hxy.trans (.succ y _), ?_, by decide, by decide⟩
    rw [← hoffset]
    exact Nat.lt_succ_self _
  refine .reads x.char (fun _ h => h.char) ?_
  refine .ite ?_ ?_
  · intro _
    refine (addError_settles _ x).bind ?_
    rintro - y ⟨hxy, hoffset⟩
    exact hstep y hxy hoffset
  · intro _
    exact hstep x (.refl x) rfl

theorem readToken_settles (hx : x.char ≠ 0) : Settles (Stands input) readToken x (ReadsToken x) := by
  refine branch_settles rfl ?_ ?_
  · intro y hy
    exact fixedType_settles hy (scans_consumeZeroOrMore rfl) ⟨by decide, by decide⟩
  refine branch_settles rfl (fun y hy => number_settles hy true false) ?_
  refine branch_settles rfl ?_ ?_
  · intro y hy
    refine (tryConsumeOne_tried rfl y).bind ?_
    intro isNumber z hz
    refine .ite ?_ ?_
    · intro _
      refine (consumeDotNumber_settles z).mono ?_
      rintro type w ⟨hzw, htype⟩
      exact readsToken_of_tried hy (hz.onward.trans hzw) htype.ne
    · intro _
      exact .pure (readsToken_of_tried hy hz.onward ⟨by decide, by decide⟩)
  refine branch_settles rfl (fun y hy => number_settles hy false false) ?_
  refine branch_settles rfl ?_ ?_
  · intro y hy
    exact fixedType_settles hy (scans_consumeString 34) ⟨by decide, by decide⟩
  refine branch_settles rfl ?_ (consumeSymbol_settles hx)
  intro y hy
  exact fixedType_settles hy (scans_consumeString 39) ⟨by decide, by decide⟩

/-- `StartToken`: the place with the token begun, and its text recorded. -/
def Place.begun (x : Place input) : Place input :=
  (x.withCurrent ⟨.start, [], (positionAt input x.offset).1, (positionAt input x.offset).2,
    x.shown.current.endColumn⟩).recorded (some ([], x.offset))

theorem startToken_settles (x : Place input) : Settles (Stands input) startToken x fun _ y => y = x.begun := by
  refine .modify x.begun ?_ rfl
  intro s h
  have hstands := recordTo_stands
    (withCurrent_stands h ⟨.start, [], s.line, s.column, s.current.endColumn⟩) []
  rw [h.line, h.column] at hstands
  rw [Place.begun, ← h.shows, h.line, h.column]
  exact hstands

theorem endToken_settles {x y : Place input} (hx : Between x) (h : ReadsToken x.begun type y) :
    Settles (Stands input) (endToken type) y fun _ z => Between z ∧ z.offset = y.offset := by
  have hrecording : y.recording = some ([], x.offset) := h.onward.recording
  have hcurrent : y.shown.current = x.begun.shown.current := by rw [h.onward.shown]
  have hprevious : y.shown.previous = x.shown.previous := by
    rw [h.onward.shown]
    rfl
  have hlt : x.offset < y.offset := h.lt
  have hfaithful := faithful_slice hlt y.offset_le h.type
  refine (stopRecording_settles hrecording).bind ?_
  rintro text - ⟨rfl, rfl⟩
  refine .modify ((y.recorded none).withCurrent ⟨type, slice input x.offset y.offset,
    (positionAt input x.offset).1, (positionAt input x.offset).2, (positionAt input y.offset).2⟩) ?_
    ⟨⟨rfl, hfaithful, ?_⟩, rfl⟩
  · intro s hs
    have htoken : s.current = x.begun.shown.current := by
      have hshows := congrArg Shown.current hs.shows
      exact hshows.trans hcurrent
    have hstands := withCurrent_stands hs ⟨type, slice input x.offset y.offset,
      (positionAt input x.offset).1, (positionAt input x.offset).2, s.column⟩
    rw [hs.column] at hstands
    rw [htoken, hs.column]
    exact hstands
  · change Faithful input y.shown.previous
    rw [hprevious]
    exact hx.previous

/-- `TryConsume('\0')` of a character of the input. -/
theorem scans_skipUnprintable : Scans input skipUnprintable := by
  refine scans_rounds ?_
  intro x
  have hzero : Settles (Stands input) (reads (fun s => !s.readError) <&&> tryConsume 0) x
      fun b y => Onward x y ∧ (b = true → x.offset < y.offset) := by
    have hread : Settles (Stands input) (reads fun s => !s.readError) x fun b y =>
        y = x ∧ (b = true → x.offset < input.length) := by
      refine ⟨!decide (x.offset = input.length), x, ?_, rfl, ?_⟩
      · intro s h
        exact ⟨s, by rw [reads, h.ended], h⟩
      · intro hlt
        have hle := x.offset_le
        have hne : x.offset ≠ input.length := by simpa using hlt
        omega
    refine hread.andM ?_ ?_
    · rintro y ⟨rfl, hlt⟩
      refine (tryConsumeOne_settles (fun _ => hlt rfl)).mono ?_
      intro b z hz
      refine ⟨hz.onward, ?_⟩
      rintro rfl
      exact hz.lt
    · rintro y ⟨rfl, -⟩
      exact ⟨.refl y, fun h => absurd h (by decide)⟩
  have hround : Settles (Stands input)
      (tryConsumeOne unprintable <||> (reads (fun s => !s.readError) <&&> tryConsume 0)) x
      fun b y => Onward x y ∧ (b = true → x.offset < y.offset) := by
    refine (tryConsumeOne_tried rfl x).orM ?_ ?_
    · rintro y ⟨-, rfl⟩
      exact hzero
    · intro y hy
      exact ⟨hy.onward, fun _ => hy.lt⟩
  refine hround.bind ?_
  rintro consumed y ⟨hxy, hlt⟩
  refine .pure ⟨hxy, ?_⟩
  cases consumed with
  | true => exact fun _ => hlt rfl
  | false => exact fun h => absurd h (by simp)

/-- A round of `Next` that leaves without a token has come to the end. -/
def NextRound (x : Place input) : Bool ⊕ Unit → Place input → Prop
  | .inl true, y => Between y
  | .inl false, y => Between y ∧ y.offset = input.length
  | .inr _, y => Between y ∧ x.offset < y.offset

theorem ended_settles {m : Scan α} {post : α → Place input → Prop} {a : α}
    (hend : x.offset = input.length → post a x)
    (hm : x.offset < input.length → Settles (Stands input) m x post) :
    Settles (Stands input) (do if ← reads readError then return a else m) x post := by
  refine .reads (decide (x.offset = input.length)) (fun _ h => h.ended) ?_
  refine .ite ?_ ?_
  · intro h
    exact .pure (hend (of_decide_eq_true h))
  · intro h
    have hle := x.offset_le
    have hne : x.offset ≠ input.length := by simpa using h
    exact hm (by omega)

theorem nextRound_settles (hx : Between x) : Settles (Stands input) nextRound x fun r y =>
      NextRound x r y ∧ (r = .inl true → x.offset < y.offset) := by
  refine ended_settles (fun h => ⟨⟨hx, h⟩, fun h => absurd h (by simp)⟩) ?_
  intro _
  refine (scans_consumeZeroOrMore rfl x).bind ?_
  rintro - y hxy
  have hy := hx.onward hxy
  have hgoesOn : ∀ z, Onward y z ∧ y.offset < z.offset → ∀ w, Onward z w →
      NextRound x (.inr ()) w ∧ ((.inr () : Bool ⊕ Unit) = .inl true → x.offset < w.offset) :=
    fun z hz w hzw =>
    have hlt := lt_of_le_of_lt hxy.le (lt_of_lt_of_le hz.2 hzw.le)
    ⟨⟨hy.onward (hz.1.trans hzw), hlt⟩, fun _ => hlt⟩
  refine (tryConsumeCommentStart_settles hy).bind ?_
  rintro status z ⟨hz, hslash⟩
  cases status with
  | lineComment =>
    refine (consumeLineComment_settles (hy.onward hz.1).fresh none).bind ?_
    rintro - w hzw
    exact .pure (hgoesOn z hz w hzw)
  | blockComment =>
    refine (consumeBlockComment_settles (hy.onward hz.1).fresh none).bind ?_
    rintro - w hzw
    exact .pure (hgoesOn z hz w hzw)
  | slashNotComment => exact .pure ⟨hz, fun _ => lt_of_le_of_lt hxy.le (hslash rfl)⟩
  | noComment =>
    obtain rfl : z = y := hz
    refine ended_settles (fun h => ⟨⟨hy, h⟩, fun h => absurd h (by simp)⟩) ?_
    intro hlt
    refine .reads z.char (fun _ h => h.char) ?_
    refine .ite ?_ ?_
    · intro _
      refine (addError_settles _ z).bind ?_
      rintro - w ⟨hzw, hoffset⟩
      refine (nextChar_settles (x := w) (by omega)).bind ?_
      rintro - v rfl
      refine (scans_skipUnprintable _).bind ?_
      rintro - u hu
      refine .pure (hgoesOn (w.succ _) ⟨hzw.trans (.succ w _), ?_⟩ u hu)
      exact lt_of_le_of_lt hzw.le (Nat.lt_succ_self _)
    · intro hchar
      have hne : z.begun.char ≠ 0 := by
        change z.char ≠ 0
        intro hzero
        simp [hzero] at hchar
      refine (startToken_settles z).bind ?_
      rintro - w rfl
      refine (readToken_settles hne).bind ?_
      intro type w hw
      refine (endToken_settles hy hw).bind ?_
      rintro - v ⟨hv, hoffset⟩
      refine .pure ⟨hv, fun _ => lt_of_le_of_lt hxy.le ?_⟩
      rw [hoffset]
      exact hw.lt

theorem end_faithful : Faithful input ⟨.end, [], (positionAt input input.length).1,
    (positionAt input input.length).2, (positionAt input input.length).2⟩ :=
  ⟨input.length, le_rfl, rfl, slice_self _ _, rfl, by simp, fun _ => rfl⟩

/-- A token has been read behind `x`, or the end is reported. -/
def Progress (x y : Place input) : Prop := y.shown.current.type = .end ∨ x.offset < y.offset

theorem Progress.of_le {x y z : Place input} (h : Progress y z) (hxy : x.offset ≤ y.offset) : Progress x z :=
  h.imp_right fun hlt => lt_of_le_of_lt hxy hlt

theorem next_settles (hx : Between x) : Settles (Stands input) next x fun _ y => Between y ∧ Progress x y := by
  have hprevious : Settles (Stands input)
      (modify fun s => { s with previous := s.current } : Scan Unit) x fun _ y =>
        Between y ∧ y.offset = x.offset := by
    refine .modify { x with shown := { x.shown with previous := x.shown.current } } ?_
      ⟨⟨hx.fresh, hx.current, hx.current⟩, rfl⟩
    intro s h
    exact h.show (by rfl) (by rw [← h.shows]; rfl)
  refine hprevious.bind ?_
  rintro - y ⟨hy, hsame⟩
  have hrounds : Settles (Stands input) (rounds (fun _ => nextRound) ()) y fun b z =>
      Between z ∧ (b = true → x.offset < z.offset) ∧ (b = false → z.offset = input.length) := by
    refine rounds_settles (fun _ z => Between z ∧ x.offset ≤ z.offset) ?_
      ⟨hy, le_of_eq hsame.symm⟩
    rintro ⟨⟩ z ⟨hz, hle⟩
    refine (nextRound_settles hz).mono ?_
    rintro (found | _) w ⟨hw, hlt⟩
    · cases found with
      | true =>
        exact ⟨hw, fun _ => lt_of_le_of_lt hle (hlt rfl), fun h => absurd h (by decide)⟩
      | false => exact ⟨hw.1, fun h => absurd h (by decide), fun _ => hw.2⟩
    · exact ⟨⟨hw.1, hle.trans (le_of_lt hw.2)⟩, hw.2⟩
  refine hrounds.bind ?_
  rintro found z ⟨hz, hfound, hend⟩
  refine .ite (fun h => .pure ⟨hz, .inr (hfound h)⟩) ?_
  intro hnone
  have hoffset := hend (by simpa using hnone)
  have hset : Settles (Stands input) (modify setEnd : Scan Unit) z fun _ w =>
      Between w ∧ Progress x w := by
    refine .modify _ ?_ ⟨hz.withCurrent end_faithful, .inl rfl⟩
    intro s h
    have hstands := withCurrent_stands h ⟨.end, [], s.line, s.column, s.column⟩
    rw [h.line, h.column, hoffset] at hstands
    rw [setEnd, h.line, h.column, hoffset]
    exact hstands
  refine hset.bind ?_
  rintro - w hw
  exact .pure hw

/-! ## The comments around it -/

theorem collectLineComment_settles (hx : Between x) (collector : CommentCollector) :
    Settles (Stands input) (collectLineComment collector) x fun _ y => Onward x y := by
  refine (consumeLineComment_settles hx.fresh _).bind ?_
  rintro content y hxy
  exact .pure hxy

theorem collectBlockComment_settles (hx : Between x) (collector : CommentCollector) :
    Settles (Stands input) (collectBlockComment collector) x fun _ y => Onward x y := by
  refine (consumeBlockComment_settles hx.fresh _).bind ?_
  rintro content y hxy
  exact .pure hxy

theorem nextOnLine_settles (hx : Between x) (collector : CommentCollector) :
    Settles (Stands input) (nextOnLine collector) x fun _ y => Between y ∧ Progress x y := by
  refine (next_settles hx).bind ?_
  rintro result y hy
  exact .pure hy

theorem scans_spaces : Scans input (consumeZeroOrMore whitespaceNoNewline) :=
  scans_consumeZeroOrMore rfl

theorem scans_newline : Scans input (tryConsume 10) := scans_tryConsume rfl

theorem commentsRound_settles (hx : Between x) (collector : CommentCollector) :
    Settles (Stands input) (commentsRound collector) x fun r y =>
      match r with
      | .inl _ => Between y ∧ Progress x y
      | .inr _ => Between y ∧ x.offset < y.offset := by
  refine (scans_spaces x).bind ?_
  rintro - y hxy
  have hy := hx.onward hxy
  have hgoesOn : ∀ z, Onward y z ∧ y.offset < z.offset → ∀ w, Onward z w →
      Between w ∧ x.offset < w.offset := fun z hz w hzw =>
    ⟨hy.onward (hz.1.trans hzw), lt_of_le_of_lt hxy.le (lt_of_lt_of_le hz.2 hzw.le)⟩
  refine (tryConsumeCommentStart_settles hy).bind ?_
  rintro status z ⟨hz, hslash⟩
  cases status with
  | lineComment =>
    refine (collectLineComment_settles (hy.onward hz.1) collector).bind ?_
    intro collector' w hzw
    exact .pure (hgoesOn z hz w hzw)
  | blockComment =>
    refine (collectBlockComment_settles (hy.onward hz.1) collector).bind ?_
    intro collector' w hzw
    refine (scans_spaces w).bind ?_
    rintro - v hwv
    refine (scans_newline v).bind ?_
    rintro - u hvu
    exact .pure (hgoesOn z hz u (hzw.trans (hwv.trans hvu)))
  | slashNotComment => exact .pure ⟨hz, .inr (lt_of_le_of_lt hxy.le (hslash rfl))⟩
  | noComment =>
    obtain rfl : z = y := hz
    refine (tryConsume_tried rfl z).bind ?_
    intro newline w hw
    refine .ite ?_ ?_
    · rintro rfl
      exact .pure (hgoesOn w ⟨hw.onward, hw.lt⟩ w (.refl w))
    · intro _
      refine (next_settles (hy.onward hw.onward)).bind ?_
      rintro result v ⟨hv, hprogress⟩
      refine .reads v.shown.current (fun _ h => by rw [← h.shows]; rfl) ?_
      exact .pure ⟨hv, hprogress.of_le (hxy.trans hw.onward).le⟩

theorem comments_settles (hx : Between x) (collector : CommentCollector) :
    Settles (Stands input) (rounds commentsRound collector) x fun _ y => Between y ∧ Progress x y := by
  refine rounds_settles (fun _ y => Between y ∧ x.offset ≤ y.offset) ?_ ⟨hx, le_rfl⟩
  rintro collector' y ⟨hy, hle⟩
  refine (commentsRound_settles hy collector').mono ?_
  rintro (result | collector'') z ⟨hz, hmoved⟩
  · exact ⟨hz, hmoved.of_le hle⟩
  · exact ⟨⟨hz, hle.trans (le_of_lt hmoved)⟩, hmoved⟩

theorem commentsOnLine_settles (hx : Between x) (collector : CommentCollector) :
    Settles (Stands input) (commentsOnLine collector) x fun _ y => Between y ∧ Progress x y := by
  have hbehind : ∀ {m : Scan (Bool × Comments)} {y : Place input}, Onward x y →
      Settles (Stands input) m y (fun _ z => Between z ∧ Progress y z) →
      Settles (Stands input) m y fun _ z => Between z ∧ Progress x z := fun hxy hm =>
    hm.mono fun _ _ hz => ⟨hz.1, hz.2.of_le hxy.le⟩
  refine (scans_spaces x).bind ?_
  rintro - y hxy
  have hy := hx.onward hxy
  refine (tryConsumeCommentStart_settles hy).bind ?_
  rintro status z ⟨hz, hslash⟩
  cases status with
  | lineComment =>
    have hz' := hy.onward hz.1
    refine (collectLineComment_settles hz' collector).bind ?_
    intro collector' w hzw
    have hxw := hxy.trans (hz.1.trans hzw)
    exact hbehind hxw (comments_settles (hz'.onward hzw) _)
  | blockComment =>
    have hz' := hy.onward hz.1
    refine (collectBlockComment_settles hz' collector).bind ?_
    intro collector' w hzw
    refine (scans_spaces w).bind ?_
    rintro - v hwv
    refine (scans_newline v).bind ?_
    intro newline u hvu
    have hzu := hzw.trans (hwv.trans hvu)
    have hxu := hxy.trans (hz.1.trans hzu)
    have hu := hz'.onward hzu
    exact .ite (fun _ => hbehind hxu (comments_settles hu _)) fun _ =>
      hbehind hxu (nextOnLine_settles hu _)
  | slashNotComment => exact .pure ⟨hz, .inr (lt_of_le_of_lt hxy.le (hslash rfl))⟩
  | noComment =>
    obtain rfl : z = y := hz
    refine (scans_newline z).bind ?_
    intro newline w hw
    have hw' := hy.onward hw
    exact .ite (fun _ => hbehind (hxy.trans hw) (comments_settles hw' _)) fun _ =>
      hbehind (hxy.trans hw) (nextOnLine_settles hw' _)

theorem nextWithComments_settles (hx : Between x) (comments : Comments) :
    Settles (Stands input) (nextWithComments comments) x fun _ y => Between y ∧ Progress x y := by
  have hbehind : ∀ {y : Place input}, Onward x y → Settles (Stands input)
        (rounds commentsRound (CommentCollector.new comments).detachFromPrev) y fun _ z =>
          Between z ∧ Progress x z := fun hxy =>
    (comments_settles (hx.onward hxy) _).mono fun _ _ hz => ⟨hz.1, hz.2.of_le hxy.le⟩
  refine .reads x.shown.current (fun _ h => by rw [← h.shows]; rfl) ?_
  refine .ite ?_ (fun _ => commentsOnLine_settles hx _)
  intro _
  refine (tryConsume_tried (c := 0xEF) rfl x).bind ?_
  intro mark y hxy
  have hy := hx.onward hxy.onward
  refine .ite ?_ (fun _ => hbehind hxy.onward)
  rintro rfl
  have hrest : Scans input (tryConsume 0xBB <&&> tryConsume 0xBF) :=
    (scans_tryConsume rfl).andM (scans_tryConsume rfl)
  refine (hrest y).bind ?_
  intro whole z hyz
  refine .ite (fun _ => hbehind (hxy.onward.trans hyz)) ?_
  intro _
  refine (scans_addError _ z).bind ?_
  rintro - w hzw
  have hyw := hyz.trans hzw
  exact .pure ⟨hy.onward hyw, .inr (lt_of_lt_of_le hxy.lt hyw.le)⟩

/-! ## Calls -/

theorem setOption_settles (hx : Between x) {f : Tokenizer → Tokenizer}
    (shown' : Shown) (hf : ∀ s, Stands input x s → Stands input { x with shown := shown' } (f s))
    (hcurrent : shown'.current = x.shown.current) (hprevious : shown'.previous = x.shown.previous)
    (result : Bool × Comments) :
    Settles (Stands input) (do modify f; return result) x fun _ y =>
      Between y ∧ y.offset = x.offset := by
  have hset : Settles (Stands input) (modify f : Scan Unit) x fun _ y =>
      Between y ∧ y.offset = x.offset := by
    refine .modify { x with shown := shown' } hf ⟨⟨hx.fresh, ?_, ?_⟩, rfl⟩
    · rw [hcurrent]
      exact hx.current
    · rw [hprevious]
      exact hx.previous
  refine hset.bind ?_
  rintro - y hy
  exact .pure hy

/-- The call asks for a token; the others set an option. -/
def asksToken : TokenizerCall → Bool
  | .next => true
  | .nextWithComments _ => true
  | _ => false

/-- Where a call leads, when the last token behind it has the type. -/
def Leads (c : TokenizerCall) (x : Place input) (type : TokenType) (y : Place input) : Prop :=
  if asksToken c then type = .end ∨ x.offset < y.offset else y.offset = x.offset

theorem callResult_settles (hx : Between x) (c : TokenizerCall) :
    Settles (Stands input) (callResult c) x fun _ y => Between y ∧ Leads c x y.shown.current.type y := by
  cases c with
  | next =>
    refine (next_settles hx).bind ?_
    rintro result y hy
    exact .pure hy
  | nextWithComments comments => exact nextWithComments_settles hx comments
  | setAllowFAfterFloat value =>
    exact setOption_settles hx { x.shown with allowFAfterFloat := value }
      (fun s h => h.show (by rfl) (by rw [← h.shows]; rfl)) rfl rfl _
  | setCommentStyle style =>
    exact setOption_settles hx { x.shown with commentStyle := style }
      (fun s h => h.show (by rfl) (by rw [← h.shows]; rfl)) rfl rfl _
  | setRequireSpaceAfterNumber require =>
    exact setOption_settles hx { x.shown with requireSpaceAfterNumber := require }
      (fun s h => h.show (by rfl) (by rw [← h.shows]; rfl)) rfl rfl _
  | setAllowMultilineStrings allow =>
    exact setOption_settles hx { x.shown with allowMultilineStrings := allow }
      (fun s h => h.show (by rfl) (by rw [← h.shows]; rfl)) rfl rfl _

/-- The tokens that a caller sees are parts of the input. -/
def FaithfulOutcome (input : Text) (o : TokenizerOutcome) : Prop :=
  Faithful input o.current ∧ Faithful input o.previous

/-- **A call** leads from between two tokens to between two tokens. -/
theorem call_settles (hx : Between x) (c : TokenizerCall) : Settles (Stands input) (call c) x fun o y =>
      Between y ∧ FaithfulOutcome input o ∧ Leads c x o.current.type y := by
  refine (callResult_settles hx c).bind ?_
  rintro result y ⟨hy, hleads⟩
  refine ⟨⟨result.1, result.2, y.shown.current, y.shown.previous, y.shown.errors⟩, y, ?_, hy,
    ⟨hy.current, hy.previous⟩, hleads⟩
  intro s h
  refine ⟨s, ?_, h⟩
  rw [← h.shows]
  rfl

theorem calls_settles (hx : Between x) (cs : List TokenizerCall) :
    Settles (Stands input) (calls cs) x fun os y => Between y ∧ ∀ o ∈ os, FaithfulOutcome input o := by
  induction cs generalizing x with
  | nil => exact .pure ⟨hx, by simp⟩
  | cons c cs ih =>
    refine (call_settles hx c).bind ?_
    rintro o y ⟨hy, ho, -⟩
    refine (ih hy).bind ?_
    rintro os z ⟨hz, hos⟩
    refine .pure ⟨hz, ?_⟩
    intro o' hmem
    rcases List.mem_cons.mp hmem with rfl | hmem
    · exact ho
    · exact hos o' hmem

theorem first_between : Between (Place.first input) :=
  ⟨rfl, faithful_startOfInput, faithful_startOfInput⟩

theorem reached_between {chunks : List Text} {cs : List TokenizerCall}
    {os : List TokenizerOutcome} {s : Tokenizer} (h : calls cs (new ⟨chunks, 0⟩) = some (os, s)) :
    ∃ x : Place chunks.flatten, Between x ∧ Stands chunks.flatten x s := by
  obtain ⟨os', y, hyields, hy, -⟩ := calls_settles first_between cs
  obtain ⟨t, hcalls, ht⟩ := hyields _ (new_stands chunks)
  obtain ⟨-, rfl⟩ := Prod.mk.inj (Option.some.inj (h.symm.trans hcalls))
  exact ⟨y, hy, ht⟩

end Tokenizer

/-- **Tokens.**  Every sequence of calls has its outcomes; they are the same for all chunks of
an input, and each token is the part of the input at its position. -/
theorem tokenize_chunks (chunks : List Text) (cs : List TokenizerCall) :
    ∃ outcomes, tokenize chunks cs = some outcomes ∧
      tokenize [chunks.flatten] cs = some outcomes ∧
      ∀ o ∈ outcomes, Tokenizer.FaithfulOutcome chunks.flatten o := by
  obtain ⟨outcomes, y, hyields, -, hfaithful⟩ :=
    Tokenizer.calls_settles (@Tokenizer.first_between chunks.flatten) cs
  have hrun : ∀ pieces : List Text, pieces.flatten = chunks.flatten →
      tokenize pieces cs = some outcomes := by
    intro pieces hflat
    have hstands := Tokenizer.new_stands pieces
    rw [hflat] at hstands
    obtain ⟨s', hcalls, -⟩ := hyields _ hstands
    rw [tokenize, hcalls]
    rfl
  exact ⟨outcomes, hrun chunks rfl, hrun [chunks.flatten] (by simp), hfaithful⟩

end Protoc.Io

namespace Protoc.Io.Tokenizer

/-! ## Every input is tokenized to its end -/

open Protoc.Lib

variable {input : Text}

/-- Some call of the run that asks for a token reports the end. -/
def ReportsEnd (cs : List TokenizerCall) (os : List TokenizerOutcome) : Prop :=
  ∃ p ∈ cs.zip os, asksToken p.1 = true ∧ p.2.current.type = .end

theorem ReportsEnd.behind {cs : List TokenizerCall} {os : List TokenizerOutcome}
    (h : ReportsEnd cs os) (c : TokenizerCall) (o : TokenizerOutcome) : ReportsEnd (c :: cs) (o :: os) := by
  obtain ⟨p, hmem, hp⟩ := h
  exact ⟨p, List.mem_cons_of_mem _ hmem, hp⟩

theorem calls_progress {x : Place input} (hx : Between x) (cs : List TokenizerCall) :
    Settles (Stands input) (calls cs) x fun os y =>
      Between y ∧ (x.offset + cs.countP asksToken ≤ y.offset ∨ ReportsEnd cs os) := by
  induction cs generalizing x with
  | nil => exact .pure ⟨hx, .inl le_rfl⟩
  | cons c cs ih =>
    refine (call_settles hx c).bind ?_
    rintro o y ⟨hy, -, hleads⟩
    refine (ih hy).bind ?_
    rintro os z ⟨hz, hrun⟩
    refine .pure ⟨hz, ?_⟩
    rcases hrun with hrun | hrun
    · rw [List.countP_cons]
      unfold Leads at hleads
      split at hleads
      · next hasks =>
        rcases hleads with hend | hlt
        · exact .inr ⟨(c, o), List.mem_cons_self, hasks, hend⟩
        · refine .inl ?_
          rw [if_pos hasks]
          omega
      · next hsets =>
        refine .inl ?_
        rw [if_neg hsets]
        omega
    · exact .inr (hrun.behind c o)

/-- **Progress.**  Any calls on any input have their outcomes.  From where they lead, a further
call that asks for a token has its outcome too, and reports the end or consumes a character; when
there have been more such calls than characters, one of them has reported the end. -/
theorem tokenize_progress (chunks : List Text) (cs : List TokenizerCall) :
    ∃ os s, calls cs (new ⟨chunks, 0⟩) = some (os, s) ∧
      (∀ c, asksToken c = true → ∃ o t, call c s = some (o, t) ∧
        (o.current.type = .end ∨ t.bytesLeft < s.bytesLeft)) ∧
      (chunks.flatten.length < cs.countP asksToken → ReportsEnd cs os) := by
  obtain ⟨os, x, hyields, hx, hrun⟩ :=
    calls_progress (@first_between chunks.flatten) cs
  obtain ⟨s, hcalls, hs⟩ := hyields _ (new_stands chunks)
  refine ⟨os, s, hcalls, ?_, ?_⟩
  · intro c hasks
    obtain ⟨o, y, hyields, -, -, hleads⟩ := call_settles hx c
    obtain ⟨t, hcall, ht⟩ := hyields s hs
    rw [Leads, if_pos hasks] at hleads
    refine ⟨o, t, hcall, hleads.imp_right fun hlt => ?_⟩
    rw [hs.bytesLeft, ht.bytesLeft]
    have hle := y.offset_le
    omega
  · intro hmore
    refine hrun.resolve_left ?_
    have hle := x.offset_le
    omega

/-- In `a` the second call reports the end. -/
theorem tokenize_progress_letter : ∃ os s,
    calls [.next, .next] (new ⟨[[97]], 0⟩) = some (os, s) ∧ ReportsEnd [.next, .next] os := by
  obtain ⟨os, s, hcalls, -, hmore⟩ := tokenize_progress [[97]] [.next, .next]
  exact ⟨os, s, hcalls, hmore (by decide)⟩

end Protoc.Io.Tokenizer
