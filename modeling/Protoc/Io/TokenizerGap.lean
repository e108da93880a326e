import Protoc.Io.TokenText

/-!
# Between two tokens

Blanks, newlines and comments stand between two tokens.  `Gap` says so of the input alone, and
`Next` passes over exactly such a text, unless it reports an error.
-/

namespace Protoc.Io.Tokenizer

open Protoc.Lib
open List

/-! ## The text between two tokens -/

/-- The content of a line comment, with the newline.  A `'\0'` ends it too, and is an error. -/
def lineText : Text → Text
  | [] => []
  | c :: text => if c = 0 then [] else if c = 10 then [10] else c :: lineText text

/-- The content of a block comment, and what follows `*/`.  At the start of a line, but the
first, whitespace and one asterisk are no content. -/
def blockText (lineStart : Bool) : Text → Option (Text × Text)
  | [] => none
  | c :: text =>
    if c = 42 ∧ text.head? = some 47 then some ([], text.tail)
    else if lineStart && whitespaceNoNewline c then blockText true text
    else if lineStart && c == 42 then blockText false text
    else if c = 10 then (blockText true text).map fun p => (10 :: p.1, p.2)
    else (blockText false text).map fun p => (c :: p.1, p.2)

/-- A part of the text between two tokens, with the content of a comment. -/
inductive GapItem
  | blank
  | newline
  | line (content : Text)
  | block (content : Text)
  deriving DecidableEq

/-- A line comment, behind the characters that start it. -/
def lineItem (text : Text) : GapItem × Text :=
  (.line (lineText text), text.drop (lineText text).length)

/-- A comment that starts with `c`, and what follows it. -/
def commentItem (c : UInt8) (text : Text) : CommentStyle → Option (GapItem × Text)
  | .sh => if c = 35 then some (lineItem text) else none
  | .cpp =>
    if c = 47 ∧ text.head? = some 47 then some (lineItem text.tail)
    else if c = 47 ∧ text.head? = some 42 then
      (blockText false text.tail).map fun p => (.block p.1, p.2)
    else none

/-- The next part, and what follows it; none in front of a token. -/
def gapItem (style : CommentStyle) : Text → Option (GapItem × Text)
  | [] => none
  | c :: text =>
    if whitespaceNoNewline c then some (.blank, text)
    else if c = 10 then some (.newline, text)
    else commentItem c text style

/-- Up to `rest`, there are only blanks, newlines and comments. -/
inductive Gap (style : CommentStyle) : Text → List GapItem → Text → Prop
  | nil {rest : Text} : Gap style rest [] rest
  | cons {text behind rest : Text} {item : GapItem} {items : List GapItem}
      (hitem : gapItem style text = some (item, behind)) (h : Gap style behind items rest) :
      Gap style text (item :: items) rest

variable {input : Text} {style : CommentStyle}

set_option synthInstance.maxSize 1000

theorem Gap.single {text behind : Text} {item : GapItem}
    (hitem : gapItem style text = some (item, behind)) : Gap style text [item] behind :=
  .cons hitem .nil

theorem Gap.append {text mid rest : Text} {items items' : List GapItem}
    (h : Gap style text items mid) (h' : Gap style mid items' rest) :
    Gap style text (items ++ items') rest := by
  induction h with
  | nil => exact h'
  | cons hitem _ ih => exact .cons hitem (ih h')

theorem Gap.eq_nil {text rest : Text} {items : List GapItem} (h : Gap style text items rest)
    (hitem : gapItem style text = none) : items = [] ∧ rest = text := by
  cases h with
  | nil => exact ⟨rfl, rfl⟩
  | cons hsome _ =>
    simp [hitem] at hsome

theorem noNewline_of_whitespace {c : UInt8} (h : whitespace c = true) (hc : c ≠ 10) :
    whitespaceNoNewline c = true := by
  simp only [whitespace, whitespaceNoNewline, Bool.or_eq_true, beq_iff_eq] at h ⊢
  tauto

theorem gapItem_blank {c : UInt8} (h : whitespaceNoNewline c = true) (text : Text) :
    gapItem style (c :: text) = some (.blank, text) := by
  rw [gapItem, if_pos h]

theorem gapItem_newline (text : Text) : gapItem style (10 :: text) = some (.newline, text) := rfl

theorem gap_blanks {text : Text} (h : ∀ c ∈ text, whitespaceNoNewline c = true) (rest : Text) :
    Gap style (text ++ rest) (List.replicate text.length .blank) rest := by
  induction text with
  | nil => exact .nil
  | cons c text ih =>
    exact .cons (gapItem_blank (h c mem_cons_self) _) (ih fun d hd => h d (mem_cons_of_mem _ hd))

theorem gap_whitespace {text : Text} (h : ∀ c ∈ text, whitespace c = true) (rest : Text) :
    ∃ items, Gap style (text ++ rest) items rest := by
  induction text with
  | nil => exact ⟨[], .nil⟩
  | cons c text ih =>
    obtain ⟨items, hitems⟩ := ih fun d hd => h d (mem_cons_of_mem _ hd)
    by_cases hc : c = 10
    · rw [hc]
      exact ⟨_, .cons (gapItem_newline _) hitems⟩
    · exact ⟨_, .cons (gapItem_blank (noNewline_of_whitespace (h c mem_cons_self) hc) _) hitems⟩

/-! ## The content of a comment -/

theorem Place.head?_rest {x : Place input} {c : UInt8} (hc : c ≠ 0) : x.rest.head? = some c ↔ x.char = c := by
  rw [x.char_eq, List.headD_eq_head?_getD]
  cases x.rest.head? with
  | none => simpa using hc.symm
  | some d => simp

theorem Reads.recorded {x y : Place input} {text : Text} (h : Reads x text y)
    (recording : Option (Text × ℕ)) : Reads (x.recorded recording) text (y.recorded recording) :=
  ⟨h.offset, h.rest, rfl, h.shown⟩

theorem Reads.slice_append {x y : Place input} {text : Text} (h : Reads x text y) {start : ℕ}
    (hstart : start ≤ x.offset) : slice input start y.offset = slice input start x.offset ++ text := by
  have hsum : y.offset - start = (x.offset - start) + (y.offset - x.offset) := by
    have := h.offset
    omega
  rw [← h.slice_eq, slice, slice, slice, hsum, take_add, drop_drop, Nat.add_sub_cancel' hstart]

theorem quiet_tryTwo {c d : UInt8} (hc : (0 == c) = false) (hd : (0 == d) = false)
    (x : Place input) : Quiet (tryConsume c <&&> tryConsume d) x fun b y => (b = true → Reads x [c, d] y) ∧
        (b = false → (Reads x [c] y ∧ y.char ≠ d) ∨ (y = x ∧ x.char ≠ c)) := by
  refine (quiet_tryConsume hc x).andM ?_ ?_
  · intro y hy
    have hxy := hy.reads_char.2
    refine (quiet_tryConsume hd y).mono ?_
    intro b z hz
    cases b with
    | true => exact ⟨fun _ => hxy.trans hz.reads_char.2, fun h => absurd h (by decide)⟩
    | false =>
      obtain ⟨hchar, rfl⟩ := hz
      exact ⟨fun h => absurd h (by decide), fun _ => .inl ⟨hxy, by simpa using hchar⟩⟩
  · rintro y ⟨hchar, rfl⟩
    exact ⟨fun h => absurd h (by decide), fun _ => .inr ⟨rfl, by simpa using hchar⟩⟩

/-- The content of a comment so far: what it was before, and what has been recorded since. -/
structure Recorded (content₀ content : Option Text) (text : Text) (y : Place input) : Prop where
  start : ∃ start ≤ y.offset, y.recording = content.map (fun target => (target, start)) ∧
    content.map (· ++ slice input start y.offset) = content₀.map (· ++ text)

namespace Recorded

variable {content₀ content : Option Text} {text text' : Text} {x y z : Place input}

theorem reads (h : Recorded content₀ content text y) (hyz : Reads y text' z) :
    Recorded content₀ content (text ++ text') z := by
  obtain ⟨start, hle, hrecording, htext⟩ := h.start
  have hoffset := hyz.offset
  refine ⟨start, by omega, hyz.recording.trans hrecording, ?_⟩
  have happend := congrArg (Option.map (· ++ text')) htext
  simp only [Option.map_map, Function.comp_def, append_assoc] at happend
  rw [hyz.slice_append hle]
  exact happend

theorem settles_stop (h : Recorded content₀ content text y) :
    Settles (Stands input) (stopContent content) y fun content' z =>
      content' = content₀.map (· ++ text) ∧ z = y.recorded none := by
  obtain ⟨start, -, hrecording, htext⟩ := h.start
  cases content with
  | none =>
    refine .pure ⟨?_, (recorded_self hrecording).symm⟩
    cases content₀ with
    | none => rfl
    | some target => cases htext
  | some target =>
    refine (stopRecording_settles hrecording).bind ?_
    rintro content' z ⟨rfl, rfl⟩
    exact .pure ⟨htext, rfl⟩

end Recorded

theorem Recorded.before {content₀ content : Option Text} {text text' : Text} {y : Place input}
    (h : Recorded (content₀.map (· ++ text)) content text' y) :
    Recorded content₀ content (text ++ text') y := by
  obtain ⟨start, hle, hrecording, htext⟩ := h.start
  refine ⟨start, hle, hrecording, htext.trans ?_⟩
  rw [Option.map_map]
  congr 1
  funext target
  exact append_assoc _ _ _

theorem quiet_recordContent {x : Place input} (hx : x.recording = none) (content : Option Text) :
    Quiet (recordContent content) x fun _ y =>
      Recorded content content [] y ∧ ∃ recording, y = x.recorded recording := by
  refine .of_settles ((recordContent_settles hx content).mono ?_)
  rintro - y rfl
  refine ⟨⟨x.offset, le_rfl, rfl, ?_⟩, _, rfl⟩
  change content.map (· ++ slice input x.offset x.offset) = _
  rw [slice_self]

theorem lineText_append {text : Text} (h : ∀ c ∈ text, c ≠ 0 ∧ c ≠ 10) (rest : Text) :
    lineText (text ++ rest) = text ++ lineText rest := by
  induction text with
  | nil => rfl
  | cons c text ih =>
    obtain ⟨hzero, hnewline⟩ := h c mem_cons_self
    rw [cons_append, lineText, if_neg hzero, if_neg hnewline, ih fun d hd => h d (mem_cons_of_mem _ hd)]
    rfl

/-- **Line comments**: the content is the rest of the line, with the newline. -/
theorem quiet_consumeLineComment {x : Place input} (hx : x.recording = none)
    (content : Option Text) : Quiet (consumeLineComment content) x fun content' y =>
      content' = content.map (· ++ lineText x.rest) ∧ Reads x (lineText x.rest) y := by
  refine (quiet_recordContent hx content).bind ?_
  rintro - w ⟨hrecorded, recording, rfl⟩
  refine (quiet_consumeZeroOrMore rfl _).bind ?_
  rintro - y ⟨text, hwy, htext, hstop⟩
  have hplain : ∀ c ∈ text, c ≠ 0 ∧ c ≠ 10 := fun c hc => by simpa using htext c hc
  have hline : lineText x.rest = text ++ lineText y.rest := by
    have hrest : x.rest = text ++ y.rest := hwy.rest
    rw [hrest, lineText_append hplain]
  have hxy : Reads x text (y.recorded none) := by
    have h := hwy.recorded none
    rwa [show (x.recorded recording).recorded none = x from recorded_self hx] at h
  refine (quiet_tryConsume rfl y).bind ?_
  intro newline z hz
  cases newline with
  | true =>
    obtain ⟨hchar, hyz⟩ := hz.reads_char
    have hend : lineText y.rest = [10] := by
      rw [hyz.rest]
      rfl
    refine (Quietly.of_settles ((hrecorded.reads hwy).reads hyz).settles_stop).mono ?_
    rintro content' v ⟨rfl, rfl⟩
    rw [hline, hend]
    exact ⟨rfl, hxy.trans (hyz.recorded none)⟩
  | false =>
    obtain ⟨hchar, rfl⟩ := hz
    have hend : lineText z.rest = [] := by
      have hstop' : z.char = 0 := by
        by_contra hne
        have hten : z.char ≠ 10 := by simpa using hchar
        simp [hne, hten] at hstop
      rw [z.char_eq] at hstop'
      cases hrest : z.rest with
      | nil => rfl
      | cons c rest =>
        rw [hrest, headD_cons] at hstop'
        rw [lineText, if_pos hstop']
    refine (Quietly.of_settles (hrecorded.reads hwy).settles_stop).mono ?_
    rintro content' v ⟨rfl, rfl⟩
    rw [hline, hend, append_nil]
    exact ⟨rfl, hxy⟩

/-! ## Block comments -/

def prepend (text : Text) (p : Text × Text) : Text × Text := (text ++ p.1, p.2)

theorem map_prepend_prepend (text text' : Text) (found : Option (Text × Text)) :
    (found.map (prepend text')).map (prepend text) = found.map (prepend (text ++ text')) := by
  cases found with
  | none => rfl
  | some p => simp [prepend]

theorem blockText_plain {text : Text} (h : ∀ c ∈ text, c ≠ 42 ∧ c ≠ 10) (rest : Text) :
    blockText false (text ++ rest) = (blockText false rest).map (prepend text) := by
  induction text with
  | nil => exact Option.map_id'.symm
  | cons c text ih =>
    obtain ⟨hstar, hnewline⟩ := h c mem_cons_self
    rw [cons_append, blockText, if_neg (by simp [hstar]), if_neg (by simp),
      if_neg (by simp), if_neg hnewline, ih fun d hd => h d (mem_cons_of_mem _ hd),
      Option.map_map]
    rfl

variable {rest : Text}

theorem blockText_star (h : rest.head? ≠ some 47) :
    blockText false (42 :: rest) = (blockText false rest).map (prepend [42]) := by
  rw [blockText, if_neg (by simp [h])]
  rfl

theorem blockText_end (lineStart : Bool) (rest : Text) :
    blockText lineStart (42 :: 47 :: rest) = some ([], rest) := by
  rw [blockText, if_pos ⟨rfl, rfl⟩]
  rfl

theorem blockText_newline (rest : Text) :
    blockText false (10 :: rest) = (blockText true rest).map (prepend [10]) := rfl

theorem blockText_spaces {text : Text} (h : ∀ c ∈ text, whitespaceNoNewline c = true)
    (rest : Text) : blockText true (text ++ rest) = blockText true rest := by
  induction text with
  | nil => rfl
  | cons c text ih =>
    have hspace := h c mem_cons_self
    have hstar : c ≠ 42 := by
      rintro rfl
      exact absurd hspace (by decide)
    rw [cons_append, blockText, if_neg (by simp [hstar]), if_pos (by simp [hspace]),
      ih fun d hd => h d (mem_cons_of_mem _ hd)]

theorem blockText_lineStar (h : rest.head? ≠ some 47) : blockText true (42 :: rest) = blockText false rest := by
  rw [blockText, if_neg (by simp [h])]
  rfl

theorem blockText_line (hspace : whitespaceNoNewline (rest.headD 0) = false)
    (hstar : rest.headD 0 ≠ 42) : blockText true rest = blockText false rest := by
  cases rest with
  | nil => rfl
  | cons c rest =>
    rw [headD_cons] at hspace hstar
    rw [blockText, blockText]
    simp [hspace, hstar]

/-- A place in a block comment that starts at `x`: what has been read of it, and its content so
far. -/
structure InBlock (x : Place input) (content₀ content : Option Text) (y : Place input) :
    Prop where
  read : ∃ read text, Reads x read (y.recorded none) ∧ Recorded content₀ content text y ∧
    blockText false x.rest = (blockText false y.rest).map (prepend text)

/-- The comment has ended, with that content. -/
structure BehindBlock (x : Place input) (content₀ content : Option Text) (y : Place input) :
    Prop where
  read : ∃ read text, Reads x read y ∧ content = content₀.map (· ++ text) ∧
    blockText false x.rest = some (text, y.rest)

/-- The start of the next line: the end of the comment, or a new recording. -/
theorem quiet_lineStart {x w : Place input} {content₀ : Option Text} {read text : Text}
    (hxw : Reads x read (w.recorded none))
    (hblock : blockText false x.rest = (blockText true w.rest).map (prepend text)) :
    Quiet (do
      consumeZeroOrMore whitespaceNoNewline
      if ← tryConsume 42 <&&> tryConsume 47 then
        return .inl (content₀.map (· ++ text))
      else do
        recordContent (content₀.map (· ++ text))
        return .inr (content₀.map (· ++ text)) : Scan (Option Text ⊕ Option Text))
      (w.recorded none) fun r z =>
      match r with
      | .inl content => BehindBlock x content₀ content z
      | .inr content => InBlock x content₀ content z := by
  refine (quiet_consumeZeroOrMore rfl _).bind ?_
  rintro - u ⟨spaces, hwu, hspaces, hspace⟩
  have hxu := hxw.trans hwu
  have hrest : w.rest = spaces ++ u.rest := hwu.rest
  rw [hrest, blockText_spaces hspaces] at hblock
  refine (quiet_tryTwo rfl rfl u).bind ?_
  rintro ended t ⟨htrue, hfalse⟩
  refine .ite ?_ ?_
  · intro hended
    have hut := htrue hended
    rw [hut.rest, cons_append, singleton_append, blockText_end] at hblock
    refine .pure ⟨_, text, hxu.trans hut, rfl, ?_⟩
    rw [hblock]
    simp [prepend]
  · intro hended
    -- the line goes on, with or without an asterisk that is no content
    have hline : ∃ star, Reads u star t ∧ blockText true u.rest = blockText false t.rest := by
      rcases hfalse (by simpa using hended) with ⟨hut, hslash⟩ | ⟨rfl, hstar⟩
      · refine ⟨[42], hut, ?_⟩
        rw [hut.rest, singleton_append, blockText_lineStar]
        exact fun h => hslash ((Place.head?_rest (by decide)).mp h)
      · refine ⟨[], .refl t, blockText_line ?_ ?_⟩
        · rw [← t.char_eq]
          exact hspace
        · rw [← t.char_eq]
          exact hstar
    obtain ⟨star, hut, hsame⟩ := hline
    rw [hsame] at hblock
    have hnone : t.recording = none := hut.recording.trans hwu.recording
    refine (quiet_recordContent hnone _).bind ?_
    rintro - s ⟨hnew, recording, rfl⟩
    have hxt := hxu.trans hut
    have hback : (t.recorded recording).recorded none = t := recorded_self hnone
    have hcontent := hnew.before
    rw [append_nil] at hcontent
    rw [← hback] at hxt
    exact .pure ⟨_, _, hxt, hcontent, hblock⟩

/-- The asterisk or the slash that a round is left with, when neither ends the comment or starts
another one. -/
theorem quiet_starOrSlash {x v : Place input} (h : (Reads x [42] v ∧ v.char ≠ 47) ∨ (v = x ∧ x.char ≠ 42)) :
    Quiet (tryConsume 47 <&&> reads fun s => s.currentChar == 42) v fun b u =>
      b = false → ∃ more, Reads x more u ∧
        blockText false x.rest = (blockText false u.rest).map (prepend more) := by
  have hnothing : (∃ more, Reads x more v ∧
      blockText false x.rest = (blockText false v.rest).map (prepend more)) := by
    rcases h with ⟨hxv, hslash⟩ | ⟨rfl, -⟩
    · refine ⟨[42], hxv, ?_⟩
      rw [hxv.rest, singleton_append, blockText_star]
      exact fun h => hslash ((Place.head?_rest (by decide)).mp h)
    · exact ⟨[], .refl v, Option.map_id'.symm⟩
  refine (quiet_tryConsume rfl v).andM ?_ ?_
  · intro u hu
    obtain ⟨hchar, hvu⟩ := hu.reads_char
    have hslash : ∃ more, Reads x more u ∧
        blockText false x.rest = (blockText false u.rest).map (prepend more) := by
      rcases h with ⟨-, hslash⟩ | ⟨rfl, -⟩
      · exact absurd hchar hslash
      · refine ⟨[47], hvu, ?_⟩
        rw [hvu.rest]
        exact blockText_plain (by simp) u.rest
    refine (quiet_reads (u.char == 42) fun s hs => by rw [hs.char]; rfl).mono ?_
    rintro b w ⟨-, rfl⟩ -
    exact hslash
  · rintro u ⟨-, rfl⟩ -
    exact hnothing

theorem quiet_blockCommentRound {x y : Place input} {startLine startColumn : Int32}
    {content₀ content : Option Text} (h : InBlock x content₀ content y) :
    Quiet (blockCommentRound startLine startColumn content) y fun r z =>
      match r with
      | .inl content' => BehindBlock x content₀ content' z
      | .inr content' => InBlock x content₀ content' z := by
  obtain ⟨read, text, hxy, hrecorded, hblock⟩ := h.read
  refine (quiet_consumeZeroOrMore rfl y).bind ?_
  rintro - z ⟨plain, hyz, hplain, -⟩
  have hplain' : ∀ c ∈ plain, c ≠ 42 ∧ c ≠ 10 := by
    intro c hc
    have hclass := hplain c hc
    simp only [Bool.and_eq_true, bne_iff_ne] at hclass
    exact ⟨hclass.1.1.2, hclass.2⟩
  have hxz := hxy.trans (hyz.recorded none)
  have hrecorded := hrecorded.reads hyz
  rw [hyz.rest, blockText_plain hplain', map_prepend_prepend] at hblock
  refine (quiet_tryConsume rfl z).bind ?_
  intro newline w hw
  refine .ite ?_ ?_
  · rintro rfl
    have hzw := hw.reads_char.2
    rw [hzw.rest, singleton_append, blockText_newline, map_prepend_prepend] at hblock
    refine (Quietly.of_settles (hrecorded.reads hzw).settles_stop).bind ?_
    rintro content' v ⟨rfl, rfl⟩
    exact quiet_lineStart (hxz.trans (hzw.recorded none)) hblock
  · intro hnewline
    have hfalse : newline = false := by simpa using hnewline
    subst hfalse
    obtain ⟨-, rfl⟩ := hw
    refine (quiet_tryTwo rfl rfl w).bind ?_
    rintro ended v ⟨htrue, hfalse⟩
    refine .ite ?_ ?_
    · intro hended
      have hwv := htrue hended
      rw [hwv.rest, cons_append, singleton_append, blockText_end] at hblock
      refine (Quietly.of_settles (hrecorded.reads hwv).settles_stop).bind ?_
      rintro content' u ⟨rfl, rfl⟩
      refine .pure ⟨_, text ++ plain, hxz.trans (hwv.recorded none), ?_, ?_⟩
      · rw [Option.map_map]
        congr 1
        funext target
        simp [← append_assoc]
      · rw [hblock]
        simp [prepend, Place.recorded, Place.rest]
    · intro hended
      refine (quiet_starOrSlash (hfalse (by simpa using hended))).bind ?_
      intro nested u hu
      refine .ite (fun _ => quiet_addError_bind) ?_
      intro hnested
      obtain ⟨more, hwu, hmore⟩ := hu (by simpa using hnested)
      rw [hmore, map_prepend_prepend] at hblock
      refine .reads u.char (fun _ h => h.char) ?_
      refine .ite (fun _ => quiet_addError_bind) ?_
      intro _
      exact .pure ⟨_, _, hxz.trans (hwu.recorded none), hrecorded.reads hwu, hblock⟩

/-- **Block comments**: the content is that of `blockText`. -/
theorem quiet_consumeBlockComment {x : Place input} (hx : x.recording = none)
    (content : Option Text) : Quiet (consumeBlockComment content) x fun content' y =>
      BehindBlock x content content' y := by
  refine .reads _ (fun _ h => h.line) ?_
  refine .reads _ (fun _ h => h.column) ?_
  refine (quiet_recordContent hx content).bind ?_
  rintro - y ⟨hrecorded, recording, rfl⟩
  refine .reads (input.length - x.offset) (fun _ h => h.bytesLeft) ?_
  refine .loop (fun content' z => InBlock x content content' z) ?_ ?_
  · intro content' z hz
    refine (quiet_blockCommentRound hz).mono ?_
    rintro (result | content'') w hw
    · exact hw
    · exact hw
  · have hback : (x.recorded recording).recorded none = x := recorded_self hx
    refine ⟨[], [], ?_, hrecorded, ?_⟩
    · rw [hback]
      exact .refl x
    · exact Option.map_id'.symm

end Protoc.Io.Tokenizer
