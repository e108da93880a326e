import Protoc.Io.CommentBlocks
import Protoc.Io.TokenizerNext

/-!
# The comments that `NextWithComments` hands out

Each round reads a part of the gap, and the collector has it, or has handed it on.  So all
comments between two tokens come out in their order, but where a block comment on the line of
the previous token has no newline behind it: there `Next` is called, which keeps none.
-/

namespace Protoc.Io.Tokenizer

open Protoc.Lib CommentCollector
open List

variable {input : Text}

set_option synthInstance.maxSize 1000

/-! ## Collecting one comment -/

instance grows_collectLineComment (collector : CommentCollector) :
    Grows errors (collectLineComment collector) := by
  unfold collectLineComment
  infer_instance

instance grows_collectBlockComment (collector : CommentCollector) :
    Grows errors (collectBlockComment collector) := by
  unfold collectBlockComment
  infer_instance

instance grows_nextOnLine (collector : CommentCollector) : Grows errors (nextOnLine collector) := by
  unfold nextOnLine
  infer_instance

instance grows_commentsRound (collector : CommentCollector) : Grows errors (commentsRound collector) := by
  unfold commentsRound
  infer_instance

variable {x : Place input}

theorem quiet_collectLineComment (hx : x.recording = none)
    (collector : CommentCollector) : Quiet (collectLineComment collector) x fun collector' y =>
      collector' = collector.withLine (lineText x.rest) ∧ Reads x (lineText x.rest) y := by
  refine (quiet_consumeLineComment hx _).bind ?_
  rintro content y ⟨rfl, hxy⟩
  exact .pure ⟨rfl, hxy⟩

theorem quiet_collectBlockComment (hx : x.recording = none)
    (collector : CommentCollector) : Quiet (collectBlockComment collector) x fun collector' y =>
      ∃ read text, Reads x read y ∧ blockText false x.rest = some (text, y.rest) ∧
        collector' = collector.withBlock text := by
  refine (quiet_consumeBlockComment hx _).bind ?_
  intro content y hy
  obtain ⟨read, text, hxy, rfl, hblock⟩ := hy.read
  exact .pure ⟨read, text, hxy, hblock, rfl⟩

/-! ## The gap and the collector -/

/-- Behind these parts of the gap, the collector still keeps all that must be kept. -/
structure Tracks (onLine : Bool) (seen : List GapItem) (c : CommentCollector) : Prop where
  sound : c.Sound
  keeps : ∀ more, discards onLine (seen ++ more) = false
  expected : ∀ more, worded (c.expected more) = worded (required onLine (seen ++ more))

namespace Tracks

variable {onLine : Bool} {seen : List GapItem} {c : CommentCollector}

section
variable (h : Tracks onLine seen c)
include h

theorem blanks (n : ℕ) : Tracks onLine (seen ++ replicate n .blank) c := by
  refine ⟨h.sound, fun more => ?_, fun more => ?_⟩
  · rw [append_assoc]
    exact h.keeps _
  · rw [append_assoc, ← h.expected, expected_blanks]

theorem newline : Tracks onLine (seen ++ [.newline]) c.flush.detachFromPrev := by
  refine ⟨detachFromPrev_sound (flush_spec h.sound).1, fun more => ?_, fun more => ?_⟩
  · rw [append_assoc]
    exact h.keeps _
  · rw [append_assoc, ← h.expected]
    exact expected_newline h.sound more

theorem line (content : Text) : Tracks onLine (seen ++ [.line content]) (c.withLine content) := by
  refine ⟨withLine_sound h.sound content, fun more => ?_, fun more => ?_⟩
  · rw [append_assoc]
    exact h.keeps _
  · rw [append_assoc, ← h.expected]
    exact expected_line h.sound content more

theorem block (content : Text) : Tracks onLine (seen ++ [.block content]) (c.withBlock content) := by
  refine ⟨withBlock_sound h.sound content, fun more => ?_, fun more => ?_⟩
  · rw [append_assoc]
    exact h.keeps _
  · rw [append_assoc, ← h.expected]
    exact expected_block h.sound content more

end

theorem block_newline {content : Text} {n : ℕ}
    (h : Tracks onLine (seen ++ replicate n .blank) (c.withBlock content)) :
    Tracks onLine (seen ++ replicate n .blank ++ [.newline]) (c.withBlock content) := by
  refine ⟨h.sound, fun more => ?_, fun more => ?_⟩
  · rw [append_assoc]
    exact h.keeps _
  · rw [append_assoc, ← h.expected]
    rfl

theorem kept (h : Tracks onLine seen c) : Kept (required onLine seen) c.destroy := by
  obtain ⟨trailing, detached, leading, hcomments, hworded⟩ := kept_destroy h.sound
  refine ⟨trailing, detached, leading, hcomments, ?_⟩
  rw [hworded, h.expected, append_nil]

theorem kept_flush (h : Tracks onLine seen c) : Kept (required onLine seen) c.flush.destroy := by
  obtain ⟨trailing, detached, leading, hcomments, hworded⟩ := kept_destroy (flush_spec h.sound).1
  refine ⟨trailing, detached, leading, hcomments, ?_⟩
  have hexpected := h.expected []
  rw [append_nil] at hexpected
  rw [hworded, ← hexpected, expected_flush h.sound, CommentCollector.expected]
  cases c.hasComment with
  | false => simp
  | true => cases c.isLineComment <;> simp [blocksFrom]

end Tracks

/-- On the way through a gap: the parts that have been read, and the collector behind them.
`full` says that no string is `NULL`. -/
structure Collecting (full : Prop) (onLine : Bool) (x : Place input) (c : CommentCollector)
    (y : Place input) : Prop where
  reads : ∃ read, Reads x read y
  gap : ∃ seen, Gap x.shown.commentStyle x.rest seen y.rest ∧ (full → Tracks onLine seen c)

/-- The comments of the gap are in the strings, or the gap was one where they are discarded. -/
def Outcome (onLine : Bool) (items : List GapItem) (comments : Comments) : Prop :=
  (discards onLine items = false ∧ Kept (required onLine items) comments) ∨
    (discards onLine items = true ∧ comments = ⟨some [], some [], some []⟩)

/-- The next token, and the comments before it. -/
structure Collected (full : Prop) (onLine : Bool) (x : Place input) (r : Bool × Comments)
    (y : Place input) : Prop where
  gap : ∃ items, Gap x.shown.commentStyle x.rest items (y.shown.current.text ++ y.rest) ∧
    (full → Outcome onLine items r.2)
  token : r.1 = true → TokenText y.shown.current.type y.shown.current.text
  ended : r.1 = false →
    y.shown.current.type = .end ∧ y.shown.current.text = [] ∧ y.rest = []

theorem whitespace_false {c : UInt8} (hspace : whitespaceNoNewline c = false) (hc : c ≠ 10) :
    whitespace c = false := by
  rw [Bool.eq_false_iff]
  intro h
  rw [noNewline_of_whitespace h hc] at hspace
  exact absurd hspace (by decide)

theorem quiet_blanks (x : Place input) :
    Quiet (consumeZeroOrMore whitespaceNoNewline) x fun _ y => ∃ n text, Reads x text y ∧
      Gap x.shown.commentStyle x.rest (replicate n .blank) y.rest ∧ whitespaceNoNewline y.char = false := by
  refine (quiet_consumeZeroOrMore rfl x).mono ?_
  rintro - y ⟨text, hxy, htext, hstop⟩
  refine ⟨text.length, text, hxy, ?_, hstop⟩
  rw [hxy.rest]
  exact gap_blanks htext y.rest

variable {style : CommentStyle}

theorem Reads.gap_line {x y : Place input} {text : Text}
    (hitem : gapItem style text = some (lineItem x.rest)) (hxy : Reads x (lineText x.rest) y) :
    Gap style text [.line (lineText x.rest)] y.rest := by
  refine .single ?_
  rw [hitem, lineItem]
  congr 2
  calc x.rest.drop (lineText x.rest).length
      = (lineText x.rest ++ y.rest).drop (lineText x.rest).length := by rw [← hxy.rest]
    _ = y.rest := drop_left

/-! ## The rounds -/

theorem quiet_nextToken (hx : x.recording = none)
    (hitem : gapItem x.shown.commentStyle x.rest = none) : Quiet next x fun found y =>
      NextToken x found y ∧ y.shown.current.text ++ y.rest = x.rest := by
  refine (quiet_next hx).mono ?_
  intro found y hy
  obtain ⟨items, hgap⟩ := hy.gap
  exact ⟨hy, (hgap.eq_nil hitem).2⟩

variable {full : Prop}

theorem SlashToken.collected {onLine : Bool} {x y z : Place input}
    {seen : List GapItem} {comments : Comments} (hslash : SlashToken y z)
    (hgap : Gap x.shown.commentStyle x.rest seen y.rest)
    (hout : full → Outcome onLine seen comments) : Collected full onLine x (true, comments) z := by
  obtain ⟨token, hshown, htype, htext⟩ := hslash.shown
  refine ⟨⟨seen, ?_, hout⟩, fun _ => ?_, fun h => (by cases h)⟩
  · rw [hshown, htext]
    rw [hslash.rest] at hgap
    exact hgap
  · rw [hshown, htype, htext]
    exact .other (by decide) (by decide)

theorem NextToken.collected {onLine found : Bool} {x y z : Place input}
    {seen : List GapItem} {comments : Comments} (htoken : NextToken y found z)
    (hrest : z.shown.current.text ++ z.rest = y.rest) (hgap : Gap x.shown.commentStyle x.rest seen y.rest)
    (hout : full → Outcome onLine seen comments) : Collected full onLine x (found, comments) z := by
  refine ⟨⟨seen, ?_, hout⟩, htoken.token, htoken.ended⟩
  rw [hrest]
  exact hgap

/-- **A round of `NextWithComments`.** -/
theorem quiet_commentsRound {onLine : Bool} {x y : Place input}
    (hx : x.recording = none) {collector : CommentCollector}
    (h : Collecting full onLine x collector y) : Quiet (commentsRound collector) y fun r z =>
      match r with
      | .inl result => Collected full onLine x result z
      | .inr collector' => Collecting full onLine x collector' z := by
  obtain ⟨read, hxy⟩ := h.reads
  obtain ⟨seen, hgap, htracks⟩ := h.gap
  refine (quiet_blanks y).bind ?_
  rintro - z ⟨n, blanks, hyz, hblanks, hspace⟩
  have hxz := hxy.trans hyz
  have hz : z.recording = none := hxz.recording.trans hx
  rw [hxy.shown] at hblanks
  have hgap := hgap.append hblanks
  have htracks : full → Tracks onLine (seen ++ replicate n .blank) collector :=
    fun hfull => (htracks hfull).blanks n
  refine quiet_bindStatus (quiet_tryConsumeCommentStart z) ?_
  intro status w hw
  cases status with
  | lineComment =>
    obtain ⟨⟨mark, hzw⟩, hitem⟩ := hw
    rw [hxz.shown] at hitem
    refine (quiet_collectLineComment (hzw.recording.trans hz) collector).bind ?_
    rintro - v ⟨rfl, hwv⟩
    exact .pure ⟨⟨_, hxz.trans (hzw.trans hwv)⟩, _, hgap.append (hwv.gap_line hitem),
      fun hfull => (htracks hfull).line _⟩
  | blockComment =>
    obtain ⟨⟨mark, hzw⟩, hitem⟩ := hw
    rw [hxz.shown] at hitem
    refine (quiet_collectBlockComment (hzw.recording.trans hz) collector).bind ?_
    rintro - v ⟨read', text, hwv, hblock, rfl⟩
    rw [hblock] at hitem
    have hxv := hxz.trans (hzw.trans hwv)
    have hgap := hgap.append (.single hitem)
    have htracks := fun hfull => (htracks hfull).block text
    refine (quiet_blanks v).bind ?_
    rintro - u ⟨m, blanks', hvu, hblanks', -⟩
    rw [hxv.shown] at hblanks'
    have hxu := hxv.trans hvu
    have hgap := hgap.append hblanks'
    have htracks := fun hfull => (htracks hfull).blanks m
    refine (quiet_tryConsume rfl u).bind ?_
    intro newline t ht
    cases newline with
    | true =>
      have hut := ht.reads_char.2
      refine .pure ⟨⟨_, hxu.trans hut⟩, _, hgap.append (.single ?_), fun hfull => (htracks hfull).block_newline⟩
      rw [hut.rest]
      exact gapItem_newline _
    | false =>
      obtain ⟨-, rfl⟩ := ht
      exact .pure ⟨⟨_, hxu⟩, _, hgap, htracks⟩
  | slashNotComment =>
    exact .pure (hw.1.collected hgap fun hfull => .inl ⟨by simpa using (htracks hfull).keeps [],
      (htracks hfull).kept⟩)
  | noComment =>
    obtain ⟨rfl, hitem⟩ := hw
    refine (quiet_tryConsume rfl w).bind ?_
    intro newline v hv
    refine .ite ?_ ?_
    · rintro rfl
      have hwv := hv.reads_char.2
      refine .pure ⟨⟨_, hxz.trans hwv⟩, _, hgap.append (.single ?_), fun hfull => (htracks hfull).newline⟩
      rw [hwv.rest]
      exact gapItem_newline _
    · intro hnewline
      have hfalse : newline = false := by simpa using hnewline
      subst hfalse
      obtain ⟨hten, rfl⟩ := hv
      have hnone := hitem (whitespace_false hspace (by simpa using hten))
      refine (quiet_nextToken hz hnone).bind ?_
      rintro found u ⟨htoken, hrest⟩
      refine .reads u.shown.current (fun _ h => by rw [← h.shows]; rfl) ?_
      refine .pure (htoken.collected hrest hgap fun hfull => .inl ⟨?_, ?_⟩)
      · simpa using (htracks hfull).keeps []
      · split
        · exact (htracks hfull).kept_flush
        · exact (htracks hfull).kept

theorem quiet_comments {onLine : Bool} {x y : Place input}
    (hx : x.recording = none) {collector : CommentCollector} (h : Collecting full onLine x collector y) :
    Quiet (rounds commentsRound collector) y (Collected full onLine x) := by
  refine .reads (input.length - y.offset) (fun _ h => h.bytesLeft) ?_
  refine .loop (Collecting full onLine x) ?_ h
  intro collector' z hz
  refine (quiet_commentsRound hx hz).mono ?_
  rintro (result | collector'') w hw
  · exact hw
  · exact hw

/-! ## The line of the previous token -/

/-- No string is `NULL`. -/
def Full (comments : Comments) : Prop :=
  ∃ trailing detached leading, comments = ⟨some trailing, some detached, some leading⟩

section

variable {comments : Comments}

theorem new_eq (h : Full comments) :
    CommentCollector.new comments = ⟨⟨some [], some [], some []⟩, [], false, false, true⟩ := by
  obtain ⟨trailing, detached, leading, rfl⟩ := h
  rfl

theorem new_sound (h : Full comments) : (CommentCollector.new comments).Sound := by
  obtain ⟨trailing, detached, leading, rfl⟩ := h
  exact Sound.new trailing detached leading

theorem tracks_start (h : Full comments) : Tracks false [] (CommentCollector.new comments).detachFromPrev := by
  refine ⟨detachFromPrev_sound (new_sound h), fun _ => rfl, fun more => ?_⟩
  rw [new_eq h]
  rfl

theorem discards_blanks (n : ℕ) (items : List GapItem) :
    discards true (replicate n .blank ++ items) = discards true items := by
  rw [discards, discards, dropWhile_blanks]

theorem required_blanks (n : ℕ) (items : List GapItem) :
    required true (replicate n .blank ++ items) = requiredOnLine items := by
  rw [required, if_pos rfl, requiredOnLine_blanks]

theorem tracks_newline (h : Full comments) (n : ℕ) :
    Tracks true (replicate n .blank ++ [.newline]) (CommentCollector.new comments) := by
  refine ⟨new_sound h, fun more => ?_, fun more => ?_⟩
  · rw [append_assoc, discards_blanks]
    rfl
  · rw [append_assoc, required_blanks, new_eq h]
    rfl

theorem tracks_line (h : Full comments) (n : ℕ) (content : Text) :
    Tracks true (replicate n .blank ++ [.line content])
      ((CommentCollector.new comments).withLine content).flush := by
  have hsound := withLine_sound (new_sound h) content
  refine ⟨(flush_spec hsound).1, fun more => ?_, fun more => ?_⟩
  · rw [append_assoc, discards_blanks]
    rfl
  · rw [append_assoc, required_blanks, expected_flush hsound, new_eq h]
    rfl

theorem tracks_block (h : Full comments) (n m : ℕ) (content : Text) :
    Tracks true (replicate n .blank ++ [.block content] ++ replicate m .blank ++ [.newline])
      ((CommentCollector.new comments).withBlock content).flush := by
  have hsound := withBlock_sound (new_sound h) content
  have hseen : ∀ more, replicate n GapItem.blank ++ [.block content] ++
      replicate m .blank ++ [.newline] ++ more = replicate n .blank ++
        (.block content :: (replicate m .blank ++ .newline :: more)) := by
    intro more
    simp
  refine ⟨(flush_spec hsound).1, fun more => ?_, fun more => ?_⟩
  · rw [hseen, discards_blanks, discards]
    simp only [dropWhile_cons, reduceCtorEq, beq_iff_eq, if_false, dropWhile_blanks]
    rfl
  · rw [hseen, required_blanks, requiredOnLine_block_newline, expected_flush hsound, new_eq h]
    rfl

theorem outcome_blanks (h : Full comments) (n : ℕ) :
    Outcome true (replicate n .blank) (CommentCollector.new comments).destroy := by
  have hdiscards := discards_blanks n []
  have hrequired := required_blanks n []
  rw [append_nil] at hdiscards hrequired
  refine .inl ⟨hdiscards, ?_⟩
  rw [hrequired, new_eq h]
  exact ⟨[], [], [], rfl, rfl⟩

end

theorem commentItem_ne {c : UInt8} {text behind : Text} {item : GapItem}
    (h : commentItem c text style = some (item, behind)) : item ≠ .blank ∧ item ≠ .newline := by
  cases style with
  | sh =>
    rw [commentItem] at h
    split_ifs at h
    cases h
    exact ⟨by simp, by simp⟩
  | cpp =>
    rw [commentItem] at h
    split_ifs at h
    · cases h
      exact ⟨by simp, by simp⟩
    · obtain ⟨p, -, hp⟩ := Option.map_eq_some_iff.mp h
      cases hp
      exact ⟨by simp, by simp⟩

theorem Gap.head?_dropWhile {text rest : Text} {items : List GapItem}
    (h : Gap style text items rest) (hspace : whitespace (text.headD 0) = false) :
    (items.dropWhile (· == .blank)).head? ≠ some .newline := by
  cases h with
  | nil => simp
  | @cons _ behind _ item items hitem _ =>
    have hne : item ≠ .blank ∧ item ≠ .newline := by
      cases text with
      | nil => cases hitem
      | cons c text =>
        rw [headD_cons] at hspace
        rw [gapItem] at hitem
        split_ifs at hitem with hblank hnewline
        · simp only [whitespace, whitespaceNoNewline, Bool.or_eq_true, Bool.or_eq_false_iff] at hspace hblank
          simp_all
        · rw [hnewline] at hspace
          cases hspace
        · exact commentItem_ne hitem
    rw [dropWhile_cons_of_neg (by simpa using hne.1), List.head?_cons]
    simpa using hne.2

/-- **The line of the previous token.** -/
theorem quiet_commentsOnLine (hx : x.recording = none) (comments : Comments) :
    Quiet (commentsOnLine (CommentCollector.new comments)) x (Collected (Full comments) true x) := by
  refine (quiet_blanks x).bind ?_
  rintro - y ⟨n, blanks, hxy, hgap, hspace⟩
  have hy : y.recording = none := hxy.recording.trans hx
  refine quiet_bindStatus (quiet_tryConsumeCommentStart y) ?_
  intro status z hz
  cases status with
  | lineComment =>
    obtain ⟨⟨mark, hyz⟩, hitem⟩ := hz
    rw [hxy.shown] at hitem
    refine (quiet_collectLineComment (hyz.recording.trans hy) _).bind ?_
    rintro - w ⟨rfl, hzw⟩
    exact quiet_comments hx ⟨⟨_, hxy.trans (hyz.trans hzw)⟩, _,
      hgap.append (hzw.gap_line hitem), fun hfull => tracks_line hfull n _⟩
  | blockComment =>
    obtain ⟨⟨mark, hyz⟩, hitem⟩ := hz
    rw [hxy.shown] at hitem
    refine (quiet_collectBlockComment (hyz.recording.trans hy) _).bind ?_
    rintro - w ⟨read, text, hzw, hblock, rfl⟩
    rw [hblock] at hitem
    have hxw := hxy.trans (hyz.trans hzw)
    refine (quiet_blanks w).bind ?_
    rintro - v ⟨m, blanks', hwv, hblanks', hspace'⟩
    rw [hxw.shown] at hblanks'
    have hxv := hxw.trans hwv
    have hgap := (hgap.append (.single hitem)).append hblanks'
    refine (quiet_tryConsume rfl v).bind ?_
    intro newline u hu
    refine .ite ?_ ?_
    · rintro rfl
      have hvu := hu.reads_char.2
      refine quiet_comments hx ⟨⟨_, hxv.trans hvu⟩, _, hgap.append (.single ?_),
        fun hfull => tracks_block hfull n m text⟩
      rw [hvu.rest]
      exact gapItem_newline _
    · intro hnewline
      have hfalse : newline = false := by simpa using hnewline
      subst hfalse
      obtain ⟨hten, rfl⟩ := hu
      refine (quiet_next (hxv.recording.trans hx)).bind ?_
      rintro found t htoken
      obtain ⟨items, hbehind⟩ := htoken.gap
      have hfirst := hbehind.head?_dropWhile (by
        rw [← u.char_eq]
        exact whitespace_false hspace' (by simpa using hten))
      rw [hxv.shown] at hbehind
      refine .pure ⟨⟨_, hgap.append hbehind, fun hfull => .inr ⟨?_, ?_⟩⟩, htoken.token, htoken.ended⟩
      · rw [append_assoc, append_assoc, discards_blanks, discards]
        simpa [dropWhile_blanks] using hfirst
      · rw [new_eq hfull]
        rfl
  | slashNotComment => exact .pure (hz.1.collected hgap fun hfull => outcome_blanks hfull n)
  | noComment =>
    obtain ⟨rfl, hitem⟩ := hz
    refine (quiet_tryConsume rfl z).bind ?_
    intro newline w hw
    refine .ite ?_ ?_
    · rintro rfl
      have hzw := hw.reads_char.2
      refine quiet_comments hx ⟨⟨_, hxy.trans hzw⟩, _, hgap.append (.single ?_),
        fun hfull => tracks_newline hfull n⟩
      rw [hzw.rest]
      exact gapItem_newline _
    · intro hnewline
      have hfalse : newline = false := by simpa using hnewline
      subst hfalse
      obtain ⟨hten, rfl⟩ := hw
      have hnone := hitem (whitespace_false hspace (by simpa using hten))
      refine (quiet_nextToken hy hnone).bind ?_
      rintro found v ⟨htoken, hrest⟩
      exact .pure (htoken.collected hrest hgap fun hfull => outcome_blanks hfull n)

/-! ## The whole call -/

def byteOrderMark : Text := [0xEF, 0xBB, 0xBF]

/-- The text where the gap starts: a byte order mark at the start is passed over. -/
def gapText (previous : Token) (text : Text) : Text :=
  if previous.type = .start ∧ byteOrderMark <+: text then text.drop 3 else text

def onLine (previous : Token) : Bool := decide (previous.type ≠ .start)

theorem quiet_nextWithComments (hx : x.recording = none) (comments : Comments) :
    Quiet (nextWithComments comments) x fun r y => ∃ z : Place input,
      z.rest = gapText x.shown.current x.rest ∧ z.shown = x.shown ∧
        Collected (Full comments) (onLine x.shown.current) z r y := by
  refine .reads x.shown.current (fun _ h => by rw [← h.shows]; rfl) ?_
  refine .ite ?_ ?_
  · intro hstart
    have honLine : onLine x.shown.current = false := by simp [onLine, hstart]
    have hrounds : ∀ z : Place input, ∀ read, Reads x read z →
        Quiet (rounds commentsRound (CommentCollector.new comments).detachFromPrev) z
          (Collected (Full comments) (onLine x.shown.current) z) := by
      intro z read hxz
      rw [honLine]
      exact quiet_comments (hxz.recording.trans hx) ⟨⟨[], .refl z⟩, [], .nil, tracks_start⟩
    refine (quiet_tryConsume rfl x).bind ?_
    intro mark y hy
    refine .ite ?_ ?_
    · rintro rfl
      have hxy := hy.reads_char.2
      refine (quiet_tryTwo rfl rfl y).bind ?_
      rintro whole z ⟨htrue, -⟩
      refine .ite ?_ (fun _ => quiet_addError_bind)
      intro hwhole
      have hxz := hxy.trans (htrue hwhole)
      refine (hrounds z _ hxz).mono ?_
      intro r w hw
      refine ⟨z, ?_, hxz.shown, hw⟩
      rw [gapText, if_pos ⟨hstart, z.rest, hxz.rest.symm⟩, hxz.rest]
      rfl
    · intro hmark
      have hfalse : mark = false := by simpa using hmark
      subst hfalse
      obtain ⟨hchar, rfl⟩ := hy
      refine (hrounds y [] (.refl y)).mono ?_
      intro r w hw
      refine ⟨y, ?_, rfl, hw⟩
      rw [gapText, if_neg]
      rintro ⟨-, rest, hrest⟩
      rw [y.char_eq, ← hrest] at hchar
      exact absurd hchar (by simp [byteOrderMark])
  · intro hstart
    have honLine : onLine x.shown.current = true := by simp [onLine, hstart]
    refine (quiet_commentsOnLine hx comments).mono ?_
    intro r y hy
    rw [honLine]
    exact ⟨x, by rw [gapText, if_neg fun h => hstart h.1], rfl, hy⟩

/-! ## Callers -/

def unread (s : Tokenizer) : Text := s.buffer.drop s.bufferPos ++ s.input.remaining

/-- A token that a call finds without an error has a text that fits its type. -/
theorem reached_tokenText {chunks : List Text} {cs : List TokenizerCall}
    {os : List TokenizerOutcome} {s t : Tokenizer} {c : TokenizerCall} {o : TokenizerOutcome}
    (hreached : calls cs (new ⟨chunks, 0⟩) = some (os, s)) (hasks : asksToken c = true)
    (hcall : call c s = some (o, t)) (hquiet : o.errors = s.errors)
    (hend : o.current.type ≠ .end) : TokenText o.current.type o.current.text := by
  obtain ⟨x, hx, hs⟩ := reached_between hreached
  obtain ⟨result, u, hresult, hreads⟩ := bind_eq_some hcall
  cases hreads
  have hshown : ∀ {y : Place chunks.flatten}, Stands chunks.flatten y t →
      t.current = y.shown.current := fun h => congrArg Shown.current h.shows
  cases c with
  | next =>
    obtain ⟨found, v, hnext, hpure⟩ := bind_eq_some hresult
    cases hpure
    obtain ⟨y, hy, htoken⟩ := quiet_next hx.fresh s found t hs hnext hquiet
    change TokenText t.current.type t.current.text
    rw [hshown hy]
    cases found with
    | true => exact htoken.token rfl
    | false => exact absurd ((congrArg Token.type (hshown hy)).trans (htoken.ended rfl).1) hend
  | nextWithComments comments =>
    obtain ⟨y, hy, z, -, -, htoken⟩ :=
      quiet_nextWithComments hx.fresh comments s result t hs hresult hquiet
    change TokenText t.current.type t.current.text
    rw [hshown hy]
    cases hfound : result.1 with
    | true => exact htoken.token hfound
    | false => exact absurd ((congrArg Token.type (hshown hy)).trans (htoken.ended hfound).1) hend
  | setAllowFAfterFloat _ => cases hasks
  | setCommentStyle _ => cases hasks
  | setRequireSpaceAfterNumber _ => cases hasks
  | setAllowMultilineStrings _ => cases hasks

/-- The comments that must not be lost are not: either none is discarded, or what is discarded
need not be kept or has no text. -/
def KeepsAll (onLine : Bool) (items : List GapItem) : Prop :=
  discards onLine items = true → ∀ item ∈ excused items, item.content = []

instance (onLine : Bool) (items : List GapItem) : Decidable (KeepsAll onLine items) :=
  inferInstanceAs (Decidable (_ → _))

example : KeepsAll true [.blank, .line [121, 10], .block [], .newline] := by decide

example : ¬ KeepsAll true [.block [120], .blank, .line [121, 10]] := by decide

theorem Outcome.kept_iff {behind : Bool} {items : List GapItem} {comments : Comments}
    (h : Outcome behind items comments) : Kept (required behind items) comments ↔ KeepsAll behind items := by
  rcases h with ⟨hkeeps, hkept⟩ | ⟨hdiscards, rfl⟩
  · exact iff_of_true hkept fun h => absurd (hkeeps.symm.trans h) (by decide)
  · rw [kept_nothing_iff hdiscards]
    exact ⟨fun h _ => h, fun h => h hdiscards⟩

/-- **No comment is lost, exactly where `KeepsAll` holds.**  A call without an error moves to the
next token over a gap of blanks, newlines and comments, and the strings hold the comments of the
gap in their order. -/
theorem nextWithComments_keeps_iff {chunks : List Text} {cs : List TokenizerCall}
    {os : List TokenizerOutcome} {s t : Tokenizer} {trailing : Text} {detached : List Text}
    {leading : Text} {r : Bool × Comments}
    (hreached : calls cs (new ⟨chunks, 0⟩) = some (os, s))
    (hcall : nextWithComments ⟨some trailing, some detached, some leading⟩ s = some (r, t))
    (hquiet : t.errors = s.errors) :
    ∃ items, Gap s.commentStyle (gapText s.current s.unread) items (t.current.text ++ t.unread) ∧
      (Kept (required (onLine s.current) items) r.2 ↔ KeepsAll (onLine s.current) items) := by
  obtain ⟨x, hx, hs⟩ := reached_between hreached
  obtain ⟨y, ht, z, hrest, hshown, hcollected⟩ :=
    quiet_nextWithComments hx.fresh _ s r t hs hcall hquiet
  obtain ⟨items, hgap, houtcome⟩ := hcollected.gap
  have hunread : ∀ {x : Place chunks.flatten} {s : Tokenizer}, Stands chunks.flatten x s →
      s.unread = x.rest := fun h => h.rest
  have hcurrent : s.current = x.shown.current := congrArg Shown.current hs.shows
  have hstyle : s.commentStyle = x.shown.commentStyle := congrArg Shown.commentStyle hs.shows
  have hnext : t.current = y.shown.current := congrArg Shown.current ht.shows
  rw [hrest, hshown] at hgap
  rw [hunread hs, hunread ht, hcurrent, hstyle, hnext]
  exact ⟨items, hgap, (houtcome ⟨_, _, _, rfl⟩).kept_iff⟩

/-- The comment of `a // y` and a newline, in front of `b`. -/
theorem nextWithComments_keeps_iff_line : ∃ os s r t items,
    calls [.next] (new ⟨[[97, 32, 47, 47, 32, 121, 10, 98]], 0⟩) = some (os, s) ∧
      nextWithComments ⟨some [], some [], some []⟩ s = some (r, t) ∧
      Gap s.commentStyle (gapText s.current s.unread) items (t.current.text ++ t.unread) ∧
      (Kept (required (onLine s.current) items) r.2 ↔ KeepsAll (onLine s.current) items) := by
  have hrun : ((calls [.next] (new ⟨[[97, 32, 47, 47, 32, 121, 10, 98]], 0⟩)).bind fun p =>
      (nextWithComments ⟨some [], some [], some []⟩ p.2).map fun q =>
        decide (q.2.errors = p.2.errors)) = some true := by decide +kernel
  obtain ⟨⟨os, s⟩, hs, hrun⟩ := Option.bind_eq_some_iff.mp hrun
  obtain ⟨⟨r, t⟩, ht, hquiet⟩ := Option.map_eq_some_iff.mp hrun
  obtain ⟨items, h⟩ := nextWithComments_keeps_iff hs ht (of_decide_eq_true hquiet)
  exact ⟨os, s, r, t, items, hs, ht, h⟩

/-- In `a /* x */ // y` and a newline, in front of ` b`, both comments are lost. -/
theorem nextWithComments_loses_comments : ∃ os s r t items,
    calls [.next] (new ⟨[[97, 32, 47, 42, 32, 120, 32, 42, 47, 32, 47, 47, 32, 121, 10, 32, 98]], 0⟩) =
        some (os, s) ∧
      nextWithComments ⟨some [], some [], some []⟩ s = some (r, t) ∧ t.errors = s.errors ∧
      Gap s.commentStyle (gapText s.current s.unread) items (t.current.text ++ t.unread) ∧
      ¬ Kept (required (onLine s.current) items) r.2 := by
  have hrun : ((calls [.next]
      (new ⟨[[97, 32, 47, 42, 32, 120, 32, 42, 47, 32, 47, 47, 32, 121, 10, 32, 98]], 0⟩)).bind
        fun p => (nextWithComments ⟨some [], some [], some []⟩ p.2).map fun q =>
          decide (q.2.errors = p.2.errors ∧ q.1.2 = ⟨some [], some [], some []⟩ ∧
            p.2.commentStyle = .cpp ∧ onLine p.2.current = true ∧
            gapText p.2.current p.2.unread =
              [32, 47, 42, 32, 120, 32, 42, 47, 32, 47, 47, 32, 121, 10, 32, 98] ∧
            q.2.current.text ++ q.2.unread = [98])) = some true := by decide +kernel
  obtain ⟨⟨os, s⟩, hs, hrun⟩ := Option.bind_eq_some_iff.mp hrun
  obtain ⟨⟨r, t⟩, ht, hall⟩ := Option.map_eq_some_iff.mp hrun
  obtain ⟨hquiet, hout, hstyle, honLine, htext, hrest⟩ := of_decide_eq_true hall
  refine ⟨os, s, r, t, [.blank, .block [32, 120, 32], .blank, .line [32, 121, 10], .blank], hs, ht,
    hquiet, ?_, ?_⟩
  · rw [hstyle, htext, hrest]
    exact .cons rfl (.cons rfl (.cons rfl (.cons rfl (.cons rfl .nil))))
  · rw [honLine, hout, kept_nothing_iff (by decide)]
    decide

end Protoc.Io.Tokenizer
