import Protoc.Io.TokenizerGap

/-!
# The comments of a gap

Line comments on consecutive lines are one block, and so is every block comment.  The collector
hands the blocks of a gap on in their order; what it has handed on, what it holds and what is
still to come are always all of them.
-/

namespace Protoc.Io.Tokenizer

variable {items more : List GapItem}

/-! ## The blocks of a gap -/

/-- The content of a comment. -/
def GapItem.content : GapItem → Text
  | .blank => []
  | .newline => []
  | .line content => content
  | .block content => content

/-- Whether the next part stands on a later line. -/
def GapItem.breaks : GapItem → Bool
  | .blank => false
  | .newline => true
  | .line content => content.contains 10
  | .block content => content.contains 10

/-- The blocks of the comments, behind line comments whose block may go on. -/
def blocksFrom : Option Text → List GapItem → List Text
  | current, [] => current.toList
  | current, .blank :: items => blocksFrom current items
  | current, .newline :: items => current.toList ++ blocksFrom none items
  | current, .line content :: items => blocksFrom (some (current.getD [] ++ content)) items
  | current, .block content :: items => current.toList ++ content :: blocksFrom none items

/-- The gap without the block comments that start on the line of the previous token and have the
next token behind them on the same line. -/
def excused : List GapItem → List GapItem
  | [] => []
  | .blank :: items => excused items
  | .block content :: items =>
    let rest := if content.contains 10 then items else excused items
    if items.any GapItem.breaks then .block content :: rest else rest
  | item :: items => item :: items

/-- The blocks that must not be lost, on the line of the previous token.  A line comment there
is a block of its own. -/
def requiredOnLine : List GapItem → List Text
  | .blank :: items => requiredOnLine items
  | .line content :: items => content :: blocksFrom none items
  | items => blocksFrom none (excused items)

/-- The blocks that must not be lost; `onLine` says that the gap starts behind a token. -/
def required (onLine : Bool) (items : List GapItem) : List Text :=
  if onLine then requiredOnLine items else blocksFrom none items

def worded (texts : List Text) : List Text := texts.filter (· ≠ [])

/-- The three strings hold these blocks in their order, each once. -/
def Kept (blocks : List Text) (comments : Comments) : Prop := ∃ trailing detached leading,
    comments = ⟨some trailing, some detached, some leading⟩ ∧
      worded (trailing :: detached ++ [leading]) = worded blocks

/-- The line of the previous token goes on with a block comment, and behind this with something
else than a newline. -/
def discards (onLine : Bool) (items : List GapItem) : Bool :=
  onLine && match items.dropWhile (· == .blank) with
    | .block _ :: rest => (rest.dropWhile (· == .blank)).head? != some .newline
    | _ => false

@[simp] theorem worded_nil : worded [] = [] := rfl

@[simp] theorem worded_nil_cons (texts : List Text) : worded ([] :: texts) = worded texts := rfl

@[simp] theorem worded_append (texts texts' : List Text) :
    worded (texts ++ texts') = worded texts ++ worded texts' := List.filter_append _ _

theorem worded_cons (text : Text) (texts : List Text) :
    worded (text :: texts) = worded [text] ++ worded texts := worded_append [text] texts

theorem dropWhile_blanks (n : ℕ) (items : List GapItem) :
    (List.replicate n GapItem.blank ++ items).dropWhile (· == .blank) = items.dropWhile (· == .blank) := by
  induction n with
  | zero => rfl
  | succ n ih => exact ih

theorem blocksFrom_blanks (current : Option Text) (n : ℕ) (items : List GapItem) :
    blocksFrom current (List.replicate n .blank ++ items) = blocksFrom current items := by
  induction n with
  | zero => rfl
  | succ n ih => exact ih

theorem requiredOnLine_blanks (n : ℕ) (items : List GapItem) :
    requiredOnLine (List.replicate n .blank ++ items) = requiredOnLine items := by
  induction n with
  | zero => rfl
  | succ n ih => exact ih

theorem excused_blanks (n : ℕ) (items : List GapItem) :
    excused (List.replicate n .blank ++ items) = excused items := by
  induction n with
  | zero => rfl
  | succ n ih => exact ih

theorem requiredOnLine_block_newline (content : Text) (n : ℕ) (items : List GapItem) :
    requiredOnLine (.block content :: (List.replicate n .blank ++ .newline :: items)) =
      content :: blocksFrom none items := by
  have hbreaks : (List.replicate n GapItem.blank ++ .newline :: items).any GapItem.breaks = true := by
    simp [GapItem.breaks]
  have hexcused : excused (List.replicate n .blank ++ .newline :: items) = .newline :: items :=
    excused_blanks n _
  change blocksFrom none (excused (.block content :: _)) = _
  rw [excused, if_pos hbreaks]
  split
  · exact congrArg (content :: ·) (blocksFrom_blanks none n (.newline :: items))
  · rw [hexcused]
    rfl

theorem worded_blocksFrom_eq_nil {current : Option Text} {items : List GapItem} :
    worded (blocksFrom current items) = [] ↔ current.getD [] = [] ∧ ∀ item ∈ items, item.content = [] := by
  have htoList : ∀ current : Option Text, worded current.toList = [] ↔ current.getD [] = [] := by
    intro current
    cases current <;> simp [worded]
  induction items generalizing current with
  | nil => simp [blocksFrom, htoList]
  | cons item items ih =>
    cases item with
    | blank => simp [blocksFrom, ih, GapItem.content]
    | newline => simp [blocksFrom, ih, htoList, GapItem.content]
    | line content => simp [blocksFrom, ih, GapItem.content, and_assoc]
    | block content =>
      have hcontent : worded [content] = [] ↔ content = [] := by simp [worded]
      have hrest : worded (blocksFrom none items) = [] ↔ ∀ item ∈ items, item.content = [] := by
        simpa using @ih none
      rw [blocksFrom, worded_append, worded_cons, List.append_eq_nil_iff, List.append_eq_nil_iff,
        htoList, hrest, hcontent]
      simp [GapItem.content]

theorem kept_nothing_iff {onLine : Bool} {items : List GapItem} (h : discards onLine items = true) :
    Kept (required onLine items) ⟨some [], some [], some []⟩ ↔ ∀ item ∈ excused items, item.content = [] := by
  have hkept : Kept (required onLine items) ⟨some [], some [], some []⟩ ↔
      worded (required onLine items) = [] := by
    constructor
    · rintro ⟨trailing, detached, leading, hsome, hworded⟩
      simp only [Comments.mk.injEq, Option.some.injEq] at hsome
      obtain ⟨rfl, rfl, rfl⟩ := hsome
      exact hworded.symm
    · intro hnil
      exact ⟨[], [], [], rfl, hnil.symm⟩
  have hrequired : required onLine items = blocksFrom none (excused items) := by
    simp only [discards, Bool.and_eq_true] at h
    obtain ⟨honLine, hblock⟩ := h
    rw [required, if_pos honLine]
    clear hkept
    induction items with
    | nil => rfl
    | cons item items ih =>
      cases item with
      | blank => exact ih hblock
      | newline => rfl
      | line content => cases hblock
      | block content => rfl
  rw [hkept, hrequired, worded_blocksFrom_eq_nil]
  simp

end Tokenizer

namespace CommentCollector

open Tokenizer

variable {c : CommentCollector} {items more : List GapItem} {content : Text}

def given (c : CommentCollector) : List Text :=
  c.comments.prevTrailing.getD [] :: c.comments.detached.getD []

/-- The blocks that come out in the end, when the parts still to come are these. -/
def expected (c : CommentCollector) (items : List GapItem) : List Text := c.given ++
    if c.hasComment then
      (if c.isLineComment then blocksFrom (some c.commentBuffer) items
        else c.commentBuffer :: blocksFrom none items)
    else blocksFrom none items

/-- A collector with its three strings.  As long as a comment may belong to the previous token
nothing has been handed on. -/
structure Sound (c : CommentCollector) : Prop where
  comments : ∃ trailing detached, c.comments = ⟨some trailing, some detached, some []⟩
  fresh : c.canAttachToPrev = true → c.given = [[]]
  buffer : c.hasComment = false → c.commentBuffer = []

theorem Sound.new (trailing : Text) (detached : List Text) (leading : Text) :
    Sound (new ⟨some trailing, some detached, some leading⟩) :=
  ⟨⟨[], [], rfl⟩, fun _ => rfl, fun _ => rfl⟩

/-- **`Flush`** hands the buffer on. -/
theorem flush_spec (h : c.Sound) : c.flush.Sound ∧ c.flush.hasComment = false ∧
    worded c.flush.given = worded c.given ++ if c.hasComment then worded [c.commentBuffer] else [] := by
  obtain ⟨trailing, detached, hcomments⟩ := h.comments
  cases hhas : c.hasComment with
  | false =>
    have hflush : c.flush = c := by rw [flush, if_neg (by simp [hhas])]
    rw [hflush]
    exact ⟨h, hhas, by simp⟩
  | true =>
    cases hattach : c.canAttachToPrev with
    | true =>
      have hgiven := h.fresh hattach
      simp only [given, hcomments, Option.getD_some, List.cons.injEq] at hgiven
      obtain ⟨rfl, rfl⟩ := hgiven
      have hflush : c.flush = ⟨⟨some c.commentBuffer, some [], some []⟩, [], false,
          c.isLineComment, false⟩ := by
        rw [flush, if_pos hhas, if_pos hattach, clearBuffer, hcomments]
        rfl
      rw [hflush]
      refine ⟨⟨⟨_, _, rfl⟩, fun h => (by cases h), fun _ => rfl⟩, rfl, ?_⟩
      simp [given, hcomments]
    | false =>
      have hflush : c.flush = ⟨⟨some trailing, some (detached ++ [c.commentBuffer]), some []⟩,
          [], false, c.isLineComment, false⟩ := by
        rw [flush, if_pos hhas, if_neg (by simp [hattach]), clearBuffer, hcomments]
        simp [hattach]
      rw [hflush]
      refine ⟨⟨⟨_, _, rfl⟩, fun h => (by cases h), fun _ => rfl⟩, rfl, ?_⟩
      simp only [given, hcomments, Option.getD_some]
      exact worded_append (trailing :: detached) [c.commentBuffer]

theorem detachFromPrev_sound (h : c.Sound) : c.detachFromPrev.Sound :=
  ⟨h.comments, fun hattach => (by cases hattach), h.buffer⟩

theorem expected_newline (h : c.Sound) (items : List GapItem) :
    worded (c.flush.detachFromPrev.expected items) = worded (c.expected (.newline :: items)) := by
  obtain ⟨-, hempty, hgiven⟩ := flush_spec h
  have hexpected : c.flush.detachFromPrev.expected items = c.flush.given ++ blocksFrom none items := by
    have hhas : c.flush.detachFromPrev.hasComment = false := hempty
    rw [expected, if_neg (by simp [hhas])]
    rfl
  rw [hexpected, worded_append, hgiven, expected]
  cases c.hasComment with
  | false => simp [blocksFrom]
  | true =>
    have hcons := worded_cons c.commentBuffer (blocksFrom none items)
    cases c.isLineComment <;> simp [blocksFrom, hcons]

def withLine (c : CommentCollector) (content : Text) : CommentCollector :=
  { c.getBufferForLineComment with
    commentBuffer := c.getBufferForLineComment.commentBuffer ++ content }

def withBlock (c : CommentCollector) (content : Text) : CommentCollector :=
  { c.getBufferForBlockComment with
    commentBuffer := c.getBufferForBlockComment.commentBuffer ++ content }

theorem withLine_sound (h : c.Sound) (content : Text) : (c.withLine content).Sound := by
  have hsound : (if c.hasComment && !c.isLineComment then c.flush else c).Sound := by
    split
    · exact (flush_spec h).1
    · exact h
  exact ⟨hsound.comments, hsound.fresh, fun hhas => (by cases hhas)⟩

theorem expected_line (h : c.Sound) (content : Text) (items : List GapItem) :
    worded ((c.withLine content).expected items) = worded (c.expected (.line content :: items)) := by
  obtain ⟨hflush, hempty, hgiven⟩ := flush_spec h
  cases hhas : c.hasComment with
  | false =>
    have hbuffer := h.buffer hhas
    simp [expected, withLine, getBufferForLineComment, given, hhas, hbuffer, blocksFrom]
  | true =>
    cases hline : c.isLineComment with
    | true => simp [expected, withLine, getBufferForLineComment, given, hhas, hline, blocksFrom]
    | false =>
      -- the block comment in the buffer is handed on first
      have hbuffer := hflush.buffer hempty
      rw [hhas, if_pos rfl] at hgiven
      have hwith : (c.withLine content).expected items =
          c.flush.given ++ blocksFrom (some content) items := by
        simp [expected, withLine, getBufferForLineComment, given, hhas, hline, hbuffer]
      have hcons := worded_cons c.commentBuffer (blocksFrom (some content) items)
      rw [hwith, worded_append, hgiven, expected, if_pos hhas, if_neg (by simp [hline]),
        worded_append]
      simp [blocksFrom, hcons]

theorem withBlock_sound (h : c.Sound) (content : Text) : (c.withBlock content).Sound := by
  have hsound : (if c.hasComment then c.flush else c).Sound := by
    split
    · exact (flush_spec h).1
    · exact h
  exact ⟨hsound.comments, hsound.fresh, fun hhas => (by cases hhas)⟩

theorem expected_block (h : c.Sound) (content : Text) (items : List GapItem) :
    worded ((c.withBlock content).expected items) = worded (c.expected (.block content :: items)) := by
  obtain ⟨hflush, hempty, hgiven⟩ := flush_spec h
  cases hhas : c.hasComment with
  | false =>
    have hbuffer := h.buffer hhas
    simp [expected, withBlock, getBufferForBlockComment, given, hhas, hbuffer, blocksFrom]
  | true =>
    have hbuffer := hflush.buffer hempty
    rw [hhas, if_pos rfl] at hgiven
    have hwith : (c.withBlock content).expected items =
        c.flush.given ++ content :: blocksFrom none items := by
      simp [expected, withBlock, getBufferForBlockComment, given, hhas, hbuffer]
    have hcons := worded_cons c.commentBuffer (content :: blocksFrom none items)
    rw [hwith, worded_append, hgiven, expected, if_pos hhas, worded_append]
    cases c.isLineComment <;> simp [blocksFrom, hcons]

theorem expected_flush (h : c.Sound) (items : List GapItem) : worded (c.flush.expected items) =
      worded (c.given ++ (if c.hasComment then [c.commentBuffer] else []) ++ blocksFrom none items) := by
  obtain ⟨-, hempty, hgiven⟩ := flush_spec h
  rw [expected, if_neg (by simp [hempty]), worded_append, worded_append, worded_append, hgiven]
  cases c.hasComment <;> rfl

theorem expected_blanks (c : CommentCollector) (n : ℕ) (items : List GapItem) :
    c.expected (List.replicate n .blank ++ items) = c.expected items := by
  induction n with
  | zero => rfl
  | succ n ih => exact ih

theorem kept_destroy (h : c.Sound) : Kept (c.expected []) c.destroy := by
  obtain ⟨trailing, detached, hcomments⟩ := h.comments
  cases hhas : c.hasComment with
  | false =>
    refine ⟨trailing, detached, [], by rw [destroy, if_neg (by simp [hhas]), hcomments], ?_⟩
    have hexpected : c.expected [] = trailing :: detached := by
      simp [expected, hhas, given, hcomments, blocksFrom]
    rw [hexpected, worded_append]
    simp
  | true =>
    refine ⟨trailing, detached, c.commentBuffer, by rw [destroy, if_pos hhas, hcomments]; rfl, ?_⟩
    simp only [expected, hhas, given, hcomments, blocksFrom]
    cases c.isLineComment <;> simp [worded]

end CommentCollector

end Protoc.Io
