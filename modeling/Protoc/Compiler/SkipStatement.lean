import Protoc.Io.Tokenizer

/-!
# Skipping a statement

After an error the parser skips what is left of a statement or of a block.  Behind a nested
block `SkipRestOfBlock` advances once more, whatever stands there: a brace in that place is
not counted, and the block may end elsewhere.
-/

namespace Protoc.Compiler

open Protoc.Io (Text Token)
open List

/-- A token, and the comments that `NextWithComments` reports when it advances from it. -/
structure CommentedToken where
  token : Token
  prevTrailingComments : Text
  detachedComments : List Text
  nextLeadingComments : Text

/-- What the skipping reads and changes: the tokens before `TYPE_END`, the current one first,
and the comments kept for the next declaration. -/
structure Parser where
  input : List CommentedToken
  upcomingDocComments : Text
  upcomingDetachedComments : List Text

namespace Parser

/-- `LookingAt`. -/
def lookingAt (p : Parser) (text : Text) : Bool := (p.input.head?.map (·.token.text)).getD [] == text

/-- `LookingAtType`, of a symbol. -/
def lookingAtSymbol (p : Parser) : Bool := p.input.head?.any (·.token.type = .symbol)

/-- `input_->Next()`, which stays at the end. -/
def next (p : Parser) : Parser := { p with input := p.input.tail }

/-- `TryConsumeEndOfDeclaration` without a location, where `LookingAt` holds. -/
def endOfDeclaration (p : Parser) (text : Text) : Parser := p.input.head?.elim p fun t =>
    { input := p.input.tail
      upcomingDocComments := t.nextLeadingComments
      upcomingDetachedComments :=
        if text = [125] then t.detachedComments
        else p.upcomingDetachedComments ++ t.detachedComments }

/-- The loop of `SkipRestOfBlock`, which the fuel bounds together with the calls inside it. -/
def skipRestOfBlockLoop : ℕ → Parser → Parser
  | 0, p => p
  | fuel + 1, p =>
    if p.input = [] then p
    else if p.lookingAtSymbol then
      if p.lookingAt [125] then p.endOfDeclaration [125]
      else if p.lookingAt [123] then
        -- back from the nested block, the loop goes on to advance
        skipRestOfBlockLoop fuel (skipRestOfBlockLoop fuel p.next).next
      else skipRestOfBlockLoop fuel p.next
    else skipRestOfBlockLoop fuel p.next

/-- `SkipRestOfBlock`. -/
def skipRestOfBlock (p : Parser) : Parser := skipRestOfBlockLoop (p.input.length + 1) p

/-- The loop of `SkipStatement`. -/
def skipStatementLoop : ℕ → Parser → Parser
  | 0, p => p
  | fuel + 1, p =>
    if p.input = [] then p
    else if p.lookingAtSymbol then
      if p.lookingAt [59] then p.endOfDeclaration [59]
      else if p.lookingAt [123] then p.next.skipRestOfBlock
      else if p.lookingAt [125] then p
      else skipStatementLoop fuel p.next
    else skipStatementLoop fuel p.next

/-- `SkipStatement`. -/
def skipStatement (p : Parser) : Parser := skipStatementLoop (p.input.length + 1) p

end Parser

/-! ## Where blocks and statements end -/

/-- What a token is to the nesting. -/
inductive Mark
  | opening | closing | semicolon | other
  deriving DecidableEq

def CommentedToken.mark (t : CommentedToken) : Mark :=
  if t.token.type ≠ .symbol then .other
  else if t.token.text = [123] then .opening
  else if t.token.text = [125] then .closing
  else if t.token.text = [59] then .semicolon
  else .other

/-- The number of tokens up to and with the closing brace that ends the block, `depth` blocks
being open inside it, or of all of them. -/
def blockLength : ℕ → List Mark → ℕ
  | _, [] => 0
  | depth, m :: marks =>
    if m = .opening then blockLength (depth + 1) marks + 1
    else if m = .closing then if depth = 0 then 1 else blockLength (depth - 1) marks + 1
    else blockLength depth marks + 1

/-- The block that a statement ends with. -/
def blockOf : List Mark → Option (List Mark)
  | [] | .semicolon :: _ | .closing :: _ => none
  | .opening :: marks => some marks
  | .other :: marks => blockOf marks

/-- The number of tokens of a statement, by the length of the block in it. -/
def statementLength (blockLength : List Mark → ℕ) : List Mark → ℕ
  | [] | .closing :: _ => 0
  | .semicolon :: _ => 1
  | .opening :: marks => blockLength marks + 1
  | .other :: marks => statementLength blockLength marks + 1

/-- The tokens as they count where each one directly behind a counted closing brace does not. -/
def heeded : Bool → List Mark → List Mark
  | _, [] => []
  | true, _ :: marks => .other :: heeded false marks
  | false, m :: marks => m :: heeded (decide (m = .closing)) marks

/-- The block ends where it does when the tokens directly behind nested blocks do not count. -/
def Steady (marks : List Mark) : Prop := blockLength 0 (heeded false marks) = blockLength 0 marks

section
variable {marks : List Mark} {depth e : ℕ} {behind : Bool}

theorem blockLength_le : blockLength depth marks ≤ marks.length := by
  induction marks generalizing depth with
  | nil => exact le_rfl
  | cons m marks ih =>
    rw [blockLength, length_cons]
    split_ifs
    · exact Nat.succ_le_succ ih
    · omega
    · exact Nat.succ_le_succ ih
    · exact Nat.succ_le_succ ih

/-- A block inside another ends, and then the other does. -/
theorem blockLength_add : blockLength (depth + e + 1) marks =
    blockLength e marks + blockLength depth (marks.drop (blockLength e marks)) := by
  induction marks generalizing e with
  | nil => rfl
  | cons m marks ih =>
    by_cases hopening : m = .opening
    · simp only [blockLength, if_pos hopening, drop_succ_cons]
      rw [Nat.add_assoc depth, ih]
      omega
    · by_cases hclosing : m = .closing
      · cases e with
        | zero => simp [blockLength, hclosing, Nat.add_comm]
        | succ e =>
          simp only [blockLength, if_neg hopening, if_pos hclosing, Nat.succ_ne_zero, if_false, drop_succ_cons,
            Nat.add_sub_cancel]
          rw [← Nat.add_assoc, ih]
          omega
      · simp only [blockLength, if_neg hopening, if_neg hclosing, drop_succ_cons]
        rw [ih]
        omega

/-- Behind the end of a block a token is not counted. -/
theorem drop_heeded : (heeded behind marks).drop (blockLength depth (heeded behind marks)) =
    heeded true (marks.drop (blockLength depth (heeded behind marks))) := by
  induction marks generalizing behind depth with
  | nil => cases behind <;> rfl
  | cons m marks ih =>
    cases behind with
    | true =>
      simp only [heeded, blockLength, reduceCtorEq, if_false, drop_succ_cons]
      exact ih
    | false =>
      simp only [heeded, blockLength]
      split_ifs with hopening hclosing hdepth
      · rw [drop_succ_cons, drop_succ_cons, ih]
      · rw [drop_succ_cons, drop_succ_cons, drop_zero, drop_zero, decide_eq_true hclosing]
      · rw [drop_succ_cons, drop_succ_cons, ih]
      · rw [drop_succ_cons, drop_succ_cons, ih]

theorem statementLength_eq_iff (f g : List Mark → ℕ) : statementLength f marks = statementLength g marks ↔
    ∀ block, blockOf marks = some block → f block = g block := by
  induction marks with
  | nil => exact iff_of_true rfl nofun
  | cons m marks ih => cases m <;> simp [statementLength, blockOf, ih]

theorem statementLength_le {f : List Mark → ℕ} (hf : ∀ marks, f marks ≤ marks.length) :
    statementLength f marks ≤ marks.length := by
  induction marks with
  | nil => exact le_rfl
  | cons m marks ih => cases m <;> simp [statementLength, ih, hf]

end

namespace Parser

variable {p : Parser} {t : CommentedToken} {rest : List CommentedToken} {fuel : ℕ}

def marks (p : Parser) : List Mark := p.input.map CommentedToken.mark

theorem skipRestOfBlockLoop_cons (h : p.input = t :: rest) : (skipRestOfBlockLoop (fuel + 1) p).input =
    if t.mark = .closing then rest
    else if t.mark = .opening then (skipRestOfBlockLoop fuel (skipRestOfBlockLoop fuel p.next).next).input
    else (skipRestOfBlockLoop fuel p.next).input := by
  simp only [skipRestOfBlockLoop, lookingAtSymbol, lookingAt, endOfDeclaration, h, CommentedToken.mark]
  by_cases hsymbol : t.token.type = .symbol <;> by_cases hopen : t.token.text = [123] <;>
    by_cases hclose : t.token.text = [125] <;> by_cases hsemi : t.token.text = [59] <;>
    simp_all

theorem skipRestOfBlockLoop_input (hfuel : p.input.length < fuel) : (skipRestOfBlockLoop fuel p).input =
    p.input.drop (blockLength 0 (heeded false p.marks)) := by
  induction fuel generalizing p with
  | zero => exact absurd hfuel (Nat.not_lt_zero _)
  | succ fuel ih =>
    cases h : p.input with
    | nil => simp [skipRestOfBlockLoop, marks, h, heeded]
    | cons t rest =>
      have hnext : p.next.input = rest := by rw [next, h]; rfl
      rw [h, length_cons] at hfuel
      have hrest := ih (p := p.next) (by rw [hnext]; omega)
      rw [marks, hnext] at hrest
      rw [skipRestOfBlockLoop_cons h, marks, h, map_cons, heeded, blockLength]
      by_cases hclosing : t.mark = .closing
      · simp [hclosing]
      by_cases hopening : t.mark = .opening
      · -- the rest of the nested block, one token, and the rest of this one
        rw [if_neg hclosing, if_pos hopening, if_pos hopening, decide_eq_false hclosing, drop_succ_cons,
          @blockLength_add _ 0 0, drop_heeded, ← map_drop, ← drop_drop, ← hrest]
        have hle := congrArg List.length hrest
        rw [length_drop] at hle
        rw [ih (by rw [next, length_tail]; omega), marks, next]
        cases (skipRestOfBlockLoop fuel p.next).input with
        | nil => rfl
        | cons x xs => simp [heeded, blockLength]
      · rw [if_neg hclosing, if_neg hopening, if_neg hopening, if_neg hclosing, decide_eq_false hclosing,
          drop_succ_cons, hrest]

theorem skipRestOfBlock_input : p.skipRestOfBlock.input = p.input.drop (blockLength 0 (heeded false p.marks)) :=
  skipRestOfBlockLoop_input (Nat.lt_succ_self _)

theorem skipStatementLoop_cons (h : p.input = t :: rest) : (skipStatementLoop (fuel + 1) p).input =
    if t.mark = .semicolon then rest
    else if t.mark = .opening then p.next.skipRestOfBlock.input
    else if t.mark = .closing then p.input
    else (skipStatementLoop fuel p.next).input := by
  simp only [skipStatementLoop, lookingAtSymbol, lookingAt, endOfDeclaration, h, CommentedToken.mark]
  by_cases hsymbol : t.token.type = .symbol <;> by_cases hopen : t.token.text = [123] <;>
    by_cases hclose : t.token.text = [125] <;> by_cases hsemi : t.token.text = [59] <;>
    simp_all

theorem skipStatementLoop_input (hfuel : p.input.length < fuel) : (skipStatementLoop fuel p).input =
    p.input.drop (statementLength (fun marks => blockLength 0 (heeded false marks)) p.marks) := by
  induction fuel generalizing p with
  | zero => exact absurd hfuel (Nat.not_lt_zero _)
  | succ fuel ih =>
    cases h : p.input with
    | nil => simp [skipStatementLoop, h]
    | cons t rest =>
      have hnext : p.next.input = rest := by rw [next, h]; rfl
      have hmarks : p.next.marks = rest.map CommentedToken.mark := by rw [marks, hnext]
      rw [h, length_cons] at hfuel
      have hrest := ih (p := p.next) (by rw [hnext]; omega)
      rw [hnext, hmarks] at hrest
      rw [skipStatementLoop_cons h, marks, h, map_cons]
      cases t.mark with
      | semicolon => rfl
      | opening => simp [statementLength, skipRestOfBlock_input, hnext, hmarks]
      | closing => simp [statementLength]
      | other => simp [statementLength, hrest]

theorem drop_eq_iff {α : Type} {l : List α} {m n : ℕ} (hm : m ≤ l.length) (hn : n ≤ l.length) :
    l.drop m = l.drop n ↔ m = n := by
  refine ⟨fun h => ?_, fun h => h ▸ rfl⟩
  have hlength := congrArg List.length h
  rw [length_drop, length_drop] at hlength
  omega

theorem length_heeded (behind : Bool) (marks : List Mark) : (heeded behind marks).length = marks.length := by
  induction marks generalizing behind with
  | nil => cases behind <;> rfl
  | cons m marks ih => cases behind <;> simp [heeded, ih]

/-- **What is skipped**: the rest of the block, or the statement, unless a token that
`SkipRestOfBlock` does not count moves the end of the block. -/
theorem skips_iff (p : Parser) :
    (p.skipRestOfBlock.input = p.input.drop (blockLength 0 p.marks) ↔ Steady p.marks) ∧
      (p.skipStatement.input = p.input.drop (statementLength (blockLength 0) p.marks) ↔
        ∀ block, blockOf p.marks = some block → Steady block) := by
  have hlength : p.marks.length = p.input.length := length_map ..
  have hheeded : ∀ marks, blockLength 0 (heeded false marks) ≤ marks.length := fun marks =>
    length_heeded false marks ▸ blockLength_le
  constructor
  · rw [skipRestOfBlock_input, drop_eq_iff (hlength ▸ hheeded _) (hlength ▸ blockLength_le), Steady]
  · rw [skipStatement, skipStatementLoop_input (Nat.lt_succ_self _), drop_eq_iff (hlength ▸ statementLength_le hheeded)
      (hlength ▸ statementLength_le fun _ => blockLength_le), statementLength_eq_iff]
    rfl

def symbolToken (c : UInt8) : CommentedToken := ⟨⟨.symbol, [c], 0, 0, 0⟩, [], [], []⟩

/-- The block `{ } }`, its first brace consumed before, and a semicolon behind it. -/
def emptyNested : Parser := ⟨[symbolToken 123, symbolToken 125, symbolToken 125, symbolToken 59], [], []⟩

/-- The brace behind the nested block is not counted, and what follows the block is lost. -/
theorem emptyNested_swallows : emptyNested.skipRestOfBlock.input = [] ∧
    emptyNested.input.drop (blockLength 0 emptyNested.marks) = [symbolToken 59] := ⟨rfl, rfl⟩

end Parser

end Protoc.Compiler
