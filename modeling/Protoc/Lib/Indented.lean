import Mathlib.Data.List.Basic

/-!
# Indented text

Lines are written piece by piece, and each line that is not empty gets an indentation before its
first character.  A writer that puts the indentation off, until something comes that does not begin
with a newline, does the same if no piece that begins with a newline begins a line.
-/

namespace Protoc.Lib.Indented

open List

universe u
variable {α : Type u} [DecidableEq α] (newline : α)

/-- What is written: the end of a line, or a text in it. -/
inductive Piece (α : Type u)
  | endLine
  | text (s : List α)
  deriving DecidableEq

/-- How much of a line is there: nothing, only texts that begin with a newline, or more. -/
inductive Line
  | fresh
  | late
  | begun
  deriving DecidableEq

def Line.text (line : Line) (s : List α) : Line :=
  if s = [] ∨ line = .begun then line else if s.head? = some newline then .late else .begun

/-- The indentation stands before the first character of a line. -/
def exactText (indent : List α) (line : Line) (s : List α) : List α :=
  if s ≠ [] ∧ line = .fresh then indent ++ s else s

/-- The indentation stands before the first text that does not begin with a newline. -/
def delayedText (indent : List α) (line : Line) (s : List α) : List α :=
  if s ≠ [] ∧ line ≠ .begun ∧ s.head? ≠ some newline then indent ++ s else s

/-- The indentation is empty, or neither left out nor put in late. -/
def Kept (indent : List α) (line : Line) (s : List α) : Prop :=
  indent = [] ∨ s = [] ∨ line = .begun ∨ (line = .fresh ↔ s.head? ≠ some newline)

instance decidableKept (indent : List α) (line : Line) (s : List α) : Decidable (Kept newline indent line s) := by
  unfold Kept
  infer_instance

/-- What has been written, and how much of the last line is there. -/
@[ext] structure Page (α : Type u) where
  out : List α
  line : Line
  deriving DecidableEq

def Page.empty : Page α := ⟨[], .fresh⟩

def Page.write (place : List α → Line → List α → List α) (indent : List α) (page : Page α) :
    Piece α → Page α
  | .endLine => ⟨page.out ++ [newline], .fresh⟩
  | .text s => ⟨page.out ++ place indent page.line s, page.line.text newline s⟩

def Page.writeAll (place : List α → Line → List α → List α) (indent : List α) (page : Page α)
    (pieces : List (Piece α)) : Page α :=
  pieces.foldl (Page.write newline place indent) page

def KeptAll (indent : List α) : Line → List (Piece α) → Prop
  | _, [] => True
  | _, .endLine :: pieces => KeptAll indent .fresh pieces
  | line, .text s :: pieces => Kept newline indent line s ∧ KeptAll indent (line.text newline s) pieces

instance decidableKeptAll (indent : List α) :
    ∀ (line : Line) (pieces : List (Piece α)), Decidable (KeptAll newline indent line pieces)
  | _, [] => isTrue trivial
  | _, .endLine :: pieces => decidableKeptAll indent .fresh pieces
  | line, .text s :: pieces =>
    have := decidableKeptAll indent (line.text newline s) pieces
    inferInstanceAs (Decidable (_ ∧ _))

variable {newline} {indent s t : List α} {line : Line} {page : Page α}

omit [DecidableEq α] in
@[simp] theorem exactText_nil : exactText indent line [] = [] := if_neg fun h => h.1 rfl

@[simp] theorem delayedText_nil : delayedText newline indent line [] = [] := if_neg fun h => h.1 rfl

@[simp] theorem Line.text_nil : line.text newline [] = line := if_pos (.inl rfl)

/-- **Where the two agree.** -/
theorem Kept.delayedText_eq (h : Kept newline indent line s) :
    delayedText newline indent line s = exactText indent line s := by
  rcases h with rfl | rfl | rfl | hhead
  · simp only [delayedText, exactText, nil_append, ite_self]
  · rw [delayedText_nil, exactText_nil]
  · rw [delayedText, exactText, if_neg fun h => h.2.1 rfl, if_neg fun h => nomatch h.2]
  · rw [delayedText, exactText]
    cases line with
    | fresh => simp [hhead.mp rfl]
    | late =>
      have hnewline : s.head? = some newline := Decidable.not_not.mp fun h => nomatch hhead.mpr h
      simp [hnewline]
    | begun => simp

/-- **Pieces that make no difference.** -/
theorem KeptAll.writeAll_eq {pieces : List (Piece α)} (h : KeptAll newline indent page.line pieces) :
    page.writeAll newline (delayedText newline) indent pieces = page.writeAll newline exactText indent pieces := by
  induction pieces generalizing page with
  | nil => rfl
  | cons piece pieces ih =>
    cases piece with
    | endLine =>
      have hpage : KeptAll newline indent (Page.mk (page.out ++ [newline]) .fresh).line pieces := h
      exact ih hpage
    | text s =>
      have hpiece : page.write newline (delayedText newline) indent (.text s) =
          page.write newline exactText indent (.text s) := by
        rw [Page.write, Page.write, h.1.delayedText_eq]
      rw [Page.writeAll, foldl_cons, hpiece]
      exact ih h.2

/-! ## Where the indentations are -/

/-- A line that has not begun is at the start of a line of the output. -/
def Page.AtLineStart (newline : α) (page : Page α) : Prop :=
  page.line = .fresh → page.out = [] ∨ page.out.getLast? = some newline

theorem Line.text_ne_fresh (hs : s ≠ []) : line.text newline s ≠ .fresh := by
  rw [Line.text]
  by_cases hbegun : line = .begun
  · rw [if_pos (.inr hbegun), hbegun]
    nofun
  · rw [if_neg fun h => h.elim hs hbegun]
    split <;> nofun

/-- **An indentation stands at the start of a line of the output**, and never inside. -/
theorem Page.AtLineStart.writeAll {pieces : List (Piece α)} (h : page.AtLineStart newline) :
    (page.writeAll newline exactText indent pieces).AtLineStart newline := by
  induction pieces generalizing page with
  | nil => exact h
  | cons piece pieces ih =>
    apply ih
    cases piece with
    | endLine => exact fun _ => .inr List.getLast?_concat
    | text s =>
      by_cases hs : s = []
      · rw [hs, Page.write, exactText_nil, append_nil, Line.text_nil]
        exact h
      · exact fun hfresh => absurd hfresh (Line.text_ne_fresh hs)

/-! ## Texts that are put together -/

theorem Line.text_begun : Line.begun.text newline s = .begun := if_pos (.inr rfl)

theorem delayedText_begun : delayedText newline indent .begun s = s := if_neg fun h => h.2.1 rfl

theorem Line.text_of_not_mem (hs : s ≠ []) (hnewline : newline ∉ s) : line.text newline s = .begun := by
  have hhead : s.head? ≠ some newline := fun h => hnewline (List.mem_of_mem_head? h)
  rw [Line.text]
  by_cases hbegun : line = .begun
  · rw [if_pos (.inr hbegun), hbegun]
  · rw [if_neg fun h => h.elim hs hbegun, if_neg hhead]

theorem delayedText_append (hnewline : newline ∉ s) : delayedText newline indent line (s ++ t) =
      delayedText newline indent line s ++ delayedText newline indent (line.text newline s) t := by
  by_cases hs : s = []
  · rw [hs, nil_append, delayedText_nil, nil_append, Line.text_nil]
  · have hhead : (s ++ t).head? = s.head? := List.head?_append_of_ne_nil _ hs
    have hne : s ++ t ≠ [] := fun h => hs (List.append_eq_nil_iff.mp h).1
    rw [Line.text_of_not_mem hs hnewline, delayedText_begun, delayedText, delayedText, hhead]
    by_cases hbegun : line = .begun
    · rw [if_neg fun h => h.2.1 hbegun, if_neg fun h => h.2.1 hbegun]
    · have hfirst : s.head? ≠ some newline := fun h => hnewline (List.mem_of_mem_head? h)
      rw [if_pos ⟨hne, hbegun, hfirst⟩, if_pos ⟨hs, hbegun, hfirst⟩, append_assoc]

theorem Line.text_append (hnewline : newline ∉ s) :
    line.text newline (s ++ t) = (line.text newline s).text newline t := by
  by_cases hs : s = []
  · rw [hs, nil_append, Line.text_nil]
  · have hhead : (s ++ t).head? = s.head? := List.head?_append_of_ne_nil _ hs
    have hfirst : s.head? ≠ some newline := fun h => hnewline (List.mem_of_mem_head? h)
    have hne : s ++ t ≠ [] := fun h => hs (List.append_eq_nil_iff.mp h).1
    rw [Line.text_of_not_mem hs hnewline, Line.text_begun, Line.text, hhead]
    by_cases hbegun : line = .begun
    · rw [if_pos (.inr hbegun), hbegun]
    · rw [if_neg fun h => h.elim hne hbegun, if_neg hfirst]

theorem Page.write_append (hnewline : newline ∉ s) :
    page.write newline (delayedText newline) indent (.text (s ++ t)) =
      (page.write newline (delayedText newline) indent (.text s)).write newline (delayedText newline) indent
        (.text t) := by
  simp only [Page.write, delayedText_append hnewline, Line.text_append hnewline, append_assoc]

end Protoc.Lib.Indented
