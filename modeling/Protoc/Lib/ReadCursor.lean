import Mathlib.Data.List.Basic

/-!
# A cursor over data

What a reader that hands out its data in chunks of its own choice is for: a position in the
data, which goes forward by a chunk or a number of elements, and back inside the last chunk.
-/

namespace Protoc.Lib

open List

variable {α : Type}

/-- A position in the data.  `last` is the size of the last chunk, as long as nothing came
after it. -/
structure ReadCursor (α : Type) where
  data : List α
  pos : ℕ
  last : Option ℕ
  pos_le : pos ≤ data.length
  last_le : ∀ n ∈ last, n ≤ pos

namespace ReadCursor

def start (data : List α) : ReadCursor α := ⟨data, 0, none, Nat.zero_le _, by simp⟩

def rest (c : ReadCursor α) : List α := c.data.drop c.pos

/-- The next chunk, or the end of the data. -/
structure Next (c : ReadCursor α) (chunk : Option (List α)) (c' : ReadCursor α) : Prop where
  data : c'.data = c.data
  last : c'.last = chunk.map List.length
  ends : chunk = none → c.pos = c.data.length ∧ c'.pos = c.pos
  gives : ∀ buf, chunk = some buf → buf ≠ [] ∧ buf <+: c.rest ∧ c'.pos = c.pos + buf.length

/-- Back inside the last chunk. -/
structure BackUp (c : ReadCursor α) (count : ℕ) (c' : ReadCursor α) : Prop where
  data : c'.data = c.data
  pos : c.pos = c'.pos + count
  last : c'.last = none

/-- Forward by a number of elements, or to the end when there are not as many. -/
structure Skip (c : ReadCursor α) (count : ℕ) (skipped : Bool) (c' : ReadCursor α) : Prop where
  data : c'.data = c.data
  last : c'.last = none
  yes : skipped = true → c'.pos = c.pos + count
  no : skipped = false → c'.pos = c.data.length ∧ c.data.length ≤ c.pos + count ∧
    (count ≠ 0 → c.data.length < c.pos + count)

/-! ## One piece of the data behind the other -/

/-- The same position, with other data before it. -/
def behind (gone : List α) (c : ReadCursor α) : ReadCursor α where
  data := gone ++ c.data
  pos := gone.length + c.pos
  last := c.last
  pos_le := by
    rw [length_append]
    exact Nat.add_le_add_left c.pos_le _
  last_le n h := Nat.le_trans (c.last_le n h) (Nat.le_add_left _ _)

/-- The same position, with more data to come. -/
def extend (c : ReadCursor α) (tail : List α) : ReadCursor α where
  data := c.data ++ tail
  pos := c.pos
  last := c.last
  pos_le := by
    rw [length_append]
    exact Nat.le_trans c.pos_le (Nat.le_add_right _ _)
  last_le := c.last_le

@[simp] theorem start_pos (data : List α) : (start data).pos = 0 := rfl
@[simp] theorem start_data (data : List α) : (start data).data = data := rfl
@[simp] theorem start_last (data : List α) : (start data).last = none := rfl
@[simp] theorem behind_pos (gone : List α) (c : ReadCursor α) :
    (c.behind gone).pos = gone.length + c.pos := rfl
@[simp] theorem behind_data (gone : List α) (c : ReadCursor α) :
    (c.behind gone).data = gone ++ c.data := rfl
@[simp] theorem behind_last (gone : List α) (c : ReadCursor α) :
    (c.behind gone).last = c.last := rfl
@[simp] theorem extend_pos (c : ReadCursor α) (tail : List α) : (c.extend tail).pos = c.pos := rfl
@[simp] theorem extend_data (c : ReadCursor α) (tail : List α) :
    (c.extend tail).data = c.data ++ tail := rfl
@[simp] theorem extend_last (c : ReadCursor α) (tail : List α) :
    (c.extend tail).last = c.last := rfl

theorem ext_fields {c c' : ReadCursor α} (hdata : c.data = c'.data) (hpos : c.pos = c'.pos)
    (hlast : c.last = c'.last) : c = c' := by
  cases c
  cases c'
  simp_all

theorem behind_behind (first second : List α) (c : ReadCursor α) :
    (c.behind second).behind first = c.behind (first ++ second) :=
  ext_fields (by simp) (by simp [Nat.add_assoc]) rfl

theorem behind_nil (c : ReadCursor α) : c.behind [] = c := ext_fields (by simp) (by simp) rfl

theorem rest_behind (gone : List α) (c : ReadCursor α) : (c.behind gone).rest = c.rest := by
  simp [rest]

theorem rest_extend (c : ReadCursor α) (tail : List α) : (c.extend tail).rest = c.rest ++ tail := by
  rw [rest, rest, extend_pos, extend_data, drop_append_of_le_length c.pos_le]

variable {c c' : ReadCursor α}

theorem Next.behind {chunk : Option (List α)} (h : Next c chunk c') (gone : List α) :
    Next (c.behind gone) chunk (c'.behind gone) where
  data := congrArg (gone ++ ·) h.data
  last := h.last
  ends hnone := by
    obtain ⟨hend, hpos⟩ := h.ends hnone
    simp [hend, hpos]
  gives buf hbuf := by
    obtain ⟨hne, hprefix, hpos⟩ := h.gives buf hbuf
    refine ⟨hne, ?_, by simp [hpos, Nat.add_assoc]⟩
    rwa [rest_behind]

theorem Next.extend {buf : List α} (h : Next c (some buf) c') (tail : List α) :
    Next (c.extend tail) (some buf) (c'.extend tail) where
  data := congrArg (· ++ tail) h.data
  last := h.last
  ends hnone := by cases hnone
  gives _ hbuf := by
    obtain ⟨hne, hprefix, hpos⟩ := h.gives _ hbuf
    refine ⟨hne, ?_, hpos⟩
    rw [rest_extend]
    exact hprefix.trans (prefix_append _ _)

theorem Next.after {chunk : Option (List α)} {tail : List α} (hend : c.pos = c.data.length)
    (h : Next (start tail) chunk c') : Next (c.extend tail) chunk (c'.behind c.data) where
  data := congrArg (c.data ++ ·) h.data
  last := h.last
  ends hnone := by
    obtain ⟨hstart, hpos⟩ := h.ends hnone
    simp only [start_pos, start_data] at hstart hpos
    simp [hend, hpos, ← hstart]
  gives buf hbuf := by
    obtain ⟨hne, hprefix, hpos⟩ := h.gives buf hbuf
    refine ⟨hne, ?_, by simpa [hend] using hpos⟩
    rw [rest_extend, rest, hend, drop_length, nil_append]
    simpa [rest] using hprefix

variable {count : ℕ}

theorem BackUp.behind (h : BackUp c count c') (gone : List α) :
    BackUp (c.behind gone) count (c'.behind gone) where
  data := congrArg (gone ++ ·) h.data
  pos := by simp [h.pos, Nat.add_assoc]
  last := h.last

theorem BackUp.extend (h : BackUp c count c') (tail : List α) :
    BackUp (c.extend tail) count (c'.extend tail) where
  data := congrArg (· ++ tail) h.data
  pos := h.pos
  last := h.last

theorem Skip.behind {skipped : Bool} (h : Skip c count skipped c') (gone : List α) :
    Skip (c.behind gone) count skipped (c'.behind gone) where
  data := congrArg (gone ++ ·) h.data
  last := h.last
  yes hyes := by simp [h.yes hyes, Nat.add_assoc]
  no hno := by
    obtain ⟨hpos, hle, hlt⟩ := h.no hno
    simp only [behind_pos, behind_data, length_append]
    exact ⟨by omega, by omega, fun hcount => by have := hlt hcount; omega⟩

theorem Skip.extend (h : Skip c count true c') (tail : List α) :
    Skip (c.extend tail) count true (c'.extend tail) where
  data := congrArg (· ++ tail) h.data
  last := h.last
  yes hyes := h.yes hyes
  no hno := by cases hno

theorem Skip.after {count left : ℕ} {skipped : Bool} {tail : List α}
    (hleft : c.pos + count = c.data.length + left) (hpast : count ≠ 0 → left ≠ 0)
    (h : Skip (start tail) left skipped c') : Skip (c.extend tail) count skipped (c'.behind c.data) where
  data := congrArg (c.data ++ ·) h.data
  last := h.last
  yes hyes := by
    have hpos := h.yes hyes
    simp only [start_pos, behind_pos, extend_pos] at hpos ⊢
    omega
  no hno := by
    obtain ⟨hpos, hle, hlt⟩ := h.no hno
    simp only [start_pos, start_data, behind_pos, extend_pos, extend_data, length_append] at hpos hle hlt ⊢
    exact ⟨by omega, by omega, fun hcount => by have := hlt (hpast hcount); omega⟩

end ReadCursor

end Protoc.Lib
