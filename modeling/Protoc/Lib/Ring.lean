import Mathlib.Data.List.Basic

/-!
# Windows into a ring

A ring is an array whose cells are read and written round the end.  `window` lists the
cells from a start on, `blit` overwrites a run of cells, and `blitRound` one that may go
round the end.  The lemmas say what a write does to a window: nothing to one that keeps
clear of it, and a window over exactly the cells written shows what was written.
-/

namespace Protoc.Lib.Ring

open List

variable {α : Type} [Inhabited α]

/-- The cell an index stands for, the index being below twice the size. -/
def wrapAt (size i : ℕ) : ℕ := if i < size then i else i - size

variable {size i j : ℕ}

theorem wrapAt_eq (h : i = j ∨ i = j + size ∨ j = i + size) (hi : i < 2 * size) (hj : j < 2 * size) :
    wrapAt size i = wrapAt size j := by
  rw [wrapAt, wrapAt]
  split_ifs <;> omega

theorem eq_of_wrapAt_eq (h : wrapAt size i = wrapAt size j) : i = j ∨ i = j + size ∨ j = i + size := by
  rw [wrapAt, wrapAt] at h
  split_ifs at h <;> omega

/-- The `count` cells from `start` on, round the end of the ring. -/
def window (buf : List α) (start count : ℕ) : List α :=
  (List.range count).map fun i => buf.getD (wrapAt buf.length (start + i)) default

/-- Overwrite the cells from `pos` on. -/
def blit (buf : List α) (pos : ℕ) (data : List α) : List α :=
  buf.take pos ++ data ++ buf.drop (pos + data.length)

@[simp] theorem length_window (buf : List α) (start count : ℕ) :
    (window buf start count).length = count := by simp [window]

@[simp] theorem window_zero (buf : List α) (start : ℕ) : window buf start 0 = [] := rfl

theorem window_add (buf : List α) (start m n : ℕ) :
    window buf start (m + n) = window buf start m ++ window buf (start + m) n := by
  simp [window, range_add, map_append, Nat.add_assoc, Function.comp_def]

theorem window_congr {buf buf' : List α} {start start' count : ℕ}
    (h : ∀ i < count, buf.getD (wrapAt buf.length (start + i)) default =
      buf'.getD (wrapAt buf'.length (start' + i)) default) :
    window buf start count = window buf' start' count := by
  refine map_congr_left fun i hi => h i (List.mem_range.mp hi)

variable {buf : List α}

theorem window_start {start start' count : ℕ}
    (h : ∀ i < count, wrapAt buf.length (start + i) = wrapAt buf.length (start' + i)) :
    window buf start count = window buf start' count :=
  window_congr fun i hi => by rw [h i hi]

variable {start count : ℕ}

theorem window_eq_slice (h : start + count ≤ buf.length) :
    window buf start count = (buf.drop start).take count := by
  refine ext_getElem (by simp; omega) fun i h₁ h₂ => ?_
  simp only [length_window] at h₁
  have hlt : start + i < buf.length := by omega
  simp [window, wrapAt, hlt]

theorem window_wrap (hstart : start ≤ buf.length)
    (hcount : count ≤ buf.length) (h : buf.length ≤ start + count) : window buf start count =
      (buf.drop start).take (buf.length - start) ++ buf.take (count - (buf.length - start)) := by
  obtain ⟨n, rfl⟩ : ∃ n, count = (buf.length - start) + n := ⟨count - (buf.length - start), by omega⟩
  rw [window_add, window_eq_slice (by omega)]
  have hzero : window buf (start + (buf.length - start)) n = window buf 0 n := by
    exact window_start fun i hi => wrapAt_eq (by omega) (by omega) (by omega)
  rw [hzero, window_eq_slice (by omega)]
  simp

variable {data : List α} {pos : ℕ}

omit [Inhabited α] in
theorem length_blit (h : pos + data.length ≤ buf.length) : (blit buf pos data).length = buf.length := by
  simp [blit]
  omega

omit [Inhabited α] in
/-- Up to a cell that a blit wrote, or to the end of what it wrote. -/
theorem take_blit {pos n : ℕ} (h : pos ≤ buf.length)
    (hn : n ≤ data.length) : (blit buf pos data).take (pos + n) = buf.take pos ++ data.take n := by
  have hpos : (buf.take pos).length = pos := by simp [h]
  rw [blit, append_assoc, take_append, hpos, take_take, take_append_of_le_length (by omega)]
  congr 1
  · rw [Nat.min_eq_right (by omega)]
  · congr 1
    omega

theorem getD_blit (h : pos + data.length ≤ buf.length)
    (i : ℕ) : (blit buf pos data).getD i default =
      if pos ≤ i ∧ i < pos + data.length then data.getD (i - pos) default
      else buf.getD i default := by
  have hpos : (buf.take pos).length = pos := by simp; omega
  simp only [blit, append_assoc, getD_eq_getElem?_getD]
  by_cases hlt : i < pos
  · rw [List.getElem?_append_left (by omega), if_neg (by omega), List.getElem?_take_of_lt hlt]
  · rw [List.getElem?_append_right (by omega), hpos]
    by_cases hin : i < pos + data.length
    · rw [List.getElem?_append_left (by omega), if_pos (by omega)]
    · rw [List.getElem?_append_right (by omega), if_neg (by omega), List.getElem?_drop]
      congr 2
      omega

/-- Overwrite the cells from `pos` on, round the end of the ring. -/
def blitRound (buf : List α) (pos : ℕ) (data : List α) : List α :=
  if pos + data.length > buf.length then
    blit (blit buf pos (data.take (buf.length - pos))) 0 (data.drop (buf.length - pos))
  else blit buf pos data

section
variable (hpos : pos ≤ buf.length)
include hpos

omit [Inhabited α] in
theorem length_blitRound (h : data.length ≤ buf.length) : (blitRound buf pos data).length = buf.length := by
  unfold blitRound
  split
  · have hfirst : (blit buf pos (data.take (buf.length - pos))).length = buf.length :=
      length_blit (by simp; omega)
    rw [length_blit (by rw [hfirst]; simp; omega), hfirst]
  · exact length_blit (by omega)

theorem getD_blitRound (h : data.length ≤ buf.length) (i : ℕ) :
    (blitRound buf pos data).getD i default =
      if pos ≤ i ∧ i < pos + data.length ∧ i < buf.length then data.getD (i - pos) default
      else if i + buf.length < pos + data.length then data.getD (i + buf.length - pos) default
      else buf.getD i default := by
  unfold blitRound
  by_cases hover : pos + data.length > buf.length
  · rw [if_pos hover]
    have hle : pos + (data.take (buf.length - pos)).length ≤ buf.length := by simp; omega
    rw [getD_blit (by rw [length_blit hle]; simp; omega), getD_blit hle]
    simp only [length_take, length_drop, getD_eq_getElem?_getD, List.getElem?_drop, List.getElem?_take]
    by_cases hsecond : i + buf.length < pos + data.length
    · rw [if_pos (by omega), if_neg (by omega), if_pos hsecond]
      congr 2
      omega
    · rw [if_neg (by omega)]
      by_cases hfirst : pos ≤ i ∧ i < pos + data.length ∧ i < buf.length
      · rw [if_pos (by omega), if_pos hfirst, if_pos (by omega)]
      · rw [if_neg (by omega), if_neg hfirst, if_neg hsecond]
  · rw [if_neg hover, getD_blit (by omega)]
    by_cases hin : pos ≤ i ∧ i < pos + data.length
    · rw [if_pos hin, if_pos (by omega)]
    · rw [if_neg hin, if_neg (by omega), if_neg (by omega)]

theorem window_blitRound_of_disjoint (h : data.length ≤ buf.length) (hdisj : ∀ i < count, ∀ j < data.length,
      wrapAt buf.length (start + i) ≠ wrapAt buf.length (pos + j)) :
    window (blitRound buf pos data) start count = window buf start count := by
  refine window_congr fun i hi => ?_
  rw [length_blitRound hpos h, getD_blitRound hpos h]
  generalize hcell : wrapAt buf.length (start + i) = cell at *
  have hdisj := hdisj i hi
  rw [hcell] at hdisj
  rw [if_neg, if_neg]
  · intro hlt
    refine hdisj (cell + buf.length - pos) (by omega) ?_
    unfold wrapAt
    rw [if_neg (by omega)]
    omega
  · rintro ⟨hle, hlt, hcell⟩
    refine hdisj (cell - pos) (by omega) ?_
    unfold wrapAt
    rw [if_pos (by omega)]
    omega

theorem window_blitRound_self (h : data.length ≤ buf.length) :
    window (blitRound buf pos data) pos data.length = data := by
  refine ext_getElem (by simp) fun i h₁ h₂ => ?_
  simp only [window, getElem_map, getElem_range]
  rw [length_blitRound hpos h, getD_blitRound hpos h]
  unfold wrapAt
  by_cases hlt : pos + i < buf.length
  · rw [if_pos hlt, if_pos (by omega)]
    simp [h₂]
  · rw [if_neg hlt, if_neg (by omega), if_pos (by omega)]
    have hi : pos + i - buf.length + buf.length - pos = i := by omega
    simp [hi, h₂]

end

end Protoc.Lib.Ring
