import Protoc.Json.Escaping

/-!
# Code points that are cut

`readCodePoint` reads a code point that is cut as it reads one that is not.
-/

namespace Protoc.Json

open Protoc.Lib
open List Nat

def ReadResult.isPartial (r : ReadResult) : Prop := r.ok = true ∧ 0 < r.numLeft

def ReadResult.isComplete (r : ReadResult) : Prop := r.ok = true ∧ r.numLeft = 0

variable {s t : Text} {cp numLeft numRead : ℕ} {r : ReadResult}

theorem ReadResult.cases (r : ReadResult) : r.ok = false ∨ r.isPartial ∨ r.isComplete := by
  cases hok : r.ok with
  | false => exact .inl rfl
  | true =>
    rcases Nat.eq_zero_or_pos r.numLeft with hzero | hpos
    · exact .inr (.inr ⟨hok, hzero⟩)
    · exact .inr (.inl ⟨hok, hpos⟩)

/-! ## The loop -/

theorem readMore_append_of_isPartial (h : (readMore cp numLeft numRead s).isPartial) (t : Text) :
    readMore cp numLeft numRead (s ++ t) =
      readMore (readMore cp numLeft numRead s).cp (readMore cp numLeft numRead s).numLeft
        (readMore cp numLeft numRead s).numRead t := by
  fun_induction readMore cp numLeft numRead s with
  | case1 => exact absurd h.2 (lt_irrefl 0)
  | case2 => rfl
  | case3 => exact absurd h.1 Bool.false_ne_true
  | case4 cp numLeft numRead ch s cp' hch ih =>
    rw [cons_append, readMore, if_neg hch]
    exact ih h

theorem readMore_append_of_not_isPartial (h : ¬ (readMore cp numLeft numRead s).isPartial) (t : Text) :
    readMore cp numLeft numRead (s ++ t) = readMore cp numLeft numRead s := by
  fun_induction readMore cp numLeft numRead s with
  | case1 => rfl
  | case2 => exact absurd ⟨rfl, succ_pos _⟩ h
  | case3 cp numLeft numRead ch s cp' hch => rw [cons_append, readMore, if_pos hch]
  | case4 cp numLeft numRead ch s cp' hch ih =>
    rw [cons_append, readMore, if_neg hch]
    exact ih h

theorem readMore_numRead_add (k numRead : ℕ) : readMore cp numLeft (k + numRead) s =
    { readMore cp numLeft numRead s with numRead := k + (readMore cp numLeft numRead s).numRead } := by
  fun_induction readMore cp numLeft numRead s with
  | case1 => rfl
  | case2 => rfl
  | case3 cp numLeft numRead ch s cp' hch =>
    rw [readMore, if_pos hch]
    rfl
  | case4 cp numLeft numRead ch s cp' hch ih =>
    rw [readMore, if_neg hch]
    exact ih

theorem readMore_numRead_le : (readMore cp numLeft numRead s).numRead ≤ numRead + s.length := by
  fun_induction readMore cp numLeft numRead s with
  | case1 => exact Nat.le_add_right ..
  | case2 => exact le_rfl
  | case3 => exact Nat.add_le_add_left (succ_le_succ (Nat.zero_le _)) _
  | case4 cp numLeft numRead ch s cp' hch ih =>
    rw [length_cons]
    omega

theorem lt_readMore_numRead (h : numLeft ≠ 0) (hs : s ≠ []) : numRead < (readMore cp numLeft numRead s).numRead := by
  fun_cases readMore cp numLeft numRead s with
  | case1 => exact absurd rfl h
  | case2 => exact absurd rfl hs
  | case3 => exact lt_succ_self _
  | case4 => exact le_readMore_numRead

theorem readMore_of_isPartial (h : (readMore cp numLeft numRead s).isPartial) :
    (readMore cp numLeft numRead s).numRead = numRead + s.length := by
  fun_induction readMore cp numLeft numRead s with
  | case1 => exact absurd h.2 (lt_irrefl 0)
  | case2 => rfl
  | case3 => exact absurd h.1 Bool.false_ne_true
  | case4 cp numLeft numRead ch s cp' hch ih =>
    rw [ih h, length_cons]
    omega

/-! ## Code points -/

theorem readCodePoint_cons (c : UInt8) :
    (c ≤ 0x7f ∧ ∀ s cp, readCodePoint (c :: s) cp 0 = ⟨true, c.toNat, 0, 1⟩) ∨
    (0x7f < c ∧ ∀ s cp, readCodePoint (c :: s) cp 0 = ⟨false, c.toNat, 0, 1⟩) ∨
    (0x7f < c ∧ ∃ cp' numLeft, numLeft ≠ 0 ∧ ∀ s cp, readCodePoint (c :: s) cp 0 = readMore cp' numLeft 1 s) := by
  by_cases h7f : c ≤ 0x7f
  · exact .inl ⟨h7f, fun s cp => by rw [readCodePoint, if_pos rfl, if_pos h7f]⟩
  · have hlt := UInt8.not_le.mp h7f
    refine .inr ?_
    by_cases hbf : c ≤ 0xbf
    · exact .inl ⟨hlt, fun s cp => by rw [readCodePoint, if_pos rfl, if_neg h7f, if_pos hbf]⟩
    · by_cases hdf : c ≤ 0xdf
      · refine .inr ⟨hlt, c.toNat &&& 0x1f, 1, by decide, fun s cp => ?_⟩
        rw [readCodePoint, if_pos rfl, if_neg h7f, if_neg hbf, if_pos hdf]
      · by_cases hef : c ≤ 0xef
        · refine .inr ⟨hlt, c.toNat &&& 0x0f, 2, by decide, fun s cp => ?_⟩
          rw [readCodePoint, if_pos rfl, if_neg h7f, if_neg hbf, if_neg hdf, if_pos hef]
        · by_cases hf7 : c ≤ 0xf7
          · refine .inr ⟨hlt, c.toNat &&& 0x07, 3, by decide, fun s cp => ?_⟩
            rw [readCodePoint, if_pos rfl, if_neg h7f, if_neg hbf, if_neg hdf, if_neg hef, if_pos hf7]
          · refine .inl ⟨hlt, fun s cp => ?_⟩
            rw [readCodePoint, if_pos rfl, if_neg h7f, if_neg hbf, if_neg hdf, if_neg hef, if_neg hf7]

theorem readCodePoint_resume (h : numLeft ≠ 0) (t : Text) : readCodePoint t cp numLeft = readMore cp numLeft 0 t := by
  rw [readCodePoint.eq_def, if_neg h]

theorem readCodePoint_cp (hs : s ≠ []) (cp : ℕ) : readCodePoint s cp 0 = readCodePoint s 0 0 := by
  obtain ⟨c, s, rfl⟩ := exists_cons_of_ne_nil hs
  rcases readCodePoint_cons c with ⟨-, h⟩ | ⟨-, h⟩ | ⟨-, cp', numLeft, -, h⟩
  · rw [h, h]
  · rw [h, h]
  · rw [h, h]

theorem readCodePoint_numRead_pos (hs : s ≠ []) : 0 < (readCodePoint s 0 0).numRead := by
  obtain ⟨c, s, rfl⟩ := exists_cons_of_ne_nil hs
  rcases readCodePoint_cons c with ⟨-, h⟩ | ⟨-, h⟩ | ⟨-, cp', numLeft, -, h⟩
  · rw [h]
    exact Nat.one_pos
  · rw [h]
    exact Nat.one_pos
  · rw [h]
    exact le_readMore_numRead

theorem readCodePoint_numRead_le (hs : s ≠ []) : (readCodePoint s 0 0).numRead ≤ s.length := by
  obtain ⟨c, s, rfl⟩ := exists_cons_of_ne_nil hs
  rw [length_cons]
  rcases readCodePoint_cons c with ⟨-, h⟩ | ⟨-, h⟩ | ⟨-, cp', numLeft, -, h⟩
  · rw [h]
    exact succ_le_succ (Nat.zero_le _)
  · rw [h]
    exact succ_le_succ (Nat.zero_le _)
  · rw [h, add_comm]
    exact readMore_numRead_le

/-- **A code point that is not cut.** -/
theorem readCodePoint_append_of_not_isPartial (hs : s ≠ []) (h : ¬ (readCodePoint s 0 0).isPartial) (t : Text) :
    readCodePoint (s ++ t) 0 0 = readCodePoint s 0 0 := by
  obtain ⟨c, s, rfl⟩ := exists_cons_of_ne_nil hs
  rw [cons_append]
  rcases readCodePoint_cons c with ⟨-, hc⟩ | ⟨-, hc⟩ | ⟨-, cp', numLeft, -, hc⟩
  · rw [hc, hc]
  · rw [hc, hc]
  · rw [hc] at h
    rw [hc, hc, readMore_append_of_not_isPartial h]

/-- **A code point that is cut**: the text was read, and the rest of it is read later. -/
theorem readCodePoint_of_isPartial (hs : s ≠ []) (h : (readCodePoint s 0 0).isPartial) :
    (readCodePoint s 0 0).numRead = s.length ∧ ∀ t, readCodePoint (s ++ t) 0 0 =
        { readCodePoint t (readCodePoint s 0 0).cp (readCodePoint s 0 0).numLeft with
          numRead := s.length + (readCodePoint t (readCodePoint s 0 0).cp (readCodePoint s 0 0).numLeft).numRead } := by
  obtain ⟨c, s, rfl⟩ := exists_cons_of_ne_nil hs
  rcases readCodePoint_cons c with ⟨-, hc⟩ | ⟨-, hc⟩ | ⟨-, cp', numLeft, -, hc⟩
  · rw [hc] at h
    exact absurd h.2 (lt_irrefl 0)
  · rw [hc] at h
    exact absurd h.1 Bool.false_ne_true
  · rw [hc] at h
    have hread := readMore_of_isPartial h
    have hlength : (readMore cp' numLeft 1 s).numRead = (c :: s).length := by
      rw [hread, length_cons, add_comm]
    refine ⟨by rw [hc, hlength], fun t => ?_⟩
    rw [cons_append, hc, hc, readMore_append_of_isPartial h, hlength, readCodePoint_resume h.2.ne']
    exact readMore_numRead_add (c :: s).length 0

/-- The code points of a text with their bytes, and without what is not well formed; each takes a byte. -/
def codePointsLoop : ℕ → Text → List (ℕ × Text)
  | 0, _ => []
  | rounds + 1, s =>
    if s = [] then []
    else
      let r := readCodePoint s 0 0
      if !r.ok then codePointsLoop rounds (s.drop r.numRead)
      else if 0 < r.numLeft then []
      else (r.cp, s.take r.numRead) :: codePointsLoop rounds (s.drop r.numRead)

def codePoints (s : Text) : List (ℕ × Text) := codePointsLoop s.length s

theorem length_drop_numRead (hs : s ≠ []) : (s.drop (readCodePoint s 0 0).numRead).length < s.length := by
  have hpos := readCodePoint_numRead_pos hs
  have hlength := length_pos_iff.mpr hs
  rw [length_drop]
  omega

theorem codePointsLoop_eq {rounds : ℕ} (h : s.length ≤ rounds) : codePointsLoop rounds s = codePoints s := by
  induction rounds using Nat.strong_induction_on generalizing s with
  | _ rounds ih =>
    by_cases hs : s = []
    · subst hs
      cases rounds <;> rfl
    · have hlt := length_drop_numRead hs
      have hpos := length_pos_iff.mpr hs
      obtain ⟨k, hk⟩ := exists_eq_succ_of_ne_zero hpos.ne'
      obtain ⟨m, rfl⟩ := exists_eq_succ_of_ne_zero (Nat.ne_of_gt (lt_of_lt_of_le hpos h))
      have hdrop : codePointsLoop m (s.drop (readCodePoint s 0 0).numRead) =
          codePointsLoop k (s.drop (readCodePoint s 0 0).numRead) := by
        rw [ih m (lt_succ_self m) (by omega)]
        by_cases hkm : k < m + 1
        · rw [ih k hkm (by omega)]
        · omega
      rw [codePoints, hk, codePointsLoop, codePointsLoop]
      simp only [hdrop]

theorem codePoints_of_invalid (hs : s ≠ []) (h : (readCodePoint s 0 0).ok = false) :
    codePoints s = codePoints (s.drop (readCodePoint s 0 0).numRead) := by
  have hlt := length_drop_numRead hs
  obtain ⟨k, hk⟩ := exists_eq_succ_of_ne_zero (length_pos_iff.mpr hs).ne'
  rw [codePoints, hk, codePointsLoop, if_neg hs]
  simp only [h, Bool.not_false, if_true]
  exact codePointsLoop_eq (by omega)

theorem codePoints_of_isPartial (hs : s ≠ []) (h : (readCodePoint s 0 0).isPartial) : codePoints s = [] := by
  obtain ⟨k, hk⟩ := exists_eq_succ_of_ne_zero (length_pos_iff.mpr hs).ne'
  rw [codePoints, hk, codePointsLoop, if_neg hs]
  simp only [h.1, h.2, Bool.not_true, Bool.false_eq_true, if_false, if_true]

theorem codePoints_of_complete (hs : s ≠ []) (h : (readCodePoint s 0 0).isComplete) :
    codePoints s = ((readCodePoint s 0 0).cp, s.take (readCodePoint s 0 0).numRead) ::
      codePoints (s.drop (readCodePoint s 0 0).numRead) := by
  have hlt := length_drop_numRead hs
  obtain ⟨k, hk⟩ := exists_eq_succ_of_ne_zero (length_pos_iff.mpr hs).ne'
  rw [codePoints, hk, codePointsLoop, if_neg hs]
  simp only [h.1, h.2, Bool.not_true, Bool.false_eq_true, if_false, lt_irrefl]
  rw [codePointsLoop_eq (by omega)]

end Protoc.Json
