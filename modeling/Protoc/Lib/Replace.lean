import Mathlib.Data.List.Nodup
import Mathlib.Data.List.Perm.Basic

/-!
# One element for each key

A list in which no two elements have the same key.  A new element takes the place of the one
with its key; it is put in front, or dropped.
-/

namespace Protoc.Lib

open List

universe u v w
variable {α : Type u} {κ : Type v} [DecidableEq κ] {key : α → κ} {keep : Bool} {a b : α}
  {l : List α}

/-- The first element with the key of `a` is taken out, and `a` is put in front if it is kept. -/
def replace (key : α → κ) (keep : Bool) (a : α) (l : List α) : Option α × List α :=
  let rest := l.eraseP fun b => decide (key b = key a)
  (l.find? fun b => decide (key b = key a), if keep then a :: rest else rest)

theorem eraseP_eq_filter (h : (l.map key).Nodup) (k : κ) :
    l.eraseP (fun b => decide (key b = k)) = l.filter fun b => decide (key b ≠ k) := by
  induction l with
  | nil => rfl
  | cons c l ih =>
    rw [map_cons, nodup_cons] at h
    obtain ⟨hfresh, hrest⟩ := h
    by_cases hc : key c = k
    · have hother : ∀ b ∈ l, decide (key b ≠ k) = true := by
        intro b hb
        rw [decide_eq_true_eq]
        intro heq
        exact hfresh (mem_map.mpr ⟨b, hb, heq.trans hc.symm⟩)
      rw [eraseP_cons_of_pos (by simpa using hc),
        filter_cons_of_neg (by simpa using hc), filter_eq_self.mpr hother]
    · rw [eraseP_cons_of_neg (by simpa using hc), filter_cons_of_pos (by simpa using hc), ih hrest]

theorem mem_eraseP_key (h : (l.map key).Nodup) (k : κ) :
    b ∈ l.eraseP (fun b => decide (key b = k)) ↔ b ∈ l ∧ key b ≠ k := by
  rw [eraseP_eq_filter h, mem_filter, decide_eq_true_eq]

theorem mem_replace (h : (l.map key).Nodup) :
    b ∈ (replace key keep a l).2 ↔ (b ∈ l ∧ key b ≠ key a) ∨ (keep = true ∧ b = a) := by
  rw [replace]
  simp only
  cases keep with
  | false =>
    rw [if_neg Bool.false_ne_true, mem_eraseP_key h]
    exact ⟨.inl, fun hb => hb.resolve_right fun hkeep => absurd hkeep.1 Bool.false_ne_true⟩
  | true =>
    rw [if_pos rfl, mem_cons, mem_eraseP_key h, or_comm]
    exact or_congr_right ⟨fun hb => ⟨rfl, hb⟩, fun hb => hb.2⟩

theorem nodup_replace (h : (l.map key).Nodup) : ((replace key keep a l).2.map key).Nodup := by
  have hrest : ((l.eraseP fun b => decide (key b = key a)).map key).Nodup :=
    h.sublist (eraseP_sublist.map key)
  rw [replace]
  simp only
  split
  · rw [map_cons, nodup_cons]
    refine ⟨?_, hrest⟩
    intro hmem
    obtain ⟨b, hb, hkey⟩ := mem_map.mp hmem
    exact ((mem_eraseP_key h (key a)).mp hb).2 hkey
  · exact hrest

theorem find?_eraseP_perm (p : α → Bool) (l : List α) : ((l.find? p).toList ++ l.eraseP p).Perm l := by
  induction l with
  | nil => exact .nil
  | cons b l ih =>
    by_cases hb : p b = true
    · rw [List.find?_cons_of_pos hb, eraseP_cons_of_pos hb]
      exact .refl _
    · rw [List.find?_cons_of_neg hb, eraseP_cons_of_neg hb]
      exact perm_middle.trans (ih.cons b)

theorem replace_perm (key : α → κ) (keep : Bool) (a : α) (l : List α) :
    ((replace key keep a l).1.toList ++ (replace key keep a l).2).Perm
      (if keep then a :: l else l) := by
  have hperm := find?_eraseP_perm (fun b => decide (key b = key a)) l
  rw [replace]
  simp only
  cases keep with
  | false => exact hperm
  | true => exact perm_middle.trans (hperm.cons a)

variable {β : Type w}

theorem replace_map_perm (f : α → β) (key : α → κ) (keep : Bool) (a : α) (l : List α) :
    (((replace key keep a l).1.map f).toList ++ (replace key keep a l).2.map f).Perm
      (if keep then f a :: l.map f else l.map f) := by
  have h := (replace_perm key keep a l).map f
  have htoList : ((replace key keep a l).1.map f).toList =
      (replace key keep a l).1.toList.map f := by
    cases (replace key keep a l).1 <;> rfl
  rw [map_append] at h
  rw [htoList]
  cases keep with
  | false => exact h
  | true => exact h

theorem count_replace [DecidableEq β] (f : α → β) (key : α → κ) (keep : Bool) (a : α)
    (l : List α) (x : β) :
    ((replace key keep a l).2.map f).count x + ((replace key keep a l).1.map f).toList.count x +
      (if keep then [] else [f a]).count x = (l.map f).count x + [f a].count x := by
  have hcount := (replace_map_perm f key keep a l).count_eq x
  rw [count_append] at hcount
  cases keep with
  | false =>
    simp only [Bool.false_eq_true, if_false] at hcount ⊢
    omega
  | true =>
    rw [if_pos rfl, ← singleton_append, count_append] at hcount
    rw [if_pos rfl, count_nil]
    omega

theorem exists_replace (h : (l.map key).Nodup) (value : α → β) (k : κ) (v : β) :
    (∃ b ∈ (replace key keep a l).2, key b = k ∧ value b = v) ↔
      if key a = k then keep = true ∧ value a = v else ∃ b ∈ l, key b = k ∧ value b = v := by
  constructor
  · rintro ⟨b, hb, hkey, hvalue⟩
    rcases (mem_replace h).mp hb with ⟨hmem, hne⟩ | ⟨hkeep, rfl⟩
    · rw [if_neg (hkey ▸ hne.symm)]
      exact ⟨b, hmem, hkey, hvalue⟩
    · rw [if_pos hkey]
      exact ⟨hkeep, hvalue⟩
  · intro hspec
    by_cases hk : key a = k
    · rw [if_pos hk] at hspec
      exact ⟨a, (mem_replace h).mpr (.inr ⟨hspec.1, rfl⟩), hk, hspec.2⟩
    · rw [if_neg hk] at hspec
      obtain ⟨b, hmem, hkey, hvalue⟩ := hspec
      exact ⟨b, (mem_replace h).mpr (.inl ⟨hmem, hkey ▸ Ne.symm hk⟩), hkey, hvalue⟩

theorem lookup_replace (h : (l.map key).Nodup) (value : α → β) {k : κ} {v : β}
    {found : Option β} (hfound : found = some v ↔ ∃ b ∈ l, key b = k ∧ value b = v) :
    (if key a = k then if keep then some (value a) else none else found) = some v ↔
      ∃ b ∈ (replace key keep a l).2, key b = k ∧ value b = v := by
  rw [exists_replace h]
  by_cases hkey : key a = k
  · rw [if_pos hkey, if_pos hkey]
    by_cases hkeep : keep = true
    · rw [if_pos hkeep, Option.some.injEq]
      exact (and_iff_right hkeep).symm
    · rw [if_neg hkeep]
      exact ⟨fun hsome => absurd hsome.symm (Option.some_ne_none _), fun hsome => absurd hsome.1 hkeep⟩
  · rw [if_neg hkey, if_neg hkey]
    exact hfound

end Protoc.Lib
