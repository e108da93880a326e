import Mathlib.Data.List.Sort
import Protoc.Lib.Sorted

/-!
# Entries in two tiers

New entries go into an ordered set, and from time to time the set is merged into a sorted
vector.  Both are sorted by a key and have no key in common, so together they stand for one
sorted list of keys and values, and merging does not change it.
-/

namespace Protoc.Lib

open Sorted
open List Prod Or

universe u v w
variable {ε : Type u} {κ : Type v} {β : Type w}

/-! ## Operations under a comparison -/

/-- The first entry that compares above `x`. -/
def setUpperBound (less : ε → ε → Bool) (x : ε) (l : List ε) : ℕ := l.findIdx fun e => less x e

/-- Insertion into a set, which keeps one of several equivalent entries. -/
def setInsert (less : ε → ε → Bool) (x : ε) (l : List ε) : List ε :=
  let i := l.findIdx fun e => !less e x
  match l[i]? with
  | some e => if less x e then insertAt i x l else l
  | none => insertAt i x l

/-- Two sorted lists in one; of equivalent entries those of the first list come first. -/
def mergeSorted (less : ε → ε → Bool) : List ε → List ε → List ε
  | [], l₂ => l₂
  | x :: l₁, l₂ => l₂.takeWhile (less · x) ++ x :: mergeSorted less l₁ (l₂.dropWhile (less · x))

def mergeIntoFlat (less : ε → ε → Bool) (set flat : List ε) : List ε :=
  if set.isEmpty then flat else mergeSorted less set flat

variable [LinearOrder κ] {key : ε → κ} {val : ε → β} {less : ε → ε → Bool}

variable {l : List ε}

omit [LinearOrder κ] in
theorem findIdx_congr {p q : ε → Bool} (h : ∀ e ∈ l, p e = q e) : l.findIdx p = l.findIdx q := by
  induction l with
  | nil => rfl
  | cons e l ih => rw [findIdx_cons, findIdx_cons, h e mem_cons_self, ih fun a ha => h a (mem_cons_of_mem _ ha)]

theorem findIdx_eq_upperBound {p : ε → Bool} {k : κ}
    (h : ∀ e ∈ l, p e = true ↔ k < key e) : l.findIdx p = upperBound key l k := by
  refine findIdx_congr fun e he => ?_
  rw [Bool.eq_iff_iff, h e he, decide_eq_true_eq]

theorem setUpperBound_eq {x : ε} (h : ∀ e ∈ l, less x e = true ↔ key x < key e) :
    setUpperBound less x l = upperBound key l (key x) := findIdx_eq_upperBound h

theorem setInsert_eq {x : ε}
    (h : ∀ e ∈ l, (less e x = true ↔ key e < key x) ∧ (less x e = true ↔ key x < key e)) :
    setInsert less x l = (insertIfNotPresent key x l).2 := by
  have hbound : (l.findIdx fun e => !less e x) = lowerBound key l (key x) := by
    refine findIdx_congr fun e he => ?_
    rw [Bool.eq_iff_iff, decide_eq_true_eq, Bool.not_eq_true', Bool.eq_false_iff, ne_eq, (h e he).1, not_lt]
  unfold setInsert insertIfNotPresent Sorted.find
  rw [hbound]
  cases hget : l[lowerBound key l (key x)]? with
  | none => simp [hget]
  | some e =>
    have hmem : e ∈ l := mem_of_getElem? hget
    have hle : key x ≤ key e := by
      obtain ⟨hlt, heq⟩ := List.getElem?_eq_some_iff.mp hget
      have hnot := findIdx_getElem (p := fun e => decide (key x ≤ key e)) (w := hlt)
      rw [← heq]
      exact of_decide_eq_true hnot
    simp only [hget, (h e hmem).2]
    by_cases hkey : key e = key x
    · simp [Option.filter, hkey]
    · have hlt : key x < key e := lt_of_le_of_ne hle (Ne.symm hkey)
      simp [Option.filter, hkey, hlt]

omit [LinearOrder κ] in
theorem merge_congr {p q : ε → ε → Bool} {l₁ l₂ : List ε} (h : ∀ a ∈ l₁, ∀ b ∈ l₂, p a b = q a b) :
    l₁.merge l₂ p = l₁.merge l₂ q := by
  induction l₁ generalizing l₂ with
  | nil => rw [nil_merge, nil_merge]
  | cons a l₁ ih₁ =>
    induction l₂ with
    | nil => rw [merge_right, merge_right]
    | cons b l₂ ih₂ => rw [cons_merge_cons, cons_merge_cons, h a (by simp) b (by simp),
        ih₁ fun c hc d hd => h c (mem_cons_of_mem _ hc) d hd,
        ih₂ fun c hc d hd => h c hc d (mem_cons_of_mem _ hd)]

omit [LinearOrder κ] in
theorem mergeSorted_eq (l₁ l₂ : List ε) : mergeSorted less l₁ l₂ = l₁.merge l₂ fun a b => !less b a := by
  induction l₁ generalizing l₂ with
  | nil => rw [mergeSorted, nil_merge]
  | cons x l₁ ih₁ =>
    induction l₂ with
    | nil => simp [mergeSorted, ih₁]
    | cons b l₂ ih₂ =>
      by_cases h : less b x = true
      · rw [mergeSorted] at ih₂ ⊢
        rw [takeWhile_cons, dropWhile_cons, if_pos h, if_pos h, cons_append, ih₂,
          cons_merge_cons_neg _ _ _ (by simp [h])]
      · rw [mergeSorted, takeWhile_cons, dropWhile_cons, if_neg h, if_neg h, ih₁,
          cons_merge_cons_pos _ _ _ (by simp [h]), nil_append]

theorem mem_mergeIntoFlat {set flat : List ε} {e : ε} :
    e ∈ mergeIntoFlat less set flat ↔ e ∈ set ∨ e ∈ flat := by
  unfold mergeIntoFlat
  split_ifs with hempty
  · simp [List.isEmpty_iff.mp hempty]
  · rw [mergeSorted_eq, mem_merge]

/-! ## The two tiers -/

/-- The entries of the set and of the vector are those of one sorted list. -/
structure Tiers (key : ε → κ) (val : ε → β) (set flat : List ε) (all : List (κ × β)) : Prop where
  /-- The set is in order. -/
  set_increasing : Increasing key set
  /-- The vector is in order. -/
  flat_increasing : Increasing key flat
  /-- No key is in both. -/
  apart : ∀ a ∈ set, ∀ b ∈ flat, key a ≠ key b
  /-- The list is in order. -/
  all_increasing : Increasing fst all
  /-- It holds the keys and values of the entries. -/
  mem_iff : ∀ p, p ∈ all ↔ ∃ e, (e ∈ set ∨ e ∈ flat) ∧ (key e, val e) = p

namespace Tiers
variable {set flat : List ε} {all : List (κ × β)} {k : κ}

theorem empty : Tiers key val [] [] [] := ⟨increasing_nil, increasing_nil, by simp, increasing_nil, by simp⟩

theorem fresh_iff (h : Tiers key val set flat all) :
    (∀ p ∈ all, p.1 ≠ k) ↔ ∀ e, (e ∈ set ∨ e ∈ flat) → key e ≠ k := by
  constructor
  · intro hall e he
    exact hall (key e, val e) ((h.mem_iff _).mpr ⟨e, he, rfl⟩)
  · intro hall p hp
    obtain ⟨e, he, rfl⟩ := (h.mem_iff p).mp hp
    exact hall e he

theorem congr {key' : ε → κ} {val' : ε → β} (h : Tiers key val set flat all)
    (hsame : ∀ e, (e ∈ set ∨ e ∈ flat) → key' e = key e ∧ val' e = val e) : Tiers key' val' set flat all := by
  have hkey : ∀ {l : List ε}, (∀ e ∈ l, key' e = key e) → Increasing key l → Increasing key' l := by
    intro l hl hinc
    refine List.Pairwise.imp_of_mem ?_ hinc
    intro a b ha hb hlt
    rw [hl a ha, hl b hb]
    exact hlt
  refine ⟨hkey (fun e he => (hsame e (inl he)).1) h.set_increasing,
    hkey (fun e he => (hsame e (inr he)).1) h.flat_increasing, ?_, h.all_increasing, ?_⟩
  · intro a ha b hb
    rw [(hsame a (inl ha)).1, (hsame b (inr hb)).1]
    exact h.apart a ha b hb
  · intro p
    rw [h.mem_iff]
    refine exists_congr fun e => and_congr_right fun he => ?_
    rw [(hsame e he).1, (hsame e he).2]

section
variable (h : Tiers key val set flat all)
include h

/-- **A new entry.** -/
theorem insert {x : ε} (hfresh : ∀ e, (e ∈ set ∨ e ∈ flat) → key e ≠ key x) :
    Tiers key val (insertIfNotPresent key x set).2 flat (insertIfNotPresent fst (key x, val x) all).2 := by
  have hset : (insertIfNotPresent key x set).1 = true :=
    (insertIfNotPresent_fst h.set_increasing).mpr fun e he => hfresh e (inl he)
  have hall : (insertIfNotPresent fst (key x, val x) all).1 = true :=
    (insertIfNotPresent_fst h.all_increasing).mpr ((h.fresh_iff).mpr hfresh)
  refine ⟨h.set_increasing.insertIfNotPresent x, h.flat_increasing, ?_,
    h.all_increasing.insertIfNotPresent _, ?_⟩
  · intro a ha b hb
    rcases (mem_insertIfNotPresent hset a).mp ha with rfl | ha
    · exact (hfresh b (inr hb)).symm
    · exact h.apart a ha b hb
  · intro p
    rw [mem_insertIfNotPresent hall, h.mem_iff]
    constructor
    · rintro (rfl | ⟨e, he, rfl⟩)
      · exact ⟨x, inl ((mem_insertIfNotPresent hset x).mpr (inl rfl)), rfl⟩
      · exact ⟨e, he.imp_left fun he => (mem_insertIfNotPresent hset e).mpr (inr he), rfl⟩
    · rintro ⟨e, he | he, rfl⟩
      · rcases (mem_insertIfNotPresent hset e).mp he with rfl | he
        · exact inl rfl
        · exact inr ⟨e, inl he, rfl⟩
      · exact inr ⟨e, inr he, rfl⟩

theorem insertIfNotPresent {x : ε} (hflat : ∀ e ∈ flat, key e ≠ key x) :
    (Sorted.insertIfNotPresent key x set).1 = (Sorted.insertIfNotPresent fst (key x, val x) all).1 ∧
      Tiers key val (Sorted.insertIfNotPresent key x set).2 flat
        (Sorted.insertIfNotPresent fst (key x, val x) all).2 := by
  have hfresh : (∀ e, (e ∈ set ∨ e ∈ flat) → key e ≠ key x) ↔ ∀ e ∈ set, key e ≠ key x :=
    ⟨fun hall e he => hall e (inl he), fun hset e he => he.elim (hset e) (hflat e)⟩
  have hset := insertIfNotPresent_fst h.set_increasing (x := x)
  have hall := insertIfNotPresent_fst h.all_increasing (x := (key x, val x))
  have hsame : (Sorted.insertIfNotPresent key x set).1 =
      (Sorted.insertIfNotPresent fst (key x, val x) all).1 := by
    rw [Bool.eq_iff_iff, hset, hall]
    exact hfresh.symm.trans h.fresh_iff.symm
  refine ⟨hsame, ?_⟩
  cases hnew : (Sorted.insertIfNotPresent key x set).1 with
  | true => exact h.insert (hfresh.mpr (hset.mp hnew))
  | false =>
    rw [insertIfNotPresent_of_present hnew, insertIfNotPresent_of_present (hsame ▸ hnew)]
    exact h

theorem merge_increasing : Increasing key (set.merge flat fun a b => decide (key a ≤ key b)) := by
  have hle : ∀ {l : List ε}, Increasing key l → l.Pairwise fun a b => decide (key a ≤ key b) = true :=
    fun hl => hl.imp fun hlt => decide_eq_true hlt.le
  have hsorted := @List.pairwise_merge ε (fun a b => decide (key a ≤ key b))
    (fun a b c hab hbc => decide_eq_true ((of_decide_eq_true hab).trans (of_decide_eq_true hbc)))
    (fun a b => by simpa using le_total (key a) (key b))
    set flat (hle h.set_increasing) (hle h.flat_increasing)
  have hnodup : ((set ++ flat).map key).Nodup := by
    have hkeys : ∀ {l : List ε}, Increasing key l → (l.map key).Nodup :=
      fun hl => pairwise_map.mpr (hl.imp fun hlt => hlt.ne)
    rw [map_append]
    refine nodup_append.mpr ⟨hkeys h.set_increasing, hkeys h.flat_increasing, ?_⟩
    intro a ha b hb
    obtain ⟨x, hx, rfl⟩ := mem_map.mp ha
    obtain ⟨y, hy, rfl⟩ := mem_map.mp hb
    exact h.apart x hx y hy
  have hperm : (set.merge flat fun a b => decide (key a ≤ key b)).Perm (set ++ flat) :=
    merge_perm_append _
  have hmerged : ((set.merge flat fun a b => decide (key a ≤ key b)).map key).Nodup :=
    (hperm.map key).nodup_iff.mpr hnodup
  exact (hsorted.and (pairwise_map.mp hmerged)).imp fun ⟨hle, hne⟩ =>
    lt_of_le_of_ne (of_decide_eq_true hle) hne

/-- **A merge changes nothing.** -/
theorem merge (hless : ∀ a ∈ set, ∀ b ∈ flat, less b a = true ↔ key b < key a) :
    Tiers key val [] (mergeIntoFlat less set flat) all := by
  have hmerge : mergeIntoFlat less set flat = set.merge flat fun a b => decide (key a ≤ key b) := by
    unfold mergeIntoFlat
    split_ifs with hempty
    · rw [List.isEmpty_iff.mp hempty, nil_merge]
    · rw [mergeSorted_eq]
      refine merge_congr fun a ha b hb => ?_
      rw [Bool.eq_iff_iff, decide_eq_true_eq, Bool.not_eq_true', Bool.eq_false_iff, ne_eq,
        hless a ha b hb, not_lt]
  rw [hmerge]
  refine ⟨increasing_nil, h.merge_increasing, by simp, h.all_increasing, ?_⟩
  intro p
  rw [h.mem_iff]
  refine exists_congr fun e => and_congr_left fun _ => ?_
  rw [mem_merge]
  simp

end

/-- **Once merged, the vector is the list.** -/
theorem map_flat (h : Tiers key val [] flat all) : flat.map (fun e => (key e, val e)) = all := by
  have hflat : Increasing fst (flat.map fun e => (key e, val e)) :=
    pairwise_map.mpr h.flat_increasing
  refine eq_of_mem_iff hflat h.all_increasing ?_
  intro p
  rw [h.mem_iff, mem_map]
  simp

end Tiers

/-! ## Reading through a map -/

variable {f : ε → κ × β}

theorem lowerBound_map (hf : ∀ e, (f e).1 = key e) (l : List ε) (k : κ) :
    lowerBound fst (l.map f) k = lowerBound key l k := by
  unfold lowerBound
  rw [findIdx_map]
  refine findIdx_congr fun e _ => ?_
  simp [hf]

theorem upperBound_map (hf : ∀ e, (f e).1 = key e) (l : List ε) (k : κ) :
    upperBound fst (l.map f) k = upperBound key l k := by
  unfold upperBound
  rw [findIdx_map]
  refine findIdx_congr fun e _ => ?_
  simp [hf]

theorem find_map (hf : ∀ e, (f e).1 = key e) (l : List ε) (k : κ) :
    find fst (l.map f) k = (find key l k).map f := by
  unfold Sorted.find
  rw [lowerBound_map hf, List.getElem?_map]
  cases l[lowerBound key l k]? with
  | none => rfl
  | some e => by_cases hkey : key e = k <;> simp [Option.filter, hf, hkey]

end Protoc.Lib
