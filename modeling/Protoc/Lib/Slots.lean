import Mathlib.Data.List.Basic

/-!
# Arrays whose first slots are filled

An array is a function from indices to what was stored there, with `none` where nothing was.
What a program keeps in one is the list that its first slots hold.
-/

namespace Protoc.Lib.Slots

universe u
variable {α : Type u} {slots : ℕ → Option α} {l m : List α} {x : α} {i : ℕ}

open Function (update)

def Reads (slots : ℕ → Option α) (l : List α) : Prop := ∀ i < l.length, slots i = l[i]?

theorem reads_nil : Reads slots [] := fun _ hi => absurd hi (Nat.not_lt_zero _)

namespace Reads

theorem of_append (h : Reads slots (l ++ m)) : Reads slots l := by
  intro i hi
  rw [h i (by rw [List.length_append]; omega), List.getElem?_append_left hi]

theorem next (h : Reads slots (l ++ x :: m)) : slots l.length = some x := by
  rw [h l.length (by simp)]
  simp

theorem after (h : Reads slots (l ++ m)) {i : ℕ} (hi : i < m.length) : slots (l.length + i) = m[i]? := by
  rw [h _ (by rw [List.length_append]; omega), List.getElem?_append_right (Nat.le_add_right _ _),
    Nat.add_sub_cancel_left]

theorem push (h : Reads slots l) (x : α) : Reads (update slots l.length (some x)) (l ++ [x]) := by
  intro i hi
  rcases Nat.lt_or_ge i l.length with hlt | hge
  · rw [Function.update_of_ne (Nat.ne_of_lt hlt), List.getElem?_append_left hlt]
    exact h i hlt
  · obtain rfl : i = l.length := by simp at hi; omega
    simp

theorem set (h : Reads slots l) (i : ℕ) (x : α) : Reads (update slots i (some x)) (l.set i x) := by
  intro j hj
  rw [List.length_set] at hj
  rcases eq_or_ne j i with rfl | hne
  · simp [hj]
  · rw [Function.update_of_ne hne, List.getElem?_set_ne hne.symm]
    exact h j hj

theorem set_next {y : α} (h : Reads slots (l ++ y :: m)) (x : α) :
    Reads (update slots l.length (some x)) (l ++ x :: m) := by
  have hset := h.set l.length x
  rwa [List.set_append_right _ _ (Nat.le_refl _), Nat.sub_self, List.set_cons_zero] at hset

theorem copy (h : Reads slots l) : Reads (fun i => if i < l.length then slots i else none) l := by
  intro i hi
  exact (if_pos hi).trans (h i hi)

end Reads

/-! ## Closing a gap -/

/-- `for (i = first; count > 0; ++i, --count) slots[i - distance] = slots[i];` -/
def shiftDown (distance : ℕ) : ℕ → ℕ → (ℕ → Option α) → Option (ℕ → Option α)
  | _, 0, slots => some slots
  | first, count + 1, slots => do
      let x ← slots first
      shiftDown distance (first + 1) count (update slots (first - distance) (some x))

theorem shiftDown_spec {distance first : ℕ} (hpos : 0 < distance) (hle : distance ≤ first)
    (h : ∀ i < l.length, slots (first + i) = l[i]?) :
    ∃ slots', shiftDown distance first l.length slots = some slots' ∧
      (∀ i < l.length, slots' (first - distance + i) = l[i]?) ∧ ∀ i < first - distance, slots' i = slots i := by
  induction l generalizing slots first with
  | nil => exact ⟨slots, rfl, fun i hi => absurd hi (Nat.not_lt_zero i), fun i _ => rfl⟩
  | cons x l ih =>
    have hfirst : slots first = some x := by simpa using h 0 (by simp)
    have hrest : ∀ i < l.length,
        update slots (first - distance) (some x) (first + 1 + i) = l[i]? := by
      intro i hi
      have hnext := h (i + 1) (by simpa using hi)
      rw [Function.update_of_ne (by omega), show first + 1 + i = first + (i + 1) by omega, hnext]
      rfl
    have hle' : distance ≤ first + 1 := Nat.le_succ_of_le hle
    obtain ⟨slots', hshift, hmoved, hkept⟩ := ih hle' hrest
    refine ⟨slots', ?_, ?_, ?_⟩
    · rw [List.length_cons, shiftDown, hfirst]
      exact hshift
    · intro i hi
      rcases i with _ | i
      · rw [Nat.add_zero, hkept _ (by omega)]
        simp
      · rw [show first - distance + (i + 1) = first + 1 - distance + i by omega,
          hmoved i (by simpa using hi)]
        rfl
    · intro i hi
      rw [hkept i (by omega), Function.update_of_ne (by omega)]

/-- **Closing a gap** takes the elements in it out of the list. -/
theorem shiftDown_reads {gap : List α} (hgap : gap ≠ []) (h : Reads slots (l ++ gap ++ m)) :
    ∃ slots', shiftDown gap.length (l.length + gap.length) m.length slots = some slots' ∧
      Reads slots' (l ++ m) := by
  have hbehind : ∀ i < m.length, slots (l.length + gap.length + i) = m[i]? := by
    intro i hi
    rw [← List.length_append]
    exact h.after hi
  obtain ⟨slots', hshift, hmoved, hkept⟩ :=
    shiftDown_spec (List.length_pos_of_ne_nil hgap) (Nat.le_add_left _ _) hbehind
  rw [Nat.add_sub_cancel] at hmoved hkept
  refine ⟨slots', hshift, fun i hi => ?_⟩
  rcases Nat.lt_or_ge i l.length with hlt | hge
  · rw [hkept i hlt, List.getElem?_append_left hlt]
    exact h.of_append.of_append i hlt
  · obtain ⟨j, rfl⟩ := Nat.exists_eq_add_of_le hge
    rw [List.length_append] at hi
    rw [hmoved j (by omega), List.getElem?_append_right hge, Nat.add_sub_cancel_left]

end Protoc.Lib.Slots
