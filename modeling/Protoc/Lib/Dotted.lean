import Protoc.Lib.Sorted

/-!
# Dotted names

A name is a list of letters, and a delimiter among them separates its components.  One
name encloses another when it equals it, or the other goes on with a delimiter.

In the order of the dictionary the names inside a given one follow it, and where no
letter sorts before the delimiter nothing comes in between.  So the neighbours in a sorted
list decide what a name lies inside, and what lies inside it.
-/

namespace Protoc.Lib

open List

universe u v
variable {α : Type u} {c : α}

/-- The outer name is the inner one, or the inner one goes on with a delimiter. -/
def Encloses (c : α) (outer inner : List α) : Prop :=
  inner = outer ∨ ∃ rest, inner = outer ++ c :: rest

theorem Encloses.refl (c : α) (name : List α) : Encloses c name name := Or.inl rfl

variable [LinearOrder α]

variable {x y : List α}

theorem cons_le_cons_iff {a b : α} : a :: x ≤ b :: y ↔ a < b ∨ a = b ∧ x ≤ y := by
  rw [← not_lt, cons_lt_cons_iff, ← not_lt (a := y)]
  rcases lt_trichotomy a b with hlt | rfl | hgt
  · simp [hlt, hlt.not_gt, hlt.ne, hlt.ne']
  · simp
  · simp [hgt, hgt.not_gt, hgt.ne']

theorem nil_le (x : List α) : [] ≤ x := by
  rw [← not_lt]
  exact not_lt_nil x

theorem le_append (x rest : List α) : x ≤ x ++ rest := by
  induction x with
  | nil => exact nil_le _
  | cons a x ih => exact cons_le_cons_iff.mpr (Or.inr ⟨rfl, ih⟩)

theorem Encloses.le (h : Encloses c x y) : x ≤ y := by
  rcases h with rfl | ⟨r, rfl⟩
  · exact le_rfl
  · exact le_append x _

theorem Encloses.lt (h : Encloses c x y) (hne : x ≠ y) : x < y := lt_of_le_of_ne h.le hne

theorem prefix_of_between {name x rest : List α} (hlow : name ≤ x) (hhigh : x ≤ name ++ rest) :
    ∃ s, x = name ++ s := by
  induction name generalizing x with
  | nil => exact ⟨x, rfl⟩
  | cons a name ih =>
    cases x with
    | nil => exact absurd hlow (not_le.mpr (nil_lt_cons a name))
    | cons b x =>
      rw [cons_append] at hhigh
      rcases cons_le_cons_iff.mp hlow with hab | ⟨rfl, htail⟩
      · rcases cons_le_cons_iff.mp hhigh with hba | ⟨rfl, -⟩
        · exact absurd hab hba.not_gt
        · exact absurd hab (lt_irrefl _)
      · rcases cons_le_cons_iff.mp hhigh with hba | ⟨-, hhigh⟩
        · exact absurd hba (lt_irrefl _)
        · obtain ⟨s, rfl⟩ := ih htail hhigh
          exact ⟨s, rfl⟩

/-- **What sorts between a name and one inside it is inside it too**, where no letter sorts
before the delimiter. -/
theorem Encloses.of_between {outer x inner : List α} (h : Encloses c outer inner)
    (hlow : outer ≤ x) (hhigh : x ≤ inner) (hletters : ∀ b ∈ x, c ≤ b) : Encloses c outer x := by
  rcases h with rfl | ⟨rest, rfl⟩
  · exact Or.inl (le_antisymm hhigh hlow)
  obtain ⟨s, rfl⟩ := prefix_of_between hlow hhigh
  cases s with
  | nil => exact Or.inl (by simp)
  | cons b s =>
    have hcb : c ≤ b := hletters b (by simp)
    have htail : b :: s ≤ c :: rest := by
      by_contra hgt
      exact absurd hhigh (not_le.mpr (append_left_lt (not_le.mp hgt)))
    have hbc : b ≤ c := by
      rcases cons_le_cons_iff.mp htail with hlt | ⟨heq, -⟩
      · exact hlt.le
      · exact heq.le
    rw [le_antisymm hbc hcb]
    exact Or.inr ⟨s, rfl⟩

/-! ## Neighbours in a sorted list -/

section Neighbours

open Sorted

variable {ε : Type v} {key : ε → List α} {l : List ε} {name : List α}

omit [LinearOrder α] in
/-- No name of the list encloses another. -/
def Separate (c : α) (key : ε → List α) (l : List ε) : Prop :=
  ∀ a ∈ l, ∀ b ∈ l, Encloses c (key a) (key b) → a = b

def Legal (c : α) (key : ε → List α) (l : List ε) : Prop := ∀ e ∈ l, ∀ b ∈ key e, c ≤ b

/-- **The entry around a name is the last one at or below it.** -/
theorem last_encloses (hl : Increasing key l) (hseparate : Separate c key l)
    (hlegal : Legal c key l) {e : ε} (hmem : e ∈ l) (hinside : Encloses c (key e) name) :
    ∃ n, upperBound key l name = n + 1 ∧ l[n]? = some e := by
  obtain ⟨n, hlt, hn, hlow, hlast⟩ := exists_last_le hl hmem hinside.le
  have hmem' : l[n] ∈ l := getElem_mem hlt
  have hsame : e = l[n] := hseparate e hmem _ hmem' (hinside.of_between hlow hlast (hlegal _ hmem'))
  exact ⟨n, hn, by rw [List.getElem?_eq_getElem hlt, ← hsame]⟩

/-- **If anything lies inside a name, the first entry above it does.** -/
theorem first_enclosed (hl : Increasing key l) (hlegal : Legal c key l) {e : ε} (hmem : e ∈ l)
    (hinside : Encloses c name (key e)) (hne : name ≠ key e) :
    ∃ first, l[upperBound key l name]? = some first ∧ Encloses c name (key first) := by
  obtain ⟨hlt, hlow, hhigh⟩ := exists_first_gt hl hmem (hinside.lt hne)
  exact ⟨_, List.getElem?_eq_getElem hlt, hinside.of_between hlow.le hhigh (hlegal _ (getElem_mem hlt))⟩

end Neighbours

end Protoc.Lib
