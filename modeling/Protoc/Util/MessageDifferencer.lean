import Mathlib.Data.Fintype.Basic
import Mathlib.Order.WellFounded
import Protoc.Lib.Ranks

/-!
# Repeated fields as sets

`MatchRepeatedFieldIndices` pairs the elements of two repeated fields.  Treated as sets, each element takes
the first one that is free and equal; treated as smart sets, it takes the one with the fewest reported differences,
where zero counts as a match.  Messages that differ can be compared without a report, and then the pairs may be
wrong.

The scope is `FULL`.  The number of differences stands for the reports of `NumDiffsReporter`; the reporter of the
caller is there or not.
-/

namespace Protoc.Util.MessageDifferencer

open Function (update)
open List
open Protoc.Lib

/-! ## From the source -/

/-- A message: an `Any` with a payload that can be unpacked, or one that is compared by its fields. -/
inductive Message (D C : Type)
  | fields (descriptor : D) (content : C)
  | any (descriptor : D) (payload : Message D C)
  deriving DecidableEq

/-- `FieldComparator::ComparisonResult` -/
inductive ComparisonResult
  | same
  | different
  | recurse
  deriving DecidableEq

section
variable {D C : Type} [DecidableEq D]

/-- `GetDescriptor` -/
def Message.descriptor : Message D C → D
  | .fields descriptor _ => descriptor
  | .any descriptor _ => descriptor

variable (compareFields : Message D C → Message D C → Bool × ℕ)

/-- `Compare`: the result, and the number of differences that are reported.  The unknown fields and the
requested fields are compared last. -/
def compare : Message D C → Message D C → Bool × ℕ
  | .any descriptor₁ data₁, .any descriptor₂ data₂ =>
    if descriptor₁ ≠ descriptor₂ then (false, 0)
    else if data₁.descriptor ≠ data₂.descriptor then (false, 0)
    else compare data₁ data₂
  | message₁, message₂ =>
    if message₁.descriptor ≠ message₂.descriptor then (false, 0) else compareFields message₁ message₂

/-- `CompareFieldValueUsingParentFields` of two elements. -/
def compareFieldValue (comparator : Message D C → Message D C → ComparisonResult) (m₁ m₂ : Message D C) : Bool × ℕ :=
  match comparator m₁ m₂ with
  | .recurse => compare compareFields m₁ m₂
  | result => (result == .same, 0)

end

/-- The lists of `MatchRepeatedFieldIndices`, where `none` is `-1`. -/
structure MatchLists (count₁ count₂ : ℕ) where
  matchList₁ : Fin count₁ → Option (Fin count₂)
  matchList₂ : Fin count₂ → Option (Fin count₁)
  numDiffsList₁ : Fin count₁ → ℕ

namespace MatchLists
variable {count₁ count₂ : ℕ}

/-- Nothing is matched; the numbers of differences are `std::numeric_limits<int32_t>::max()`. -/
def start : MatchLists count₁ count₂ := ⟨fun _ => none, fun _ => none, fun _ => 2147483647⟩

/-- `match_list1->at(i) = j` and `match_list2->at(j) = i` -/
def pair (i : Fin count₁) (j : Fin count₂) (s : MatchLists count₁ count₂) : MatchLists count₁ count₂ :=
  { s with matchList₁ := update s.matchList₁ i (some j), matchList₂ := update s.matchList₂ j (some i) }

/-- `match_list1->at(match_list2->at(j)) = -1` -/
def revert (j : Fin count₂) (s : MatchLists count₁ count₂) : MatchLists count₁ count₂ :=
  { s with matchList₁ := (s.matchList₂ j).elim s.matchList₁ fun i => update s.matchList₁ i none }

/-- `num_diffs_list1[i] = numDiffs` -/
def setDiffs (i : Fin count₁) (numDiffs : ℕ) (s : MatchLists count₁ count₂) : MatchLists count₁ count₂ :=
  { s with numDiffsList₁ := update s.numDiffsList₁ i numDiffs }

end MatchLists

variable {E : Type} (cmp : E → E → Bool × ℕ) (smart reporter : Bool) (xs ys : List E)

/-- `IsMatch`, and the number of differences. -/
def isMatch (i : Fin xs.length) (j : Fin ys.length) : Bool × ℕ := cmp (xs.get i) (ys.get j)

/-- The first loop, over what is the same at the start: where it ends, and the lists. -/
def matchStart : List (Fin xs.length) → List (Fin ys.length) → MatchLists xs.length ys.length →
    ℕ × MatchLists xs.length ys.length
  | i :: is, j :: js, s =>
    if (isMatch cmp xs ys i j).1 then matchStart is js (s.pair i j) else (i, s)
  | _, _, s => (min xs.length ys.length, s)

/-- The element `j` is matched, and `i` does not look at it. -/
def Passed (s : MatchLists xs.length ys.length) (i : Fin xs.length) (j : Fin ys.length) : Prop :=
  ∃ k ∈ s.matchList₂ j, smart = false ∨ s.numDiffsList₁ i = 0 ∨ s.numDiffsList₁ k = 0

instance (s : MatchLists xs.length ys.length) (i : Fin xs.length) (j : Fin ys.length) :
    Decidable (Passed smart xs ys s i j) :=
  inferInstanceAs (Decidable (∃ k ∈ s.matchList₂ j, smart = false ∨ s.numDiffsList₁ i = 0 ∨ s.numDiffsList₁ k = 0))

/-- The loop over `j`: the element `matched_j`, and the lists. -/
def findMatch (i : Fin xs.length) : List (Fin ys.length) → Option (Fin ys.length) →
    MatchLists xs.length ys.length → Option (Fin ys.length) × MatchLists xs.length ys.length
  | [], matched, s => (matched, s)
  | j :: rest, matched, s =>
    if Passed smart xs ys s i j then findMatch i rest matched s
    else
      let r := isMatch cmp xs ys i j
      if r.1 then (some j, if smart then s.setDiffs i 0 else s)
      else if smart = true ∧ r.2 < s.numDiffsList₁ i ∧ ∀ k ∈ s.matchList₂ j, r.2 < s.numDiffsList₁ k then
        if r.2 = 0 then (some j, s.setDiffs i 0) else findMatch i rest (some j) (s.setDiffs i r.2)
      else findMatch i rest matched s

/-- The loop over `i`: whether all have been matched, and the lists. -/
def matchOthers (js : List (Fin ys.length)) : List (Fin xs.length) → Bool → MatchLists xs.length ys.length →
    Bool × MatchLists xs.length ys.length
  | [], success, s => (success, s)
  | i :: rest, success, s =>
    let r := findMatch cmp smart xs ys i js none s
    match r.1 with
    | none => if reporter then matchOthers js rest false r.2 else (false, r.2)
    | some j =>
      let s := if smart then (r.2.revert j).pair i j else r.2.pair i j
      if smart = true ∧ (r.2.matchList₂ j).isSome then
        if reporter then matchOthers js rest false s else (false, s)
      else matchOthers js rest success s

/-- `MatchRepeatedFieldIndices` -/
def matchRepeatedFieldIndices : Bool × MatchLists xs.length ys.length :=
  let r := matchStart cmp xs ys (List.finRange xs.length) (List.finRange ys.length) .start
  matchOthers cmp smart reporter xs ys ((List.finRange ys.length).drop r.1)
    ((List.finRange xs.length).drop r.1) true r.2

/-- `CompareRepeatedRep`: no two elements that are matched differ, no element has been added and none deleted. -/
def compareRepeatedRep : Bool :=
  if xs.length ≠ ys.length ∧ reporter = false then false
  else if xs.length > ys.length ∧ reporter = false then false
  else
    let r := matchRepeatedFieldIndices cmp smart reporter xs ys
    if r.1 = false ∧ reporter = false then false
    else
      ((List.finRange xs.length).all fun i =>
        (r.2.matchList₁ i).elim true fun j => (isMatch cmp xs ys i j).1) &&
      ((List.finRange ys.length).all fun j => (r.2.matchList₂ j).isSome) &&
      ((List.finRange xs.length).all fun i => (r.2.matchList₁ i).isSome)

/-! ## Equal as multisets -/

def same (x y : E) : Bool := (cmp x y).1

/-- The lists are equal as multisets up to the comparison of their elements. -/
def EqualAsMultisets : Prop := Multiset.Rel (fun x y => same cmp x y = true) (xs : Multiset E) ys

/-- Where each element has the equal one of its own rank as a partner, the partner of `i` is not before `j`, and the
partner of `j` not before `i`. -/
def Crosses (i : Fin xs.length) (j : Fin ys.length) : Prop :=
  before (same cmp) (xs.get i) ys j ≤ before (same cmp) (xs.get i) xs i ∧
    before (same cmp) (ys.get j) xs i ≤ before (same cmp) (ys.get j) ys j

instance (i : Fin xs.length) (j : Fin ys.length) : Decidable (Crosses cmp xs ys i j) :=
  inferInstanceAs (Decidable (_ ∧ _))

/-! ## The lists -/

section Lists

theorem drop_finRange {n k : ℕ} {i : Fin n} {rest : List (Fin n)} (h : i :: rest = (List.finRange n).drop k) :
    (i : ℕ) = k ∧ rest = (List.finRange n).drop (k + 1) := by
  have hk : k < (List.finRange n).length := by
    by_contra hk
    rw [drop_of_length_le (Nat.le_of_not_lt hk)] at h
    cases h
  rw [drop_eq_getElem_cons hk, getElem_finRange] at h
  cases h
  exact ⟨rfl, rfl⟩

theorem mem_drop_finRange {n k : ℕ} {j : Fin n} : j ∈ (List.finRange n).drop k ↔ k ≤ j := by
  rw [mem_drop_iff_getElem]
  constructor
  · rintro ⟨l, hl, rfl⟩
    simp
  · intro hk
    exact ⟨j - k, by simp; omega, by ext; simp; omega⟩

variable {n m : ℕ} {s : MatchLists n m} {i i' : Fin n} {j j' : Fin m} {d d' : ℕ}

theorem revert_of_none (h : s.matchList₂ j = none) : s.revert j = s := by
  rw [MatchLists.revert, h]
  rfl

theorem setDiffs_setDiffs : (s.setDiffs i d).setDiffs i d' = s.setDiffs i d' := by
  simp [MatchLists.setDiffs]

def Coherent (s : MatchLists n m) : Prop := ∀ i j, s.matchList₁ i = some j ↔ s.matchList₂ j = some i

theorem matchList₁_revert (h : s.matchList₂ j ≠ some i) : (s.revert j).matchList₁ i = s.matchList₁ i := by
  rw [MatchLists.revert]
  cases hk : s.matchList₂ j with
  | none => rfl
  | some k => exact Function.update_of_ne (fun heq => h (hk.trans (congrArg some heq.symm))) _ _

theorem Coherent.take (h : Coherent s) (hi : s.matchList₁ i = none) : Coherent ((s.revert j).pair i j) := by
  intro i' j'
  change update (s.revert j).matchList₁ i (some j) i' = some j' ↔ update s.matchList₂ j (some i) j' = some i'
  by_cases heqi : i' = i
  · subst heqi
    rw [Function.update_self]
    by_cases heqj : j' = j
    · rw [heqj, Function.update_self]
      exact iff_of_true rfl rfl
    · rw [Function.update_of_ne heqj, ← h, hi]
      exact iff_of_false (fun heq => heqj (Option.some_inj.mp heq).symm) nofun
  · rw [Function.update_of_ne heqi]
    by_cases hlost : s.matchList₂ j = some i'
    · have hnone : (s.revert j).matchList₁ i' = none := by
        rw [MatchLists.revert, hlost]
        exact Function.update_self _ _ _
      rw [hnone]
      refine iff_of_false nofun fun heq => ?_
      by_cases heqj : j' = j
      · rw [heqj, Function.update_self] at heq
        exact heqi (Option.some_inj.mp heq).symm
      · rw [Function.update_of_ne heqj, ← h, (h i' j).mpr hlost] at heq
        exact heqj (Option.some_inj.mp heq).symm
    · rw [matchList₁_revert hlost]
      by_cases heqj : j' = j
      · rw [heqj, Function.update_self, h]
        exact iff_of_false hlost fun heq => heqi (Option.some_inj.mp heq).symm
      · rw [Function.update_of_ne heqj]
        exact h i' j'

theorem take_fresh (hne : i' ≠ i) (hi' : s.matchList₁ i' = none) : ((s.revert j).pair i j).matchList₁ i' = none := by
  refine (Function.update_of_ne hne _ _).trans ?_
  rw [MatchLists.revert]
  cases s.matchList₂ j with
  | none => exact hi'
  | some k =>
    by_cases heq : i' = k
    · exact heq ▸ Function.update_self _ _ _
    · exact (Function.update_of_ne heq _ _).trans hi'

/-- A pair that no later element looks at. -/
structure Spoilt (i : Fin n) (j : Fin m) (s : MatchLists n m) : Prop where
  list₁ : s.matchList₁ i = some j
  list₂ : s.matchList₂ j = some i
  only : ∀ j', s.matchList₂ j' = some i → j' = j
  diffs : s.numDiffsList₁ i = 0

theorem Spoilt.take (h : Spoilt i j s) (hi : i ≠ i') (hj : j' ≠ j) : Spoilt i j ((s.revert j').pair i' j') where
  list₁ := (Function.update_of_ne hi _ _).trans ((matchList₁_revert fun heq => hj (h.only j' heq)).trans h.list₁)
  list₂ := (Function.update_of_ne hj.symm _ _).trans h.list₂
  only k heq := by
    change update s.matchList₂ j' (some i') k = some i at heq
    rw [Function.update_apply] at heq
    split at heq
    · exact absurd (Option.some_inj.mp heq).symm hi
    · exact h.only k heq
  diffs := h.diffs

end Lists

variable {cmp smart reporter xs ys}
variable {s : MatchLists xs.length ys.length} {i k : Fin xs.length} {j p : Fin ys.length}
variable {js : List (Fin ys.length)} {is : List (Fin xs.length)} {matched : Option (Fin ys.length)} {success : Bool}

/-! ## The loop over `j` -/

variable (cmp smart) in
/-- Only the number of differences of `i` changes. -/
theorem findMatch_frame (i : Fin xs.length) (js : List (Fin ys.length)) (matched : Option (Fin ys.length))
    (s : MatchLists xs.length ys.length) :
    (findMatch cmp smart xs ys i js matched s).2.matchList₁ = s.matchList₁ ∧
      (findMatch cmp smart xs ys i js matched s).2.matchList₂ = s.matchList₂ ∧
      ∀ k, k ≠ i → (findMatch cmp smart xs ys i js matched s).2.numDiffsList₁ k = s.numDiffsList₁ k := by
  have hset : ∀ (s : MatchLists xs.length ys.length) (d : ℕ) (k), k ≠ i →
      (s.setDiffs i d).numDiffsList₁ k = s.numDiffsList₁ k := fun s d k hk => Function.update_of_ne hk _ _
  induction js generalizing matched s with
  | nil => exact ⟨rfl, rfl, fun _ _ => rfl⟩
  | cons j rest ih =>
    rw [findMatch]
    split
    · exact ih matched s
    · dsimp only
      split
      · split
        · exact ⟨rfl, rfl, hset s 0⟩
        · exact ⟨rfl, rfl, fun _ _ => rfl⟩
      · split
        · split
          · exact ⟨rfl, rfl, hset s 0⟩
          · obtain ⟨h₁, h₂, hdiffs⟩ := ih (some j) (s.setDiffs i _)
            exact ⟨h₁, h₂, fun k hk => (hdiffs k hk).trans (hset s _ k hk)⟩
        · exact ih matched s

theorem findMatch_avoids (hj : s.matchList₂ j = some k) (hk : smart = false ∨ s.numDiffsList₁ k = 0) (hne : k ≠ i)
    (hmatched : matched ≠ some j) : (findMatch cmp smart xs ys i js matched s).1 ≠ some j := by
  induction js generalizing matched s with
  | nil => exact hmatched
  | cons j' rest ih =>
    rw [findMatch]
    by_cases hpassed : Passed smart xs ys s i j'
    · rw [if_pos hpassed]
      exact ih hj hk hmatched
    have hother : some j' ≠ some j := by
      intro heq
      cases heq
      exact hpassed ⟨k, hj, hk.imp_right .inr⟩
    rw [if_neg hpassed]
    dsimp only
    split
    · exact hother
    · split
      · split
        · exact hother
        · exact ih hj (hk.imp_right (Function.update_of_ne hne _ _).trans) hother
      · exact ih hj hk hmatched

variable (cmp smart xs ys) in
/-- Two elements differ, and a smart set sees no difference. -/
def Silent (i : Fin xs.length) (j : Fin ys.length) : Prop :=
  smart = true ∧ isMatch cmp xs ys i j = (false, 0)

variable (cmp smart) in
/-- The search ends at the element `j`. -/
def Decisive (s : MatchLists xs.length ys.length) (i : Fin xs.length) (j : Fin ys.length) : Prop :=
  s.matchList₂ j = none ∧ ((isMatch cmp xs ys i j).1 = true ∨ Silent cmp smart xs ys i j)

/-- **The search ends** at the first element that is decisive. -/
theorem findMatch_first (hmem : p ∈ js) (hsorted : js.Pairwise (· < ·)) (hp : Decisive cmp smart s i p)
    (hfirst : ∀ j ∈ js, j < p → ¬Decisive cmp smart s i j)
    (hzero : smart = true → ∀ j ∈ js, ∀ k, s.matchList₂ j = some k → s.numDiffsList₁ k = 0)
    (hpos : smart = true → 0 < s.numDiffsList₁ i) :
    findMatch cmp smart xs ys i js matched s = (some p, if smart then s.setDiffs i 0 else s) := by
  induction js generalizing matched s with
  | nil => cases hmem
  | cons j rest ih =>
    obtain ⟨hlt, hsorted⟩ := List.pairwise_cons.mp hsorted
    have hzero' := fun hsmart j hj => hzero hsmart j (mem_cons_of_mem _ hj)
    have hfirst' := fun j hj => hfirst j (mem_cons_of_mem _ hj)
    rw [findMatch]
    rcases List.mem_cons.mp hmem with rfl | hmem
    · have hnot : ¬Passed smart xs ys s i p := by
        rintro ⟨k, hk, -⟩
        exact Option.some_ne_none k (hk.symm.trans hp.1)
      rw [if_neg hnot]
      dsimp only
      rcases hp.2 with hsame | ⟨hsmart, hsilent⟩
      · rw [if_pos hsame]
      · subst hsmart
        rw [hsilent, if_neg Bool.false_ne_true, if_pos ⟨rfl, hpos rfl, by simp [hp.1]⟩, if_pos rfl]
        rfl
    · have hj := hfirst j mem_cons_self (hlt p hmem)
      by_cases hpassed : Passed smart xs ys s i j
      · rw [if_pos hpassed]
        exact ih hmem hsorted hp hfirst' hzero' hpos
      have hfree : s.matchList₂ j = none := by
        cases hk : s.matchList₂ j with
        | none => rfl
        | some k =>
          refine absurd ⟨k, hk, ?_⟩ hpassed
          cases hsmart : smart with
          | false => exact .inl rfl
          | true => exact .inr (.inr (hzero hsmart j mem_cons_self k hk))
      have hdiffer : (isMatch cmp xs ys i j).1 = false :=
        Bool.eq_false_iff.mpr fun hsame => hj ⟨hfree, .inl hsame⟩
      have hreported : smart = true → (isMatch cmp xs ys i j).2 ≠ 0 := fun hsmart hnone =>
        hj ⟨hfree, .inr ⟨hsmart, Prod.ext hdiffer hnone⟩⟩
      rw [if_neg hpassed]
      dsimp only
      rw [if_neg (by rw [hdiffer]; exact Bool.false_ne_true)]
      split
      · rename_i hfewer
        have hsmart := hfewer.1
        have hlive : ∀ k, s.numDiffsList₁ k = 0 → k ≠ i := by
          rintro k hk rfl
          exact absurd hk (Nat.ne_of_gt (hpos hsmart))
        rw [if_neg (hreported hsmart), ih (s := s.setDiffs i _) hmem hsorted hp hfirst' ?_ ?_, setDiffs_setDiffs, hsmart]
        · rfl
        · intro _ j hj k hk
          have hnone := hzero' hsmart j hj k hk
          exact (Function.update_of_ne (hlive k hnone) _ _).trans hnone
        · intro _
          change 0 < update s.numDiffsList₁ i _ i
          rw [Function.update_self]
          exact Nat.pos_of_ne_zero (hreported hsmart)
      · exact ih hmem hsorted hp hfirst' hzero' hpos

/-! ## The loop over `i` -/

/-- **The lists stay inverse** to each other. -/
theorem matchOthers_coherent (h : Coherent s) (hnodup : is.Nodup) (hfresh : ∀ i ∈ is, s.matchList₁ i = none) :
    Coherent (matchOthers cmp smart reporter xs ys js is success s).2 := by
  induction is generalizing success s with
  | nil => exact h
  | cons i rest ih =>
    obtain ⟨hi, hnodup⟩ := List.nodup_cons.mp hnodup
    obtain ⟨hnone, hfresh⟩ := List.forall_mem_cons.mp hfresh
    obtain ⟨h₁, h₂, -⟩ := findMatch_frame cmp smart i js none s
    have hfree : smart = false → ∀ j, (findMatch cmp smart xs ys i js none s).1 = some j →
        s.matchList₂ j = none := by
      intro hsmart j hj
      cases hk : s.matchList₂ j with
      | none => rfl
      | some k =>
        refine absurd hj (findMatch_avoids hk (.inl hsmart) ?_ nofun)
        rintro rfl
        exact Option.some_ne_none j (((h k j).mpr hk).symm.trans hnone)
    rw [matchOthers]
    generalize findMatch cmp smart xs ys i js none s = r at h₁ h₂ hfree
    obtain ⟨found, s'⟩ := r
    have hcoherent : Coherent s' := fun i j => by rw [h₁, h₂, h]
    rw [← h₁] at hnone hfresh
    dsimp only at h₂ hfree ⊢
    cases found with
    | none =>
      dsimp only
      split
      · exact ih hcoherent hnodup hfresh
      · exact hcoherent
    | some j =>
      have hnext : (if smart then (s'.revert j).pair i j else s'.pair i j) = (s'.revert j).pair i j := by
        cases hsmart : smart with
        | true => rfl
        | false => rw [revert_of_none (h₂ ▸ hfree hsmart j rfl)]; rfl
      have hcoherent' : Coherent ((s'.revert j).pair i j) := hcoherent.take hnone
      have hfresh' : ∀ i' ∈ rest, ((s'.revert j).pair i j).matchList₁ i' = none := fun i' hi' =>
        take_fresh (fun heq => hi (heq ▸ hi')) (hfresh i' hi')
      dsimp only
      rw [hnext]
      split
      · split
        · exact ih hcoherent' hnodup hfresh'
        · exact hcoherent'
      · exact ih hcoherent' hnodup hfresh'

/-- **A spoilt pair stays.** -/
theorem matchOthers_spoilt (h : Spoilt i j s) (hi : i ∉ is) :
    Spoilt i j (matchOthers cmp true reporter xs ys js is success s).2 := by
  induction is generalizing success s with
  | nil => exact h
  | cons i' rest ih =>
    obtain ⟨hne, hi⟩ := not_or.mp (mt List.mem_cons.mpr hi)
    have havoids : (findMatch cmp true xs ys i' js none s).1 ≠ some j :=
      findMatch_avoids h.list₂ (.inr h.diffs) hne nofun
    have hr : Spoilt i j (findMatch cmp true xs ys i' js none s).2 := by
      obtain ⟨h₁, h₂, hdiffs⟩ := findMatch_frame cmp true i' js none s
      exact ⟨by rw [h₁, h.list₁], by rw [h₂, h.list₂], by rw [h₂]; exact h.only, by rw [hdiffs i hne, h.diffs]⟩
    rw [matchOthers]
    generalize findMatch cmp true xs ys i' js none s = r at havoids hr
    obtain ⟨found, s'⟩ := r
    cases found with
    | none =>
      dsimp only
      split
      · exact ih hr hi
      · exact hr
    | some j' =>
      have hnext := hr.take hne fun heq => havoids (congrArg some heq)
      dsimp only
      rw [if_pos rfl]
      split
      · split
        · exact ih hnext hi
        · exact hnext
      · exact ih hnext hi

/-! ## What is the same at the start -/

variable (cmp) in
/-- The first `k` elements are matched with those at their own places. -/
structure Prefixed (k : ℕ) (s : MatchLists xs.length ys.length) : Prop where
  list₁ : ∀ i j, s.matchList₁ i = some j ↔ (i : ℕ) = j ∧ (i : ℕ) < k
  list₂ : ∀ i j, s.matchList₂ j = some i ↔ (i : ℕ) = j ∧ (i : ℕ) < k
  diffs : ∀ i, s.numDiffsList₁ i = 2147483647
  equal : ∀ (i : Fin xs.length) (j : Fin ys.length), (i : ℕ) = j → (i : ℕ) < k →
    same cmp (xs.get i) (ys.get j) = true

theorem Prefixed.next {n : ℕ} (h : Prefixed cmp n s) (hi : (i : ℕ) = n) (hj : (j : ℕ) = n)
    (hsame : same cmp (xs.get i) (ys.get j) = true) : Prefixed cmp (n + 1) (s.pair i j) where
  list₁ i' j' := by
    change update s.matchList₁ i (some j) i' = some j' ↔ _
    by_cases heq : i' = i
    · rw [heq, Function.update_self, Option.some_inj, Fin.ext_iff]
      omega
    · rw [Function.update_of_ne heq, h.list₁]
      rw [Fin.ext_iff] at heq
      omega
  list₂ i' j' := by
    change update s.matchList₂ j (some i) j' = some i' ↔ _
    by_cases heq : j' = j
    · rw [heq, Function.update_self, Option.some_inj, Fin.ext_iff]
      omega
    · rw [Function.update_of_ne heq, h.list₂]
      rw [Fin.ext_iff] at heq
      omega
  diffs := h.diffs
  equal i' j' heq hlt := by
    rcases Nat.lt_or_eq_of_le (Nat.le_of_lt_succ hlt) with hlt | hlast
    · exact h.equal i' j' heq hlt
    · obtain rfl : i' = i := Fin.ext (hlast.trans hi.symm)
      obtain rfl : j' = j := Fin.ext (heq.symm.trans (hlast.trans hj.symm))
      exact hsame

/-- **The first loop** matches what is the same at the start. -/
theorem matchStart_prefixed {n : ℕ} (h : Prefixed cmp n s) (hn : n ≤ min xs.length ys.length)
    (his : is = (List.finRange xs.length).drop n) (hjs : js = (List.finRange ys.length).drop n) :
    Prefixed cmp (matchStart cmp xs ys is js s).1 (matchStart cmp xs ys is js s).2 ∧
      (matchStart cmp xs ys is js s).1 ≤ min xs.length ys.length := by
  induction is generalizing js s n with
  | nil =>
    have hlength := congrArg List.length his
    rw [length_nil, length_drop, length_finRange] at hlength
    obtain rfl : n = min xs.length ys.length := by omega
    rw [matchStart]
    · exact ⟨h, hn⟩
    · nofun
  | cons i is ih =>
    obtain ⟨hi, his⟩ := drop_finRange his
    cases js with
    | nil =>
      have hlength := congrArg List.length hjs
      rw [length_nil, length_drop, length_finRange] at hlength
      obtain rfl : n = min xs.length ys.length := by omega
      rw [matchStart]
      · exact ⟨h, hn⟩
      · nofun
    | cons j js =>
      obtain ⟨hj, hjs⟩ := drop_finRange hjs
      rw [matchStart]
      split
      · rename_i hsame
        exact ih (h.next hi hj hsame) (by omega) his hjs
      · rw [hi]
        exact ⟨h, hn⟩

/-! ## Equal elements by their ranks -/

section Ranks
variable {n start : ℕ} {e : E} (heq : Equivalence fun x y => same cmp x y = true)

theorem same_isMatch : same cmp (xs.get i) (ys.get j) = (isMatch cmp xs ys i j).1 := rfl

include heq in
theorem Prefixed.before_eq (h : Prefixed cmp n s) (hn : n ≤ min xs.length ys.length) (e : E) {l : ℕ}
    (hl : l ≤ n) : before (same cmp) e ys l = before (same cmp) e xs l := by
  induction l with
  | zero => rfl
  | succ l ih =>
    have hx : l < xs.length := by omega
    have hy : l < ys.length := by omega
    have hsame := h.equal ⟨l, hx⟩ ⟨l, hy⟩ rfl hl
    have hiff : same cmp e (ys.get ⟨l, hy⟩) = same cmp e (xs.get ⟨l, hx⟩) :=
      Bool.eq_iff_iff.mpr ⟨fun he => heq.trans he (heq.symm hsame), fun he => heq.trans he hsame⟩
    have hysucc := before_succ (same cmp) e (⟨l, hy⟩ : Fin ys.length)
    have hxsucc := before_succ (same cmp) e (⟨l, hx⟩ : Fin xs.length)
    rw [hysucc, hxsucc, ih (Nat.le_of_succ_le hl), hiff]

include heq in
/-- Elements at the start have no silent difference before their partners. -/
theorem Prefixed.not_crosses (h : Prefixed cmp n s) (hn : n ≤ min xs.length ys.length) (hi : (i : ℕ) < n)
    (hsilent : Silent cmp smart xs ys i j) : ¬Crosses cmp xs ys i j := by
  rintro ⟨hpartner, hfree⟩
  rcases Nat.lt_trichotomy j i with hlt | heqi | hlt
  · have hlt' := before_lt (same cmp) (heq.refl (ys.get j)) hlt
    rw [h.before_eq heq hn _ (Nat.le_of_lt hi)] at hlt'
    exact absurd hlt' (Nat.not_lt.mpr hfree)
  · have hsame := h.equal i j heqi.symm hi
    rw [same_isMatch, hsilent.2] at hsame
    cases hsame
  · have hle := before_le (same cmp) (xs.get i) ys (Nat.succ_le_of_lt hlt)
    rw [h.before_eq heq hn _ hi, before_succ, if_pos (heq.refl (xs.get i))] at hle
    omega

variable (cmp smart) in
/-- The elements before `n` are matched with the equal ones of their ranks, from `start` on without differences. -/
structure Follows (start n : ℕ) (s : MatchLists xs.length ys.length) : Prop where
  matched : ∀ j, (s.matchList₂ j).isSome ↔
    before (same cmp) (ys.get j) ys j < before (same cmp) (ys.get j) xs n
  partner : ∀ i : Fin xs.length, (i : ℕ) < n →
    ∃ j, s.matchList₁ i = some j ∧ (isMatch cmp xs ys i j).1 = true
  front : ∀ j : Fin ys.length, (j : ℕ) < start → (s.matchList₂ j).isSome
  fresh : ∀ i j, s.matchList₂ j = some i → (i : ℕ) < n
  zero : smart = true → ∀ j : Fin ys.length, start ≤ j → ∀ k, s.matchList₂ j = some k → s.numDiffsList₁ k = 0
  positive : smart = true → ∀ i : Fin xs.length, n ≤ i → 0 < s.numDiffsList₁ i

include heq in
theorem Prefixed.follows (h : Prefixed cmp n s) (hn : n ≤ min xs.length ys.length) :
    Follows cmp smart n n s where
  matched j := by
    have hsome : (s.matchList₂ j).isSome ↔ (j : ℕ) < n := by
      rw [Option.isSome_iff_exists]
      constructor
      · rintro ⟨i, hi⟩
        obtain ⟨heqi, hlt⟩ := (h.list₂ i j).mp hi
        exact heqi ▸ hlt
      · exact fun hlt => ⟨⟨j, by omega⟩, (h.list₂ _ j).mpr ⟨rfl, hlt⟩⟩
    rw [hsome]
    rcases Nat.lt_or_ge j n with hlt | hge
    · refine iff_of_true hlt ?_
      rw [h.before_eq heq hn _ (Nat.le_of_lt hlt)]
      exact before_lt (same cmp) (i := ⟨j, by omega⟩) (heq.symm (h.equal _ j rfl hlt)) hlt
    · refine iff_of_false (Nat.not_lt.mpr hge) (Nat.not_lt.mpr ?_)
      rw [← h.before_eq heq hn _ (Nat.le_refl n)]
      exact before_le _ _ _ hge
  partner i hi := ⟨⟨i, by omega⟩, (h.list₁ i _).mpr ⟨rfl, hi⟩, h.equal i _ rfl hi⟩
  front j hj := Option.isSome_iff_exists.mpr ⟨⟨j, by omega⟩, (h.list₂ _ j).mpr ⟨rfl, hj⟩⟩
  fresh i j hi := ((h.list₂ i j).mp hi).2
  zero _ j hj k hk := by
    obtain ⟨heqk, hlt⟩ := (h.list₂ k j).mp hk
    omega
  positive _ i _ := by
    rw [h.diffs]
    decide

include heq in
theorem Follows.free_iff (h : Follows cmp smart start n s) (hsame : same cmp e (ys.get j) = true) :
    s.matchList₂ j = none ↔ before (same cmp) e xs n ≤ before (same cmp) e ys j := by
  rw [before_congr heq hsame, before_congr heq hsame, ← Nat.not_lt, ← h.matched j, Option.not_isSome_iff_eq_none]

variable (hcount : ∀ e, xs.countP (same cmp e) = ys.countP (same cmp e))

include heq hcount in
/-- An element has the equal one of its rank as a partner, which is free. -/
theorem Follows.exists_partner (h : Follows cmp smart start n s) (hi : (i : ℕ) = n) :
    ∃ q, s.matchList₂ q = none ∧ (isMatch cmp xs ys i q).1 = true ∧
      before (same cmp) (xs.get i) ys q = before (same cmp) (xs.get i) xs i := by
  have hlt := before_lt (same cmp) (heq.refl (xs.get i)) i.isLt
  rw [before_length _ (Nat.le_refl _), hcount] at hlt
  obtain ⟨q, hsame, hrank⟩ := exists_rank hlt
  exact ⟨q, (h.free_iff heq hsame).mpr (by rw [hrank, hi]), hsame, hrank⟩

include heq hcount in
/-- **One element** finds its partner, or one that crosses it silently. -/
theorem Follows.step (h : Follows cmp smart start n s) (hi : (i : ℕ) = n) :
    ∃ p, findMatch cmp smart xs ys i ((List.finRange ys.length).drop start) none s =
        (some p, if smart then s.setDiffs i 0 else s) ∧ s.matchList₂ p = none ∧
      ((isMatch cmp xs ys i p).1 = true ∧
          before (same cmp) (xs.get i) ys p = before (same cmp) (xs.get i) xs i ∧
          (∀ j, Silent cmp smart xs ys i j → ¬Crosses cmp xs ys i j) ∨
        Silent cmp smart xs ys i p ∧ Crosses cmp xs ys i p) := by
  obtain ⟨q, hqfree, hqsame, hqrank⟩ := h.exists_partner heq hcount hi
  obtain ⟨p, hp, hleast⟩ := (wellFounded_lt : WellFounded fun p q : Fin ys.length => p < q).has_min
    {j | Decisive cmp smart s i j} ⟨q, hqfree, .inl hqsame⟩
  have hpq : p ≤ q := Fin.not_lt.mp (hleast q ⟨hqfree, .inl hqsame⟩)
  have hstartp : start ≤ p := by
    by_contra hlt
    exact Option.not_isSome_iff_eq_none.mpr hp.1 (h.front p (Nat.lt_of_not_le hlt))
  have hrankle := before_le (same cmp) (xs.get i) ys hpq
  refine ⟨p, findMatch_first (mem_drop_finRange.mpr hstartp)
    ((pairwise_lt_finRange _).sublist (drop_sublist _ _)) hp (fun j _ hlt hj => hleast j hj hlt)
    (fun hsmart j hj => h.zero hsmart j (mem_drop_finRange.mp hj)) (fun hsmart => h.positive hsmart i (Nat.le_of_eq hi.symm)),
    hp.1, ?_⟩
  rcases hp.2 with hsame | hsilent
  · have hrank : before (same cmp) (xs.get i) ys p = before (same cmp) (xs.get i) xs i := by
      have hge := (h.free_iff heq hsame).mp hp.1
      rw [← hi] at hge
      omega
    refine .inl ⟨hsame, hrank, fun j hj hcrosses => ?_⟩
    have hfree : s.matchList₂ j = none := (h.free_iff heq (heq.refl (ys.get j))).mpr (hi ▸ hcrosses.2)
    have hne : p ≠ j := by
      rintro rfl
      simp [hj.2] at hsame
    have hlt : p < j := lt_of_le_of_ne (Fin.not_lt.mp (hleast j ⟨hfree, .inr hj⟩)) hne
    have hbefore := before_lt (same cmp) hsame hlt
    have hle := hcrosses.1
    omega
  · refine .inr ⟨hsilent, by omega, ?_⟩
    have hge := (h.free_iff heq (heq.refl (ys.get p))).mp hp.1
    rwa [hi]

include heq in
/-- The partner is matched. -/
theorem Follows.next (h : Follows cmp smart start n s) (hi : (i : ℕ) = n) (hfree : s.matchList₂ p = none)
    (hsame : (isMatch cmp xs ys i p).1 = true)
    (hrank : before (same cmp) (xs.get i) ys p = before (same cmp) (xs.get i) xs i) :
    Follows cmp smart start (n + 1) ((if smart then s.setDiffs i 0 else s).pair i p) := by
  subst hi
  have hlists : ∀ t : MatchLists xs.length ys.length, t = (if smart then s.setDiffs i 0 else s) →
      t.matchList₁ = s.matchList₁ ∧ t.matchList₂ = s.matchList₂ ∧
        (smart = true → t.numDiffsList₁ = update s.numDiffsList₁ i 0) := by
    rintro t rfl
    cases smart with
    | true => exact ⟨rfl, rfl, fun _ => rfl⟩
    | false => exact ⟨rfl, rfl, nofun⟩
  generalize (if smart then s.setDiffs i 0 else s) = t at hlists
  obtain ⟨h₁, h₂, hdiffs⟩ := hlists t rfl
  have hlist₂ : (t.pair i p).matchList₂ = update s.matchList₂ p (some i) := by rw [← h₂]; rfl
  have hlist₁ : (t.pair i p).matchList₁ = update s.matchList₁ i (some p) := by rw [← h₁]; rfl
  have hsame' : same cmp (xs.get i) (ys.get p) = true := hsame
  constructor
  · intro j
    rw [hlist₂, before_succ]
    by_cases heqj : j = p
    · subst heqj
      rw [Function.update_self, if_pos (heq.symm hsame'), ← before_congr heq hsame', ← before_congr heq hsame', hrank]
      exact iff_of_true rfl (Nat.lt_succ_self _)
    · rw [Function.update_of_ne heqj, h.matched]
      by_cases hs : same cmp (ys.get j) (xs.get i) = true
      · rw [if_pos hs, ← before_congr heq (heq.symm hs), ← before_congr heq (heq.symm hs)]
        rcases lt_or_gt_of_ne heqj with hlt | hlt
        · have hbefore := before_lt (same cmp) (heq.symm hs) hlt
          omega
        · have hbefore := before_lt (same cmp) hsame' hlt
          omega
      · rw [if_neg hs]
        rfl
  · intro i' hi'
    rw [hlist₁]
    by_cases heqi : i' = i
    · subst heqi
      exact ⟨p, Function.update_self _ _ _, hsame⟩
    · rw [Function.update_of_ne heqi]
      have hne := fun hval => heqi (Fin.ext hval)
      exact h.partner i' (by omega)
  · intro j hj
    rw [hlist₂]
    by_cases heqj : j = p
    · rw [heqj, Function.update_self]
      rfl
    · rw [Function.update_of_ne heqj]
      exact h.front j hj
  · intro i' j hj
    rw [hlist₂, Function.update_apply] at hj
    split at hj
    · cases hj
      exact Nat.lt_succ_self _
    · exact Nat.lt_succ_of_lt (h.fresh i' j hj)
  · intro hsmart j hj k hk
    change t.numDiffsList₁ k = 0
    rw [hdiffs hsmart, Function.update_apply]
    split
    · rfl
    · rename_i hne
      rw [hlist₂, Function.update_apply] at hk
      split at hk
      · exact absurd (Option.some_inj.mp hk).symm hne
      · exact h.zero hsmart j hj k hk
  · intro hsmart i' hi'
    change 0 < t.numDiffsList₁ i'
    rw [hdiffs hsmart, Function.update_of_ne (fun heqi => by rw [heqi] at hi'; omega)]
    exact h.positive hsmart i' (by omega)

include heq hcount in
/-- **The loop over `i`** follows the ranks, or spoils a pair that crosses silently. -/
theorem matchOthers_run (reporter : Bool) (h : Follows cmp smart start n s) (hn : n ≤ xs.length)
    (his : is = (List.finRange xs.length).drop n) (success : Bool) :
    let r := matchOthers cmp smart reporter xs ys ((List.finRange ys.length).drop start) is success s
    r.1 = success ∧ Follows cmp smart start xs.length r.2 ∧
        (∀ i : Fin xs.length, n ≤ i → ∀ j, Silent cmp smart xs ys i j → ¬Crosses cmp xs ys i j) ∨
      ∃ i j, Silent cmp smart xs ys i j ∧ Crosses cmp xs ys i j ∧ Spoilt i j r.2 := by
  induction is generalizing s n with
  | nil =>
    have hlength := congrArg List.length his
    rw [length_nil, length_drop, length_finRange] at hlength
    obtain rfl : n = xs.length := by omega
    exact .inl ⟨rfl, h, fun i hi => absurd i.isLt (Nat.not_lt.mpr hi)⟩
  | cons i rest ih =>
    obtain ⟨hi, hrest⟩ := drop_finRange his
    obtain ⟨p, hfind, hfree, hcase⟩ := h.step heq hcount hi
    have hfree' : (if smart then s.setDiffs i 0 else s).matchList₂ p = none := by
      cases smart <;> exact hfree
    have hnext : matchOthers cmp smart reporter xs ys ((List.finRange ys.length).drop start) (i :: rest)
        success s = matchOthers cmp smart reporter xs ys ((List.finRange ys.length).drop start) rest success
          ((if smart then s.setDiffs i 0 else s).pair i p) := by
      rw [matchOthers, hfind]
      dsimp only
      rw [hfree', revert_of_none hfree', ite_self, if_neg (by simp)]
    rw [hnext]
    rcases hcase with ⟨hsame, hrank, hnot⟩ | ⟨hsilent, hcrosses⟩
    · refine (ih (h.next heq hi hfree hsame hrank) (hi ▸ i.isLt) hrest).imp_left ?_
      rintro ⟨hsuccess, hfollows, hrest⟩
      refine ⟨hsuccess, hfollows, fun i' hi' => ?_⟩
      rcases Nat.lt_or_eq_of_le hi' with hlt | hlast
      · exact hrest i' hlt
      · obtain rfl : i' = i := Fin.ext (hlast.symm.trans hi.symm)
        exact hnot
    · right
      refine ⟨i, p, hsilent, hcrosses, ?_⟩
      have hsmart := hsilent.1
      subst hsmart
      refine matchOthers_spoilt ⟨Function.update_self _ _ _, Function.update_self _ _ _, fun j hj => ?_,
        Function.update_self _ _ _⟩ fun hmem => ?_
      · change update s.matchList₂ p (some i) j = some i at hj
        rw [Function.update_apply] at hj
        split at hj
        · assumption
        · exact absurd (h.fresh i j hj) (by omega)
      · rw [hrest, mem_drop_finRange] at hmem
        omega

end Ranks

/-! ## Smart sets -/

theorem prefixed_start (cmp : E → E → Bool × ℕ) (xs ys : List E) :
    Prefixed cmp 0 (MatchLists.start : MatchLists xs.length ys.length) where
  list₁ _ _ := iff_of_false nofun fun h => Nat.not_lt_zero _ h.2
  list₂ _ _ := iff_of_false nofun fun h => Nat.not_lt_zero _ h.2
  diffs _ := rfl
  equal _ _ _ h := absurd h (Nat.not_lt_zero _)

/-- **What is found equal is equal** as a multiset. -/
theorem equalAsMultisets_of_compareRepeatedRep (h : compareRepeatedRep cmp smart reporter xs ys = true) :
    EqualAsMultisets cmp xs ys := by
  have hcoherent : Coherent (matchRepeatedFieldIndices cmp smart reporter xs ys).2 := by
    obtain ⟨hstarts, -⟩ := matchStart_prefixed (prefixed_start cmp xs ys) (Nat.zero_le _) rfl rfl
    refine matchOthers_coherent (fun i j => (hstarts.list₁ i j).trans (hstarts.list₂ i j).symm)
      ((nodup_finRange _).sublist (drop_sublist _ _)) fun i hi => ?_
    rw [mem_drop_finRange] at hi
    refine Option.eq_none_iff_forall_ne_some.mpr fun j hj => ?_
    exact absurd ((hstarts.list₁ i j).mp hj).2 (Nat.not_lt.mpr hi)
  rw [compareRepeatedRep] at h
  split at h
  · cases h
  split at h
  · cases h
  dsimp only at h
  split at h
  · cases h
  simp only [Bool.and_eq_true, all_eq_true, mem_finRange, forall_const] at h
  obtain ⟨⟨hequal, hall₂⟩, hall₁⟩ := h
  generalize (matchRepeatedFieldIndices cmp smart reporter xs ys).2 = s at hcoherent hequal hall₁ hall₂
  have hpartner : ∀ i, s.matchList₁ i = some ((s.matchList₁ i).get (hall₁ i)) := fun i => (Option.some_get _).symm
  have hbijective : Function.Bijective fun i => (s.matchList₁ i).get (hall₁ i) := by
    refine ⟨fun i i' heq => ?_, fun j => ?_⟩
    · have hi := (hcoherent i _).mp (hpartner i)
      have hi' := (hcoherent i' _).mp (hpartner i')
      dsimp only at heq
      rw [heq] at hi
      exact Option.some_inj.mp (hi.symm.trans hi')
    · obtain ⟨i, hi⟩ := Option.isSome_iff_exists.mp (hall₂ j)
      exact ⟨i, Option.some_inj.mp ((hpartner i).symm.trans ((hcoherent i j).mpr hi))⟩
  have hys : (ys : Multiset E) = Finset.univ.val.map fun i => ys.get ((s.matchList₁ i).get (hall₁ i)) := by
    have hmap := (Multiset.bijective_iff_map_univ_eq_univ _).mp hbijective
    rw [← Function.comp_def, ← Multiset.map_map, hmap, Fin.univ_val_map, ofFn_get]
  have hxs : (xs : Multiset E) = Finset.univ.val.map xs.get := by rw [Fin.univ_val_map, ofFn_get]
  rw [EqualAsMultisets, hys, hxs, Multiset.rel_map]
  refine Multiset.rel_refl_of_refl_on fun i _ => ?_
  have hsame := hequal i
  rwa [hpartner i] at hsame

/-- **All are matched by their ranks**, or a pair that crosses silently is spoilt. -/
theorem matchRepeatedFieldIndices_run (smart reporter : Bool) (heq : Equivalence fun x y => same cmp x y = true)
    (hcount : ∀ e, xs.countP (same cmp e) = ys.countP (same cmp e)) :
    (matchRepeatedFieldIndices cmp smart reporter xs ys).1 = true ∧
        (∃ start, Follows cmp smart start xs.length (matchRepeatedFieldIndices cmp smart reporter xs ys).2) ∧
        (∀ i j, Silent cmp smart xs ys i j → ¬Crosses cmp xs ys i j) ∨
      ∃ i j, Silent cmp smart xs ys i j ∧ Crosses cmp xs ys i j ∧
        Spoilt i j (matchRepeatedFieldIndices cmp smart reporter xs ys).2 := by
  obtain ⟨hstarts, hle⟩ := matchStart_prefixed (prefixed_start cmp xs ys) (Nat.zero_le _) rfl rfl
  have hfollows : Follows cmp smart _ _ _ := hstarts.follows heq hle
  refine (matchOthers_run heq hcount reporter hfollows (by omega) rfl true).imp_left ?_
  rintro ⟨hsuccess, hend, hnot⟩
  refine ⟨hsuccess, ⟨_, hend⟩, fun i j hsilent => ?_⟩
  rcases Nat.lt_or_ge i (matchStart cmp xs ys (List.finRange _) (List.finRange _) .start).1 with hlt | hge
  · exact hstarts.not_crosses heq hle hlt hsilent
  · exact hnot i hge j hsilent

/-- **What is equal as a multiset is found equal** unless elements cross silently. -/
theorem compareRepeatedRep_iff (heq : Equivalence fun x y => same cmp x y = true) (h : EqualAsMultisets cmp xs ys) :
    compareRepeatedRep cmp smart reporter xs ys = true ↔
      ∀ i j, Silent cmp smart xs ys i j → ¬Crosses cmp xs ys i j := by
  have hlength : xs.length = ys.length := Multiset.card_eq_card_of_rel h
  have hcount : ∀ e, xs.countP (same cmp e) = ys.countP (same cmp e) := by
    intro e
    have htrans : IsTrans E fun x y => same cmp x y = true := ⟨fun _ _ _ => heq.trans⟩
    have hsymm : Std.Symm fun x y => same cmp x y = true := ⟨fun _ _ => heq.symm⟩
    have hcounts := Multiset.Rel.countP_eq _ e h
    simpa [Multiset.coe_countP] using hcounts
  have hrun := matchRepeatedFieldIndices_run smart reporter heq hcount
  rw [compareRepeatedRep, if_neg fun h => h.1 hlength, if_neg fun h => absurd h.1 (by omega)]
  generalize matchRepeatedFieldIndices cmp smart reporter xs ys = r at hrun
  dsimp only
  rcases hrun with ⟨hsuccess, ⟨start, hfollows⟩, hnot⟩ | ⟨i, j, hsilent, hcrosses, hspoilt⟩
  · refine iff_of_true ?_ hnot
    rw [if_neg (by rw [hsuccess]; exact fun h => absurd h.1 (by decide))]
    simp only [Bool.and_eq_true, all_eq_true, mem_finRange, forall_const]
    have hpartner := fun i : Fin xs.length => hfollows.partner i i.isLt
    refine ⟨⟨fun i => ?_, fun j => (hfollows.matched j).mpr ?_⟩, fun i => ?_⟩
    · obtain ⟨j, hj, hsame⟩ := hpartner i
      rw [hj]
      exact hsame
    · have hlt := before_lt (same cmp) (heq.refl (ys.get j)) j.isLt
      rwa [before_length _ (Nat.le_refl _), ← hcount, ← before_length _ (Nat.le_refl _)] at hlt
    · obtain ⟨j, hj, -⟩ := hpartner i
      rw [hj]
      rfl
  · refine iff_of_false (fun hresult => ?_) fun hnot => hnot i j hsilent hcrosses
    split at hresult
    · cases hresult
    simp only [Bool.and_eq_true, all_eq_true, mem_finRange, forall_const] at hresult
    have hsame := hresult.1.1 i
    simp [hspoilt.list₁, Option.elim_some, hsilent.2] at hsame

section
variable {D C : Type} [DecidableEq D]

/-- **When smart sets are sets.**  Treated as a set, the repeated fields are equal if they are as multisets; treated
as a smart set, too, exactly if no two elements cross whose difference goes unreported. -/
theorem smartSet_agrees_iff (compareFields : Message D C → Message D C → Bool × ℕ)
    (comparator : Message D C → Message D C → ComparisonResult)
    (heq : Equivalence fun x y => same (compareFieldValue compareFields comparator) x y = true)
    (reporter : Bool) (xs ys : List (Message D C)) :
    ((compareRepeatedRep (compareFieldValue compareFields comparator) true reporter xs ys = true ↔
          compareRepeatedRep (compareFieldValue compareFields comparator) false reporter xs ys = true) ∧
        (compareRepeatedRep (compareFieldValue compareFields comparator) false reporter xs ys = true ↔
          EqualAsMultisets (compareFieldValue compareFields comparator) xs ys)) ↔
      (EqualAsMultisets (compareFieldValue compareFields comparator) xs ys → ∀ i j,
        compareFieldValue compareFields comparator (xs.get i) (ys.get j) = (false, 0) →
          ¬Crosses (compareFieldValue compareFields comparator) xs ys i j) := by
  have hset : compareRepeatedRep (compareFieldValue compareFields comparator) false reporter xs ys = true ↔
      EqualAsMultisets (compareFieldValue compareFields comparator) xs ys :=
    ⟨equalAsMultisets_of_compareRepeatedRep, fun h => (compareRepeatedRep_iff heq h).mpr fun i j hsilent =>
      absurd hsilent.1 Bool.false_ne_true⟩
  constructor
  · rintro ⟨hsmart, -⟩ h i j hsilent
    exact (compareRepeatedRep_iff heq h).mp (hsmart.mpr (hset.mpr h)) i j ⟨rfl, hsilent⟩
  · intro h
    refine ⟨⟨fun hsmart => hset.mpr (equalAsMultisets_of_compareRepeatedRep hsmart), fun hresult => ?_⟩, hset⟩
    have hequal := hset.mp hresult
    exact (compareRepeatedRep_iff heq hequal).mpr fun i j hsilent => h hequal i j hsilent.2

end

/-- The fields of two messages differ in one place, if they differ. -/
def oneDifference (m₁ m₂ : Message ℕ Unit) : Bool × ℕ := (m₁ = m₂, if m₁ = m₂ then 0 else 1)

theorem compare_oneDifference (m₁ m₂ : Message ℕ Unit) : (compare oneDifference m₁ m₂).1 = true ↔ m₁ = m₂ := by
  induction m₁ generalizing m₂ with
  | fields descriptor content =>
    cases m₂ with
    | fields descriptor' content' =>
      by_cases h : descriptor = descriptor' <;> simp [compare, oneDifference, Message.descriptor, h]
    | any descriptor' data => by_cases h : descriptor = descriptor' <;> simp [compare, oneDifference, Message.descriptor, h]
  | any descriptor data ih =>
    cases m₂ with
    | fields descriptor' content =>
      by_cases h : descriptor = descriptor' <;> simp [compare, oneDifference, Message.descriptor, h]
    | any descriptor' data' =>
      rw [compare]
      split
      · rename_i hne
        exact iff_of_false nofun fun h => hne (Message.any.inj h).1
      · rename_i hdescriptor
        split
        · rename_i hne
          exact iff_of_false nofun fun h => hne (congrArg Message.descriptor (Message.any.inj h).2)
        · rw [ih, Message.any.injEq, and_iff_right (not_not.mp hdescriptor)]

theorem equivalence_oneDifference :
    Equivalence fun x y => same (compareFieldValue oneDifference fun _ _ => .recurse) x y = true := by
  have hiff : ∀ x y, same (compareFieldValue oneDifference fun _ _ => .recurse) x y = true ↔ x = y :=
    compare_oneDifference
  exact ⟨fun x => (hiff x x).mpr rfl, fun h => (hiff _ _).mpr ((hiff _ _).mp h).symm,
    fun h h' => (hiff _ _).mpr (((hiff _ _).mp h).trans ((hiff _ _).mp h'))⟩

/-- Two payloads of one type, in either order. -/
theorem smartSet_agrees_iff_payloads :
    let xs : List (Message ℕ Unit) := [.any 0 (.fields 1 ()), .any 0 (.fields 1 ())]
    (compareRepeatedRep (compareFieldValue oneDifference fun _ _ => .recurse) true false xs xs = true ↔
        compareRepeatedRep (compareFieldValue oneDifference fun _ _ => .recurse) false false xs xs = true) ∧
      (compareRepeatedRep (compareFieldValue oneDifference fun _ _ => .recurse) false false xs xs = true ↔
        EqualAsMultisets (compareFieldValue oneDifference fun _ _ => .recurse) xs xs) :=
  (smartSet_agrees_iff oneDifference (fun _ _ => .recurse) equivalence_oneDifference false _ _).mpr fun _ => by decide

/-- Two payloads of different types, in the other order: equal as sets, and not as smart sets. -/
theorem smartSet_differs_anyPayloads :
    let compare := compareFieldValue oneDifference fun _ _ => .recurse
    let xs : List (Message ℕ Unit) := [.any 0 (.fields 1 ()), .any 0 (.fields 2 ())]
    let ys : List (Message ℕ Unit) := [.any 0 (.fields 2 ()), .any 0 (.fields 1 ())]
    (Equivalence fun x y => same compare x y = true) ∧ EqualAsMultisets compare xs ys ∧
      compareRepeatedRep compare false false xs ys = true ∧ compareRepeatedRep compare true false xs ys = false :=
  ⟨equivalence_oneDifference, equalAsMultisets_of_compareRepeatedRep (by decide : compareRepeatedRep _ false false _ _ = true),
    by decide, by decide⟩

end Protoc.Util.MessageDifferencer
