import Protoc.Database.Descriptors

/-!
# Symbols and their neighbours

A name conflicts with an indexed symbol when one of them encloses the other.  The check
looks at two entries of a container, the one `FindLastLessOrEqual` gives and the next one.
Where every entry sorts after the name, the first is the entry given, so nothing asks whether
it lies inside the name.
-/

namespace Protoc.Database

open Protoc.Lib Protoc.Lib.Sorted
open Protoc.Util (Str dot)

theorem isSubSymbol_iff {sub sup : Str} : isSubSymbol sub sup = true ↔ Encloses dot sub sup := by
  unfold isSubSymbol
  constructor
  · intro h
    rcases Bool.or_eq_true_iff.mp h with heq | hpre
    · exact Or.inl (beq_iff_eq.mp heq).symm
    · obtain ⟨hpre, hdot⟩ := Bool.and_eq_true_iff.mp hpre
      obtain ⟨rest, rfl⟩ := List.isPrefixOf_iff_prefix.mp hpre
      rw [beq_iff_eq, List.getElem?_append_right le_rfl, Nat.sub_self] at hdot
      cases rest with
      | nil => exact absurd hdot (by simp)
      | cons b rest =>
        obtain rfl : b = dot := by simpa using hdot
        exact Or.inr ⟨rest, rfl⟩
  · rintro (rfl | ⟨rest, rfl⟩)
    · simp
    · simp [List.isPrefixOf_iff_prefix]

theorem legal_of_validate {name : Str} (h : validateSymbolName name = true) : ∀ b ∈ name, dot ≤ b := by
  intro b hmem
  have hb := List.all_eq_true.mp h b hmem
  simp only [Bool.or_eq_true, Bool.and_eq_true, decide_eq_true_eq, beq_iff_eq, UInt8.le_iff_toNat_le]
    at hb
  rw [UInt8.le_iff_toNat_le]
  rcases hb with (((rfl | rfl) | ⟨hb, -⟩) | ⟨hb, -⟩) | ⟨hb, -⟩
  · decide
  · decide
  all_goals exact le_trans (by decide) hb

section Container
variable {ε : Type} {asString : ε → Str} {container : List ε} {name : Str}

/-- A symbol of the container encloses the name, or lies inside it. -/
def Conflict (asString : ε → Str) (container : List ε) (name : Str) : Prop :=
  ∃ e ∈ container, Encloses dot (asString e) name ∨ Encloses dot name (asString e)

/-- The name sorts before the whole container, and one symbol alone lies inside it. -/
def Overlooked (asString : ε → Str) (container : List ε) (name : Str) : Prop :=
  (∀ e ∈ container, name < asString e) ∧ ∃ e ∈ container, Encloses dot name (asString e) ∧
      ∀ other ∈ container, Encloses dot name (asString other) → other = e

/-- The first entry, where all of them sort after the name. -/
theorem check_of_before (hl : Increasing asString container) (hlegal : Legal dot asString container)
    (hbefore : ∀ e ∈ container, name < asString e) : checkForMutualSubsymbols asString container name 0 = true ↔
      ¬ Conflict asString container name ∨ Overlooked asString container name := by
  have hnot : ∀ e ∈ container, ¬ Encloses dot (asString e) name :=
    fun e hmem hinside => absurd hinside.le (not_le.mpr (hbefore e hmem))
  rcases container with - | ⟨first, - | ⟨second, rest⟩⟩
  · simp [checkForMutualSubsymbols, Conflict]
  · have hcheck : checkForMutualSubsymbols asString [first] name 0 = true := by
      have hfirst : isSubSymbol (asString first) name = false :=
        Bool.eq_false_iff.mpr (mt isSubSymbol_iff.mp (hnot first (by simp)))
      simp [checkForMutualSubsymbols, hfirst]
    refine iff_of_true hcheck ?_
    by_cases hinside : Encloses dot name (asString first)
    · exact Or.inr ⟨hbefore, first, by simp, hinside, by simp⟩
    · refine Or.inl ?_
      rintro ⟨e, hmem, h⟩
      rw [List.mem_singleton] at hmem
      subst hmem
      exact h.elim (hnot _ (by simp)) hinside
  · have hfirst : isSubSymbol (asString first) name = false :=
      Bool.eq_false_iff.mpr (mt isSubSymbol_iff.mp (hnot first (by simp)))
    have hlt : asString first < asString second := (List.pairwise_cons.mp hl).1 second (by simp)
    have hcheck : checkForMutualSubsymbols asString (first :: second :: rest) name 0 = true ↔
        ¬ Encloses dot name (asString second) := by
      simp [checkForMutualSubsymbols, hfirst, ← isSubSymbol_iff]
    rw [hcheck]
    constructor
    · intro hsecond
      -- what lies inside the name lies before the second entry
      have honly : ∀ e ∈ first :: second :: rest, Encloses dot name (asString e) → e = first := by
        intro e hmem hinside
        rcases List.mem_cons.mp hmem with rfl | hmem
        · rfl
        · have hle : asString second ≤ asString e := by
            rcases List.mem_cons.mp hmem with rfl | hmem
            · exact le_rfl
            · exact ((List.pairwise_cons.mp (List.pairwise_cons.mp hl).2).1 e hmem).le
          exact absurd (hinside.of_between (hbefore second (by simp)).le hle
            (hlegal second (by simp))) hsecond
      by_cases hinside : Encloses dot name (asString first)
      · exact Or.inr ⟨hbefore, first, by simp, hinside, honly⟩
      · refine Or.inl ?_
        rintro ⟨e, hmem, h | h⟩
        · exact hnot e hmem h
        · exact hinside (honly e hmem h ▸ h)
    · rintro h hsecond
      have hfirstInside : Encloses dot name (asString first) :=
        hsecond.of_between (hbefore first (by simp)).le hlt.le (hlegal first (by simp))
      rcases h with h | ⟨-, e, -, -, honly⟩
      · exact h ⟨second, by simp, Or.inr hsecond⟩
      · have hsame : first = second :=
          (honly first (by simp) hfirstInside).trans (honly second (by simp) hsecond).symm
        rw [hsame] at hlt
        exact absurd hlt (lt_irrefl _)

/-- **What the check accepts**: names without a conflict, and those whose conflict it overlooks. -/
theorem checkForMutualSubsymbols_iff (name : Str) (hl : Increasing asString container)
    (hseparate : Separate dot asString container) (hlegal : Legal dot asString container) :
    checkForMutualSubsymbols asString container name
        (findLastLessOrEqual (upperBound asString container name)) = true ↔
      ¬ Conflict asString container name ∨ Overlooked asString container name := by
  cases hbound : upperBound asString container name with
  | zero =>
    have hbefore : ∀ e ∈ container, name < asString e := by
      have hall := lt_of_mem_drop_upperBound (k := name) hl
      rwa [hbound] at hall
    exact check_of_before hl hlegal hbefore
  | succ n =>
    have hlt : n < container.length := by
      have hle := upperBound_le_length asString container name
      omega
    have hfound : asString container[n] ≤ name := by
      refine le_of_mem_take_upperBound (l := container) ?_
      rw [hbound, List.take_succ_eq_append_getElem hlt]
      exact List.mem_append_right _ (List.mem_singleton_self _)
    have hnotOverlooked : ¬ Overlooked asString container name :=
      fun h => absurd hfound (not_le.mpr (h.1 _ (List.getElem_mem hlt)))
    have hiter : findLastLessOrEqual (n + 1) = n := by simp [findLastLessOrEqual]
    rw [hiter, or_iff_left hnotOverlooked]
    constructor
    · rintro hcheck ⟨e, hmem, hinside⟩
      simp only [checkForMutualSubsymbols, List.getElem?_eq_getElem hlt] at hcheck
      split_ifs at hcheck with hencloses
      have hne : name ≠ asString e := by
        intro heq
        obtain ⟨m, hm, hget⟩ := last_encloses hl hseparate hlegal hmem (Or.inl heq)
        obtain rfl : n = m := by omega
        rw [List.getElem?_eq_getElem hlt, Option.some_inj] at hget
        rw [hget] at hencloses
        exact hencloses (isSubSymbol_iff.mpr (Or.inl heq))
      rcases hinside with hinside | hinside
      · obtain ⟨m, hm, hget⟩ := last_encloses hl hseparate hlegal hmem hinside
        obtain rfl : n = m := by omega
        rw [List.getElem?_eq_getElem hlt, Option.some_inj] at hget
        rw [hget] at hencloses
        exact hencloses (isSubSymbol_iff.mpr hinside)
      · obtain ⟨next, hget, hnext⟩ := first_enclosed hl hlegal hmem hinside hne
        rw [hbound] at hget
        rw [hget] at hcheck
        have hsub := isSubSymbol_iff.mpr hnext
        simp [hsub] at hcheck
    · intro hfree
      have hnotFound : isSubSymbol (asString container[n]) name = false :=
        Bool.eq_false_iff.mpr fun h =>
          hfree ⟨_, List.getElem_mem hlt, Or.inl (isSubSymbol_iff.mp h)⟩
      simp only [checkForMutualSubsymbols, List.getElem?_eq_getElem hlt, hnotFound]
      cases hnext : container[n + 1]? with
      | none => simp
      | some next =>
        have hnotNext : isSubSymbol name (asString next) = false := Bool.eq_false_iff.mpr fun h =>
            hfree ⟨_, List.mem_of_getElem? hnext, Or.inr (isSubSymbol_iff.mp h)⟩
        simp [hnotNext]

theorem notMem_of_check (hl : Increasing asString container)
    (hcheck : checkForMutualSubsymbols asString container name
      (findLastLessOrEqual (upperBound asString container name)) = true) :
    ∀ e ∈ container, asString e ≠ name := by
  rintro e hmem rfl
  obtain ⟨n, hlt, hn, hlow, hlast⟩ := exists_last_le hl hmem le_rfl
  have hsame : e = container[n] :=
    eq_of_key_eq hl hmem (List.getElem_mem hlt) (le_antisymm hlow hlast)
  have hget : container[findLastLessOrEqual (n + 1)]? = some e := by
    rw [hsame]
    simp [findLastLessOrEqual, List.getElem?_eq_getElem hlt]
  have hsub : isSubSymbol (asString e) (asString e) = true := isSubSymbol_iff.mpr (Encloses.refl _ _)
  rw [hn] at hcheck
  simp [checkForMutualSubsymbols, hget, hsub] at hcheck

theorem separate_insert {x : ε} (hl : Increasing asString container)
    (hseparate : Separate dot asString container) (hfree : ¬ Conflict asString container (asString x)) :
    Separate dot asString (insertIfNotPresent asString x container).2 := by
  have hnew : (insertIfNotPresent asString x container).1 = true :=
    (insertIfNotPresent_fst hl).mpr fun e he heq => hfree ⟨e, he, Or.inl (Or.inl heq.symm)⟩
  have hmem := mem_insertIfNotPresent hnew
  intro a ha b hb hab
  rcases (hmem a).mp ha with hax | hina <;> rcases (hmem b).mp hb with hbx | hinb
  · rw [hax, hbx]
  · exact absurd ⟨b, hinb, Or.inr (hax ▸ hab)⟩ hfree
  · exact absurd ⟨a, hina, Or.inl (hbx ▸ hab)⟩ hfree
  · exact hseparate a hina b hinb hab

theorem legal_insert {x : ε} (hlegal : Legal dot asString container)
    (hvalid : validateSymbolName (asString x) = true) :
    Legal dot asString (insertIfNotPresent asString x container).2 := by
  intro e he
  rcases eq_or_mem_of_mem_insert he with rfl | he
  · exact legal_of_validate hvalid
  · exact hlegal e he

/-- The entry a lookup looks at, if it encloses the name. -/
def findEncloser (asString : ε → Str) (container : List ε) (name : Str) : Option ε :=
  container[findLastLessOrEqual (upperBound asString container name)]?.filter fun e =>
    isSubSymbol (asString e) name

/-- **What a lookup finds**: the entry around the name. -/
theorem findEncloser_eq_some_iff (name : Str) (hl : Increasing asString container)
    (hseparate : Separate dot asString container) (hlegal : Legal dot asString container) {e : ε} :
    findEncloser asString container name = some e ↔ e ∈ container ∧ Encloses dot (asString e) name := by
  unfold findEncloser
  rw [Option.filter_eq_some_iff]
  constructor
  · rintro ⟨hget, hsub⟩
    exact ⟨List.mem_of_getElem? hget, isSubSymbol_iff.mp hsub⟩
  · rintro ⟨hmem, hinside⟩
    obtain ⟨n, hn, hget⟩ := last_encloses hl hseparate hlegal hmem hinside
    rw [hn]
    exact ⟨by simpa [findLastLessOrEqual] using hget, isSubSymbol_iff.mpr hinside⟩

end Container

end Protoc.Database
