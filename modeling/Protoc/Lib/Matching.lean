import Mathlib.Data.Set.Finite.Lemmas
import Mathlib.Algebra.Order.BigOperators.Group.Finset

/-!
# Matchings in a bipartite graph

A matching gives each node on the right at most one on the left, and no two of them the same one.
An augmenting path makes it larger by one; a set of nodes on the left whose neighbours are all
matched with nodes of the set shows that it cannot be made larger there.
-/

namespace Protoc.Lib.Matching

open Function Finset Option

variable {α β : Type*} {r : α → β → Prop} {m m' : β → Option α} {v w u : α} {j : β} {S : Set α}

/-- No two nodes on the right have the same partner, and partners are joined by an edge. -/
structure IsMatching (r : α → β → Prop) (m : β → Option α) : Prop where
  edge : ∀ {j u}, m j = some u → r u j
  injective : ∀ {j j' u}, m j = some u → m j' = some u → j = j'

/-- The matching `m'` results from `m` by an augmenting path that begins at `v`: it ends in a node without
a partner, or it takes the partner of a node away, for which a path begins in turn. -/
inductive Augments [DecidableEq β] (r : α → β → Prop) (m : β → Option α) : α → (β → Option α) → Prop
  | free {v : α} {j : β} (hfree : m j = none) (hedge : r v j) : Augments r m v (update m j (some v))
  | alternate {v w : α} {j : β} {m' : β → Option α} (hpartner : m j = some w) (hedge : r v j) (hrest : Augments r m w m')
      (hkept : m' j = some w) : Augments r m v (update m' j (some v))

/-- All neighbours of the set have their partners in the set. -/
def Blocked (r : α → β → Prop) (m : β → Option α) (S : Set α) : Prop :=
  ∀ u ∈ S, ∀ j, r u j → ∃ w ∈ S, m j = some w

/-! ## Augmenting paths -/

section
variable [DecidableEq β]

theorem Augments.outside (h : Augments r m v m') (hS : Blocked r m S) :
    v ∉ S ∧ ∀ j u, m j = some u → u ∈ S → m' j = some u := by
  induction h with
  | @free v i hfree hedge =>
    refine ⟨fun hv => ?_, fun j u hj hu => ?_⟩
    · obtain ⟨w, -, hw⟩ := hS v hv i hedge
      exact some_ne_none w (hw.symm.trans hfree)
    · have hne : j ≠ i := by
        rintro rfl
        exact some_ne_none u (hj.symm.trans hfree)
      rw [update_of_ne hne, hj]
  | @alternate v w i m₁ hpartner hedge hrest hkept ih =>
    obtain ⟨hw, hframe⟩ := ih
    refine ⟨fun hv => ?_, fun j u hj hu => ?_⟩
    · obtain ⟨w', hw', hj⟩ := hS v hv i hedge
      obtain rfl := some_inj.mp (hpartner.symm.trans hj)
      exact hw hw'
    · have hne : j ≠ i := by
        rintro rfl
        obtain rfl := some_inj.mp (hpartner.symm.trans hj)
        exact hw hu
      rw [update_of_ne hne]
      exact hframe j u hj hu

/-- **What is blocked stays blocked.** -/
theorem Augments.blocked (h : Augments r m v m') (hS : Blocked r m S) : Blocked r m' S := by
  intro u hu j hedge
  obtain ⟨w, hw, hj⟩ := hS u hu j hedge
  exact ⟨w, hw, (h.outside hS).2 j w hj hw⟩

theorem Augments.edge (h : Augments r m v m') (hm : ∀ {j u}, m j = some u → r u j) {j : β} {u : α}
    (hj : m' j = some u) : r u j := by
  induction h generalizing j u with
  | @free v i hfree hedge =>
    rw [update_apply] at hj
    split at hj
    · next heq =>
      cases hj
      exact heq ▸ hedge
    · exact hm hj
  | @alternate v w i m₁ hpartner hedge hrest hkept ih =>
    rw [update_apply] at hj
    split at hj
    · next heq =>
      cases hj
      exact heq ▸ hedge
    · exact ih hj

end

/-! ## Numbers of pairs -/

section
variable [Fintype β]

def size (m : β → Option α) : ℕ := (univ.filter fun j => (m j).isSome).card

variable [DecidableEq α]

def degree (m : β → Option α) (u : α) : ℕ := (univ.filter fun j => m j = some u).card

theorem degree_pos_iff : 0 < degree m u ↔ ∃ j, m j = some u := by
  rw [degree, card_pos]
  constructor
  · rintro ⟨j, hj⟩
    exact ⟨j, (mem_filter.mp hj).2⟩
  · rintro ⟨j, hj⟩
    exact ⟨j, mem_filter.mpr ⟨mem_univ j, hj⟩⟩

theorem injective_iff_degree : (∀ j j' u, m j = some u → m j' = some u → j = j') ↔ ∀ u, degree m u ≤ 1 := by
  constructor
  · intro h u
    refine card_le_one.mpr fun j hj j' hj' => ?_
    exact h j j' u (mem_filter.mp hj).2 (mem_filter.mp hj').2
  · intro h j j' u hj hj'
    exact card_le_one.mp (h u) j (mem_filter.mpr ⟨mem_univ j, hj⟩) j'
      (mem_filter.mpr ⟨mem_univ j', hj'⟩)

variable [DecidableEq β]

theorem degree_update (j : β) (x : Option α) :
    degree (update m j x) u + (if m j = some u then 1 else 0) = degree m u + if x = some u then 1 else 0 := by
  have hsplit : ∀ f : β → Option α, degree f u =
      (if f j = some u then 1 else 0) + ((univ.erase j).filter fun i => f i = some u).card := by
    intro f
    rw [degree, ← insert_erase (mem_univ j), filter_insert, erase_insert_eq_erase, erase_idem]
    split
    · rw [card_insert_of_notMem, add_comm]
      intro hmem
      exact notMem_erase j _ (mem_filter.mp hmem).1
    · rw [zero_add]
  have hrest : ((univ.erase j).filter fun i => update m j x i = some u) =
      (univ.erase j).filter fun i => m i = some u := by
    refine filter_congr fun i hi => ?_
    rw [update_of_ne (ne_of_mem_erase hi)]
  rw [hsplit (update m j x), hsplit m, hrest, update_self]
  omega

omit [DecidableEq α] in
theorem size_update (j : β) (v : α) :
    size (update m j (some v)) = size m + if m j = none then 1 else 0 := by
  rw [size, size]
  have hfilter : (univ.filter fun i => (update m j (some v) i).isSome) =
      insert j (univ.filter fun i => (m i).isSome) := by
    ext i
    rw [mem_filter, mem_insert, mem_filter, update_apply]
    by_cases hi : i = j
    · simp [hi]
    · simp [hi]
  rw [hfilter]
  by_cases hj : m j = none
  · rw [if_pos hj, card_insert_of_notMem]
    simp [hj]
  · rw [if_neg hj, add_zero, insert_eq_of_mem]
    exact mem_filter.mpr ⟨mem_univ j, isSome_iff_ne_none.mpr hj⟩

theorem Augments.degree (h : Augments r m v m') (u : α) :
    Matching.degree m' u = Matching.degree m u + if v = u then 1 else 0 := by
  induction h with
  | @free v i hfree hedge =>
    have hupdate := degree_update (m := m) (u := u) i (some v)
    rw [hfree] at hupdate
    simpa using hupdate
  | @alternate v w i m₁ hpartner hedge hrest hkept ih =>
    have hupdate := degree_update (m := m₁) (u := u) i (some v)
    rw [hkept] at hupdate
    simp only [some_inj] at hupdate
    omega

omit [DecidableEq α] in
theorem Augments.size (h : Augments r m v m') : Matching.size m' = Matching.size m + 1 := by
  induction h with
  | @free v i hfree hedge => rw [size_update, if_pos hfree]
  | @alternate v w i m₁ hpartner hedge hrest hkept ih =>
    rw [size_update, hkept, if_neg (some_ne_none w), ih, add_zero]

/-- **An augmenting path** from a node without a partner makes a matching of one more pair. -/
theorem IsMatching.augments (hm : IsMatching r m) (hv : ∀ j, m j ≠ some v) (h : Augments r m v m') :
    IsMatching r m' ∧ Matching.size m' = Matching.size m + 1 ∧
      ∀ u, (∃ j, m' j = some u) ↔ (∃ j, m j = some u) ∨ v = u := by
  refine ⟨⟨fun hj => h.edge hm.edge hj, fun {j j' u} => ?_⟩, h.size, fun u => ?_⟩
  · refine injective_iff_degree.mpr (fun u => ?_) j j' u
    have hdegree := h.degree u
    have hle : Matching.degree m u ≤ 1 := injective_iff_degree.mp (fun _ _ _ => hm.injective) u
    split at hdegree
    · next heq =>
      have hzero : ¬ 0 < Matching.degree m u := by
        rw [degree_pos_iff, ← heq]
        rintro ⟨j, hj⟩
        exact hv j hj
      omega
    · omega
  · rw [← degree_pos_iff, ← degree_pos_iff, h.degree u]
    split
    · next heq => simp [heq]
    · next hne => simp [hne]

end

/-! ## Maximum matchings -/

variable {m₂ : β → Option α}

/-- **A blocked set** that holds a node without a partner is not matched in full by any matching. -/
theorem IsMatching.exists_unmatched [Finite α] (hm : IsMatching r m) (hS : Blocked r m S) (hv : v ∈ S)
    (hfree : ∀ j, m j ≠ some v) (hm₂ : IsMatching r m₂) : ∃ u ∈ S, ∀ j, m₂ j ≠ some u := by
  by_contra hall
  push Not at hall
  choose partner hpartner using fun u : S => hall u u.2
  choose back hback hmatched using fun u : S => hS u u.2 (partner u) (hm₂.edge (hpartner u))
  have hinjective : Injective fun u : S => (⟨back u, hback u⟩ : S) := by
    intro u u' heq
    have hback' : back u = back u' := congrArg Subtype.val heq
    have hsame : partner u = partner u' := hm.injective (hmatched u) (hback' ▸ hmatched u')
    have hu := hpartner u
    rw [hsame, hpartner u'] at hu
    exact Subtype.ext (some_inj.mp hu).symm
  obtain ⟨u, hu⟩ := Finite.surjective_of_injective hinjective ⟨v, hv⟩
  have hv' : back u = v := congrArg Subtype.val hu
  exact hfree (partner u) (hv' ▸ hmatched u)

variable [Fintype β]

open Classical in
/-- **A matching is maximum**, where every node on the left is matched or in a blocked set. -/
theorem IsMatching.size_le (hm₂ : IsMatching r m₂)
    (hall : ∀ u, (∃ j, m j = some u) ∨ ∃ S, Blocked r m S ∧ u ∈ S) : size m₂ ≤ size m := by
  -- with a partner in a blocked set, or with any other
  let U : Set α := {u | ∃ S, Blocked r m S ∧ u ∈ S}
  have hsplit : ∀ f : β → Option α, size f = (univ.filter fun j => ∃ u ∈ U, f j = some u).card +
        (univ.filter fun j => ∃ u, u ∉ U ∧ f j = some u).card := by
    intro f
    rw [size, ← card_union_of_disjoint]
    · congr 1
      ext j
      simp only [mem_union, mem_filter, mem_univ, true_and, isSome_iff_exists]
      constructor
      · rintro ⟨u, hu⟩
        by_cases hU : u ∈ U
        · exact .inl ⟨u, hU, hu⟩
        · exact .inr ⟨u, hU, hu⟩
      · rintro (⟨u, -, hu⟩ | ⟨u, -, hu⟩) <;> exact ⟨u, hu⟩
    · refine disjoint_filter.mpr ?_
      rintro j - ⟨u, hU, hu⟩ ⟨u', hU', hu'⟩
      obtain rfl := some_inj.mp (hu.symm.trans hu')
      exact hU' hU
  rw [hsplit m₂, hsplit m]
  refine Nat.add_le_add (card_le_card ?_) ?_
  · intro j hj
    obtain ⟨u, ⟨S, hS, hu⟩, hj⟩ := (mem_filter.mp hj).2
    obtain ⟨w, hw, hmatched⟩ := hS u hu j (hm₂.edge hj)
    exact mem_filter.mpr ⟨mem_univ j, w, ⟨S, hS, hw⟩, hmatched⟩
  · have hpartner : ∀ j, ∃ j', (∃ u, u ∉ U ∧ m₂ j = some u) → m j' = m₂ j := by
      intro j
      by_cases hj : ∃ u, u ∉ U ∧ m₂ j = some u
      · obtain ⟨u, hU, hu⟩ := hj
        obtain ⟨j', hj'⟩ := (hall u).resolve_right hU
        exact ⟨j', fun _ => hj'.trans hu.symm⟩
      · exact ⟨j, fun h => absurd h hj⟩
    choose partner hpartner using hpartner
    refine card_le_card_of_injOn partner ?_ ?_
    · intro j hj
      have hout := (mem_filter.mp hj).2
      obtain ⟨u, hU, hu⟩ := hout
      exact mem_coe.mpr (mem_filter.mpr ⟨mem_univ _, u, hU, (hpartner j ⟨u, hU, hu⟩).trans hu⟩)
    · intro j hj j' hj' heq
      have hout := (mem_filter.mp hj).2
      have hout' := (mem_filter.mp hj').2
      have hsame : m₂ j = m₂ j' := by rw [← hpartner j hout, ← hpartner j' hout', heq]
      obtain ⟨u, -, hu⟩ := hout
      exact hm₂.injective hu (hsame ▸ hu)

end Protoc.Lib.Matching
