import Protoc.Repeated.RepeatedPtrFieldHeap

/-!
# Removal from a repeated field

Removed elements are cleared and kept, passed on to the caller, or deleted.
-/

namespace Protoc.Repeated

open Protoc.Lib
open List Option
open Function (update)
open scoped List

variable {ι : Type} [DecidableEq ι] {Element : Type} [TypeHandler Element]
variable {h h' t : Heap Element} {own : ι → Multiset ℕ} {f : ι}
variable {s s' : RepeatedPtrFieldBase} {vis spare : List ℕ} {xs : List Element} {p q : ℕ}

namespace Keeps

/-! ## Elements that are cleared and kept -/

theorem removeLast [LawfulTypeHandler Element] (K : Keeps h own f s vis spare xs) (hne : xs ≠ []) :
    ∃ h' s', s.removeLast h = some (h', s') ∧ Becomes h own f h' s' xs.dropLast := by
  obtain ⟨front, p, rfl, -, hfront⟩ := K.exists_last hne
  obtain ⟨hslot, H'⟩ := K.holds.hide_last
  have hmem : p ∈ front ++ [p] := by simp
  obtain ⟨hvis, -, hapart⟩ := nodup_append.mp K.nodup
  obtain ⟨-, -, hfresh⟩ := nodup_append.mp hvis
  obtain ⟨h', hh', howned, -, hself, hother⟩ := K.owned.modify TypeHandler.clear (K.live_vis hmem)
  have hp : h'.cell p = some (cleared Element) := by
    obtain ⟨y, hy⟩ := isSome_iff_exists.mp (K.live_vis hmem)
    rw [hself, hy, map_some, LawfulTypeHandler.clear_eq]
    rfl
  refine ⟨h', _, ?_, K.becomes_of_perm H' (by simp) howned ?_ ?_ ?_⟩
  · have hslot' : ({ s with currentSize := s.currentSize - 1 } : RepeatedPtrFieldBase).slot
        (s.currentSize - 1) = some p := hslot
    rw [RepeatedPtrFieldBase.removeLast]
    simp only [hslot', hh', bind_eq_bind, bind_some]
  · exact content_congr hfront fun q hq => hother q (hfresh q hq p (by simp))
  · intro q hq
    rcases mem_cons.mp hq with rfl | hq
    · exact hp
    · rw [hother q fun heq => hapart p hmem q hq heq.symm]
      exact K.clean q hq
  · intro q _ hq
    refine hother q ?_
    rintro rfl
    exact hq (K.mem_own.mpr (Or.inl hmem))

omit [DecidableEq ι] in
/-- The loop in `Clear`. -/
theorem clearElements_spec [LawfulTypeHandler Element] {l : List ℕ} {first : ℕ} (H : Owned h own)
    (hslots : ∀ i < l.length, s.slot (first + i) = l[i]?) (hlive : ∀ p ∈ l, (h.cell p).isSome) :
    ∃ h', s.clearElements first l.length h = some h' ∧ Owned h' own ∧
      (∀ p ∈ l, h'.cell p = some (cleared Element)) ∧ ∀ p ∉ l, h'.cell p = h.cell p := by
  induction l generalizing h first with
  | nil => exact ⟨h, rfl, H, by simp, fun _ _ => rfl⟩
  | cons p l ih =>
    have hfirst : s.slot first = some p := by simpa using hslots 0 (by simp)
    have hrest : ∀ i < l.length, s.slot (first + 1 + i) = l[i]? := by
      intro i hi
      have hnext := hslots (i + 1) (by simpa using hi)
      rw [show first + 1 + i = first + (i + 1) by omega, hnext]
      rfl
    obtain ⟨t, ht, Ht, -, hself, hother⟩ := H.modify TypeHandler.clear (hlive p mem_cons_self)
    have hp : t.cell p = some (cleared Element) := by
      obtain ⟨y, hy⟩ := isSome_iff_exists.mp (hlive p mem_cons_self)
      rw [hself, hy, map_some, LawfulTypeHandler.clear_eq]
      rfl
    have hlive' : ∀ q ∈ l, (t.cell q).isSome := by
      intro q hq
      rcases eq_or_ne q p with rfl | hne
      · simp [hp]
      · rw [hother q hne]
        exact hlive q (mem_cons_of_mem p hq)
    obtain ⟨h', hh', H', hcleared, hkept⟩ := ih Ht hrest hlive'
    refine ⟨h', ?_, H', ?_, ?_⟩
    · rw [length_cons, RepeatedPtrFieldBase.clearElements]
      simp only [hfirst, ht, bind_eq_bind, bind_some]
      exact hh'
    · intro q hq
      by_cases hmem : q ∈ l
      · exact hcleared q hmem
      · obtain rfl := (mem_cons.mp hq).resolve_right hmem
        rw [hkept q hmem]
        exact hp
    · intro q hq
      rw [mem_cons, not_or] at hq
      rw [hkept q hq.2, hother q hq.1]

/-- `Clear` takes all elements away. -/
theorem clear [LawfulTypeHandler Element] (K : Keeps h own f s vis spare xs) :
    ∃ h' s', s.clear h = some (h', s') ∧ Becomes h own f h' s' [] := by
  have hcurrent := K.holds.current
  have hslots : ∀ i < vis.length, s.slot (0 + i) = vis[i]? := by
    intro i hi
    rw [zero_add]
    exact K.holds.reads.of_append i hi
  obtain ⟨-, -, hapart⟩ := nodup_append.mp K.nodup
  obtain ⟨h', hh', howned, hcleared, hother⟩ :=
    clearElements_spec K.owned hslots fun p hp => K.live_vis hp
  have H' : Holds { s with currentSize := 0 } [] (vis ++ spare) :=
    { reads := K.holds.reads
      current := rfl
      allocated := K.holds.allocated
      allocated_le := K.holds.allocated_le
      total_le := K.holds.total_le
      total_eq := K.holds.total_eq }
  have hbecomes : Becomes h own f h' { s with currentSize := 0 } [] := by
    refine K.becomes_of_perm H' (.refl _) howned rfl ?_ ?_
    · intro p hp
      rcases mem_append.mp hp with hp | hp
      · exact hcleared p hp
      · rw [hother p fun hmem => hapart p hmem p hp rfl]
        exact K.clean p hp
    · exact fun p _ hp => hother p fun hmem => hp (K.mem_own.mpr (Or.inl hmem))
  rw [RepeatedPtrFieldBase.clear]
  by_cases hpos : 0 < s.currentSize
  · refine ⟨h', _, ?_, hbecomes⟩
    rw [if_pos hpos, hcurrent]
    simp only [hh', bind_eq_bind, bind_some]
  · refine ⟨h, s, if_neg hpos, ?_⟩
    obtain rfl : vis = [] := eq_nil_of_length_eq_zero (by omega)
    exact K.becomes_of_perm K.holds (.refl _) K.owned rfl K.clean (.refl _ _)

/-! ## Elements passed to the caller -/

theorem releaseLast (K : Keeps h own f s vis spare xs) (hne : xs ≠ []) :
    ∃ p s', s.releaseLast = some (p, s') ∧ h.cell p = xs.getLast? ∧
      Becomes h own f (h.log (.released p)) s' xs.dropLast := by
  obtain ⟨front, p, rfl, hlast, hfront⟩ := K.exists_last hne
  obtain ⟨s', hs', H'⟩ := K.holds.releaseLast
  have hperm := Holds.lastFirst_perm spare
  have hown : own f = p ::ₘ Multiset.ofList (front ++ Holds.lastFirst spare) := by
    rw [K.own_eq, Multiset.cons_coe]
    refine Multiset.coe_eq_coe.mpr ?_
    calc front ++ [p] ++ spare
        _ = front ++ p :: spare := by simp
        _ ~ p :: (front ++ spare) := perm_middle
        _ ~ p :: (front ++ Holds.lastFirst spare) := (hperm.symm.append_left front).cons p
  refine ⟨p, s', hs', hlast, Becomes.of H' (K.owned.release hown) rfl hfront ?_ fun _ _ _ => rfl⟩
  exact fun q hq => K.clean q (hperm.mem_iff.mp hq)

theorem releaseCleared (K : Keeps h own f s vis spare xs) (hlt : s.currentSize < s.allocatedSize) :
    ∃ p s', s.releaseCleared = some (p, s') ∧ h.cell p = some (cleared Element) ∧
      Becomes h own f (h.log (.released p)) s' xs := by
  rw [K.holds.current, K.holds.allocated, length_append] at hlt
  obtain ⟨rest, p, rfl⟩ := (eq_nil_or_concat' spare).resolve_left fun hnil => by
    rw [hnil] at hlt
    exact lt_irrefl _ hlt
  obtain ⟨s', hs', H'⟩ := K.holds.releaseCleared
  have hown : own f = p ::ₘ Multiset.ofList (vis ++ rest) := by
    rw [K.own_eq, Multiset.cons_coe, ← append_assoc]
    exact Multiset.coe_eq_coe.mpr (perm_append_singleton p _)
  refine ⟨p, s', hs', K.clean p (by simp),
    Becomes.of H' (K.owned.release hown) rfl K.content ?_ fun _ _ _ => rfl⟩
  exact fun q hq => K.clean q (mem_append_left _ hq)

variable {start num : ℕ}

omit [DecidableEq ι] in
/-- A range of the elements, with the elements before and after it. -/
theorem exists_range (K : Keeps h own f s vis spare xs) (hle : start + num ≤ xs.length) :
    ∃ front gap back, vis = front ++ gap ++ back ∧ front.length = start ∧ gap.length = num ∧
      gap.map h.cell = ((xs.drop start).take num).map some ∧
      (front ++ back).map h.cell = (xs.take start ++ xs.drop (start + num)).map some ∧
      own f = Multiset.ofList gap + Multiset.ofList (front ++ back ++ spare) := by
  have hlength := K.length_eq
  have hsplit : vis.take start ++ (vis.drop start).take num ++ vis.drop (start + num) = vis := by
    rw [← drop_drop, append_assoc, take_append_drop, take_append_drop]
  refine ⟨vis.take start, (vis.drop start).take num, vis.drop (start + num), hsplit.symm, ?_, ?_, ?_, ?_, ?_⟩
  · rw [length_take]
    omega
  · rw [length_take, length_drop]
    omega
  · rw [map_take, map_drop, K.content, map_take, map_drop]
  · rw [map_append, map_take, map_drop, K.content, map_append, map_take, map_drop]
  · rw [K.own_eq, Multiset.coe_add]
    refine Multiset.coe_eq_coe.mpr ?_
    rw [← append_assoc]
    refine List.Perm.append_right spare ?_
    calc vis
        _ = vis.take start ++ (vis.drop start).take num ++ vis.drop (start + num) := hsplit.symm
        _ ~ (vis.drop start).take num ++ vis.take start ++ vis.drop (start + num) :=
          List.perm_append_comm.append_right _
        _ = _ := append_assoc ..

theorem extractSubrange (K : Keeps h own f s vis spare xs) (hle : start + num ≤ xs.length) :
    ∃ l s', s.extractSubrange start num = some (l, s') ∧ l.map h.cell = ((xs.drop start).take num).map some ∧
      Becomes h own f (h.releaseAll l) s' (xs.take start ++ xs.drop (start + num)) := by
  obtain ⟨front, gap, back, rfl, rfl, rfl, hgap, hrest, hown⟩ := K.exists_range hle
  obtain ⟨s', hs', H'⟩ := K.holds.extractSubrange
  refine ⟨gap, s', hs', hgap, Becomes.of H' (K.owned.releaseAll hown) rfl ?_ ?_ ?_⟩
  · rw [Heap.cell_releaseAll]
    exact hrest
  · rw [Heap.cell_releaseAll]
    exact K.clean
  · intro p _ _
    rw [Heap.cell_releaseAll]

/-! ## Elements that are deleted -/

omit [TypeHandler Element] [DecidableEq ι] in
/-- The loop over slots is a loop over the pointers in them. -/
theorem deleteElements_eq {l : List ℕ} {first : ℕ} (h : Heap Element)
    (hslots : ∀ i < l.length, s.slot (first + i) = l[i]?) :
    s.deleteElements first l.length h = l.foldlM Heap.delete h := by
  induction l generalizing h first with
  | nil => rfl
  | cons p l ih =>
    have hfirst : s.slot first = some p := by simpa using hslots 0 (by simp)
    have hrest : ∀ i < l.length, s.slot (first + 1 + i) = l[i]? := by
      intro i hi
      have hnext := hslots (i + 1) (by simpa using hi)
      rw [show first + 1 + i = first + (i + 1) by omega, hnext]
      rfl
    rw [length_cons, RepeatedPtrFieldBase.deleteElements, hfirst, foldlM_cons]
    simp only [bind_eq_bind, bind_some]
    exact congrArg _ (funext fun t => ih t hrest)

/-- `DeleteSubrange` deletes a range of the elements. -/
theorem deleteSubrange (K : Keeps h own f s vis spare xs) (hle : start + num ≤ xs.length) :
    ∃ h' s', s.deleteSubrange h start num = some (h', s') ∧
      Becomes h own f h' s' (xs.take start ++ xs.drop (start + num)) := by
  obtain ⟨front, gap, back, rfl, rfl, rfl, -, hrest, hown⟩ := K.exists_range hle
  obtain ⟨h', hh', howned, -, hother⟩ := K.owned.deleteAll hown
  have hnodup := K.owned.nodup f
  rw [hown, Multiset.coe_add, Multiset.coe_nodup] at hnodup
  obtain ⟨-, -, hapart⟩ := nodup_append.mp hnodup
  have hkept : ∀ p ∈ front ++ back ++ spare, h'.cell p = h.cell p :=
    fun p hp => hother p fun hmem => hapart p hmem p hp rfl
  have hbecomes : ∀ s', Holds s' (front ++ back) spare → Becomes h own f h' s'
        (xs.take front.length ++ xs.drop (front.length + gap.length)) := by
    intro s' H'
    refine Becomes.of H' howned rfl ?_ ?_ ?_
    · exact content_congr hrest fun p hp => hkept p (mem_append_left _ hp)
    · intro p hp
      rw [hkept p (mem_append_right _ hp)]
      exact K.clean p hp
    · intro p _ hp
      refine hother p fun hmem => hp ?_
      rw [hown]
      exact Multiset.mem_add.mpr (Or.inl hmem)
  rw [RepeatedPtrFieldBase.deleteSubrange, deleteElements_eq h K.holds.slots_middle, hh']
  rcases eq_or_ne gap [] with rfl | hgap
  · refine ⟨h', s, rfl, hbecomes s ?_⟩
    have H := K.holds
    rwa [append_nil] at H
  · obtain ⟨s', hs', H'⟩ := K.holds.closeGap hgap
    refine ⟨h', s', ?_, hbecomes s' H'⟩
    simp only [length_pos_of_ne_nil hgap, ↓reduceIte, hs', bind_eq_bind, bind_some]

theorem destroy (K : Keeps h own f s vis spare xs) :
    ∃ h', s.destroy h = some (h', { s with rep := none }) ∧ Becomes h own f h' .init [] := by
  have hown : own f = Multiset.ofList (vis ++ spare) + 0 := by
    rw [K.own_eq, Multiset.add_zero]
  obtain ⟨h', hh', howned, -, hother⟩ := K.owned.deleteAll hown
  have hslots : ∀ i < (vis ++ spare).length, s.slot (0 + i) = (vis ++ spare)[i]? := by
    intro i hi
    rw [zero_add]
    exact K.holds.reads i hi
  refine ⟨h', ?_, Becomes.of holds_init howned rfl rfl (by simp) ?_⟩
  · rw [RepeatedPtrFieldBase.destroy, K.holds.allocated, deleteElements_eq h hslots, hh']
    rfl
  · intro p _ hp
    refine hother p fun hmem => hp ?_
    rwa [K.own_eq, Multiset.mem_coe]

end Keeps

end Protoc.Repeated
