import Protoc.Repeated.RepeatedPtrFieldHeap

/-!
# Merging repeated fields

`MergeFrom` reuses the cleared elements, allocates the ones that are missing, and merges the
other field's elements into them.
-/

namespace Protoc.Repeated

open Protoc.Lib
open List Option
open Protoc.Lib.Slots (Reads)
open Function (update)
open scoped List

variable {ι : Type} {Element : Type} [TypeHandler Element] [LawfulTypeHandler Element]
variable {h h' : Heap Element} {own : ι → Multiset ℕ} {f g : ι}
variable {s other : RepeatedPtrFieldBase} {vis spare vis' spare' l l' : List ℕ} {xs ys : List Element}

/-- The loop that allocates: the new objects are in the slots behind the others. -/
theorem newElements_spec [DecidableEq ι] {total n : ℕ} {elements : ℕ → Option ℕ}
    (H : Owned h own) (f : ι) (current allocated : ℕ) (hreads : Reads elements l) (hroom : l.length + n ≤ total)
    (prototype : Element) : ∃ h' elements', RepeatedPtrFieldBase.newElements prototype l.length n
          (h, ⟨current, total, some ⟨allocated, elements⟩⟩) =
        some (h', ⟨current, total, some ⟨allocated, elements'⟩⟩) ∧ Reads elements' (l ++ List.range' h.next n) ∧
      Owned h' (update own f (Multiset.ofList (List.range' h.next n) + own f)) ∧
      (∀ p ∈ List.range' h.next n, h'.cell p = some (cleared Element)) ∧
      ∀ p < h.next, h'.cell p = h.cell p := by
  induction n generalizing h own elements l with
  | zero =>
    refine ⟨h, elements, rfl, by simpa using hreads, ?_, by simp, fun _ _ => rfl⟩
    rw [List.range'_zero, Multiset.coe_nil, Multiset.zero_add, Function.update_eq_self]
    exact H
  | succ n ih =>
    have hlength : (l ++ [h.next]).length = l.length + 1 := by simp
    obtain ⟨h', elements', hloop, hreads', howned, hnew, hold⟩ :=
      ih (H.new (cleared Element) f) (hreads.push h.next) (by omega)
    rw [hlength] at hloop
    rw [Heap.next_new] at hreads' howned hnew hold
    have hcell : ∀ p < h.next, (h.new (cleared Element)).cell p = h.cell p := by
      intro p hp
      rw [Heap.cell_new, Function.update_of_ne (ne_of_lt hp)]
    refine ⟨h', elements', ?_, ?_, ?_, ?_, ?_⟩
    · have hlt : l.length < total := by omega
      rw [RepeatedPtrFieldBase.newElements, LawfulTypeHandler.newFromPrototype_eq]
      simp only [RepeatedPtrFieldBase.setSlot, bind_some, bind_eq_bind, hlt, ↓reduceIte]
      exact hloop
    · rwa [append_assoc, singleton_append] at hreads'
    · rw [Function.update_idem, Function.update_self, Multiset.add_cons, ← Multiset.cons_add,
        Multiset.cons_coe] at howned
      exact howned
    · intro p hp
      rw [List.range'_succ, mem_cons] at hp
      rcases hp with rfl | hp
      · rw [hold h.next (Nat.lt_succ_self _), Heap.cell_new, Function.update_self]
      · exact hnew p hp
    · exact fun p hp => (hold p (Nat.lt_succ_of_lt hp)).trans (hcell p hp)

/-- The loop that merges: our cleared objects get the contents of theirs. -/
theorem mergeElements_spec {first k : ℕ} (H : Owned h own)
    (hours : ∀ i < l.length, s.slot (first + (k + i)) = l[i]?)
    (htheirs : ∀ i < l'.length, other.slot (k + i) = l'[i]?) (hlength : l.length = l'.length)
    (hcontent : l'.map h.cell = ys.map some)
    (hcleared : ∀ p ∈ l, h.cell p = some (cleared Element)) (hnodup : l.Nodup) (hapart : ∀ p ∈ l, p ∉ l') :
    ∃ h', s.mergeElements other first k l.length h = some h' ∧ Owned h' own ∧
      l.map h'.cell = ys.map some ∧ ∀ p ∉ l, h'.cell p = h.cell p := by
  induction l generalizing h l' ys k with
  | nil =>
    obtain rfl : l' = [] := eq_nil_of_length_eq_zero hlength.symm
    exact ⟨h, rfl, H, hcontent, fun _ _ => rfl⟩
  | cons p l ih =>
    obtain _ | ⟨q, l'⟩ := l'
    · exact absurd hlength (Nat.succ_ne_zero _)
    obtain _ | ⟨y, ys⟩ := ys
    · exact absurd hcontent (cons_ne_nil _ _)
    obtain ⟨hp, hnodup⟩ := List.nodup_cons.mp hnodup
    obtain ⟨hq, hrest⟩ := List.cons_eq_cons.mp hcontent
    have hslot : s.slot (first + k) = some p := by simpa using hours 0 (by simp)
    have hslot' : other.slot k = some q := by simpa using htheirs 0 (by simp)
    have hmem : p ∈ p :: l := mem_cons_self
    obtain ⟨t, ht, Ht, -, hself, hother⟩ :=
      H.modify (p := p) (TypeHandler.merge y) (by simp [hcleared p hmem])
    have hy : t.cell p = some y := by
      rw [hself, hcleared p hmem, map_some]
      exact congrArg some (LawfulTypeHandler.merge_new y)
    have hours' : ∀ i < l.length, s.slot (first + (k + 1 + i)) = l[i]? := by
      intro i hi
      have hnext := hours (i + 1) (by simpa using hi)
      rw [show k + 1 + i = k + (i + 1) by omega, hnext]
      rfl
    have htheirs' : ∀ i < l'.length, other.slot (k + 1 + i) = l'[i]? := by
      intro i hi
      have hnext := htheirs (i + 1) (by simpa using hi)
      rw [show k + 1 + i = k + (i + 1) by omega, hnext]
      rfl
    have hcontent' : l'.map t.cell = ys.map some :=
      Keeps.content_congr hrest fun r hr => hother r fun heq =>
        hapart p hmem (mem_cons_of_mem q (heq ▸ hr))
    have hcleared' : ∀ r ∈ l, t.cell r = some (cleared Element) := by
      intro r hr
      rw [hother r fun heq => hp (heq ▸ hr)]
      exact hcleared r (mem_cons_of_mem p hr)
    obtain ⟨h', hh', H', hmerged, hkept⟩ := ih Ht hours' htheirs' (Nat.succ.inj hlength) hcontent'
      hcleared' hnodup fun r hr hr' => hapart r (mem_cons_of_mem p hr) (mem_cons_of_mem q hr')
    refine ⟨h', ?_, H', ?_, ?_⟩
    · rw [length_cons, RepeatedPtrFieldBase.mergeElements]
      simp only [hslot, hslot', Heap.read, hq, ht, bind_eq_bind, bind_some]
      exact hh'
    · rw [map_cons, map_cons, hkept p hp, hy, hmerged]
    · intro r hr
      rw [mem_cons, not_or] at hr
      rw [hkept r hr.2, hother r hr.1]

/-- What `MergeFrom` makes visible: the first cleared objects, then new ones. -/
def reused (h : Heap Element) (spare : List ℕ) (n : ℕ) : List ℕ :=
  spare.take n ++ List.range' h.next (n - spare.length)

omit [TypeHandler Element] [LawfulTypeHandler Element] in
theorem length_reused {n : ℕ} : (reused h spare n).length = n := by
  rw [reused, length_append, length_take, length_range']
  omega

omit [TypeHandler Element] [LawfulTypeHandler Element] in
/-- The reused objects and the cleared ones behind them, in the order of the array. -/
theorem reused_append {n : ℕ} :
    reused h spare n ++ spare.drop n = spare ++ List.range' h.next (n - spare.length) := by
  rcases le_total n spare.length with hle | hge
  · rw [reused, Nat.sub_eq_zero_of_le hle]
    simp
  · rw [reused, take_of_length_le hge, drop_eq_nil_of_le hge, append_nil]

namespace Keeps
variable [DecidableEq ι]

section
variable (K : Keeps h own f s vis spare xs)
include K

omit [DecidableEq ι] [LawfulTypeHandler Element] in
/-- What the reused objects are: cleared ones, or new ones. -/
theorem mem_reused {n p : ℕ} (hp : p ∈ reused h spare n) : p ∈ own f ∨ h.next ≤ p := by
  rcases List.mem_append.mp hp with hp | hp
  · exact Or.inl (K.mem_own.mpr (Or.inr (mem_of_mem_take hp)))
  · exact Or.inr (List.mem_range'_1.mp hp).1

omit [DecidableEq ι] [LawfulTypeHandler Element] in
theorem nodup_reused (n : ℕ) : (vis ++ (reused h spare n ++ spare.drop n)).Nodup := by
  rw [reused_append, ← append_assoc]
  refine List.nodup_append.mpr ⟨K.nodup, nodup_range', fun p hp q hq heq => ?_⟩
  have hlt : p < h.next := K.lt_next (K.mem_own.mpr (List.mem_append.mp hp))
  have hge := (List.mem_range'_1.mp hq).1
  omega

/-- The array after room was made for `n` more elements and the missing ones were allocated. -/
theorem allocate {n p : ℕ} (hn : n ≠ 0)
    (hcan : CanExtend s n) (hp : (h.cell p).isSome) (hslot : other.slot 0 = some p) :
    ∃ t h' s', s.internalExtend n = some t ∧ t.currentSize = vis.length ∧
      t.allocateMissing h other t.currentSize n (t.allocatedSize - t.currentSize) = some (h', s') ∧
      Reads s'.slot (vis ++ (reused h spare n ++ spare.drop n)) ∧ s'.currentSize = vis.length ∧ s'.rep ≠ none ∧
      s'.allocatedSize = vis.length + spare.length ∧ vis.length + spare.length ≤ s'.totalSize ∧
      vis.length + n ≤ s'.totalSize ∧ s'.totalSize ≤ intMax ∧
      Owned h' (update own f (Multiset.ofList (vis ++ (reused h spare n ++ spare.drop n)))) ∧
      (∀ q ∈ reused h spare n, h'.cell q = some (cleared Element)) ∧ ∀ q < h.next, h'.cell q = h.cell q := by
  obtain ⟨t, ht, Ht, hrep, hroom⟩ := K.holds.internalExtend (Nat.pos_of_ne_zero hn) hcan
  obtain ⟨total, elements, rfl, hreads, hle, hfits⟩ := Ht.exists_mk hrep
  obtain ⟨x, hx⟩ := Option.isSome_iff_exists.mp hp
  have hspare : (vis ++ spare).length - vis.length = spare.length := by simp
  change vis.length + n ≤ total at hroom
  rw [length_append] at hle
  have hfit : (vis ++ spare).length + (n - spare.length) ≤ total := by
    rw [length_append]
    omega
  obtain ⟨h', elements', hloop, hreads', howned, hnew, hold⟩ :=
    newElements_spec K.owned f vis.length (vis ++ spare).length hreads hfit x
  refine ⟨_, h', ⟨vis.length, total, some ⟨(vis ++ spare).length, elements'⟩⟩, ht, rfl, ?_, ?_, rfl,
    (fun hrep => nomatch hrep), length_append, hle, hroom, hfits, ?_, ?_, hold⟩
  · simp only [RepeatedPtrFieldBase.allocateMissing, RepeatedPtrFieldBase.allocatedSize, elim_some, hspare]
    by_cases hlt : spare.length < n
    · rw [if_pos hlt, hslot]
      simp only [Heap.read, hx, bind_eq_bind, bind_some]
      rw [← length_append]
      exact hloop
    · rw [if_neg hlt, ← hloop, Nat.sub_eq_zero_of_le (Nat.le_of_not_lt hlt)]
      rfl
  · rw [reused_append, ← append_assoc]
    exact hreads'
  · rw [K.own_eq, Multiset.coe_add] at howned
    rw [reused_append, ← append_assoc, Multiset.coe_eq_coe.mpr perm_append_comm]
    exact howned
  · intro q hq
    rcases List.mem_append.mp hq with hq | hq
    · have hmem := mem_of_mem_take hq
      rw [hold q (K.lt_next (K.mem_own.mpr (Or.inr hmem)))]
      exact K.clean q hmem
    · exact hnew q hq

/-- `MergeFrom` appends the contents of the other field. -/
theorem mergeFrom (Ko : Keeps h own g other vis' spare' ys)
    (hne : f ≠ g) (hfits : other.currentSize ≠ 0 → CanExtend s other.currentSize) :
    ∃ h' s', s.mergeFrom h other = some (h', s') ∧ Becomes h own f h' s' (xs ++ ys) := by
  have hcurrent := Ko.holds.current
  rw [RepeatedPtrFieldBase.mergeFrom]
  by_cases hzero : other.currentSize = 0
  · refine ⟨h, s, if_pos hzero, ?_⟩
    obtain rfl : ys = [] := eq_nil_of_length_eq_zero (by rw [← Ko.length_eq]; omega)
    rw [append_nil]
    exact K.becomes_of_perm K.holds (.refl _) K.owned K.content K.clean (.refl _ _)
  · have hcan := hfits hzero
    have htheirs : ∀ i < vis'.length, other.slot (0 + i) = vis'[i]? := by
      intro i hi
      rw [Nat.zero_add]
      exact Ko.holds.reads.of_append i hi
    have hpos : 0 < vis'.length := by omega
    have hslot : other.slot 0 = some vis'[0] := by
      rw [Ko.holds.reads.of_append 0 hpos, List.getElem?_eq_getElem hpos]
    obtain ⟨t, h1, s1, ht, htcurrent, hallocate, hreads, hs1, hrep, hallocated, hle, hroom, hmax,
      howned, hcleared, hold⟩ := K.allocate hzero hcan (Ko.live_vis (getElem_mem hpos)) hslot
    rw [hcurrent] at ht hallocate hreads hroom howned hcleared
    have hnodup := K.nodup_reused vis'.length
    obtain ⟨-, hback, hfront⟩ := List.nodup_append.mp hnodup
    obtain ⟨hreused, -, hbehind⟩ := List.nodup_append.mp hback
    have hours : ∀ i < (reused h spare vis'.length).length,
        s1.slot (vis.length + (0 + i)) = (reused h spare vis'.length)[i]? := by
      intro i hi
      rw [Nat.zero_add, hreads.after (by rw [length_append]; omega), List.getElem?_append_left hi]
    have hapart : ∀ p ∈ reused h spare vis'.length, p ∉ vis' := by
      intro p hp hmem
      have hother : p ∈ own g := Ko.mem_own.mpr (Or.inl hmem)
      rcases K.mem_reused hp with hmine | hge
      · exact hne (K.owned.disjoint f g p hmine hother)
      · have hlt := Ko.lt_next hother
        omega
    have hcontent : vis'.map h1.cell = ys.map some :=
      content_congr Ko.content fun p hp => hold p (Ko.lt_next (Ko.mem_own.mpr (Or.inl hp)))
    obtain ⟨h2, hmerge, howned2, hmerged, hkept⟩ :=
      mergeElements_spec howned hours htheirs length_reused hcontent hcleared hreused hapart
    rw [length_reused] at hmerge
    have hlength : (vis ++ reused h spare vis'.length).length = vis.length + vis'.length := by
      rw [length_append, length_reused]
    obtain ⟨current, total, rep⟩ := s1
    obtain ⟨⟨allocated, elements⟩, rfl⟩ := Option.ne_none_iff_exists'.mp hrep
    obtain rfl : current = vis.length := hs1
    obtain rfl : allocated = vis.length + spare.length := hallocated
    refine ⟨h2, ⟨vis.length + vis'.length, total,
      some ⟨max (vis.length + spare.length) (vis.length + vis'.length), elements⟩⟩, ?_, ?_⟩
    · rw [if_neg hzero, hcurrent]
      rw [htcurrent] at hallocate
      simp only [ht, RepeatedPtrFieldBase.mergeFromInnerLoop, htcurrent, hallocate, hmerge,
        bind_eq_bind, bind_some]
      by_cases hlt : vis.length + spare.length < vis.length + vis'.length
      · rw [max_eq_right (by omega)]
        simp only [RepeatedPtrFieldBase.allocatedSize, elim_some, hlt, ↓reduceIte]
        rfl
      · rw [max_eq_left (by omega)]
        simp only [RepeatedPtrFieldBase.allocatedSize, elim_some, hlt, ↓reduceIte]
        rfl
    · have H' : Holds
          ⟨vis.length + vis'.length, total,
            some ⟨max (vis.length + spare.length) (vis.length + vis'.length), elements⟩⟩
          (vis ++ reused h spare vis'.length) (spare.drop vis'.length) := by
        have hmaxle : max (vis.length + spare.length) (vis.length + vis'.length) ≤ total :=
          max_le hle hroom
        rw [← hlength] at hmaxle ⊢
        refine holds_mk ?_ ?_ hmaxle hmax
        · rwa [append_assoc]
        · simp only [length_append, length_reused, length_drop]
          omega
      refine Becomes.of H' howned2 ?_ ?_ ?_ ?_
      · rw [append_assoc]
      · rw [map_append, map_append, hmerged]
        congr 1
        refine content_congr K.content fun p hp => ?_
        rw [hkept p fun hmem => hfront p hp p (mem_append_left _ hmem) rfl]
        exact hold p (K.lt_next (K.mem_own.mpr (Or.inl hp)))
      · intro p hp
        have hmem := mem_of_mem_drop hp
        rw [hkept p fun hmem' => hbehind p hmem' p hp rfl,
          hold p (K.lt_next (K.mem_own.mpr (Or.inr hmem)))]
        exact K.clean p hmem
      · intro p hp hnot
        rw [hkept p fun hmem => ?_]
        · exact hold p hp
        · rcases K.mem_reused hmem with hmine | hge
          · exact hnot hmine
          · omega

end

end Keeps

end Protoc.Repeated
