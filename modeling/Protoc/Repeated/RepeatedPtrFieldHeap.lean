import Protoc.Repeated.RepeatedPtrFieldSlots

/-!
# The objects of a repeated field

The operations on the field and on the heap together: the field goes on owning what its array
holds, the objects behind the visible ones stay cleared, and the visible contents change as those
of a list.
-/

namespace Protoc.Repeated

open Protoc.Lib
open List Option
open Protoc.Lib.Slots (Reads)
open Function (update)
open scoped List

variable {ι : Type} {Element : Type} [TypeHandler Element]
variable {h h' t : Heap Element} {own : ι → Multiset ℕ} {f g : ι}
variable {s s' : RepeatedPtrFieldBase} {vis spare vis' spare' : List ℕ} {xs ys : List Element}
variable {p q : ℕ} {x : Element}

/-- The field owns the objects in its array; the visible ones have the contents `xs`, the others
are cleared. -/
structure Keeps (h : Heap Element) (own : ι → Multiset ℕ) (f : ι) (s : RepeatedPtrFieldBase)
    (vis spare : List ℕ) (xs : List Element) : Prop where
  holds : Holds s vis spare
  owned : Owned h own
  own_eq : own f = Multiset.ofList (vis ++ spare)
  content : vis.map h.cell = xs.map some
  clean : ∀ p ∈ spare, h.cell p = some (cleared Element)

/-- The live objects outside `m` are as they were. -/
def Untouched (h h' : Heap Element) (m : Multiset ℕ) : Prop :=
  ∀ p < h.next, p ∉ m → h'.cell p = h.cell p

omit [TypeHandler Element] in
theorem Untouched.refl (h : Heap Element) (m : Multiset ℕ) : Untouched h h m := fun _ _ _ => rfl

namespace Keeps

section
variable (K : Keeps h own f s vis spare xs)
include K

theorem mem_own : p ∈ own f ↔ p ∈ vis ∨ p ∈ spare := by
  rw [K.own_eq, Multiset.mem_coe, mem_append]

theorem nodup : (vis ++ spare).Nodup := by
  have hnodup := K.owned.nodup f
  rwa [K.own_eq, Multiset.coe_nodup] at hnodup

theorem live_vis (hp : p ∈ vis) : (h.cell p).isSome :=
  K.owned.live f p (K.mem_own.mpr (Or.inl hp))

theorem live_spare (hp : p ∈ spare) : (h.cell p).isSome :=
  K.owned.live f p (K.mem_own.mpr (Or.inr hp))

theorem length_eq : vis.length = xs.length := by
  have hlength := congrArg List.length K.content
  rwa [length_map, length_map] at hlength

theorem lt_next (hp : p ∈ own f) : p < h.next :=
  K.owned.bounded p (K.owned.live f p hp)

theorem cell_eq {i : ℕ} (hi : i < xs.length) (hi' : i < vis.length) : h.cell vis[i] = some xs[i] := by
  have hget : (vis.map h.cell)[i]? = (xs.map some)[i]? := congrArg (·[i]?) K.content
  simpa [hi, hi'] using hget

end

omit [TypeHandler Element] in
/-- Contents are those of before where the objects did not change. -/
theorem content_congr (hcontent : vis.map h.cell = xs.map some)
    (heq : ∀ p ∈ vis, h'.cell p = h.cell p) : vis.map h'.cell = xs.map some := by
  rw [← hcontent]
  exact map_congr_left heq

omit [TypeHandler Element] in
theorem content_append (hcontent : vis.map h.cell = xs.map some) (hp : h.cell p = some x) :
    (vis ++ [p]).map h.cell = (xs ++ [x]).map some := by
  rw [map_append, map_append, hcontent, map_singleton, map_singleton, hp]

theorem get_eq (K : Keeps h own f s vis spare xs) {i : ℕ} (hi : i < xs.length) : s.get h i = some xs[i] := by
  have hi' : i < vis.length := K.length_eq ▸ hi
  have hslot : s.slot i = some vis[i] := by
    rw [K.holds.reads i (by rw [length_append]; omega), List.getElem?_append_left hi',
      List.getElem?_eq_getElem hi']
  rw [RepeatedPtrFieldBase.get, hslot]
  exact K.cell_eq hi hi'

theorem exists_last (K : Keeps h own f s vis spare xs) (hne : xs ≠ []) :
    ∃ front p, vis = front ++ [p] ∧ h.cell p = xs.getLast? ∧ front.map h.cell = xs.dropLast.map some := by
  obtain ⟨ys, y, rfl⟩ := (eq_nil_or_concat' xs).resolve_left hne
  obtain ⟨front, p, rfl⟩ := (eq_nil_or_concat' vis).resolve_left fun hnil => by
    have hlength := K.length_eq
    rw [hnil, length_append] at hlength
    exact absurd hlength (by simp)
  have hcontent := K.content
  rw [map_append, map_append] at hcontent
  obtain ⟨hfront, hlast⟩ := append_inj' hcontent rfl
  refine ⟨front, p, rfl, ?_, ?_⟩
  · simpa using hlast
  · rw [dropLast_concat]
    exact hfront

end Keeps

variable [DecidableEq ι]

/-- The field after an operation shows `xs`, and only its own objects were touched. -/
def Becomes (h : Heap Element) (own : ι → Multiset ℕ) (f : ι) (h' : Heap Element)
    (s' : RepeatedPtrFieldBase) (xs : List Element) : Prop :=
  ∃ vis spare, Keeps h' (update own f (Multiset.ofList (vis ++ spare))) f s' vis spare xs ∧
    Untouched h h' (own f)

theorem Becomes.of {m : Multiset ℕ} (hholds : Holds s' vis' spare')
    (howned : Owned h' (update own f m)) (hm : m = Multiset.ofList (vis' ++ spare'))
    (hcontent : vis'.map h'.cell = xs.map some) (hclean : ∀ p ∈ spare', h'.cell p = some (cleared Element))
    (huntouched : Untouched h h' (own f)) : Becomes h own f h' s' xs := by
  subst hm
  exact ⟨vis', spare', ⟨hholds, howned, Function.update_self .., hcontent, hclean⟩, huntouched⟩

namespace Keeps

section
variable (K : Keeps h own f s vis spare xs)
include K

theorem becomes_of_perm (hholds : Holds s' vis' spare')
    (hperm : (vis ++ spare).Perm (vis' ++ spare')) (howned : Owned h' own)
    (hcontent : vis'.map h'.cell = ys.map some)
    (hclean : ∀ p ∈ spare', h'.cell p = some (cleared Element)) (huntouched : Untouched h h' (own f)) :
    Becomes h own f h' s' ys := by
  refine Becomes.of (m := own f) hholds ?_ ?_ hcontent hclean huntouched
  · rwa [Function.update_eq_self]
  · rw [K.own_eq]
    exact Multiset.coe_eq_coe.mpr hperm

/-! ## Reserve and exchange -/

theorem reserve {n : ℤ} (hfits : (s.currentSize : ℤ) < n → CanExtend s (n - s.currentSize).toNat) :
    ∃ s', s.reserve n = some s' ∧ Becomes h own f h s' xs := by
  rw [RepeatedPtrFieldBase.reserve]
  by_cases hlt : (s.currentSize : ℤ) < n
  · obtain ⟨s', hs', H', -, -⟩ := K.holds.internalExtend (by omega) (hfits hlt)
    refine ⟨s', (if_pos hlt).trans hs', ?_⟩
    exact K.becomes_of_perm H' (.refl _) K.owned K.content K.clean (.refl _ _)
  · refine ⟨s, if_neg hlt, ?_⟩
    exact K.becomes_of_perm K.holds (.refl _) K.owned K.content K.clean (.refl _ _)

theorem swapElements {i j : ℕ} (hi : i < xs.length) (hj : j < xs.length) :
    ∃ s', s.swapElements i j = some s' ∧ Becomes h own f h s' ((xs.set i xs[j]).set j xs[i]) := by
  have hi' : i < vis.length := K.length_eq ▸ hi
  have hj' : j < vis.length := K.length_eq ▸ hj
  obtain ⟨s', hs', H'⟩ := K.holds.swapElements hi' hj'
  refine ⟨s', hs', K.becomes_of_perm H' ?_ K.owned ?_ K.clean (.refl _ _)⟩
  · exact (set_set_perm hi' hj').symm.append_right spare
  · rw [map_set, map_set, K.cell_eq hi hi', K.cell_eq hj hj', K.content, map_set, map_set]

theorem setElement {i : ℕ} (hi : i < xs.length) (x : Element) :
    ∃ h', s.setElement h i x = some h' ∧ Becomes h own f h' s (xs.set i x) := by
  have hi' : i < vis.length := K.length_eq ▸ hi
  have hslot : s.slot i = some vis[i] := by
    rw [K.holds.reads i (by rw [length_append]; omega), List.getElem?_append_left hi',
      List.getElem?_eq_getElem hi']
  have hmem : vis[i] ∈ vis := getElem_mem hi'
  obtain ⟨hvis, -, hapart⟩ := List.nodup_append.mp K.nodup
  obtain ⟨h', hh', howned, -, hself, hother⟩ := K.owned.modify (fun _ => x) (K.live_vis hmem)
  refine ⟨h', ?_, K.becomes_of_perm K.holds (.refl _) howned ?_ ?_ ?_⟩
  · rw [RepeatedPtrFieldBase.setElement, hslot]
    exact hh'
  · refine ext_getElem (by simp [K.length_eq]) fun j hj hj' => ?_
    rw [length_map] at hj
    rw [getElem_map, getElem_map]
    rcases eq_or_ne j i with rfl | hne
    · rw [hself, K.cell_eq hi hi', getElem_set_self]
      rfl
    · rw [hother _ fun heq => hne ((List.Nodup.getElem_inj_iff hvis).mp heq),
        getElem_set_ne hne.symm, K.cell_eq _ hj]
  · intro q hq
    rw [hother q fun heq => hapart vis[i] hmem q hq heq.symm]
    exact K.clean q hq
  · intro q _ hq
    refine hother q ?_
    rintro rfl
    exact hq (K.mem_own.mpr (Or.inl hmem))

end

/-! ## Adding -/

theorem append_new (K : Keeps h own f s vis [] xs) (H : Holds s' (vis ++ [h.next]) [])
    (x : Element) : Becomes h own f (h.new x) s' (xs ++ [x]) := by
  have hother : ∀ p < h.next, (h.new x).cell p = h.cell p := by
    intro p hp
    rw [Heap.cell_new, Function.update_of_ne (ne_of_lt hp)]
  refine Becomes.of H (K.owned.new x f) ?_ (content_append ?_ ?_) (by simp)
    fun p hp _ => hother p hp
  · rw [K.own_eq, Multiset.cons_coe, append_nil, append_nil]
    exact Multiset.coe_eq_coe.mpr (perm_append_singleton _ _).symm
  · exact content_congr K.content fun p hp => hother p (K.lt_next (K.mem_own.mpr (Or.inl hp)))
  · rw [Heap.cell_new, Function.update_self]

theorem append_cleared (K : Keeps h own f s vis (q :: spare) xs) (howned : Owned h' own)
    (hq : h'.cell q = some x) (hother : ∀ p, p ≠ q → h'.cell p = h.cell p) :
    Becomes h own f h' { s with currentSize := s.currentSize + 1 } (xs ++ [x]) := by
  obtain ⟨-, H'⟩ := K.holds.take_cleared
  obtain ⟨-, hspare, hapart⟩ := List.nodup_append.mp K.nodup
  have hnotMem : q ∉ spare := (List.nodup_cons.mp hspare).1
  refine K.becomes_of_perm H' (by simp) howned (content_append ?_ hq) ?_ ?_
  · exact content_congr K.content fun p hp => hother p (hapart p hp q mem_cons_self)
  · intro p hp
    rw [hother p fun heq => hnotMem (heq ▸ hp)]
    exact K.clean p (mem_cons_of_mem q hp)
  · intro p _ hp
    refine hother p ?_
    rintro rfl
    exact hp (K.mem_own.mpr (Or.inr mem_cons_self))

section
variable (K : Keeps h own f s vis spare xs)
include K

theorem add [LawfulTypeHandler Element] (hfits : s.hasCleared = false → s.isFull = true →
      s.totalSize < kRepeatedFieldUpperClampLimit) (prototype : Option Element) :
    ∃ p h' s', s.add h prototype = some (p, h', s') ∧ h'.cell p = some (cleared Element) ∧
      Becomes h own f h' s' (xs ++ [cleared Element]) := by
  cases spare with
  | nil =>
    have hnone : ¬ s.hasCleared = true := by simp [K.holds.hasCleared_iff]
    obtain ⟨s', hs', H'⟩ := K.holds.addOutOfLineHelper (hfits (Bool.eq_false_iff.mpr hnone)) h.next
    refine ⟨h.next, h.new (cleared Element), s', ?_, ?_, K.append_new H' _⟩
    · rw [RepeatedPtrFieldBase.add, if_neg hnone, LawfulTypeHandler.newFromPrototype_eq]
      simp only [hs', bind_eq_bind, bind_some]
      rfl
    · rw [Heap.cell_new, Function.update_self]
  | cons q spare =>
    have hsome : s.hasCleared = true := K.holds.hasCleared_iff.mpr (cons_ne_nil _ _)
    obtain ⟨hslot, -⟩ := K.holds.take_cleared
    have hq := K.clean q mem_cons_self
    refine ⟨q, h, _, ?_, hq, K.append_cleared K.owned hq fun _ _ => rfl⟩
    rw [RepeatedPtrFieldBase.add, if_pos hsome, hslot]
    rfl

theorem addValue (hfits : s.hasCleared = false → s.isFull = true →
      s.totalSize < kRepeatedFieldUpperClampLimit) (x : Element) :
    ∃ h' s', s.addValue h x = some (h', s') ∧ Becomes h own f h' s' (xs ++ [x]) := by
  cases spare with
  | nil =>
    have hnone : ¬ s.hasCleared = true := by simp [K.holds.hasCleared_iff]
    obtain ⟨t, ht, Ht, -, hroom⟩ := K.holds.makeRoom (hfits (Bool.eq_false_iff.mpr hnone))
    obtain ⟨s', hs', H'⟩ := Ht.append_new hroom h.next
    obtain ⟨u, hu, hu'⟩ := Option.bind_eq_some_iff.mp hs'
    refine ⟨h.new x, s', ?_, K.append_new H' x⟩
    rw [RepeatedPtrFieldBase.addValue, if_neg hnone]
    simp only [ht, hu, hu', bind_eq_bind, bind_some]
  | cons q spare =>
    have hsome : s.hasCleared = true := K.holds.hasCleared_iff.mpr (cons_ne_nil _ _)
    obtain ⟨hslot, -⟩ := K.holds.take_cleared
    obtain ⟨h', hh', howned, -, hself, hother⟩ :=
      K.owned.modify (fun _ => x) (K.live_spare mem_cons_self)
    have hq : h'.cell q = some x := by
      rw [hself, K.clean q mem_cons_self]
      rfl
    refine ⟨h', _, ?_, K.append_cleared howned hq hother⟩
    rw [RepeatedPtrFieldBase.addValue, if_pos hsome, hslot]
    simp only [hh', bind_eq_bind, bind_some]

theorem addFromCleared :
    ∃ r s', s.addFromCleared = some (r, s') ∧ (∀ p ∈ r, h.cell p = some (cleared Element)) ∧
      Becomes h own f h s' (if r.isSome then xs ++ [cleared Element] else xs) := by
  cases spare with
  | nil =>
    have hnone : ¬ s.hasCleared = true := by simp [K.holds.hasCleared_iff]
    refine ⟨none, s, if_neg hnone, by simp, ?_⟩
    exact K.becomes_of_perm K.holds (.refl _) K.owned K.content K.clean (.refl _ _)
  | cons q spare =>
    have hsome : s.hasCleared = true := K.holds.hasCleared_iff.mpr (cons_ne_nil _ _)
    obtain ⟨hslot, -⟩ := K.holds.take_cleared
    have hq := K.clean q mem_cons_self
    refine ⟨some q, _, ?_, by simpa using hq, K.append_cleared K.owned hq fun _ _ => rfl⟩
    rw [RepeatedPtrFieldBase.addFromCleared, if_pos hsome, hslot]
    rfl

/-! ## Objects passed in -/

theorem append_given (hp : h.cell p = some x)
    (hfree : ∀ j, p ∉ own j) (H : Holds s' (vis ++ [p]) spare') (hperm : spare.Perm spare') :
    Becomes h own f (h.log (.given p)) s' (xs ++ [x]) := by
  have hlive : (h.cell p).isSome := by simp [hp]
  refine Becomes.of H (K.owned.give hlive hfree f) ?_ (content_append K.content hp)
    (fun q hq => K.clean q (hperm.mem_iff.mpr hq)) fun _ _ _ => rfl
  rw [K.own_eq, Multiset.cons_coe]
  refine Multiset.coe_eq_coe.mpr ?_
  calc p :: (vis ++ spare)
      _ ~ p :: (vis ++ spare') := (hperm.append_left vis).cons p
      _ ~ vis ++ p :: spare' := List.perm_middle.symm
      _ = vis ++ [p] ++ spare' := by simp

end

theorem append_deleting (K : Keeps h own f s vis (q :: spare) xs) (hp : h.cell p = some x)
    (hfree : ∀ j, p ∉ own j) (H : Holds s' (vis ++ [p]) spare) :
    ∃ h', (h.log (.given p)).delete q = some h' ∧ Becomes h own f h' s' (xs ++ [x]) := by
  have hlive : (h.cell p).isSome := by simp [hp]
  have hown : update own f (p ::ₘ own f) f = q ::ₘ Multiset.ofList (vis ++ [p] ++ spare) := by
    rw [Function.update_self, K.own_eq, Multiset.cons_coe, Multiset.cons_coe]
    refine Multiset.coe_eq_coe.mpr ?_
    calc p :: (vis ++ q :: spare)
        _ ~ p :: q :: (vis ++ spare) := List.perm_middle.cons p
        _ ~ q :: p :: (vis ++ spare) := .swap q p _
        _ ~ q :: (vis ++ p :: spare) := List.perm_middle.symm.cons q
        _ = q :: (vis ++ [p] ++ spare) := by simp
  obtain ⟨h', hh', howned, -, hother⟩ := (K.owned.give hlive hfree f).delete hown
  obtain ⟨-, hspare, hapart⟩ := List.nodup_append.mp K.nodup
  have hmem : q ∈ own f := K.mem_own.mpr (Or.inr mem_cons_self)
  rw [Function.update_idem] at howned
  refine ⟨h', hh', Becomes.of H howned rfl (content_append ?_ ?_) ?_ ?_⟩
  · exact content_congr K.content fun r hr => hother r (hapart r hr q mem_cons_self)
  · rw [hother p fun heq => hfree f (heq ▸ hmem)]
    exact hp
  · intro r hr
    rw [hother r fun heq => (List.nodup_cons.mp hspare).1 (heq ▸ hr)]
    exact K.clean r (mem_cons_of_mem q hr)
  · intro r _ hr
    exact hother r fun heq => hr (heq ▸ hmem)

/-- `UnsafeArenaAddAllocated` shows the object at the end. -/
theorem unsafeArenaAddAllocated (K : Keeps h own f s vis spare xs) (hp : h.cell p = some x)
    (hfree : ∀ j, p ∉ own j) (hfits : (s.rep.isNone || s.currentSize == s.totalSize) = true →
      s.totalSize < kRepeatedFieldUpperClampLimit) :
    ∃ h' s', s.unsafeArenaAddAllocated (h.log (.given p)) p = some (h', s') ∧
      Becomes h own f h' s' (xs ++ [x]) := by
  have hcurrent := K.holds.current
  have hallocated := K.holds.allocated
  have hle := K.holds.allocated_le
  rw [length_append] at hallocated
  by_cases hgrow : (s.rep.isNone || s.currentSize == s.totalSize) = true
  · obtain rfl : spare = [] := by
      rw [Bool.or_eq_true, beq_iff_eq, isNone_iff_eq_none] at hgrow
      refine eq_nil_of_length_eq_zero ?_
      rcases hgrow with hrep | heq
      · have hzero := K.holds.total_eq hrep
        omega
      · omega
    obtain ⟨t, ht, Ht, -, hroom⟩ := K.holds.reserveOneMore (hfits hgrow)
    obtain ⟨s', hs', H'⟩ := Ht.append_new (by rw [Ht.allocated, length_append]; omega) p
    obtain ⟨u, hu, hu'⟩ := Option.bind_eq_some_iff.mp hs'
    refine ⟨h.log (.given p), s', ?_, K.append_given hp hfree H' (.refl _)⟩
    rw [RepeatedPtrFieldBase.unsafeArenaAddAllocated, if_pos hgrow]
    simp only [ht, hu, hu', bind_eq_bind, bind_some]
  · have hne : s.currentSize ≠ s.totalSize := by
      rw [Bool.or_eq_true, not_or, beq_iff_eq] at hgrow
      exact hgrow.2
    cases spare with
    | nil =>
      rw [length_nil, add_zero] at hallocated
      have hroom : s.allocatedSize < s.totalSize := by omega
      obtain ⟨s', hs', H'⟩ := K.holds.append_new hroom p
      obtain ⟨u, hu, hu'⟩ := Option.bind_eq_some_iff.mp hs'
      refine ⟨h.log (.given p), s', ?_, K.append_given hp hfree H' (.refl _)⟩
      rw [RepeatedPtrFieldBase.unsafeArenaAddAllocated, if_neg hgrow, if_neg (by omega),
        if_neg (by omega)]
      simp only [hu, hu', bind_eq_bind, bind_some]
    | cons q spare =>
      rw [length_cons] at hallocated
      have hslot := K.holds.take_cleared.1
      by_cases hfull : s.allocatedSize = s.totalSize
      · obtain ⟨s', hs', H'⟩ := K.holds.append_over p
        obtain ⟨h', hh', hbecomes⟩ := K.append_deleting hp hfree H'
        refine ⟨h', s', ?_, hbecomes⟩
        rw [RepeatedPtrFieldBase.unsafeArenaAddAllocated, if_neg hgrow, if_pos hfull, hslot]
        simp only [hh', hs', bind_eq_bind, bind_some]
      · obtain ⟨s', t, u, hmove, hcount, happend, H'⟩ :=
          K.holds.append_moving (lt_of_le_of_ne hle hfull) p
        refine ⟨h.log (.given p), s', ?_, K.append_given hp hfree H' (perm_append_singleton q spare).symm⟩
        rw [RepeatedPtrFieldBase.unsafeArenaAddAllocated, if_neg hgrow, if_neg hfull, if_pos (by omega), hslot]
        simp only [hmove, hcount, happend, bind_eq_bind, bind_some]

end Keeps

omit [TypeHandler Element] [DecidableEq ι] in
/-- The fast path of `AddAllocated` does what `UnsafeArenaAddAllocated` does. -/
theorem Holds.addAllocated_eq (H : Holds s vis spare) (h : Heap Element) (p : ℕ) :
    s.addAllocated h p = s.unsafeArenaAddAllocated h p := by
  rw [RepeatedPtrFieldBase.addAllocated]
  by_cases hfast : (s.rep.isSome && decide (s.allocatedSize < s.totalSize)) = true
  · rw [if_pos hfast]
    rw [Bool.and_eq_true, decide_eq_true_eq] at hfast
    obtain ⟨hsome, hroom⟩ := hfast
    have hcurrent : s.currentSize < s.totalSize := lt_of_le_of_lt H.current_le hroom
    have hgrow : ¬ (s.rep.isNone || s.currentSize == s.totalSize) = true := by
      simp [Option.isSome_iff_ne_none.mp hsome, ne_of_lt hcurrent]
    rw [RepeatedPtrFieldBase.unsafeArenaAddAllocated, if_neg hgrow, if_neg (ne_of_lt hroom)]
    obtain ⟨r, hrep⟩ := Option.isSome_iff_exists.mp hsome
    obtain ⟨current, total, rep⟩ := s
    obtain rfl : rep = some r := hrep
    have hroom' : r.allocatedSize < total := hroom
    have hcurrent' : current < total := hcurrent
    simp only [RepeatedPtrFieldBase.append, RepeatedPtrFieldBase.setSlot,
      RepeatedPtrFieldBase.setAllocated, RepeatedPtrFieldBase.allocatedSize,
      RepeatedPtrFieldBase.slot, elim_some, bind_eq_bind, bind_some,
      map_some, hroom', ↓reduceIte]
    by_cases hcleared : current < r.allocatedSize
    · rw [if_pos hcleared, if_pos hcleared]
      cases r.elements current with
      | none => rfl
      | some q => simp [hcurrent']
    · rw [if_neg hcleared, if_neg hcleared]
      simp [hcurrent']
  · rw [if_neg hfast]

namespace Keeps

theorem addCleared (K : Keeps h own f s vis spare xs) (hp : h.cell p = some (cleared Element))
    (hfree : ∀ j, p ∉ own j) (hfits : s.isFull = true → s.totalSize < kRepeatedFieldUpperClampLimit) :
    ∃ s', s.addCleared p = some s' ∧ Becomes h own f (h.log (.given p)) s' xs := by
  have hlive : (h.cell p).isSome := by simp [hp]
  obtain ⟨s', hs', H'⟩ := K.holds.addCleared hfits p
  refine ⟨s', hs', Becomes.of H' (K.owned.give hlive hfree f) ?_ K.content ?_ fun _ _ _ => rfl⟩
  · rw [K.own_eq, Multiset.cons_coe, ← append_assoc]
    exact Multiset.coe_eq_coe.mpr (perm_append_singleton p _).symm
  · intro q hq
    rcases List.mem_append.mp hq with hq | hq
    · exact K.clean q hq
    · rw [List.mem_singleton.mp hq]
      exact hp

end Keeps

end Protoc.Repeated
