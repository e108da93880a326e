import Protoc.Repeated.RepeatedPtrField

/-!
# The pointers of a repeated field

The array of a field holds the visible elements and behind them the cleared ones.  Each
operation is followed on these two lists; which of them it can do is a matter of the `int`s in
`InternalExtend`.
-/

namespace Protoc.Repeated

open Protoc.Lib
open List Option RepeatedPtrFieldBase
open Protoc.Lib.Slots (Reads)
open Function (update)

/-- The array holds the visible elements, then the cleared ones. -/
structure Holds (s : RepeatedPtrFieldBase) (vis spare : List ℕ) : Prop where
  reads : Reads s.slot (vis ++ spare)
  current : s.currentSize = vis.length
  allocated : s.allocatedSize = (vis ++ spare).length
  allocated_le : s.allocatedSize ≤ s.totalSize
  total_le : s.totalSize ≤ intMax
  total_eq : s.rep = none → s.totalSize = 0

/-- The sums and the product in `InternalExtend` are `int`s. -/
def CanExtend (s : RepeatedPtrFieldBase) (extendAmount : ℕ) : Prop :=
  s.currentSize + extendAmount ≤ intMax ∧
    (s.totalSize < s.currentSize + extendAmount → s.totalSize < kRepeatedFieldUpperClampLimit)

variable {s : RepeatedPtrFieldBase} {vis spare : List ℕ} {p q k : ℕ}

theorem holds_init : Holds .init [] [] where
  reads := Slots.reads_nil
  current := rfl
  allocated := rfl
  allocated_le := le_rfl
  total_le := Nat.zero_le _
  total_eq _ := rfl

theorem holds_mk {total allocated : ℕ} {elements : ℕ → Option ℕ} (h : Reads elements (vis ++ spare))
    (hallocated : allocated = (vis ++ spare).length) (hle : allocated ≤ total) (hfits : total ≤ intMax) :
    Holds ⟨vis.length, total, some ⟨allocated, elements⟩⟩ vis spare where
  reads := h
  current := rfl
  allocated := hallocated
  allocated_le := hle
  total_le := hfits
  total_eq h := nomatch h

namespace Holds

section
variable (H : Holds s vis spare)
include H

theorem exists_mk (hrep : s.rep ≠ none) :
    ∃ total elements, s = ⟨vis.length, total, some ⟨(vis ++ spare).length, elements⟩⟩ ∧
      Reads elements (vis ++ spare) ∧ (vis ++ spare).length ≤ total ∧ total ≤ intMax := by
  obtain ⟨current, total, rep⟩ := s
  cases rep with
  | none => exact absurd rfl hrep
  | some r =>
    obtain ⟨allocated, elements⟩ := r
    obtain rfl : current = vis.length := H.current
    obtain rfl : allocated = (vis ++ spare).length := H.allocated
    exact ⟨total, elements, rfl, H.reads, H.allocated_le, H.total_le⟩

theorem eq_nil (hrep : s.rep = none) : vis ++ spare = [] := by
  have hle := H.allocated_le
  rw [H.total_eq hrep, H.allocated] at hle
  exact eq_nil_of_length_eq_zero (Nat.le_zero.mp hle)

theorem rep_ne_none (hne : vis ++ spare ≠ []) : s.rep ≠ none :=
  fun hrep => hne (H.eq_nil hrep)

theorem current_le : s.currentSize ≤ s.allocatedSize := by
  rw [H.current, H.allocated, length_append]
  omega

theorem hasCleared_iff : s.hasCleared = true ↔ spare ≠ [] := by
  rw [hasCleared, Bool.and_eq_true, decide_eq_true_eq, H.current, H.allocated,
    length_append, Nat.lt_add_right_iff_pos, length_pos_iff, isSome_iff_ne_none]
  exact and_iff_right_of_imp fun hne => H.rep_ne_none fun heq => hne (List.append_eq_nil_iff.mp heq).2

end

/-! ## Growth -/

theorem replaceRep (H : Holds s vis spare) (newSize : ℕ) (hle : s.allocatedSize ≤ newSize)
    (hfits : newSize ≤ intMax) : Holds (s.replaceRep newSize) vis spare where
  reads := by
    have hcopy := H.reads.copy
    rwa [← H.allocated] at hcopy
  current := H.current
  allocated := H.allocated
  allocated_le := hle
  total_le := hfits
  total_eq hrep := nomatch hrep

theorem internalExtend (H : Holds s vis spare) (hpos : 0 < k) (hcan : CanExtend s k) :
    ∃ s', s.internalExtend k = some s' ∧ Holds s' vis spare ∧ s'.rep ≠ none ∧
      vis.length + k ≤ s'.totalSize := by
  obtain ⟨hsum, hdouble⟩ := hcan
  have hcurrent := H.current
  rw [RepeatedPtrFieldBase.internalExtend, toInt, if_pos hsum]
  by_cases hle : s.currentSize + k ≤ s.totalSize
  · refine ⟨s, ?_, H, ?_, by omega⟩
    · simp [hle]
    · intro hrep
      have hzero := H.total_eq hrep
      omega
  · have hlimit : s.totalSize * 2 ≤ intMax := by
      have hlt := hdouble (not_le.mp hle)
      simp only [kRepeatedFieldUpperClampLimit, intMax] at hlt ⊢
      omega
    have hsize : max kRepeatedFieldLowerClampLimit (max (s.totalSize * 2) (s.currentSize + k)) ≤
        (sizeMax - kRepHeaderSize) / kElementSize := by
      have hbound : intMax ≤ (sizeMax - kRepHeaderSize) / kElementSize := by decide
      have hlower : kRepeatedFieldLowerClampLimit ≤ intMax := by decide
      omega
    have hallocated := H.allocated_le
    have hlower : kRepeatedFieldLowerClampLimit ≤ intMax := by decide
    have hholds := H.replaceRep
      (max kRepeatedFieldLowerClampLimit (max (s.totalSize * 2) (s.currentSize + k)))
      (by omega) (by omega)
    refine ⟨_, ?_, hholds, (fun hrep => nomatch hrep), ?_⟩
    · simp only [bind_eq_bind, bind_some, if_neg hle, toInt, if_pos hlimit, if_pos hsize]
    · change _ ≤ max _ (max _ _)
      omega

end Holds

theorem internalExtend_eq_none (hcan : ¬ CanExtend s k) : s.internalExtend k = none := by
  rw [RepeatedPtrFieldBase.internalExtend, toInt]
  by_cases hsum : s.currentSize + k ≤ intMax
  · have hover : s.totalSize < s.currentSize + k ∧ ¬ s.totalSize < kRepeatedFieldUpperClampLimit := by
      by_contra hnot
      exact hcan ⟨hsum, fun hlt => by_contra fun hge => hnot ⟨hlt, hge⟩⟩
    have hdouble : ¬ s.totalSize * 2 ≤ intMax := by
      have hge := hover.2
      simp only [kRepeatedFieldUpperClampLimit, intMax] at hge ⊢
      omega
    simp [toInt, hsum, hdouble, Nat.not_le_of_lt hover.1]
  · simp [hsum]

namespace Holds

section
variable (H : Holds s vis spare)
include H

theorem reserveOneMore (hlt : s.totalSize < kRepeatedFieldUpperClampLimit) :
    ∃ s', s.reserveOneMore = some s' ∧ Holds s' vis spare ∧ s'.rep ≠ none ∧ s.totalSize < s'.totalSize := by
  have hle : s.currentSize ≤ s.totalSize := H.current_le.trans H.allocated_le
  have hmax : s.totalSize + 1 ≤ intMax := by
    simp only [kRepeatedFieldUpperClampLimit, intMax] at hlt ⊢
    omega
  have hcan : CanExtend s (s.totalSize + 1 - s.currentSize) := ⟨by omega, fun _ => hlt⟩
  obtain ⟨s', hs', H', hrep, hroom⟩ := H.internalExtend (by omega) hcan
  have hcurrent := H.current
  refine ⟨s', ?_, H', hrep, by omega⟩
  rw [RepeatedPtrFieldBase.reserveOneMore, toInt, if_pos hmax]
  change s.reserve _ = _
  rw [reserve, if_pos (by omega), ← hs']
  congr 1
  omega

theorem reserveOneMore_eq_none
    (hge : ¬ s.totalSize < kRepeatedFieldUpperClampLimit) : s.reserveOneMore = none := by
  have hle : s.currentSize ≤ s.totalSize := H.current_le.trans H.allocated_le
  rw [RepeatedPtrFieldBase.reserveOneMore, toInt]
  by_cases hmax : s.totalSize + 1 ≤ intMax
  · rw [if_pos hmax]
    change s.reserve _ = none
    rw [reserve, if_pos (by omega)]
    refine internalExtend_eq_none fun hcan => hge (hcan.2 ?_)
    omega
  · rw [if_neg hmax]
    rfl

theorem isFull_iff : s.isFull = true ↔ s.allocatedSize = s.totalSize := by
  rw [isFull, Bool.or_eq_true, beq_iff_eq, isNone_iff_eq_none]
  refine or_iff_right_of_imp fun hrep => ?_
  have hle := H.allocated_le
  have hzero := H.total_eq hrep
  omega

theorem rep_ne_none_of_lt (hlt : s.allocatedSize < s.totalSize) : s.rep ≠ none := by
  intro hrep
  have hzero := H.total_eq hrep
  omega

theorem makeRoom (hfits : s.isFull = true → s.totalSize < kRepeatedFieldUpperClampLimit) :
    ∃ s', s.makeRoom = some s' ∧ Holds s' vis spare ∧ s'.rep ≠ none ∧ s'.allocatedSize < s'.totalSize := by
  by_cases hfull : s.isFull = true
  · obtain ⟨s', hs', H', hrep, hroom⟩ := H.reserveOneMore (hfits hfull)
    refine ⟨s', (if_pos hfull).trans hs', H', hrep, ?_⟩
    rw [H'.allocated, ← H.allocated, (H.isFull_iff).mp hfull]
    exact hroom
  · have hlt : s.allocatedSize < s.totalSize :=
      lt_of_le_of_ne H.allocated_le fun heq => hfull (H.isFull_iff.mpr heq)
    exact ⟨s, if_neg hfull, H, H.rep_ne_none_of_lt hlt, hlt⟩

end

/-- `if (!rep_ || rep_->allocated_size == total_size_) InternalExtend(1);`, which is the same
where there are no cleared elements. -/
theorem internalExtend_one (H : Holds s vis []) (hfull : s.isFull = true) :
    s.internalExtend 1 = s.reserveOneMore := by
  have hcurrent := H.current
  have hallocated := H.allocated
  rw [append_nil] at hallocated
  have htotal := H.isFull_iff.mp hfull
  rw [RepeatedPtrFieldBase.reserveOneMore, toInt]
  by_cases hmax : s.totalSize + 1 ≤ intMax
  · rw [if_pos hmax]
    change _ = s.reserve _
    rw [reserve, if_pos (by omega)]
    congr 1
    omega
  · rw [if_neg hmax]
    refine internalExtend_eq_none fun hcan => hmax ?_
    have hle := hcan.1
    omega

/-! ## Adding -/

theorem append_new (H : Holds s vis []) (hroom : s.allocatedSize < s.totalSize) (p : ℕ) :
    ∃ s', ((s.setAllocated (s.allocatedSize + 1)).bind fun s => s.append p) = some s' ∧
      Holds s' (vis ++ [p]) [] := by
  obtain ⟨total, elements, rfl, hreads, hle, hfits⟩ := H.exists_mk (H.rep_ne_none_of_lt hroom)
  change (vis ++ []).length < total at hroom
  rw [append_nil] at hreads hroom
  refine ⟨⟨vis.length + 1, total, some ⟨vis.length + 1, update elements vis.length (some p)⟩⟩, ?_, ?_⟩
  · simp [setAllocated, RepeatedPtrFieldBase.append, setSlot, allocatedSize, hroom]
  · rw [show vis.length + 1 = (vis ++ [p]).length by simp]
    have hpush := hreads.push p
    rw [← append_nil (vis ++ [p])] at hpush
    exact holds_mk hpush (by simp) (by rwa [length_append]) hfits

theorem addOutOfLineHelper (H : Holds s vis [])
    (hfits : s.isFull = true → s.totalSize < kRepeatedFieldUpperClampLimit) (p : ℕ) :
    ∃ s', s.addOutOfLineHelper p = some s' ∧ Holds s' (vis ++ [p]) [] := by
  obtain ⟨t, ht, H', -, hroom⟩ := H.makeRoom hfits
  obtain ⟨s', hs', H''⟩ := H'.append_new hroom p
  refine ⟨s', ?_, H''⟩
  have hsame : (if s.isFull then s.internalExtend 1 else some s) = s.makeRoom := by
    rw [RepeatedPtrFieldBase.makeRoom]
    by_cases hfull : s.isFull = true
    · rw [if_pos hfull, if_pos hfull, H.internalExtend_one hfull]
    · rw [if_neg hfull, if_neg hfull]
  rw [RepeatedPtrFieldBase.addOutOfLineHelper, hsame, ht]
  exact hs'

theorem addOutOfLineHelper_eq_none (H : Holds s vis []) (hfull : s.isFull = true)
    (hge : ¬ s.totalSize < kRepeatedFieldUpperClampLimit) (p : ℕ) : s.addOutOfLineHelper p = none := by
  rw [RepeatedPtrFieldBase.addOutOfLineHelper, if_pos hfull, H.internalExtend_one hfull,
    H.reserveOneMore_eq_none hge]
  rfl

theorem take_cleared (H : Holds s vis (p :: spare)) : s.slot s.currentSize = some p ∧
      Holds { s with currentSize := s.currentSize + 1 } (vis ++ [p]) spare := by
  have hlists : vis ++ [p] ++ spare = vis ++ p :: spare := by simp
  constructor
  · rw [H.current]
    exact H.reads.next
  · exact
      { reads := by
          rw [hlists]
          exact H.reads
        current := by rw [H.current, length_append, length_singleton]
        allocated := by
          rw [hlists]
          exact H.allocated
        allocated_le := H.allocated_le
        total_le := H.total_le
        total_eq := H.total_eq }

theorem hide_last (H : Holds s (vis ++ [p]) spare) : s.slot (s.currentSize - 1) = some p ∧
      Holds { s with currentSize := s.currentSize - 1 } vis (p :: spare) := by
  have hlists : vis ++ [p] ++ spare = vis ++ p :: spare := by simp
  have hcurrent : s.currentSize - 1 = vis.length := by
    rw [H.current, length_append]
    rfl
  have hreads := H.reads
  rw [hlists] at hreads
  constructor
  · rw [hcurrent]
    exact hreads.next
  · exact
      { reads := hreads
        current := hcurrent
        allocated := by
          rw [← hlists]
          exact H.allocated
        allocated_le := H.allocated_le
        total_le := H.total_le
        total_eq := H.total_eq }

/-! ## Elements passed in and out -/

theorem append_over (H : Holds s vis (q :: spare)) (p : ℕ) :
    ∃ s', s.append p = some s' ∧ Holds s' (vis ++ [p]) spare := by
  obtain ⟨total, elements, rfl, hreads, hle, hfits⟩ := H.exists_mk (H.rep_ne_none (by simp))
  have hlists : vis ++ [p] ++ spare = vis ++ p :: spare := by simp
  have hroom : vis.length < total := by
    rw [length_append, length_cons] at hle
    omega
  refine ⟨⟨(vis ++ [p]).length, total,
    some ⟨(vis ++ q :: spare).length, update elements vis.length (some p)⟩⟩, ?_, ?_⟩
  · simp [RepeatedPtrFieldBase.append, setSlot, hroom]
  · refine holds_mk ?_ (by simp) hle hfits
    rw [hlists]
    exact hreads.set_next p

theorem append_moving (H : Holds s vis (q :: spare)) (hroom : s.allocatedSize < s.totalSize) (p : ℕ) :
    ∃ s' t u, s.setSlot s.allocatedSize q = some t ∧
      t.setAllocated (t.allocatedSize + 1) = some u ∧ u.append p = some s' ∧
      Holds s' (vis ++ [p]) (spare ++ [q]) := by
  obtain ⟨total, elements, rfl, hreads, hle, hfits⟩ := H.exists_mk (H.rep_ne_none (by simp))
  change (vis ++ q :: spare).length < total at hroom
  have hlists : vis ++ [p] ++ (spare ++ [q]) = vis ++ p :: (spare ++ [q]) := by simp
  have hvis : vis.length < total := by
    rw [length_append] at hroom
    omega
  have hpush := hreads.push q
  rw [append_assoc, cons_append] at hpush
  refine ⟨
    ⟨vis.length + 1, total, some ⟨(vis ++ q :: spare).length + 1,
      update (update elements (vis ++ q :: spare).length (some q)) vis.length (some p)⟩⟩,
    ⟨vis.length, total, some ⟨(vis ++ q :: spare).length, update elements (vis ++ q :: spare).length (some q)⟩⟩,
    ⟨vis.length, total, some ⟨(vis ++ q :: spare).length + 1,
      update elements (vis ++ q :: spare).length (some q)⟩⟩, if_pos hroom, rfl, ?_, ?_⟩
  · simp only [RepeatedPtrFieldBase.append, setSlot, bind_eq_bind, bind_some, hvis, ↓reduceIte]
  · rw [show vis.length + 1 = (vis ++ [p]).length by simp]
    refine holds_mk ?_ (by simp; omega) hroom hfits
    rw [hlists]
    exact hpush.set_next p

theorem addCleared (H : Holds s vis spare)
    (hfits : s.isFull = true → s.totalSize < kRepeatedFieldUpperClampLimit) (p : ℕ) :
    ∃ s', s.addCleared p = some s' ∧ Holds s' vis (spare ++ [p]) := by
  obtain ⟨t, ht, H', hrep, hroom⟩ := H.makeRoom hfits
  obtain ⟨total, elements, rfl, hreads, hle, htotal⟩ := H'.exists_mk hrep
  change (vis ++ spare).length < total at hroom
  refine ⟨⟨vis.length, total, some ⟨(vis ++ spare).length + 1,
    update elements (vis ++ spare).length (some p)⟩⟩, ?_, ?_⟩
  · rw [RepeatedPtrFieldBase.addCleared, ht]
    simp only [bind_eq_bind, bind_some, allocatedSize, setSlot, setAllocated, elim_some, hroom,
      ↓reduceIte, map_some]
  · refine holds_mk ?_ (by simp; omega) hroom htotal
    rw [← append_assoc]
    exact hreads.push p

theorem makeRoom_eq_none (H : Holds s vis spare) (hfull : s.isFull = true)
    (hge : ¬ s.totalSize < kRepeatedFieldUpperClampLimit) : s.makeRoom = none := by
  rw [RepeatedPtrFieldBase.makeRoom, if_pos hfull, H.reserveOneMore_eq_none hge]

theorem releaseCleared (H : Holds s vis (spare ++ [p])) :
    ∃ s', s.releaseCleared = some (p, s') ∧ Holds s' vis spare := by
  obtain ⟨total, elements, rfl, hreads, hle, hfits⟩ := H.exists_mk (H.rep_ne_none (by simp))
  rw [← append_assoc] at hreads hle
  have hlast : elements (vis ++ spare).length = some p := by
    have hreads' : Reads elements (vis ++ spare ++ p :: []) := hreads
    exact hreads'.next
  have hlength : (vis ++ (spare ++ [p])).length - 1 = (vis ++ spare).length := by simp
  refine ⟨⟨vis.length, total, some ⟨(vis ++ spare).length, elements⟩⟩, ?_, ?_⟩
  · simp only [releaseCleared, setAllocated, allocatedSize, slot, elim_some,
      map_some, bind_eq_bind, bind_some, hlength, hlast]
  · refine holds_mk hreads.of_append rfl ?_ hfits
    rw [length_append] at hle
    omega

/-- What `ReleaseLast` leaves of the cleared elements: the last one comes first. -/
def lastFirst (spare : List ℕ) : List ℕ := spare.getLast?.toList ++ spare.dropLast

theorem lastFirst_append_singleton (spare : List ℕ) (q : ℕ) : lastFirst (spare ++ [q]) = q :: spare := by
  simp [lastFirst]

theorem lastFirst_perm (spare : List ℕ) : (lastFirst spare).Perm spare := by
  rcases spare.eq_nil_or_concat' with rfl | ⟨rest, q, rfl⟩
  · exact .refl _
  · rw [lastFirst_append_singleton]
    exact (perm_append_singleton q rest).symm

/-- `UnsafeArenaReleaseLast` takes the last visible element. -/
theorem releaseLast (H : Holds s (vis ++ [p]) spare) :
    ∃ s', s.releaseLast = some (p, s') ∧ Holds s' vis (lastFirst spare) := by
  obtain ⟨total, elements, rfl, hreads, hle, hfits⟩ := H.exists_mk (H.rep_ne_none (by simp))
  have hlists : vis ++ [p] ++ spare = vis ++ p :: spare := by simp
  rw [hlists] at hreads hle
  have hcurrent : (vis ++ [p]).length - 1 = vis.length := by simp
  have hallocated : (vis ++ p :: spare).length - 1 = vis.length + spare.length := by simp
  rw [hlists]
  rcases spare.eq_nil_or_concat' with rfl | ⟨rest, q, rfl⟩
  · refine ⟨⟨vis.length, total, some ⟨vis.length, elements⟩⟩, ?_, ?_⟩
    · simp [releaseLast, setAllocated, allocatedSize, slot, hreads.next]
    · refine holds_mk ?_ (by simp [lastFirst]) ?_ hfits
      · have hprefix : Reads elements vis := hreads.of_append
        simpa [lastFirst] using hprefix
      · rw [length_append] at hle
        omega
  · rw [lastFirst_append_singleton]
    have hlast : elements (vis.length + (rest ++ [q]).length) = some q := by
      have hreads' : Reads elements (vis ++ p :: rest ++ q :: []) := by simpa using hreads
      have hnext := hreads'.next
      rw [← hnext]
      congr 1
      simp
    have hroom : vis.length < total := by
      rw [length_append, length_cons] at hle
      omega
    refine ⟨⟨vis.length, total, some ⟨vis.length + (rest ++ [q]).length,
      update elements vis.length (some q)⟩⟩, ?_, ?_⟩
    · simp only [releaseLast, setAllocated, allocatedSize, slot, setSlot,
        elim_some, map_some, bind_eq_bind, bind_some, hcurrent,
        hreads.next, hallocated, hlast, hroom, ↓reduceIte]
      rw [if_pos (by simp)]
    · refine holds_mk ?_ (by simp) ?_ hfits
      · have hset := hreads.set_next q
        have hsplit : vis ++ q :: (rest ++ [q]) = vis ++ q :: rest ++ [q] := by simp
        rw [hsplit] at hset
        exact hset.of_append
      · simp only [length_append, length_cons] at hle ⊢
        omega

/-! ## Removing and exchanging -/

theorem pointers_eq {l : List ℕ} {start : ℕ} (h : ∀ i < l.length, s.slot (start + i) = l[i]?) :
    s.pointers start l.length = some l := by
  induction l generalizing start with
  | nil => rfl
  | cons p l ih =>
    have hfirst : s.slot start = some p := by simpa using h 0 (by simp)
    have hrest : ∀ i < l.length, s.slot (start + 1 + i) = l[i]? := by
      intro i hi
      have hnext := h (i + 1) (by simpa using hi)
      rw [show start + 1 + i = start + (i + 1) by omega, hnext]
      rfl
    rw [length_cons, pointers, hfirst]
    change ((s.pointers (start + 1) l.length).bind fun rest => some (p :: rest)) = _
    rw [ih hrest]
    rfl

variable {front gap back : List ℕ}

section
variable (H : Holds s (front ++ gap ++ back) spare)
include H

theorem slots_middle : ∀ i < gap.length, s.slot (front.length + i) = gap[i]? := by
  have hreads : Reads s.slot (front ++ (gap ++ (back ++ spare))) := by
    have hreads := H.reads
    simpa using hreads
  intro i hi
  rw [hreads.after (by rw [length_append]; omega), List.getElem?_append_left hi]

theorem closeGap (hgap : gap ≠ []) :
    ∃ s', s.closeGap front.length gap.length = some s' ∧ Holds s' (front ++ back) spare := by
  obtain ⟨total, elements, rfl, hreads, hle, hfits⟩ := H.exists_mk (H.rep_ne_none (by simp [hgap]))
  have hreads' : Reads elements (front ++ gap ++ (back ++ spare)) := by
    rwa [← append_assoc]
  obtain ⟨slots, hshift, hslots⟩ := Slots.shiftDown_reads hgap hreads'
  have hcount : (front ++ gap ++ back ++ spare).length - (front.length + gap.length) =
      (back ++ spare).length := by
    simp only [length_append]
    omega
  have hvis : (front ++ gap ++ back).length - gap.length = (front ++ back).length := by
    simp only [length_append]
    omega
  have hlength : (front ++ gap ++ back ++ spare).length - gap.length =
      (front ++ back ++ spare).length := by
    simp only [length_append]
    omega
  refine ⟨⟨(front ++ back).length, total, some ⟨(front ++ back ++ spare).length, slots⟩⟩, ?_, ?_⟩
  · rw [closeGap]
    simp only [hcount, hshift, hvis, hlength, bind_eq_bind, bind_some]
  · refine holds_mk ?_ rfl ?_ hfits
    · rwa [append_assoc]
    · simp only [length_append] at hle ⊢
      omega

theorem extractSubrange : ∃ s', s.extractSubrange front.length gap.length = some (gap, s') ∧
      Holds s' (front ++ back) spare := by
  rw [RepeatedPtrFieldBase.extractSubrange]
  rcases eq_or_ne gap [] with rfl | hgap
  · refine ⟨s, rfl, ?_⟩
    simpa using H
  · obtain ⟨s', hs', H'⟩ := H.closeGap hgap
    refine ⟨s', ?_, H'⟩
    rw [if_pos (length_pos_of_ne_nil hgap), pointers_eq H.slots_middle]
    simp only [bind_eq_bind, bind_some, hs']

end

theorem swapElements {i j : ℕ} (H : Holds s vis spare) (hi : i < vis.length) (hj : j < vis.length) :
    ∃ s', s.swapElements i j = some s' ∧ Holds s' ((vis.set i vis[j]).set j vis[i]) spare := by
  have hne : vis ++ spare ≠ [] := by
    intro hnil
    rw [append_eq_nil_iff] at hnil
    rw [hnil.1] at hi
    exact absurd hi (Nat.not_lt_zero i)
  obtain ⟨total, elements, rfl, hreads, hle, hfits⟩ := H.exists_mk (H.rep_ne_none hne)
  have hslot : ∀ k (hk : k < vis.length), elements k = some vis[k] := by
    intro k hk
    rw [hreads k (by rw [length_append]; omega), List.getElem?_append_left hk,
      List.getElem?_eq_getElem hk]
  have hroom : ∀ k < vis.length, k < total := by
    intro k hk
    rw [length_append] at hle
    omega
  refine ⟨⟨((vis.set i vis[j]).set j vis[i]).length, total, some ⟨(vis ++ spare).length,
    update (update elements i (some vis[j])) j (some vis[i])⟩⟩, ?_, ?_⟩
  · simp [swapElements, slot, setSlot, hslot i hi, hslot j hj, hroom i hi, hroom j hj]
  · refine holds_mk ?_ (by simp) hle hfits
    have hset := (hreads.set i vis[j]).set j vis[i]
    rwa [set_append_left _ _ hi, set_append_left _ _ (by simpa using hj)] at hset

end Holds

end Protoc.Repeated
