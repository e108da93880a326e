import Protoc.Lib.Pick
import Protoc.Lib.Run

/-!
# The slot vector and its runs

The number of elements is `top` less the count of holes, which `VECTOR_Add` and `VECTOR_Swap` keep.
`VECTOR_Swap` counts a hole whenever it stores `NULL`, and never takes one back: the count goes
wrong when it stores into a hole.  `max` grows by `GROW_STEP` as an `int`, and leaves the `int16`
when the array has 32764 cells.
-/

namespace Protoc.Samgr

/-! ## The slot vector -/

/-- Truncation to `int16`. -/
def i16 (n : ℤ) : ℤ := (n + 0x8000) % 0x10000 - 0x8000

/-- `GROW_STEP`. -/
def GROW_STEP : ℤ := 4

/-- `Vector`: `data` holds the elements below `top`. -/
structure Vector (α : Type) where
  max : ℤ
  free : ℤ
  data : List (Option α)
  deriving DecidableEq

namespace Vector
variable {α κ : Type}

/-- `VECTOR_Make`. -/
def make : Vector α := ⟨0, 0, []⟩

/-- `VECTOR_Size`. -/
def size (v : Vector α) : ℕ := v.data.length

/-- `VECTOR_Num`. -/
def num (v : Vector α) : ℤ := i16 (v.size - v.free)

/-- The last hole, which `VECTOR_Add` finds by its loop from `top - 1` down. -/
def lastFree : List (Option α) → Option ℕ
  | [] => none
  | slot :: rest =>
    match lastFree rest with
    | some i => some (i + 1)
    | none => if slot.isNone then some 0 else none

/-- `VECTOR_Add`: the index of the new element, or `none` for `INVALID_INDEX`.
`malloc` says whether `MEM_Malloc` succeeds. -/
def add (v : Vector α) (element : Option α) (malloc : Bool) : Option ℕ × Vector α :=
  match element with
  | none => (none, v)
  | some e =>
    if v.max ≤ v.size then
      match lastFree v.data with
      | some i => (some i, { v with data := v.data.set i (some e), free := i16 (v.free - 1) })
      | none =>
        if v.max + GROW_STEP < 0 then (none, v)
        else if malloc then
          (some v.size, { v with data := v.data ++ [some e], max := i16 (v.max + GROW_STEP) })
        else (none, v)
    else (some v.size, { v with data := v.data ++ [some e] })

/-- `VECTOR_At`. -/
def elemAt (v : Vector α) (index : ℤ) : Option α :=
  if v.size ≤ index ∨ index < 0 then none else (v.data[index.toNat]?).join

/-- `VECTOR_Swap`: the old element and the vector after the call. -/
def swap (v : Vector α) (index : ℤ) (element : Option α) : Option α × Vector α :=
  if v.size ≤ index ∨ index < 0 then (none, v)
  else
    ((v.data[index.toNat]?).join,
      { v with data := v.data.set index.toNat element
               free := if element.isNone then i16 (v.free + 1) else v.free })

/-- `VECTOR_FindByKey` with a comparison that decides equality of keys; `-1` is
`INVALID_INDEX`. -/
def findByKey [DecidableEq κ] (key : α → κ) (v : Vector α) (k : κ) : ℤ :=
  match v.data.findIdx? fun slot => slot.map key = some k with
  | some i => i
  | none => -1

/-! ## What the operations do to the slots -/

theorem lastFree_eq_some {data : List (Option α)} {i : ℕ} (h : lastFree data = some i) :
    data[i]? = some none := by
  induction data generalizing i with
  | nil => simp [lastFree] at h
  | cons slot rest ih =>
    unfold lastFree at h
    split at h
    · rename_i j hj
      obtain rfl : j + 1 = i := by simpa using h
      simpa using ih hj
    · split at h
      · obtain rfl : 0 = i := by simpa using h
        rename_i hnone
        simpa [Option.isNone_iff_eq_none] using hnone
      · simp at h

theorem add_spec {v v' : Vector α} {e : α} {malloc : Bool} {i : ℕ} (h : v.add (some e) malloc = (some i, v')) :
    (v.data[i]? = some none ∧ v'.data = v.data.set i (some e)) ∨
      (i = v.data.length ∧ v'.data = v.data ++ [some e]) := by
  unfold add at h
  by_cases hfull : v.max ≤ v.size
  · simp only [hfull, if_true] at h
    cases hfree : lastFree v.data with
    | some j =>
      simp only [hfree, Prod.mk.injEq, Option.some.injEq] at h
      obtain ⟨rfl, rfl⟩ := h
      exact .inl ⟨lastFree_eq_some hfree, rfl⟩
    | none =>
      simp only [hfree] at h
      by_cases hmax : v.max + GROW_STEP < 0
      · simp [hmax] at h
      · cases malloc <;> simp [hmax] at h
        obtain ⟨rfl, rfl⟩ := h
        exact .inr ⟨rfl, rfl⟩
  · simp only [hfull, if_false, Prod.mk.injEq, Option.some.injEq] at h
    obtain ⟨rfl, rfl⟩ := h
    exact .inr ⟨rfl, rfl⟩

theorem add_slot {v v' : Vector α} {e : α} {malloc : Bool} {i : ℕ}
    (h : v.add (some e) malloc = (some i, v')) : v'.data[i]? = some (some e) := by
  rcases add_spec h with ⟨hi, hd⟩ | ⟨rfl, hd⟩
  · obtain ⟨hlt, -⟩ := List.getElem?_eq_some_iff.mp hi
    simp [hd, hlt]
  · simp [hd]

theorem add_none {v v' : Vector α} {element : Option α} {malloc : Bool}
    (h : v.add element malloc = (none, v')) : v' = v := by
  unfold add at h
  cases element with
  | none => simpa using h.symm
  | some e =>
    by_cases hfull : v.max ≤ v.size
    · simp only [hfull, if_true] at h
      cases hfree : lastFree v.data with
      | some j => simp [hfree] at h
      | none =>
        simp only [hfree] at h
        by_cases hmax : v.max + GROW_STEP < 0
        · simpa [hmax] using h.symm
        · cases malloc <;> simp [hmax] at h
          exact h.symm
    · simp [hfull] at h

theorem countP_add {v v' : Vector α} {e : α} {malloc : Bool} {i : ℕ} (p : Option α → Bool)
    (hp : p none = false) (h : v.add (some e) malloc = (some i, v')) :
    v'.data.countP p = v.data.countP p + if p (some e) then 1 else 0 := by
  rcases add_spec h with ⟨hi, hd⟩ | ⟨-, hd⟩
  · obtain ⟨hlt, hi⟩ := List.getElem?_eq_some_iff.mp hi
    rw [hd, List.countP_set hlt, hi, hp]
    simp
  · rw [hd, List.countP_append, List.countP_singleton]

theorem elemAt_eq_some {v : Vector α} {index : ℤ} {e : α} (h : v.elemAt index = some e) :
    0 ≤ index ∧ v.data[index.toNat]? = some (some e) := by
  unfold elemAt at h
  by_cases hr : v.size ≤ index ∨ index < 0
  · simp [hr] at h
  · simp only [hr, if_false] at h
    refine ⟨by omega, ?_⟩
    cases hd : v.data[index.toNat]? with
    | none => simp [hd] at h
    | some slot => simpa [hd] using h

theorem swap_of_elemAt {v : Vector α} {index : ℤ} {e : α} (h : v.elemAt index = some e) (element : Option α) :
    (v.swap index element).2.data = v.data.set index.toNat element := by
  unfold swap
  by_cases hr : v.size ≤ index ∨ index < 0
  · simp [elemAt, hr] at h
  · simp [hr]

end Vector

end Protoc.Samgr

namespace Protoc.Samgr.Vector

/-! ## Runs of the slot vector -/

open Protoc.Lib

/-! ## Calls -/

/-- A call.  `malloc` says whether `MEM_Malloc` succeeds. -/
inductive Op (α : Type)
  | add (element : Option α) (malloc : Bool)
  | swap (index : ℤ) (element : Option α)
  deriving DecidableEq

/-- The vector, and the indices that `VECTOR_Add` returned and that were not swapped since, with
their elements. -/
structure Tracked (α : Type) where
  vector : Vector α
  held : List (ℕ × α)
  deriving DecidableEq

section
variable {α : Type}

/-- After `VECTOR_Make`. -/
def Tracked.make : Tracked α := ⟨.make, []⟩

/-- The index and the element of a successful `VECTOR_Add`. -/
def given (index : Option ℕ) (element : Option α) : List (ℕ × α) :=
  match index, element with
  | some i, some e => [(i, e)]
  | _, _ => []

def step (s : Tracked α) : Op α → Option (Tracked α)
  | .add element malloc =>
    let r := s.vector.add element malloc
    some ⟨r.2, given r.1 element ++ s.held⟩
  | .swap index element =>
    some ⟨(s.vector.swap index element).2, s.held.filter fun p => decide ((p.1 : ℤ) ≠ index)⟩

/-- What the vector promises.  The count is that of the elements; an index that was returned
denotes its element; an element is added where none is; and the capacity is an `int16`. -/
structure Faithful (s : Tracked α) : Prop where
  num : s.vector.num = s.vector.data.countP Option.isSome
  held : ∀ p ∈ s.held, s.vector.elemAt p.1 = some p.2
  fresh : ∀ e malloc i v, s.vector.add (some e) malloc = (some i, v) →
    s.vector.elemAt i = none ∧ ∀ j : ℤ, j ≠ i → v.elemAt j = s.vector.elemAt j
  size_le : s.vector.size ≤ s.vector.max
  max_lt : s.vector.max < 0x8000

/-- `VECTOR_Add` has to grow the array. -/
def Grows (v : Vector α) (element : Option α) (malloc : Bool) : Prop :=
  element.isSome = true ∧ malloc = true ∧ v.max ≤ v.size ∧ lastFree v.data = none

/-- A call that keeps the promise: the array does not grow beyond the `int16`, and
`VECTOR_Swap` does not store into a hole. -/
def Regular (s : Tracked α) : Op α → Prop
  | .add element malloc => Grows s.vector element malloc → s.vector.max + GROW_STEP < 0x8000
  | .swap index _ => 0 ≤ index ∧ index < s.vector.size → (s.vector.elemAt index).isSome = true

/-! ## The two functions -/

variable {v v' : Vector α} {e : α} {element : Option α} {malloc : Bool} {i : ℕ} {index : ℤ}

theorem lastFree_eq_none {data : List (Option α)} (h : lastFree data = none) (i : ℕ) :
    data[i]? ≠ some none := by
  induction data generalizing i with
  | nil =>
    intro hi
    cases hi
  | cons slot rest ih =>
    rw [lastFree] at h
    cases hrest : lastFree rest with
    | some j =>
      simp [hrest] at h
    | none =>
      rw [hrest] at h
      cases i with
      | zero =>
        intro hi
        cases Option.some.inj hi
        cases h
      | succ i => exact ih hrest i

theorem add_cases (v : Vector α) (e : α) (malloc : Bool) :
    (∃ i, v.max ≤ v.size ∧ v.data[i]? = some none ∧ v.add (some e) malloc =
      (some i, ⟨v.max, i16 (v.free - 1), v.data.set i (some e)⟩)) ∨
    (v.size < v.max ∧ v.add (some e) malloc = (some v.size, ⟨v.max, v.free, v.data ++ [some e]⟩)) ∨
    (Grows v (some e) malloc ∧ 0 ≤ v.max + GROW_STEP ∧ v.add (some e) malloc =
      (some v.size, ⟨i16 (v.max + GROW_STEP), v.free, v.data ++ [some e]⟩)) ∨
    (v.add (some e) malloc = (none, v) ∧ (Grows v (some e) malloc → v.max + GROW_STEP < 0)) := by
  rw [add]
  by_cases hfull : v.max ≤ v.size
  · rw [if_pos hfull]
    cases hfree : lastFree v.data with
    | some i => exact .inl ⟨i, hfull, lastFree_eq_some hfree, rfl⟩
    | none =>
      simp only
      by_cases hmax : v.max + GROW_STEP < 0
      · rw [if_pos hmax]
        exact .inr (.inr (.inr ⟨rfl, fun _ => hmax⟩))
      · rw [if_neg hmax]
        cases malloc with
        | true => exact .inr (.inr (.inl ⟨⟨rfl, rfl, hfull, hfree⟩, by omega, rfl⟩))
        | false =>
          refine .inr (.inr (.inr ⟨rfl, ?_⟩))
          rintro ⟨-, hmalloc, -⟩
          exact absurd hmalloc Bool.false_ne_true
  · rw [if_neg hfull]
    exact .inr (.inl ⟨by omega, rfl⟩)

theorem elemAt_eq (v : Vector α) (j : ℤ) :
    v.elemAt j = if 0 ≤ j then (v.data[j.toNat]?).join else none := by
  rw [elemAt]
  by_cases hneg : 0 ≤ j
  · by_cases hlt : j < v.size
    · rw [if_neg (by omega), if_pos hneg]
    · have hle : v.data.length ≤ j.toNat := by
        have hsize : v.size = v.data.length := rfl
        omega
      rw [if_pos (by omega), if_pos hneg, List.getElem?_eq_none hle]
      rfl
  · rw [if_pos (by omega), if_neg hneg]

theorem elemAt_natCast (v : Vector α) (i : ℕ) : v.elemAt i = (v.data[i]?).join := by
  rw [elemAt_eq, if_pos (Int.natCast_nonneg i), Int.toNat_natCast]

theorem add_fresh (h : v.add (some e) malloc = (some i, v')) :
    v.elemAt i = none ∧ v'.elemAt i = some e ∧ ∀ j : ℤ, j ≠ i → v'.elemAt j = v.elemAt j := by
  refine ⟨?_, ?_, ?_⟩
  · rw [elemAt_natCast]
    rcases add_spec h with ⟨hnone, -⟩ | ⟨rfl, -⟩
    · rw [hnone]
      rfl
    · rw [List.getElem?_eq_none (Nat.le_refl _)]
      rfl
  · rw [elemAt_natCast, add_slot h]
    rfl
  · intro j hj
    rw [elemAt_eq, elemAt_eq]
    by_cases hneg : 0 ≤ j
    · have hne : i ≠ j.toNat := by omega
      rw [if_pos hneg, if_pos hneg]
      rcases add_spec h with ⟨-, hdata⟩ | ⟨rfl, hdata⟩
      · rw [hdata, List.getElem?_set_ne hne]
      · rw [hdata, List.getElem?_append]
        split
        · rfl
        · rename_i hle
          rw [List.getElem?_eq_none (by rw [List.length_singleton]; omega),
            List.getElem?_eq_none (by omega)]
    · rw [if_neg hneg, if_neg hneg]

theorem swap_eq (hlow : 0 ≤ index) (hhigh : index < v.size) (element : Option α) :
    (v.swap index element).2 = ⟨v.max, if element.isNone then i16 (v.free + 1) else v.free,
      v.data.set index.toNat element⟩ := by
  rw [swap, if_neg (by omega)]

theorem swap_outside (h : ¬ (0 ≤ index ∧ index < v.size)) (element : Option α) :
    (v.swap index element).2 = v := by
  rw [swap, if_pos (by omega)]

theorem elemAt_swap (element : Option α) {j : ℤ} (hj : j ≠ index) :
    (v.swap index element).2.elemAt j = v.elemAt j := by
  by_cases hin : 0 ≤ index ∧ index < v.size
  · rw [swap_eq hin.1 hin.2, elemAt_eq, elemAt_eq]
    by_cases hneg : 0 ≤ j
    · rw [if_pos hneg, if_pos hneg, List.getElem?_set_ne (by omega)]
    · rw [if_neg hneg, if_neg hneg]
  · rw [swap_outside hin]

/-! ## One call -/

variable {s s' : Tracked α}

theorem countP_slot {data : List (Option α)} {slot : Option α} (h : data[i]? = some slot)
    (element : Option α) :
    (data.set i element).countP Option.isSome + (if slot.isSome then 1 else 0) =
      data.countP Option.isSome + if element.isSome then 1 else 0 := by
  rw [Pick.countP_pick h, Pick.countP_set h]
  omega

theorem countP_push (data : List (Option α)) (e : α) :
    (data ++ [some e]).countP Option.isSome = data.countP Option.isSome + 1 := by
  rw [List.countP_append]
  rfl

theorem held_add {vector : Vector α} {held : List (ℕ × α)} {index : Option ℕ}
    (hheld : ∀ p ∈ held, vector.elemAt p.1 = some p.2) (h : vector.add element malloc = (index, v')) :
    ∀ p ∈ given index element ++ held, v'.elemAt p.1 = some p.2 := by
  intro p hp
  cases element with
  | none =>
    rw [add] at h
    cases h
    exact hheld p hp
  | some e =>
    cases index with
    | none =>
      rw [add_none h]
      exact hheld p hp
    | some i =>
      obtain ⟨hnone, hnew, hother⟩ := add_fresh h
      rcases List.mem_cons.mp hp with rfl | hp
      · exact hnew
      · have hold := hheld p hp
        rw [hother p.1, hold]
        intro heq
        rw [heq, hnone] at hold
        cases hold

theorem held_swap {vector : Vector α} {held : List (ℕ × α)} (hheld : ∀ p ∈ held, vector.elemAt p.1 = some p.2) :
    ∀ p ∈ held.filter fun p => decide ((p.1 : ℤ) ≠ index),
      (vector.swap index element).2.elemAt p.1 = some p.2 := by
  intro p hp
  obtain ⟨hmem, hne⟩ := List.mem_filter.mp hp
  rw [elemAt_swap element (of_decide_eq_true hne), hheld p hmem]

theorem faithful_iff_counters (hheld : ∀ p ∈ s.held, s.vector.elemAt p.1 = some p.2) :
    Faithful s ↔ s.vector.num = s.vector.data.countP Option.isSome ∧
      s.vector.size ≤ s.vector.max ∧ s.vector.max < 0x8000 := by
  constructor
  · intro h
    exact ⟨h.num, h.size_le, h.max_lt⟩
  · rintro ⟨hnum, hsize, hmax⟩
    refine ⟨hnum, hheld, ?_, hsize, hmax⟩
    intro e malloc i v h
    obtain ⟨hnone, -, hother⟩ := add_fresh h
    exact ⟨hnone, hother⟩

theorem faithful_add (hf : Faithful s) (h : step s (.add element malloc) = some s') :
    Faithful s' ↔ Regular s (.add element malloc) := by
  have hnum := hf.num
  have hsize := hf.size_le
  have hmax := hf.max_lt
  have hlen : s.vector.size = s.vector.data.length := rfl
  cases h
  rw [faithful_iff_counters (held_add hf.held rfl)]
  cases element with
  | none => exact iff_of_true ⟨hnum, hsize, hmax⟩ fun hgrows => absurd hgrows.1 Bool.false_ne_true
  | some e =>
    rcases add_cases s.vector e malloc with ⟨i, hfull, hnone, heq⟩ | ⟨hroom, heq⟩ |
      ⟨hgrows, hmax', heq⟩ | ⟨heq, hrefused⟩
    · have hcount := countP_slot hnone (some e)
      have hle := List.countP_le_length (p := Option.isSome) (l := s.vector.data.set i (some e))
      have hnotGrows : ¬ Grows s.vector (some e) malloc := by
        rintro ⟨-, -, -, hfree⟩
        have hhole := lastFree_eq_none hfree i
        exact hhole hnone
      rw [List.length_set] at hle
      simp only [Option.isSome_none, Option.isSome_some, Bool.false_eq_true, if_false, if_true]
        at hcount
      rw [heq]
      refine iff_of_true ⟨?_, ?_, hmax⟩ fun hgrows => absurd hgrows hnotGrows
      · rw [num, i16] at hnum ⊢
        simp only [size, List.length_set, i16] at hnum ⊢
        omega
      · simp only [size, List.length_set] at hsize ⊢
        exact hsize
    · have hcount := countP_push s.vector.data e
      have hle := List.countP_le_length (p := Option.isSome) (l := s.vector.data)
      rw [heq]
      refine iff_of_true ⟨?_, ?_, hmax⟩ fun hgrows => absurd hgrows.2.2.1 (by omega)
      · rw [num, i16] at hnum ⊢
        simp only [size, List.length_append, List.length_singleton] at hnum ⊢
        omega
      · simp only [size, List.length_append, List.length_singleton]
        omega
    · have hcount := countP_push s.vector.data e
      have hle := List.countP_le_length (p := Option.isSome) (l := s.vector.data)
      have hfull : s.vector.max = s.vector.size := by
        have hge := hgrows.2.2.1
        omega
      rw [heq]
      simp only [GROW_STEP] at hmax' ⊢
      constructor
      · rintro ⟨-, hsize', -⟩ -
        simp only [size, List.length_append, List.length_singleton, i16] at hsize'
        rw [GROW_STEP]
        omega
      · intro hregular
        have hfits := hregular hgrows
        rw [GROW_STEP] at hfits
        refine ⟨?_, ?_, ?_⟩
        · rw [num, i16] at hnum ⊢
          simp only [size, List.length_append, List.length_singleton] at hnum ⊢
          omega
        · simp only [size, List.length_append, List.length_singleton, i16]
          omega
        · simp only [i16]
          omega
    · rw [heq]
      refine iff_of_true ⟨hnum, hsize, hmax⟩ ?_
      intro hgrows
      have hneg := hrefused hgrows
      omega

theorem faithful_swap (hf : Faithful s) (h : step s (.swap index element) = some s') :
    Faithful s' ↔ Regular s (.swap index element) := by
  have hnum := hf.num
  have hsize := hf.size_le
  have hmax := hf.max_lt
  have hlen : s.vector.size = s.vector.data.length := rfl
  cases h
  rw [faithful_iff_counters (held_swap hf.held)]
  by_cases hin : 0 ≤ index ∧ index < s.vector.size
  · obtain ⟨hlow, hhigh⟩ := hin
    obtain ⟨slot, hslot⟩ : ∃ slot, s.vector.data[index.toNat]? = some slot :=
      ⟨_, List.getElem?_eq_getElem (by omega)⟩
    have hat : s.vector.elemAt index = slot := by
      rw [elemAt_eq, if_pos hlow, hslot]
      rfl
    have hcount := countP_slot hslot element
    have hle := List.countP_le_length (p := Option.isSome)
      (l := s.vector.data.set index.toNat element)
    have hle' := List.countP_le_length (p := Option.isSome) (l := s.vector.data)
    have hregular : Regular s (.swap index element) ↔ slot.isSome = true := by
      rw [Regular, hat]
      exact ⟨fun h => h ⟨hlow, hhigh⟩, fun h _ => h⟩
    rw [List.length_set] at hle
    rw [hregular, swap_eq hlow hhigh]
    rw [num, i16] at hnum
    simp only [num, size, List.length_set] at hnum hsize hlen ⊢
    cases slot with
    | none =>
      refine iff_of_false ?_ Bool.false_ne_true
      rintro ⟨hnum', -, -⟩
      cases element with
      | none =>
        simp only [Option.isNone_none, if_true, Option.isSome_none, Bool.false_eq_true,
          if_false, i16] at hnum' hcount
        omega
      | some e =>
        simp only [Option.isNone_some, Bool.false_eq_true, if_false, Option.isSome_none,
          Option.isSome_some, if_true, i16] at hnum' hcount
        omega
    | some e' =>
      refine iff_of_true ⟨?_, hsize, hmax⟩ rfl
      cases element with
      | none =>
        simp only [Option.isNone_none, if_true, Option.isSome_none, Option.isSome_some,
          Bool.false_eq_true, if_false, i16] at hcount ⊢
        omega
      | some e =>
        simp only [Option.isNone_some, Bool.false_eq_true, if_false,
          Option.isSome_some, if_true, i16] at hcount ⊢
        omega
  · rw [swap_outside hin]
    exact iff_of_true ⟨hnum, hsize, hmax⟩ fun h => absurd h hin

theorem faithful_step (hf : Faithful s) {op : Op α} (h : step s op = some s') : Faithful s' ↔ Regular s op := by
  cases op with
  | add element malloc => exact faithful_add hf h
  | swap index element => exact faithful_swap hf h

/-! ## Whole runs -/

theorem faithful_make : Faithful (Tracked.make : Tracked α) := by
  rw [faithful_iff_counters fun _ h => absurd h List.not_mem_nil]
  have hnum : (make : Vector α).num = 0 := by
    simp only [num, i16, size, make, List.length_nil]
    omega
  have hpos : (0 : ℤ) < 0x8000 := by decide
  exact ⟨hnum, Int.le_refl 0, hpos⟩

/-- **The slot vector** keeps its promise throughout a sequence of calls if and only if every
call is regular. -/
theorem faithful_iff (ops : List (Op α)) :
    Throughout step Faithful .make ops ↔ EachStep step Regular .make ops :=
  throughout_iff_eachStep (fun _ _ _ hf h => faithful_step hf h) faithful_make ops

end

/-- `NULL` is stored twice at one index. -/
def swapTwice : List (Op ℕ) := [.add (some 1) true, .swap 0 none, .swap 0 none]

/-- Afterwards the number of elements is -1. -/
theorem not_faithful : ¬ ∀ ops : List (Op ℕ), Throughout step Faithful .make ops := by
  intro hall
  obtain ⟨-, hfirst⟩ := hall swapTwice
  obtain ⟨-, hsecond⟩ := hfirst _ rfl
  obtain ⟨-, hthird⟩ := hsecond _ rfl
  exact absurd (hthird _ rfl).num (by decide)

end Protoc.Samgr.Vector
