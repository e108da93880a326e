import Protoc.Extensions.ExtensionSet

/-!
# Extension sets are maps

Array or map, an extension set holds the entries of a partial map from numbers to extensions,
and every call that returns changes that map alone.
-/

namespace Protoc.Extensions

open Protoc.Lib
open List
open Protoc.Lib.Ring (blit)
open Protoc.Lib.Sorted ExtensionSet Extension
open Function (update)

variable {Message : Type}

/-! ## Moving elements of an array -/

variable {α : Type}

theorem take_moveRange_up {array : List α} {it size : ℕ} (x : α) (hit : it ≤ size)
    (hsize : size < array.length) : ((moveRange array it size (it + 1)).set it x).take (size + 1) =
      insertAt it x (array.take size) := by
  have hmoved : ((array.take size).drop it).length = size - it := by
    rw [length_drop, length_take_of_le hsize.le]
  have htake : (moveRange array it size (it + 1)).take (size + 1) =
      array.take (it + 1) ++ (array.take size).drop it := by
    have hblit : (blit array (it + 1) ((array.take size).drop it)).take (it + 1 + (size - it)) =
        array.take (it + 1) ++ ((array.take size).drop it).take (size - it) :=
      Ring.take_blit (by omega) hmoved.ge
    rw [show it + 1 + (size - it) = size + 1 by omega, take_of_length_le hmoved.le] at hblit
    exact hblit
  have hfirst : (array.take (it + 1)).set it x = array.take it ++ [x] := by
    rw [take_succ_eq_append_getElem (by omega), set_append_right _ _ (by simp)]
    simp [min_eq_left (hit.trans hsize.le)]
  rw [take_set, htake, set_append_left _ _ (by simp; omega), hfirst, insertAt,
    take_take, min_eq_left hit]
  simp

theorem take_moveRange_down {array : List α} {it size : ℕ} (hit : it < size) (hsize : size ≤ array.length) :
    (moveRange array (it + 1) size it).take (size - 1) = (array.take size).eraseIdx it := by
  have hmoved : ((array.take size).drop (it + 1)).length = size - 1 - it := by
    rw [length_drop, length_take_of_le hsize]
    omega
  have hblit : (blit array it ((array.take size).drop (it + 1))).take (it + (size - 1 - it)) =
      array.take it ++ ((array.take size).drop (it + 1)).take (size - 1 - it) :=
    Ring.take_blit (by omega) hmoved.ge
  rw [show it + (size - 1 - it) = size - 1 by omega, take_of_length_le hmoved.le] at hblit
  rw [moveRange, hblit, eraseIdx_eq_take_drop_succ, take_take, min_eq_left hit.le]

theorem length_moveRange {array : List α} (first last dest : ℕ)
    (h : dest + (last - first) ≤ array.length) : (moveRange array first last dest).length = array.length := by
  refine Ring.length_blit ?_
  rw [length_drop, length_take]
  omega

/-! ## The capacity -/

def FlatCapacity (capacity : ℕ) : Prop := capacity ∈ [0, 1, 4, 16, 64, 256]

theorem flatCapacity_zero : FlatCapacity 0 := mem_cons_self

theorem flatCapacity_le {capacity : ℕ} (h : FlatCapacity capacity) : capacity ≤ 256 := by
  simp only [FlatCapacity, mem_cons, not_mem_nil, or_false] at h
  omega

namespace ExtensionSet

/-- The values of `new_flat_capacity`: after 16384 the next one is 0. -/
def LoopCapacity (capacity : ℕ) : Prop := capacity ∈ [0, 1, 4, 16, 64, 256, 1024, 4096, 16384]

theorem loopCapacity_nextCapacity {capacity : ℕ} (h : LoopCapacity capacity) :
    LoopCapacity (nextCapacity capacity) := by
  have hall : ∀ c ∈ [0, 1, 4, 16, 64, 256, 1024, 4096, 16384],
      nextCapacity c ∈ [0, 1, 4, 16, 64, 256, 1024, 4096, 16384] := by decide
  exact hall capacity h

theorem loopCapacity_iterate {capacity : ℕ} (h : FlatCapacity capacity) (n : ℕ) :
    LoopCapacity (nextCapacity^[n] capacity) := by
  induction n with
  | zero =>
    have hsub : [0, 1, 4, 16, 64, 256] ⊆ [0, 1, 4, 16, 64, 256, 1024, 4096, 16384] := by decide
    exact hsub h
  | succ n ih =>
    rw [Function.iterate_succ_apply']
    exact loopCapacity_nextCapacity ih

theorem nextCapacity_lt (capacity : ℕ) : nextCapacity capacity < 65536 := Nat.mod_lt _ (by decide)

theorem newFlatCapacity_eq_none_iff_forever {capacity minimum : ℕ} :
    newFlatCapacity capacity minimum = none ↔ ∀ n, nextCapacity^[n + 1] capacity < minimum := by
  rw [newFlatCapacity, doWhile_forever nextCapacity_lt]
  exact forall_congr' fun n => decide_eq_true_iff

/-- **The loop of `GrowCapacity`** does not end for more than 16384 elements. -/
theorem newFlatCapacity_eq_none_iff {capacity minimum : ℕ} (h : FlatCapacity capacity) :
    newFlatCapacity capacity minimum = none ↔ 16384 < minimum := by
  rw [newFlatCapacity_eq_none_iff_forever]
  constructor
  · intro hforever
    have hreach : ∀ c ∈ [0, 1, 4, 16, 64, 256], ∃ n < 8, nextCapacity^[n + 1] c = 16384 := by decide
    obtain ⟨n, -, hn⟩ := hreach capacity h
    rw [← hn]
    exact hforever n
  · intro hlarge n
    have hloop := loopCapacity_iterate h (n + 1)
    simp only [LoopCapacity, mem_cons, not_mem_nil, or_false] at hloop
    omega

theorem newFlatCapacity_eq_some {capacity minimum new : ℕ} (h : FlatCapacity capacity)
    (hsome : newFlatCapacity capacity minimum = some new) :
    minimum ≤ new ∧ (FlatCapacity new ∨ kMaximumFlatCapacity < new) := by
  obtain ⟨hend, n, rfl⟩ := doWhile_eq_some hsome
  have hloop := loopCapacity_iterate h (n + 1)
  refine ⟨Nat.le_of_not_lt (of_decide_eq_false hend), ?_⟩
  have hall : ∀ c ∈ [0, 1, 4, 16, 64, 256, 1024, 4096, 16384],
      c ∈ [0, 1, 4, 16, 64, 256] ∨ kMaximumFlatCapacity < c := by decide
  exact hall _ hloop

end ExtensionSet

/-! ## The map of a set -/

/-- The set holds the extensions of the map. -/
inductive Represents : ExtensionSet Message → (ℤ → Option (Extension Message)) → Prop where
  /-- An array of the capacity, the entries in front. -/
  | flat {capacity size : ℕ} {array : List (KeyValue Message)} {f : ℤ → Option (Extension Message)}
      (hcapacity : FlatCapacity capacity) (hlength : array.length = capacity) (hsize : size ≤ capacity)
      (h : Lists (array.take size) f) : Represents ⟨capacity, size, .flat array⟩ f
  /-- A map; the size is not kept any more. -/
  | large {capacity size : ℕ} {map : List (KeyValue Message)} {f : ℤ → Option (Extension Message)}
      (hcapacity : kMaximumFlatCapacity < capacity) (h : Lists map f) :
      Represents ⟨capacity, size, .large map⟩ f

variable {s other : ExtensionSet Message} {f o : ℤ → Option (Extension Message)} {key : ℤ}

variable {capacity size : ℕ}

theorem isLarge_of_flatCapacity {map : AllocatedData Message}
    (h : FlatCapacity capacity) : (⟨capacity, size, map⟩ : ExtensionSet Message).isLarge = false :=
  decide_eq_false (not_lt.mpr (flatCapacity_le h))

theorem isLarge_of_lt {map : AllocatedData Message} (h : kMaximumFlatCapacity < capacity) :
    (⟨capacity, size, map⟩ : ExtensionSet Message).isLarge = true := decide_eq_true h

theorem forEach_flat {array : List (KeyValue Message)} (h : FlatCapacity capacity) :
    (⟨capacity, size, .flat array⟩ : ExtensionSet Message).forEach = array.take size := by
  rw [ExtensionSet.forEach, isLarge_of_flatCapacity h]
  rfl

theorem forEach_large {map : List (KeyValue Message)} (h : kMaximumFlatCapacity < capacity) :
    (⟨capacity, size, .large map⟩ : ExtensionSet Message).forEach = map := by
  rw [ExtensionSet.forEach, isLarge_of_lt h]
  rfl

theorem modify_eq_set {l : List α} {i : ℕ} {a : α} (h : l[i]? = some a) (change : α → α) :
    l.modify i change = l.set i (change a) := by
  rw [List.modify_eq_set_getElem?, h]
  rfl

theorem new_represents : Represents (new : ExtensionSet Message) fun _ => none :=
  .flat flatCapacity_zero rfl le_rfl lists_nil

namespace Represents

theorem forEach (h : Represents s f) : Lists s.forEach f := by
  cases h with
  | flat hcapacity hlength hsize h =>
    rw [forEach_flat hcapacity]
    exact h
  | large hcapacity h =>
    rw [forEach_large hcapacity]
    exact h

theorem findOrNull (h : Represents s f) (key : ℤ) : s.findOrNull key = f key := by
  have hfind := h.forEach.find key
  rw [ExtensionSet.forEach] at hfind
  rw [ExtensionSet.findOrNull]
  split_ifs at hfind ⊢ with hlarge
  · rw [hfind]
    cases f key <;> rfl
  · rw [Sorted.find] at hfind
    dsimp only
    cases hget : s.flatEntries[lowerBound Prod.fst s.flatEntries key]? with
    | none =>
      rw [hget] at hfind
      exact (Option.map_eq_none_iff.mp hfind.symm).symm
    | some element =>
      rw [hget, Option.filter_some] at hfind
      by_cases hkey : element.1 = key
      · rw [if_pos (decide_eq_true hkey)] at hfind
        obtain ⟨e, he, heq⟩ := Option.map_eq_some_iff.mp hfind.symm
        simp [he, ← heq]
      · rw [if_neg (by simpa using hkey)] at hfind
        simpa [hkey] using (Option.map_eq_none_iff.mp hfind.symm).symm

variable {e : Extension Message} {position : ℕ}

section
variable (h : Represents s f) (hposition : s.forEach[position]? = some (key, e))
  (change : Extension Message → Extension Message)
include h hposition change

theorem forEach_modify :
    (s.modify position change).forEach = s.forEach.set position (key, change e) := by
  cases h with
  | @flat capacity size array f hcapacity hlength hsize h =>
    rw [forEach_flat hcapacity] at hposition ⊢
    have hget : array[position]? = some (key, e) := by
      rw [List.getElem?_take] at hposition
      split_ifs at hposition
      exact hposition
    change (ExtensionSet.forEach ⟨capacity, size, .flat (array.modify position _)⟩) = _
    rw [forEach_flat hcapacity, modify_eq_set hget, take_set]
  | @large capacity size map f hcapacity h =>
    rw [forEach_large hcapacity] at hposition ⊢
    change (ExtensionSet.forEach ⟨capacity, size, .large (map.modify position _)⟩) = _
    rw [forEach_large hcapacity, modify_eq_set hposition]

theorem modify :
    Represents (s.modify position change) (update f key (some (change e))) := by
  have hset := h.forEach.set hposition (change e)
  rw [← h.forEach_modify hposition] at hset
  cases h with
  | @flat capacity size array f hcapacity hlength hsize h =>
    change Lists (ExtensionSet.forEach ⟨capacity, size, .flat (array.modify position _)⟩) _ at hset
    rw [forEach_flat hcapacity] at hset
    exact .flat hcapacity (by simpa using hlength) hsize hset
  | @large capacity size map f hcapacity h =>
    change Lists (ExtensionSet.forEach ⟨capacity, size, .large (map.modify position _)⟩) _ at hset
    rw [forEach_large hcapacity] at hset
    exact .large hcapacity hset

theorem modify_position :
    (s.modify position change).forEach[position]? = some (key, change e) := by
  rw [h.forEach_modify hposition]
  exact List.getElem?_set_self (List.getElem?_eq_some_iff.mp hposition).1

end

end Represents

/-! ## Growing and inserting -/

namespace Represents

/-- **`GrowCapacity`** returns for up to 16384 elements, and there is room for that many. -/
theorem growCapacity (h : Represents s f) {minimum : ℕ} (hminimum : s.isLarge = true ∨ minimum ≤ 16384) :
    ∃ s', s.growCapacity minimum = some s' ∧ Represents s' f ∧
      (s'.isLarge = true ∨ s'.flatSize = s.flatSize ∧ minimum ≤ s'.flatCapacity) := by
  cases h with
  | large hcapacity h =>
    rw [ExtensionSet.growCapacity, if_pos (isLarge_of_lt hcapacity)]
    exact ⟨_, rfl, .large hcapacity h, Or.inl (isLarge_of_lt hcapacity)⟩
  | @flat capacity size array f hcapacity hlength hsize h =>
    have hflat : ∀ map, (⟨capacity, size, map⟩ : ExtensionSet Message).isLarge = false :=
      fun map => isLarge_of_flatCapacity hcapacity
    rw [ExtensionSet.growCapacity, if_neg (by rw [hflat]; decide)]
    split_ifs with henough
    · exact ⟨_, rfl, .flat hcapacity hlength hsize h, Or.inr ⟨rfl, henough⟩⟩
    · have hle : minimum ≤ 16384 := hminimum.resolve_left (by rw [hflat]; decide)
      cases hnew : newFlatCapacity capacity minimum with
      | none =>
        have hmore := (ExtensionSet.newFlatCapacity_eq_none_iff hcapacity).mp hnew
        omega
      | some new =>
        obtain ⟨hroom, hnewCapacity⟩ := newFlatCapacity_eq_some hcapacity hnew
        refine ⟨_, rfl, ?_⟩
        change Represents ⟨new, size, _⟩ f ∧ _
        split_ifs with hlarge
        · refine ⟨.large hlarge ?_, Or.inl (isLarge_of_lt hlarge)⟩
          change Lists ((array.take size).foldl _ []) f
          rw [foldl_insert h.increasing]
          exact h
        · have hflatNew : FlatCapacity new := hnewCapacity.resolve_right hlarge
          have hentries : (array.take size).length = size := by
            rw [length_take, hlength]
            omega
          have hfits : size ≤ new := by
            have hlt : capacity < minimum := Nat.lt_of_not_le henough
            omega
          refine ⟨.flat hflatNew ?_ hfits ?_, Or.inr ⟨rfl, hroom⟩⟩
          · rw [Ring.length_blit]
            · simp
            · change 0 + (array.take size).length ≤ _
              rw [hentries]
              simpa using hfits
          · have htake : (blit (List.replicate new ((0 : ℤ), zero)) 0 (array.take size)).take
                (0 + size) = List.take 0 _ ++ (array.take size).take size :=
              Ring.take_blit (Nat.zero_le _) hentries.ge
            rw [Nat.zero_add, take_zero, nil_append, take_of_length_le hentries.le] at htake
            change Lists ((blit _ 0 (array.take size)).take size) f
            rw [htake]
            exact h

theorem growCapacity_eq_none (h : Represents s f) {minimum : ℕ} (hflat : s.isLarge = false)
    (hminimum : 16384 < minimum) : s.growCapacity minimum = none := by
  cases h with
  | large hcapacity h =>
    rw [isLarge_of_lt hcapacity] at hflat
    exact absurd hflat (by simp)
  | @flat capacity size array f hcapacity hlength hsize h =>
    have hle := flatCapacity_le hcapacity
    rw [ExtensionSet.growCapacity, hflat, if_neg (by decide), if_neg (by dsimp only; omega),
      (ExtensionSet.newFlatCapacity_eq_none_iff hcapacity).mpr hminimum]
    rfl

end Represents

/-- What `Insert` gives: the extension of that number, which is an empty one where there was none. -/
structure Placed (f : ℤ → Option (Extension Message)) (key : ℤ)
    (inserted : ExtensionSet.Inserted Message) : Prop where
  /-- Whether there was none. -/
  isNew : inserted.isNew = (f key).isNone
  /-- The set has it. -/
  represents : Represents inserted.set (update f key (some ((f key).getD Extension.zero)))
  /-- The pointer leads to it. -/
  position : inserted.set.forEach[inserted.position]? = some (key, (f key).getD Extension.zero)

namespace Represents

theorem insertInPlace_flat {capacity size : ℕ} {array : List (KeyValue Message)}
    (h : FlatCapacity capacity) (key : ℤ) :
    insertInPlace ⟨capacity, size, .flat array⟩ key =
      if (find Prod.fst (array.take size) key).isSome then
        some ⟨lowerBound Prod.fst (array.take size) key, false, ⟨capacity, size, .flat array⟩⟩
      else if size < capacity then
        some ⟨lowerBound Prod.fst (array.take size) key, true, ⟨capacity, uint16 (size + 1), .flat
          ((moveRange array (lowerBound Prod.fst (array.take size) key) size
            (lowerBound Prod.fst (array.take size) key + 1)).set
              (lowerBound Prod.fst (array.take size) key) (key, zero))⟩⟩
      else none := by
  rw [insertInPlace, if_neg (by rw [isLarge_of_flatCapacity h]; decide)]
  rfl

theorem insertInPlace_large {capacity size : ℕ} {map : List (KeyValue Message)}
    (h : kMaximumFlatCapacity < capacity) (key : ℤ) :
    insertInPlace ⟨capacity, size, .large map⟩ key =
      if (find Prod.fst map key).isSome then
        some ⟨lowerBound Prod.fst map key, false, ⟨capacity, size, .large map⟩⟩
      else some ⟨lowerBound Prod.fst map key, true,
        ⟨capacity, size, .large (insertAt (lowerBound Prod.fst map key) (key, zero) map)⟩⟩ := by
  rw [insertInPlace, if_pos (isLarge_of_lt h)]
  rfl

theorem placed_of_some (h : Represents s f) {e : Extension Message} (hkey : f key = some e) :
    Placed f key ⟨lowerBound Prod.fst s.forEach key, false, s⟩ := by
  refine ⟨by rw [hkey]; rfl, ?_, ?_⟩
  · rw [hkey, Option.getD_some, Function.update_eq_self_iff.mpr hkey.symm]
    exact h
  · rw [hkey]
    exact h.forEach.getElem?_lowerBound hkey

theorem placed_of_none {s' : ExtensionSet Message} (hkey : f key = none)
    (h' : Represents s' (update f key (some zero))) (hentries : s'.forEach =
      insertAt (lowerBound Prod.fst s.forEach key) (key, zero) s.forEach) :
    Placed f key ⟨lowerBound Prod.fst s.forEach key, true, s'⟩ := by
  refine ⟨by rw [hkey]; rfl, by rw [hkey]; exact h', ?_⟩
  rw [hkey, hentries]
  exact getElem?_insertAt lowerBound_le_length _

/-- An insertion without growth fails where the array is full only. -/
theorem insertInPlace (h : Represents s f) (key : ℤ) :
    (∃ inserted, s.insertInPlace key = some inserted ∧ Placed f key inserted) ∨
      (s.insertInPlace key = none ∧ s.isLarge = false ∧ s.flatSize = s.flatCapacity) := by
  have hwhole := h
  cases h with
  | @large capacity size map f hcapacity h =>
    left
    rw [insertInPlace_large hcapacity, h.find key]
    cases hkey : f key with
    | some e =>
      have hplaced := hwhole.placed_of_some hkey
      rw [forEach_large hcapacity] at hplaced
      exact ⟨_, rfl, hplaced⟩
    | none =>
      have hnew : Represents ⟨capacity, size, .large _⟩ _ :=
        .large hcapacity (h.insertAt hkey zero)
      have hplaced := placed_of_none (s := ⟨capacity, size, .large map⟩) hkey hnew
        (by rw [forEach_large hcapacity, forEach_large hcapacity])
      rw [forEach_large hcapacity] at hplaced
      exact ⟨_, rfl, hplaced⟩
  | @flat capacity size array f hcapacity hlength hsize h =>
    rw [insertInPlace_flat hcapacity, h.find key]
    cases hkey : f key with
    | some e =>
      have hplaced := hwhole.placed_of_some hkey
      rw [forEach_flat hcapacity] at hplaced
      exact Or.inl ⟨_, rfl, hplaced⟩
    | none =>
      by_cases hroom : size < capacity
      · have hle := flatCapacity_le hcapacity
        have hbound : lowerBound Prod.fst (array.take size) key ≤ size :=
          lowerBound_le_length.trans (length_take_le _ _)
        have hwrap : uint16 (size + 1) = size + 1 := Nat.mod_eq_of_lt (by omega)
        have htake := take_moveRange_up (key, zero) hbound (hlength ▸ hroom)
        have hmoved := length_moveRange (lowerBound Prod.fst (array.take size) key) size
          (lowerBound Prod.fst (array.take size) key + 1) (show _ ≤ array.length by omega)
        rw [← length_set (i := lowerBound Prod.fst (array.take size) key)
          (a := (key, zero)), hlength] at hmoved
        generalize (moveRange array (lowerBound Prod.fst (array.take size) key) size
          (lowerBound Prod.fst (array.take size) key + 1)).set
          (lowerBound Prod.fst (array.take size) key) (key, zero) = array' at htake hmoved ⊢
        have hinserted := h.insertAt hkey zero
        rw [← htake] at hinserted
        have hnew : Represents ⟨capacity, uint16 (size + 1), .flat array'⟩
            (update f key (some zero)) := by
          rw [hwrap]
          exact .flat hcapacity hmoved hroom hinserted
        have hplaced := placed_of_none (s := ⟨capacity, size, .flat array⟩) hkey hnew (by
          rw [forEach_flat hcapacity, forEach_flat hcapacity, hwrap, htake])
        rw [forEach_flat hcapacity] at hplaced
        rw [Option.map_none, Option.isSome_none, if_neg (by decide), if_pos hroom]
        exact Or.inl ⟨_, rfl, hplaced⟩
      · rw [Option.map_none, Option.isSome_none, if_neg (by decide), if_neg hroom]
        exact Or.inr ⟨rfl, isLarge_of_flatCapacity hcapacity, le_antisymm hsize (Nat.le_of_not_lt hroom)⟩

/-- **`Insert`** returns the extension of that number. -/
theorem insert (h : Represents s f) (key : ℤ) :
    ∃ inserted, s.insert key = some inserted ∧ Placed f key inserted := by
  rw [ExtensionSet.insert]
  rcases h.insertInPlace key with ⟨inserted, hinserted, hplaced⟩ | ⟨hfull, hflat, hsize⟩
  · rw [hinserted]
    exact ⟨inserted, rfl, hplaced⟩
  · have hle : s.flatSize ≤ 256 := by
      have hnot := of_decide_eq_false hflat
      rw [kMaximumFlatCapacity] at hnot
      omega
    obtain ⟨grown, hgrown, hrepresents, hroom⟩ :=
      h.growCapacity (show s.isLarge = true ∨ s.flatSize + 1 ≤ 16384 from Or.inr (by omega))
    rw [hfull, hgrown]
    rcases hrepresents.insertInPlace key with ⟨inserted, hinserted, hplaced⟩ | ⟨-, hflat', hsize'⟩
    · exact ⟨inserted, hinserted, hplaced⟩
    · -- there is room after the growth
      rcases hroom with hlarge | ⟨hsame, henough⟩
      · rw [hlarge] at hflat'
        exact absurd hflat' (by simp)
      · omega

theorem edit (h : Represents s f) (number : ℤ) (descriptor : Option ℕ)
    (write : Bool → Extension Message → Extension Message) :
    ∃ s', s.edit number descriptor write = some s' ∧ Represents s' (update f number
      (some (write (f number).isNone { (f number).getD zero with descriptor }))) := by
  obtain ⟨inserted, hinserted, hnew, hrepresents, hposition⟩ := h.insert number
  have hfirst := hrepresents.modify hposition fun e => { e with descriptor }
  have hsecond := hfirst.modify
    (hrepresents.modify_position hposition fun e => { e with descriptor }) (write inserted.isNew)
  rw [Function.update_idem, Function.update_idem, hnew] at hsecond
  refine ⟨_, ?_, hsecond⟩
  rw [ExtensionSet.edit, ExtensionSet.maybeNewExtension, hinserted, ← hnew]
  rfl

/-- **`Erase`** removes the extension of that number. -/
theorem erase (h : Represents s f) (key : ℤ) : Represents (s.erase key) (update f key none) := by
  have hfind := h.forEach.find key
  rw [ExtensionSet.erase]
  cases h with
  | @large capacity size map f hcapacity h =>
    rw [if_pos (isLarge_of_lt hcapacity)]
    rw [forEach_large hcapacity] at hfind
    change Represents (if (find Prod.fst map key).isSome then _ else _) _
    rw [hfind]
    cases hkey : f key with
    | none =>
      rw [Function.update_eq_self_iff.mpr hkey.symm]
      exact .large hcapacity h
    | some e => exact .large hcapacity (h.eraseIdx (h.getElem?_lowerBound hkey))
  | @flat capacity size array f hcapacity hlength hsize h =>
    rw [if_neg (by rw [isLarge_of_flatCapacity hcapacity]; decide)]
    rw [forEach_flat hcapacity] at hfind
    change Represents (if (find Prod.fst (array.take size) key).isSome then
      ⟨capacity, uint16 (size + 65535), .flat (moveRange array
        (lowerBound Prod.fst (array.take size) key + 1) size
        (lowerBound Prod.fst (array.take size) key))⟩ else _) _
    rw [hfind]
    cases hkey : f key with
    | none =>
      rw [Function.update_eq_self_iff.mpr hkey.symm]
      exact .flat hcapacity hlength hsize h
    | some e =>
      have hentry := h.getElem?_lowerBound hkey
      have hle := flatCapacity_le hcapacity
      have hbound : lowerBound Prod.fst (array.take size) key < size := by
        obtain ⟨hlt, -⟩ := List.getElem?_eq_some_iff.mp hentry
        exact hlt.trans_le (length_take_le _ _)
      have hwrap : uint16 (size + 65535) = size - 1 := by
        rw [uint16]
        omega
      have herased := h.eraseIdx hentry
      rw [← take_moveRange_down hbound (hlength ▸ hsize)] at herased
      rw [Option.map_some, Option.isSome_some, if_pos rfl, hwrap]
      refine .flat hcapacity ?_ (by omega) herased
      rw [length_moveRange _ _ _ (by omega), hlength]

section Contents
variable [MessageLite Message]

/-- **A setter** writes into the extension of that number. -/
theorem set (h : Represents s f) (number : ℤ) (descriptor : Option ℕ) (write : Write Message) :
    ∃ s', s.set number descriptor write = some s' ∧ Represents s' (update f number
      (some (write.apply (f number).isNone { (f number).getD zero with descriptor }))) :=
  h.edit number descriptor _

/-- **`Clear`** clears every extension. -/
theorem clear (h : Represents s f) : Represents s.clear fun key => (f key).map Extension.clear := by
  have hmap := h.forEach.map Extension.clear
  rw [ExtensionSet.clear]
  cases h with
  | large hcapacity h =>
    rw [if_pos (isLarge_of_lt hcapacity)]
    rw [forEach_large hcapacity] at hmap
    exact .large hcapacity hmap
  | @flat capacity size array f hcapacity hlength hsize h =>
    rw [if_neg (by rw [isLarge_of_flatCapacity hcapacity]; decide)]
    rw [forEach_flat hcapacity] at hmap
    have htaken : (array.take size).length = size := length_take_of_le (hlength ▸ hsize)
    refine .flat hcapacity ?_ hsize ?_
    · change (((array.take size).map fun e => (e.1, e.2.clear)) ++ array.drop size).length = capacity
      simp [hlength, hsize]
    · change Lists ((((array.take size).map fun e => (e.1, e.2.clear)) ++ array.drop size).take size) _
      rw [take_left' (by simpa using htaken)]
      exact hmap

end Contents

end Represents

end Protoc.Extensions
