import Mathlib.Data.List.AList
import Protoc.Lib.Ownership

/-!
# Maps that own what they point to

A map from keys to objects on a heap, which the map owns: what an operation on it does to the
ownership, to what the map points to, and to what other owners point to.
-/

namespace Protoc.Lib

open Function (update update_self update_of_ne)

universe u v w
variable {ι : Type v} [DecidableEq ι] {α : Type u} {K : Type w} [DecidableEq K]

def slots (map : AList fun _ : K => ℕ) : Multiset ℕ := ↑(map.entries.map Sigma.snd)

def deref (h : Heap α) (map : AList fun _ : K => ℕ) (k : K) : Option α := (map.lookup k).bind h.read

/-- An owner has other objects, and what others own is as it was. -/
structure Change (own : ι → Multiset ℕ) (i : ι) (h h' : Heap α) (m : Multiset ℕ) : Prop where
  owned : Owned h' (update own i m)
  next_le : h.next ≤ h'.next
  fresh : ∀ q ∈ m, q ∈ own i ∨ h.next ≤ q
  frame : ∀ q < h.next, q ∉ own i → h'.cell q = h.cell q
  given : ∀ p, h'.events.count (.given p) = h.events.count (.given p)
  released : ∀ p, h'.events.count (.released p) = h.events.count (.released p)

variable {own : ι → Multiset ℕ} {i j : ι} {h h' h'' : Heap α} {m m' : Multiset ℕ} {p : ℕ} {x : α}
  {map : AList fun _ : K => ℕ} {k : K}

/-! ## What a map owns -/

theorem mem_slots {q : ℕ} : q ∈ slots map ↔ ∃ k, map.lookup k = some q := by
  rw [slots, Multiset.mem_coe, List.mem_map]
  constructor
  · rintro ⟨e, he, rfl⟩
    exact ⟨e.1, AList.mem_lookup_iff.mpr he⟩
  · rintro ⟨k, hk⟩
    exact ⟨⟨k, q⟩, AList.mem_lookup_iff.mp hk, rfl⟩

omit [DecidableEq K] in
@[simp] theorem slots_empty : slots (∅ : AList fun _ : K => ℕ) = 0 := rfl

theorem slots_insert (map : AList fun _ : K => ℕ) (k : K) (p : ℕ) :
    slots (map.insert k p) = p ::ₘ slots (map.erase k) := rfl

theorem erase_of_lookup_none (hk : map.lookup k = none) : map.erase k = map := by
  apply AList.ext
  exact List.kerase_of_notMem_keys (AList.lookup_eq_none.mp hk)

theorem insert_erase_self (map : AList fun _ : K => ℕ) (k : K) (p : ℕ) :
    (map.erase k).insert k p = map.insert k p := by
  apply AList.ext
  rw [AList.entries_insert, AList.entries_insert]
  refine congrArg _ (List.kerase_of_notMem_keys ?_)
  exact AList.lookup_eq_none.mp (AList.lookup_erase k map)

theorem slots_of_lookup (hk : map.lookup k = some p) : slots map = p ::ₘ slots (map.erase k) := by
  have hmem : k ∈ map.entries.keys := AList.lookup_isSome.mp (by rw [hk]; rfl)
  obtain ⟨q, l₁, l₂, hfirst, hentries, herase⟩ := List.exists_of_kerase hmem
  have hq : map.lookup k = some q := by
    apply AList.mem_lookup_iff.mpr
    rw [hentries]
    exact List.mem_append_right _ List.mem_cons_self
  obtain rfl := Option.some.inj (hk.symm.trans hq)
  have hslots : slots (map.erase k) = ↑((l₁ ++ l₂).map Sigma.snd) := 
    congrArg (fun l : List (Σ _ : K, ℕ) => (↑(l.map Sigma.snd) : Multiset ℕ)) herase
  rw [hslots, slots, hentries, List.map_append, List.map_append, List.map_cons, Multiset.cons_coe]
  exact Multiset.coe_eq_coe.mpr List.perm_middle

/-! ## Changes -/

namespace Change

theorem refl (H : Owned h own) : Change own i h h (own i) where
  owned := by
    rw [Function.update_eq_self]
    exact H
  next_le := le_rfl
  fresh _ hq := .inl hq
  frame _ _ _ := rfl
  given _ := rfl
  released _ := rfl

theorem trans (first : Change own i h h' m) (second : Change (update own i m) i h' h'' m') :
    Change own i h h'' m' where
  owned := by
    have howned := second.owned
    rwa [Function.update_idem] at howned
  next_le := le_trans first.next_le second.next_le
  fresh q hq := by
    rcases second.fresh q hq with hmem | hnew
    · rw [update_self] at hmem
      exact first.fresh q hmem
    · exact .inr (le_trans first.next_le hnew)
  frame q hlt hnot := by
    have hnot' : q ∉ update own i m i := by
      rw [update_self]
      intro hmem
      rcases first.fresh q hmem with hold | hnew
      · exact hnot hold
      · omega
    rw [second.frame q (lt_of_lt_of_le hlt first.next_le) hnot', first.frame q hlt hnot]
  given p := (second.given p).trans (first.given p)
  released p := (second.released p).trans (first.released p)

theorem new (H : Owned h own) (x : α) : Change own i h (h.new x) (h.next ::ₘ own i) where
  owned := H.new x i
  next_le := Nat.le_succ _
  fresh q hq := by
    rcases Multiset.mem_cons.mp hq with rfl | hold
    · exact .inr le_rfl
    · exact .inl hold
  frame q hlt _ := by
    rw [Heap.cell_new, update_of_ne (ne_of_lt hlt)]
  given p := by simp [Heap.new, Heap.count_log, Heap.alloc]
  released p := by simp [Heap.new, Heap.count_log, Heap.alloc]

theorem delete (H : Owned h own) (hown : own i = p ::ₘ m) :
    ∃ h', h.delete p = some h' ∧ Change own i h h' m ∧ ∀ q, q ≠ p → h'.cell q = h.cell q := by
  obtain ⟨h', hdelete, howned, hnext, hcell⟩ := H.delete hown
  have hp : p ∈ own i := hown ▸ Multiset.mem_cons_self p m
  have hevents : h'.events = h.events ++ [.deleted p] := by
    rw [Heap.delete, Option.map_eq_some_iff] at hdelete
    obtain ⟨y, -, rfl⟩ := hdelete
    rfl
  refine ⟨h', hdelete, ⟨howned, hnext.ge, ?_, ?_, ?_, ?_⟩, hcell⟩
  · exact fun q hq => .inl (hown ▸ Multiset.mem_cons_of_mem hq)
  · exact fun q _ hnot => hcell q fun heq => hnot (heq ▸ hp)
  · intro q
    simp [hevents]
  · intro q
    simp [hevents]

theorem deleteAll {l : List ℕ} (H : Owned h own) (hown : own i = ↑l) :
    ∃ h', l.foldlM Heap.delete h = some h' ∧ Change own i h h' 0 := by
  induction l generalizing h own with
  | nil =>
    have hchange : Change own i h h (own i) := .refl H
    rw [hown] at hchange
    exact ⟨h, rfl, hchange⟩
  | cons p l ih =>
    obtain ⟨h₁, hdelete, hchange, -⟩ := delete H (hown.trans (Multiset.cons_coe p l).symm)
    obtain ⟨h', hrest, hchange'⟩ := ih hchange.owned (update_self ..)
    refine ⟨h', ?_, hchange.trans hchange'⟩
    rw [List.foldlM_cons, hdelete]
    exact hrest

theorem modify (H : Owned h own) (hp : p ∈ own i) (f : α → α) :
    ∃ h', h.modify p f = some h' ∧ Change own i h h' (own i) ∧ h'.cell p = (h.cell p).map f ∧
      ∀ q, q ≠ p → h'.cell q = h.cell q := by
  obtain ⟨h', hmodify, howned, hnext, hcell, hother⟩ := H.modify f (H.live i p hp)
  have hevents : h'.events = h.events := by
    rw [Heap.modify, Option.map_eq_some_iff] at hmodify
    obtain ⟨y, -, rfl⟩ := hmodify
    rfl
  refine ⟨h', hmodify, ⟨?_, hnext.ge, fun q hq => .inl hq, ?_, ?_, ?_⟩, hcell, hother⟩
  · rw [Function.update_eq_self]
    exact howned
  · exact fun q _ hnot => hother q fun heq => hnot (heq ▸ hp)
  · intro q
    rw [hevents]
  · intro q
    rw [hevents]

theorem deref_of_ne (hchange : Change own i h h' m) (H : Owned h own) (hne : j ≠ i) (hmap : own j = slots map) :
    deref h' map = deref h map := by
  funext k
  rw [deref, deref]
  cases hk : map.lookup k with
  | none => rfl
  | some q =>
    have hq : q ∈ own j := hmap ▸ mem_slots.mpr ⟨k, hk⟩
    have hnot : q ∉ own i := fun hmem => hne (H.disjoint j i q hq hmem)
    exact hchange.frame q (H.bounded q (H.live j q hq)) hnot

/-! ## Operations on a map -/

section
variable (H : Owned h own)
include H

omit [DecidableEq ι] in
/-- Two keys do not share an object. -/
theorem lookup_ne_of_ne (hmap : own i = slots map) {k' : K} {q : ℕ} (hk : map.lookup k = some p)
    (hk' : map.lookup k' = some q) (hne : k' ≠ k) : q ≠ p := by
  rintro rfl
  have hnodup : (slots map).Nodup := hmap ▸ H.nodup i
  rw [slots_of_lookup hk] at hnodup
  refine (Multiset.nodup_cons.mp hnodup).1 (mem_slots.mpr ⟨k', ?_⟩)
  rwa [AList.lookup_erase_ne hne]

theorem insertNew (hmap : own i = slots map) (hk : map.lookup k = none) (x : α) :
    Change own i h (h.new x) (slots (map.insert k h.next)) ∧
      deref (h.new x) (map.insert k h.next) = update (deref h map) k (some x) := by
  constructor
  · rw [slots_insert, erase_of_lookup_none hk, ← hmap]
    exact new H x
  · funext k'
    rw [deref]
    by_cases hne : k' = k
    · rw [hne, AList.lookup_insert, update_self, Option.bind_some, Heap.read, Heap.cell_new, update_self]
    · rw [AList.lookup_insert_ne hne, update_of_ne hne, deref]
      cases hk' : map.lookup k' with
      | none => rfl
      | some q =>
        have hq : q ∈ own i := hmap ▸ mem_slots.mpr ⟨k', hk'⟩
        have hlt : q < h.next := H.bounded q (H.live i q hq)
        rw [Option.bind_some, Option.bind_some, Heap.read, Heap.read, Heap.cell_new, update_of_ne (ne_of_lt hlt)]

theorem assign (hmap : own i = slots map) (hk : map.lookup k = some p) (x : α) :
    ∃ h', h.modify p (fun _ => x) = some h' ∧ Change own i h h' (slots map) ∧
      deref h' map = update (deref h map) k (some x) := by
  have hp : p ∈ own i := hmap ▸ mem_slots.mpr ⟨k, hk⟩
  obtain ⟨h', hmodify, hchange, hcell, hother⟩ := modify H hp fun _ => x
  rw [hmap] at hchange
  refine ⟨h', hmodify, hchange, funext fun k' => ?_⟩
  by_cases hne : k' = k
  · obtain ⟨y, hy⟩ := Option.isSome_iff_exists.mp (H.live i p hp)
    rw [hne, deref, hk, update_self, Option.bind_some, Heap.read, hcell, hy]
    rfl
  · rw [update_of_ne hne, deref, deref]
    cases hk' : map.lookup k' with
    | none => rfl
    | some q => exact hother q (lookup_ne_of_ne H hmap hk hk' hne)

theorem eraseKey (hmap : own i = slots map) (hk : map.lookup k = some p) :
    ∃ h', h.delete p = some h' ∧ Change own i h h' (slots (map.erase k)) ∧
      deref h' (map.erase k) = update (deref h map) k none := by
  obtain ⟨h', hdelete, hchange, hother⟩ := delete H (hmap.trans (slots_of_lookup hk))
  refine ⟨h', hdelete, hchange, funext fun k' => ?_⟩
  by_cases hne : k' = k
  · rw [hne, deref, AList.lookup_erase, update_self]
    rfl
  · rw [update_of_ne hne, deref, deref, AList.lookup_erase_ne hne]
    cases hk' : map.lookup k' with
    | none => rfl
    | some q => exact hother q (lookup_ne_of_ne H hmap hk hk' hne)

theorem replace (hmap : own i = slots map) (hk : map.lookup k = some p) (x : α) :
    ∃ h', h.delete p = some h' ∧ Change own i h (h'.new x) (slots (map.insert k h'.next)) ∧
      deref (h'.new x) (map.insert k h'.next) = update (deref h map) k (some x) := by
  obtain ⟨h', hdelete, hchange, hderef⟩ := eraseKey H hmap hk
  obtain ⟨hchange', hderef'⟩ := insertNew hchange.owned (update_self ..) (AList.lookup_erase k map) x
  rw [insert_erase_self] at hchange' hderef'
  refine ⟨h', hdelete, hchange.trans hchange', ?_⟩
  rw [hderef', hderef, Function.update_idem]

omit [DecidableEq K] in
/-- All keys and their values are removed. -/
theorem clearAll (hmap : own i = slots map) {l : List (Σ _ : K, ℕ)} (hl : l.Perm map.entries) :
    ∃ h', (l.map Sigma.snd).foldlM Heap.delete h = some h' ∧
      Change own i h h' (slots (∅ : AList fun _ : K => ℕ)) := by
  refine deleteAll H (hmap.trans ?_)
  exact Multiset.coe_eq_coe.mpr (hl.map Sigma.snd).symm

end

end Change

end Protoc.Lib
