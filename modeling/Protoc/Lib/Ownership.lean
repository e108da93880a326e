import Mathlib.Data.Multiset.UnionInter

/-!
# Objects with one owner

Objects are numbered in the order in which they are made, and a number is not used again after
its object is deleted.  A log records how ownership of each object began and ended.
-/

namespace Protoc.Lib

universe u v

/-- How ownership of an object begins and ends. -/
inductive Event where
  | made (p : ℕ)
  | given (p : ℕ)
  | deleted (p : ℕ)
  | released (p : ℕ)
deriving DecidableEq

def Event.object : Event → ℕ
  | made p | given p | deleted p | released p => p

/-- The live objects, the number of the next one, and what happened so far. -/
structure Heap (α : Type u) where
  cell : ℕ → Option α
  next : ℕ
  events : List Event

namespace Heap
variable {α : Type u} {h : Heap α} {p q : ℕ} {x y : α}

open Function (update)

def empty : Heap α := ⟨fun _ => none, 0, []⟩

/-- An object that belongs to nobody the log speaks of. -/
def alloc (h : Heap α) (x : α) : Heap α :=
  { h with cell := update h.cell h.next (some x), next := h.next + 1 }

def log (h : Heap α) (e : Event) : Heap α := { h with events := h.events ++ [e] }

def new (h : Heap α) (x : α) : Heap α := (h.alloc x).log (.made h.next)

def read (h : Heap α) (p : ℕ) : Option α := h.cell p

def modify (h : Heap α) (p : ℕ) (f : α → α) : Option (Heap α) :=
  (h.cell p).map fun x => { h with cell := update h.cell p (some (f x)) }

def delete (h : Heap α) (p : ℕ) : Option (Heap α) :=
  (h.cell p).map fun _ => { h with cell := update h.cell p none }.log (.deleted p)

def releaseAll (h : Heap α) (l : List ℕ) : Heap α := l.foldl (fun h p => h.log (.released p)) h

def acquired (h : Heap α) (p : ℕ) : ℕ := h.events.count (.made p) + h.events.count (.given p)

def disposed (h : Heap α) (p : ℕ) : ℕ := h.events.count (.deleted p) + h.events.count (.released p)

@[simp] theorem cell_log (e : Event) : (h.log e).cell = h.cell := rfl

@[simp] theorem next_log (e : Event) : (h.log e).next = h.next := rfl

@[simp] theorem cell_alloc : (h.alloc x).cell = update h.cell h.next (some x) := rfl

@[simp] theorem cell_new : (h.new x).cell = update h.cell h.next (some x) := rfl

@[simp] theorem next_new : (h.new x).next = h.next + 1 := rfl

@[simp] theorem cell_releaseAll (l : List ℕ) : (h.releaseAll l).cell = h.cell := by
  induction l generalizing h with
  | nil => rfl
  | cons p l ih => exact ih

@[simp] theorem next_releaseAll (l : List ℕ) : (h.releaseAll l).next = h.next := by
  induction l generalizing h with
  | nil => rfl
  | cons p l ih => exact ih

theorem count_log (e e' : Event) :
    (h.log e).events.count e' = h.events.count e' + if e = e' then 1 else 0 := by
  rw [log, List.count_append, List.count_singleton]
  simp

end Heap

/-- Each owner's objects are live and no other's, and the log says of every object how often
ownership of it began and ended. -/
structure Owned {ι : Type v} {α : Type u} (h : Heap α) (own : ι → Multiset ℕ) : Prop where
  live : ∀ i, ∀ p ∈ own i, (h.cell p).isSome
  nodup : ∀ i, (own i).Nodup
  disjoint : ∀ i j p, p ∈ own i → p ∈ own j → i = j
  bounded : ∀ p, (h.cell p).isSome → p < h.next
  logged : ∀ e ∈ h.events, e.object < h.next
  gone : ∀ p, (h.cell p).isSome → h.events.count (.deleted p) = 0
  deletedOnce : ∀ p, h.events.count (.deleted p) ≤ 1
  madeOnce : ∀ p, h.events.count (.made p) ≤ 1
  kept : ∀ i, ∀ p ∈ own i, h.acquired p = h.disposed p + 1
  left : ∀ p, (∀ i, p ∉ own i) → h.acquired p = h.disposed p

namespace Owned
variable {ι : Type v} [DecidableEq ι] {α : Type u} {h : Heap α} {own : ι → Multiset ℕ}
variable {i : ι} {p : ℕ} {x : α} {m : Multiset ℕ}

open Function (update)

omit [DecidableEq ι] in
/-- At the start nobody owns anything. -/
theorem empty : Owned (Heap.empty : Heap α) fun _ : ι => 0 where
  live _ p hp := absurd hp (Multiset.notMem_zero p)
  nodup _ := Multiset.nodup_zero
  disjoint _ _ p hp := absurd hp (Multiset.notMem_zero p)
  bounded p hp := by simp [Heap.empty] at hp
  logged e he := absurd he List.not_mem_nil
  gone _ _ := rfl
  deletedOnce _ := Nat.zero_le _
  madeOnce _ := Nat.zero_le _
  kept _ p hp := absurd hp (Multiset.notMem_zero p)
  left _ _ := rfl

omit [DecidableEq ι] in
/-- Nothing was recorded of the next object. -/
theorem count_next (H : Owned h own) {e : Event} (he : e.object = h.next) : h.events.count e = 0 := by
  rw [List.count_eq_zero]
  intro hmem
  have hlt := H.logged e hmem
  omega

omit [DecidableEq ι] in
/-- The next object has no owner. -/
theorem next_notMem (H : Owned h own) (i : ι) : h.next ∉ own i := by
  intro hmem
  exact lt_irrefl _ (H.bounded _ (H.live i _ hmem))

omit [DecidableEq ι] in
/-- Changing the content of live objects changes nothing about their ownership. -/
theorem modify (H : Owned h own) (f : α → α) (hp : (h.cell p).isSome) :
    ∃ h', h.modify p f = some h' ∧ Owned h' own ∧ h'.next = h.next ∧
      h'.cell p = (h.cell p).map f ∧ ∀ q, q ≠ p → h'.cell q = h.cell q := by
  obtain ⟨x, hx⟩ := Option.isSome_iff_exists.mp hp
  have hlive : ∀ q, (update h.cell p (some (f x)) q).isSome = (h.cell q).isSome := by
    intro q
    rcases eq_or_ne q p with rfl | hne
    · simp [hx]
    · rw [Function.update_of_ne hne]
  refine ⟨{ h with cell := update h.cell p (some (f x)) }, ?_, ?_, rfl, ?_, ?_⟩
  · rw [Heap.modify, hx]
    rfl
  · exact
      { live := fun i q hq => (hlive q).trans (H.live i q hq)
        nodup := H.nodup
        disjoint := H.disjoint
        bounded := fun q hq => H.bounded q ((hlive q).symm.trans hq)
        logged := H.logged
        gone := fun q hq => H.gone q ((hlive q).symm.trans hq)
        deletedOnce := H.deletedOnce
        madeOnce := H.madeOnce
        kept := H.kept
        left := H.left }
  · simp [hx]
  · exact fun q hne => Function.update_of_ne hne _ _

omit [DecidableEq ι] in
/-- An object somebody else makes. -/
theorem alloc (H : Owned h own) (x : α) : Owned (h.alloc x) own where
  live i p hp := by
    have hne : p ≠ h.next := fun heq => H.next_notMem i (heq ▸ hp)
    rw [Heap.cell_alloc, Function.update_of_ne hne]
    exact H.live i p hp
  nodup := H.nodup
  disjoint := H.disjoint
  bounded p hp := by
    change p < h.next + 1
    rcases eq_or_ne p h.next with rfl | hne
    · exact Nat.lt_succ_self _
    · rw [Heap.cell_alloc, Function.update_of_ne hne] at hp
      exact Nat.lt_succ_of_lt (H.bounded p hp)
  logged e he := Nat.lt_succ_of_lt (H.logged e he)
  gone p hp := by
    rcases eq_or_ne p h.next with rfl | hne
    · exact H.count_next rfl
    · rw [Heap.cell_alloc, Function.update_of_ne hne] at hp
      exact H.gone p hp
  deletedOnce := H.deletedOnce
  madeOnce := H.madeOnce
  kept := H.kept
  left := H.left

theorem mem_update_cons {q : ℕ} {j : ι} : q ∈ update own i (p ::ₘ own i) j ↔ (j = i ∧ q = p) ∨ q ∈ own j := by
  rcases eq_or_ne j i with rfl | hne
  · simp
  · simp [hne]

section
variable (H : Owned h own)
include H

theorem mem_update_of_cons (hown : own i = p ::ₘ m) {q : ℕ} {j : ι} :
    q ∈ update own i m j ↔ q ∈ own j ∧ q ≠ p := by
  have hp : p ∈ own i := by
    rw [hown]
    exact Multiset.mem_cons_self p m
  have hnodup : (p ::ₘ m).Nodup := hown ▸ H.nodup i
  rcases eq_or_ne j i with rfl | hne
  · rw [Function.update_self, hown, Multiset.mem_cons]
    refine ⟨fun hq => ⟨Or.inr hq, ?_⟩, fun hq => hq.1.resolve_left hq.2⟩
    rintro rfl
    exact (Multiset.nodup_cons.mp hnodup).1 hq
  · rw [Function.update_of_ne hne]
    refine ⟨fun hq => ⟨hq, ?_⟩, fun hq => hq.1⟩
    rintro rfl
    exact hne (H.disjoint j i q hq hp)

/-- Ownership of a live object begins. -/
theorem acquire {e : Event} (hlive : (h.cell p).isSome) (hfree : ∀ j, p ∉ own j)
    (hbegins : e = .given p ∨ e = .made p ∧ h.events.count (.made p) = 0) (i : ι) :
    Owned (h.log e) (update own i (p ::ₘ own i)) := by
  have hcount : ∀ q, (h.log e).acquired q = h.acquired q + (if p = q then 1 else 0) ∧
      (h.log e).disposed q = h.disposed q := by
    intro q
    simp only [Heap.acquired, Heap.disposed, Heap.count_log]
    rcases hbegins with rfl | ⟨rfl, -⟩
    · simp [Nat.add_assoc]
    · simp [Nat.add_right_comm]
  exact
    { live := by
        intro j q hq
        rcases mem_update_cons.mp hq with ⟨-, rfl⟩ | hq
        · exact hlive
        · exact H.live j q hq
      nodup := by
        intro j
        rcases eq_or_ne j i with rfl | hne
        · rw [Function.update_self]
          exact Multiset.nodup_cons.mpr ⟨hfree j, H.nodup j⟩
        · rw [Function.update_of_ne hne]
          exact H.nodup j
      disjoint := by
        intro j k q hj hk
        rcases mem_update_cons.mp hj with ⟨hji, hqp⟩ | hold
        · rcases mem_update_cons.mp hk with ⟨hki, -⟩ | hold'
          · exact hji.trans hki.symm
          · exact absurd (hqp ▸ hold') (hfree k)
        · rcases mem_update_cons.mp hk with ⟨-, hqp⟩ | hold'
          · exact absurd (hqp ▸ hold) (hfree j)
          · exact H.disjoint j k q hold hold'
      bounded := H.bounded
      logged := by
        intro e' he'
        rcases List.mem_append.mp he' with he' | he'
        · exact H.logged e' he'
        · obtain rfl := List.mem_singleton.mp he'
          rcases hbegins with rfl | ⟨rfl, -⟩ <;> exact H.bounded p hlive
      gone := by
        intro q hq
        rw [Heap.count_log, H.gone q hq]
        rcases hbegins with rfl | ⟨rfl, -⟩ <;> simp
      deletedOnce := by
        intro q
        rw [Heap.count_log]
        rcases hbegins with rfl | ⟨rfl, -⟩ <;> simpa using H.deletedOnce q
      madeOnce := by
        intro q
        rw [Heap.count_log]
        rcases hbegins with rfl | ⟨rfl, hnone⟩
        · simpa using H.madeOnce q
        · split_ifs with heq
          · obtain rfl : p = q := by injection heq
            rw [hnone]
          · exact H.madeOnce q
      kept := by
        intro j q hq
        rw [(hcount q).1, (hcount q).2]
        rcases mem_update_cons.mp hq with ⟨-, rfl⟩ | hq
        · rw [if_pos rfl, H.left q hfree]
        · have hne : p ≠ q := fun heq => hfree j (heq ▸ hq)
          rw [if_neg hne, Nat.add_zero]
          exact H.kept j q hq
      left := by
        intro q hq
        have hne : p ≠ q := fun heq => hq i (mem_update_cons.mpr (Or.inl ⟨rfl, heq.symm⟩))
        rw [(hcount q).1, (hcount q).2, if_neg hne, Nat.add_zero]
        exact H.left q fun j hmem => hq j (mem_update_cons.mpr (Or.inr hmem)) }

theorem new (x : α) (i : ι) : Owned (h.new x) (update own i (h.next ::ₘ own i)) := by
  refine (H.alloc x).acquire ?_ H.next_notMem (Or.inr ⟨rfl, H.count_next rfl⟩) i
  rw [Heap.cell_alloc, Function.update_self]
  rfl

theorem give (hlive : (h.cell p).isSome) (hfree : ∀ j, p ∉ own j) (i : ι) :
    Owned (h.log (.given p)) (update own i (p ::ₘ own i)) :=
  H.acquire hlive hfree (Or.inl rfl) i

/-- Ownership of an object ends: it is passed on, or deleted and then no longer live. -/
theorem dispose {e : Event} {cell : ℕ → Option α} (hown : own i = p ::ₘ m)
    (hends : e = .released p ∧ cell = h.cell ∨ e = .deleted p ∧ cell = update h.cell p none) :
    Owned (Heap.log { h with cell := cell } e) (update own i m) := by
  have hp : p ∈ own i := by
    rw [hown]
    exact Multiset.mem_cons_self p m
  have hother : ∀ q, q ≠ p → cell q = h.cell q := by
    intro q hne
    rcases hends with ⟨-, rfl⟩ | ⟨-, rfl⟩
    · rfl
    · exact Function.update_of_ne hne _ _
  have hlive : ∀ q, (cell q).isSome → (h.cell q).isSome := by
    intro q hq
    rcases eq_or_ne q p with rfl | hne
    · exact H.live i q hp
    · rwa [hother q hne] at hq
  have hcount : ∀ q, (Heap.log { h with cell := cell } e).acquired q = h.acquired q ∧
      (Heap.log { h with cell := cell } e).disposed q =
        h.disposed q + (if p = q then 1 else 0) := by
    intro q
    simp only [Heap.acquired, Heap.disposed, Heap.count_log]
    rcases hends with ⟨rfl, -⟩ | ⟨rfl, -⟩
    · simp [Nat.add_assoc]
    · simp [Nat.add_right_comm]
  exact
    { live := by
        intro j q hq
        obtain ⟨hq, hne⟩ := (H.mem_update_of_cons hown).mp hq
        change (cell q).isSome
        rw [hother q hne]
        exact H.live j q hq
      nodup := by
        intro j
        rcases eq_or_ne j i with rfl | hne
        · have hnodup := H.nodup j
          rw [hown] at hnodup
          rw [Function.update_self]
          exact (Multiset.nodup_cons.mp hnodup).2
        · rw [Function.update_of_ne hne]
          exact H.nodup j
      disjoint := by
        intro j k q hj hk
        exact H.disjoint j k q ((H.mem_update_of_cons hown).mp hj).1
          ((H.mem_update_of_cons hown).mp hk).1
      bounded := fun q hq => H.bounded q (hlive q hq)
      logged := by
        intro e' he'
        rcases List.mem_append.mp he' with he' | he'
        · exact H.logged e' he'
        · obtain rfl := List.mem_singleton.mp he'
          have hlt := H.bounded p (H.live i p hp)
          rcases hends with ⟨rfl, -⟩ | ⟨rfl, -⟩ <;> exact hlt
      gone := by
        intro q hq
        rw [Heap.count_log]
        rcases hends with ⟨rfl, -⟩ | ⟨rfl, rfl⟩
        · simpa using H.gone q (hlive q hq)
        · rcases eq_or_ne q p with rfl | hne
          · simp at hq
          · simpa [hne.symm] using H.gone q (hlive q hq)
      deletedOnce := by
        intro q
        rw [Heap.count_log]
        rcases hends with ⟨rfl, -⟩ | ⟨rfl, -⟩
        · simpa using H.deletedOnce q
        · split_ifs with heq
          · obtain rfl : p = q := by injection heq
            exact le_of_eq (congrArg (· + 1) (H.gone p (H.live i p hp)))
          · exact H.deletedOnce q
      madeOnce := by
        intro q
        rw [Heap.count_log]
        rcases hends with ⟨rfl, -⟩ | ⟨rfl, -⟩ <;> simpa using H.madeOnce q
      kept := by
        intro j q hq
        obtain ⟨hq, hne⟩ := (H.mem_update_of_cons hown).mp hq
        rw [(hcount q).1, (hcount q).2, if_neg hne.symm]
        exact H.kept j q hq
      left := by
        intro q hq
        rw [(hcount q).1, (hcount q).2]
        rcases eq_or_ne q p with rfl | hne
        · rw [if_pos rfl]
          exact H.kept i q hp
        · rw [if_neg hne.symm]
          exact H.left q fun j hmem => hq j ((H.mem_update_of_cons hown).mpr ⟨hmem, hne⟩) }

theorem release (hown : own i = p ::ₘ m) : Owned (h.log (.released p)) (update own i m) :=
  H.dispose hown (Or.inl ⟨rfl, rfl⟩)

theorem delete (hown : own i = p ::ₘ m) :
    ∃ h', h.delete p = some h' ∧ Owned h' (update own i m) ∧ h'.next = h.next ∧
      ∀ q, q ≠ p → h'.cell q = h.cell q := by
  obtain ⟨x, hx⟩ := Option.isSome_iff_exists.mp (H.live i p (hown ▸ Multiset.mem_cons_self p m))
  refine ⟨Heap.log { h with cell := update h.cell p none } (.deleted p), ?_,
    H.dispose hown (Or.inr ⟨rfl, rfl⟩), rfl, fun q hne => Function.update_of_ne hne _ _⟩
  rw [Heap.delete, hx]
  rfl

theorem releaseAll {l : List ℕ} (hown : own i = ↑l + m) :
    Owned (h.releaseAll l) (update own i m) := by
  induction l generalizing h own with
  | nil =>
    rw [Multiset.coe_nil, Multiset.zero_add] at hown
    rw [← hown, Function.update_eq_self]
    exact H
  | cons p l ih =>
    rw [← Multiset.cons_coe, Multiset.cons_add] at hown
    have hrest := ih (H.release hown) (Function.update_self ..)
    rwa [Function.update_idem] at hrest

theorem deleteAll {l : List ℕ} (hown : own i = ↑l + m) :
    ∃ h', l.foldlM Heap.delete h = some h' ∧ Owned h' (update own i m) ∧ h'.next = h.next ∧
      ∀ q ∉ l, h'.cell q = h.cell q := by
  induction l generalizing h own with
  | nil =>
    rw [Multiset.coe_nil, Multiset.zero_add] at hown
    rw [← hown, Function.update_eq_self]
    exact ⟨h, rfl, H, rfl, fun _ _ => rfl⟩
  | cons p l ih =>
    rw [← Multiset.cons_coe, Multiset.cons_add] at hown
    obtain ⟨t, ht, H', hnext, hcell⟩ := H.delete hown
    obtain ⟨h', hh', H'', hnext', hcell'⟩ := ih H' (Function.update_self ..)
    rw [Function.update_idem] at H''
    refine ⟨h', ?_, H'', hnext'.trans hnext, fun q hq => ?_⟩
    · rw [List.foldlM_cons, ht]
      exact hh'
    · rw [List.mem_cons, not_or] at hq
      rw [hcell' q hq.2, hcell q hq.1]

end

omit [DecidableEq ι] in
/-- Owners may exchange all they own. -/
theorem permute (H : Owned h own) (σ : Equiv.Perm ι) : Owned h (own ∘ σ) where
  live i := H.live (σ i)
  nodup i := H.nodup (σ i)
  disjoint i j p hi hj := σ.injective (H.disjoint (σ i) (σ j) p hi hj)
  bounded := H.bounded
  logged := H.logged
  gone := H.gone
  deletedOnce := H.deletedOnce
  madeOnce := H.madeOnce
  kept i := H.kept (σ i)
  left p hp := by
    refine H.left p fun i hmem => hp (σ.symm i) ?_
    rwa [Function.comp_apply, σ.apply_symm_apply]

end Owned

end Protoc.Lib
