import Mathlib.Data.List.Basic

/-!
# Undoing insertions by a journal

A map takes new keys only and lists them in a journal.  An earlier map is brought back by
erasing the keys that were listed since.
-/

namespace Protoc.Lib

open Function (update update_self update_of_ne)

universe u v

variable {κ : Type u} {α : Type v} [DecidableEq κ]

def eraseAll (find : κ → Option α) (keys : List κ) : κ → Option α :=
  keys.foldl (fun find k => update find k none) find

@[simp] theorem eraseAll_nil (find : κ → Option α) : eraseAll find [] = find := rfl

theorem eraseAll_append (find : κ → Option α) (keys keys' : List κ) :
    eraseAll find (keys ++ keys') = eraseAll (eraseAll find keys) keys' :=
  List.foldl_append

theorem eraseAll_apply (find : κ → Option α) (keys : List κ) (k : κ) :
    eraseAll find keys k = if k ∈ keys then none else find k := by
  induction keys generalizing find with
  | nil => simp
  | cons k' keys ih =>
    have hcons : eraseAll find (k' :: keys) = eraseAll (update find k' none) keys := rfl
    rw [hcons, ih]
    by_cases hk : k = k'
    · simp [hk]
    · simp [hk]

theorem eraseAll_comm (find : κ → Option α) (keys keys' : List κ) :
    eraseAll (eraseAll find keys) keys' = eraseAll (eraseAll find keys') keys := by
  funext k
  simp only [eraseAll_apply]
  split <;> split <;> rfl

/-- A map and the keys that were inserted, in their order. -/
structure Journaled (κ : Type u) (α : Type v) where
  find : κ → Option α
  journal : List κ

namespace Journaled

variable {a b c : Journaled κ α} {k : κ} {x : α}

def insertNew (m : Journaled κ α) (k : κ) (x : α) : Journaled κ α :=
  ⟨update m.find k (some x), m.journal ++ [k]⟩

/-- `b` arose from `a` by insertions of new keys. -/
def Grows (a b : Journaled κ α) : Prop :=
  ∃ rest, b.journal = a.journal ++ rest ∧ eraseAll b.find rest = a.find

theorem Grows.journal_isPrefix (h : Grows a b) : a.journal <+: b.journal := by
  obtain ⟨rest, hjournal, -⟩ := h
  exact ⟨rest, hjournal.symm⟩

theorem Grows.refl (a : Journaled κ α) : Grows a a := ⟨[], (List.append_nil _).symm, rfl⟩

theorem Grows.trans (hab : Grows a b) (hbc : Grows b c) : Grows a c := by
  obtain ⟨rest, hjournal, hfind⟩ := hab
  obtain ⟨rest', hjournal', hfind'⟩ := hbc
  refine ⟨rest ++ rest', ?_, ?_⟩
  · rw [hjournal', hjournal, List.append_assoc]
  · rw [eraseAll_append, eraseAll_comm, hfind', hfind]

theorem Grows.insertNew (h : a.find k = none) (x : α) : Grows a (a.insertNew k x) := by
  refine ⟨[k], rfl, ?_⟩
  funext k'
  rw [eraseAll_apply]
  by_cases hk : k' = k
  · rw [if_pos (List.mem_singleton.mpr hk), hk, h]
  · rw [if_neg (mt List.mem_singleton.mp hk)]
    exact update_of_ne hk _ _

/-- **Undoing.**  What the journal lists behind the earlier journal is erased. -/
theorem Grows.undo (h : Grows a b) : eraseAll b.find (b.journal.drop a.journal.length) = a.find := by
  obtain ⟨rest, hjournal, hfind⟩ := h
  rw [hjournal, List.drop_left, hfind]

end Journaled

end Protoc.Lib
