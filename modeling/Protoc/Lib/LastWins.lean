import Mathlib.Data.List.AList
import Mathlib.Data.List.Induction

/-!
# Entries of which the last one wins

A list of entries is a map: a key has the value of its last entry.
-/

namespace Protoc.Lib

open List

universe u v
variable {α : Type u} {β : Type v} [DecidableEq α]

def lastWins (l : List (Σ _ : α, β)) (k : α) : Option β := l.reverse.dlookup k

def insertAll (m : AList fun _ : α => β) (l : List (Σ _ : α, β)) : AList fun _ : α => β :=
  l.foldl (fun m e => m.insert e.1 e.2) m

variable {m : AList fun _ : α => β} {l : List (Σ _ : α, β)} {k : α}

theorem lastWins_concat (l : List (Σ _ : α, β)) (e : Σ _ : α, β) :
    lastWins (l ++ [e]) k = if e.1 = k then some e.2 else lastWins l k := by
  rw [lastWins, reverse_append, reverse_singleton, singleton_append]
  by_cases h : e.1 = k
  · subst h
    rw [if_pos rfl]
    exact @List.dlookup_cons_eq _ (fun _ => β) _ _ e.1 e.2
  · rw [if_neg h, dlookup_cons_ne _ _ (Ne.symm h)]
    rfl

/-- **Into a map.** -/
theorem lookup_insertAll (m : AList fun _ : α => β) (l : List (Σ _ : α, β)) (k : α) :
    (insertAll m l).lookup k = (lastWins l k).or (m.lookup k) := by
  induction l using List.reverseRecOn with
  | nil => rfl
  | append_singleton l e ih =>
    rw [insertAll, foldl_append, lastWins_concat]
    change ((insertAll m l).insert e.1 e.2).lookup k = _
    by_cases h : e.1 = k
    · subst h
      rw [if_pos rfl, AList.lookup_insert]
      rfl
    · rw [if_neg h, AList.lookup_insert_ne (Ne.symm h), ih]

theorem lookup_insertAll_empty (l : List (Σ _ : α, β)) (k : α) : (insertAll ∅ l).lookup k = lastWins l k := by
  rw [lookup_insertAll, AList.lookup_empty, Option.or_none]

theorem foldl_update (m : α → Option β) (l : List (Σ _ : α, β)) (k : α) :
    l.foldl (fun (m : α → Option β) e => Function.update m e.1 (some e.2)) m k = (lastWins l k).or (m k) := by
  induction l using List.reverseRecOn with
  | nil => rfl
  | append_singleton l e ih =>
    rw [foldl_append, lastWins_concat, foldl_cons, foldl_nil]
    by_cases h : e.1 = k
    · rw [if_pos h, ← h, Function.update_self]
      rfl
    · rw [if_neg h, Function.update_of_ne (Ne.symm h), ih]

/-- **Out of a map**, in any order. -/
theorem lastWins_of_perm (h : l.Perm m.entries) : lastWins l k = m.lookup k := by
  have hreverse : l.reverse.Perm m.entries := (reverse_perm l).trans h
  exact perm_dlookup k ((perm_nodupKeys hreverse).mpr m.nodupKeys) hreverse

theorem lastWins_isSome : (lastWins l k).isSome ↔ k ∈ l.keys := by
  rw [lastWins, dlookup_isSome, mem_keys, mem_keys]
  simp only [mem_reverse]

end Protoc.Lib
