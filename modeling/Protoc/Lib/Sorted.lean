import Mathlib.Data.List.Perm.Basic
import Mathlib.Data.List.Lex
import Mathlib.Order.Lattice

/-!
# Lists in increasing order of a key

An ordered container is the list of its entries, an iterator a position in it, and the
end of the container its length.
-/

namespace Protoc.Lib.Sorted

open List

universe u v
variable {ε : Type u} {κ : Type v} [LinearOrder κ]

def Increasing (key : ε → κ) (l : List ε) : Prop := l.Pairwise fun a b => key a < key b

/-- The first entry whose key is at least `k`. -/
def lowerBound (key : ε → κ) (l : List ε) (k : κ) : ℕ := l.findIdx fun e => decide (k ≤ key e)

/-- The first entry whose key is above `k`. -/
def upperBound (key : ε → κ) (l : List ε) (k : κ) : ℕ := l.findIdx fun e => decide (k < key e)

/-- The entry with the key `k`. -/
def find (key : ε → κ) (l : List ε) (k : κ) : Option ε :=
  l[lowerBound key l k]?.filter fun e => decide (key e = k)

def insertAt (i : ℕ) (x : ε) (l : List ε) : List ε := l.take i ++ x :: l.drop i

/-- Insertion where no entry has the key yet, and whether it took place. -/
def insertIfNotPresent (key : ε → κ) (x : ε) (l : List ε) : Bool × List ε :=
  if (find key l (key x)).isSome then (false, l)
  else (true, insertAt (lowerBound key l (key x)) x l)

variable {key : ε → κ} {l : List ε} {k : κ}

theorem increasing_nil : Increasing key [] := List.Pairwise.nil

/-! ## Bounds -/

theorem lowerBound_le_length : lowerBound key l k ≤ l.length := findIdx_le_length

theorem upperBound_le_length (key : ε → κ) (l : List ε) (k : κ) : upperBound key l k ≤ l.length :=
  findIdx_le_length

variable {e : ε}

theorem take_findIdx {p : ε → Bool} (h : e ∈ l.take (l.findIdx p)) : p e = false := by
  obtain ⟨i, hi, rfl⟩ := mem_iff_getElem.mp h
  rw [length_take] at hi
  rw [getElem_take]
  exact not_of_lt_findIdx (by omega)

theorem lt_of_mem_take_lowerBound : ∀ e ∈ l.take (lowerBound key l k), key e < k := by
  intro e hmem
  have hfalse := take_findIdx (p := fun e => decide (k ≤ key e)) hmem
  exact not_le.mp (of_decide_eq_false hfalse)

theorem le_of_mem_take_upperBound (h : e ∈ l.take (upperBound key l k)) : key e ≤ k := by
  have hfalse := take_findIdx (p := fun e => decide (k < key e)) h
  exact not_lt.mp (of_decide_eq_false hfalse)

theorem drop_findIdx {p : κ → Bool} (hp : ∀ a b, a < b → p a → p b) (hl : Increasing key l) :
    ∀ e ∈ l.drop (l.findIdx fun e => p (key e)), p (key e) := by
  induction l with
  | nil => simp
  | cons head l ih =>
    obtain ⟨hhead, hrest⟩ := pairwise_cons.mp hl
    intro e hmem
    by_cases h : p (key head)
    · rw [findIdx_cons, h] at hmem
      rcases mem_cons.mp hmem with rfl | hmem
      · exact h
      · exact hp _ _ (hhead e hmem) h
    · rw [findIdx_cons, Bool.eq_false_iff.mpr h] at hmem
      exact ih hrest e hmem

theorem le_of_mem_drop_lowerBound (hl : Increasing key l) : ∀ e ∈ l.drop (lowerBound key l k), k ≤ key e := by
  intro e hmem
  have hmono : ∀ a b, a < b → decide (k ≤ a) = true → decide (k ≤ b) = true :=
    fun a b hlt hle => decide_eq_true ((of_decide_eq_true hle).trans hlt.le)
  exact of_decide_eq_true (drop_findIdx hmono hl e hmem)

theorem lt_of_mem_drop_upperBound (hl : Increasing key l) : ∀ e ∈ l.drop (upperBound key l k), k < key e := by
  intro e hmem
  have hmono : ∀ a b, a < b → decide (k < a) = true → decide (k < b) = true :=
    fun a b hlt hle => decide_eq_true ((of_decide_eq_true hle).trans hlt)
  exact of_decide_eq_true (drop_findIdx hmono hl e hmem)

theorem mem_take_or_drop (n : ℕ) (h : e ∈ l) : e ∈ l.take n ∨ e ∈ l.drop n := by
  rw [← mem_append, take_append_drop]
  exact h

section
variable (hl : Increasing key l)
include hl

theorem eq_of_key_eq {a b : ε} (ha : a ∈ l) (hb : b ∈ l) (h : key a = key b) : a = b := by
  by_contra hne
  rcases List.Pairwise.forall_of_forall_of_flip (R := fun a b => a = b ∨ key a < key b ∨ key b < key a)
      (fun a _ => Or.inl rfl) (hl.imp fun hlt => Or.inr (Or.inl hlt))
      (hl.imp fun hlt => Or.inr (Or.inr hlt)) ha hb with heq | hlt | hlt
  · exact hne heq
  · exact absurd h hlt.ne
  · exact absurd h hlt.ne'

theorem upperBound_pos (hmem : e ∈ l) (hle : key e ≤ k) : upperBound key l k ≠ 0 := by
  intro hzero
  have hall := lt_of_mem_drop_upperBound (k := k) hl
  rw [hzero] at hall
  exact absurd hle (not_le.mpr (hall e hmem))

theorem exists_last_le (hmem : e ∈ l) (hle : key e ≤ k) :
    ∃ n, ∃ hlt : n < l.length, upperBound key l k = n + 1 ∧ key e ≤ key l[n] ∧ key l[n] ≤ k := by
  obtain ⟨n, hn⟩ := Nat.exists_eq_succ_of_ne_zero (upperBound_pos hl hmem hle)
  have hlt : n < l.length := by
    have hbound := upperBound_le_length key l k
    omega
  have htake : l.take (upperBound key l k) = l.take n ++ [l[n]] := by
    rw [hn, take_succ_eq_append_getElem hlt]
  have hlast : key l[n] ≤ k := by
    refine le_of_mem_take_upperBound (l := l) ?_
    rw [htake]
    exact mem_append_right _ (mem_singleton_self _)
  refine ⟨n, hlt, hn, ?_, hlast⟩
  rcases mem_take_or_drop (upperBound key l k) hmem with hbefore | hafter
  · rw [htake] at hbefore
    rcases mem_append.mp hbefore with hearlier | heq
    · have hsorted : Increasing key (l.take (upperBound key l k)) := hl.take
      rw [htake] at hsorted
      exact ((pairwise_append.mp hsorted).2.2 e hearlier _ (mem_singleton_self _)).le
    · rw [mem_singleton.mp heq]
  · exact absurd hle (not_le.mpr (lt_of_mem_drop_upperBound hl e hafter))

theorem exists_first_gt (hmem : e ∈ l) (hlt : k < key e) :
    ∃ h : upperBound key l k < l.length, k < key l[upperBound key l k] ∧ key l[upperBound key l k] ≤ key e := by
  have hafter : e ∈ l.drop (upperBound key l k) := by
    rcases mem_take_or_drop (upperBound key l k) hmem with hbefore | hafter
    · exact absurd (le_of_mem_take_upperBound hbefore) (not_le.mpr hlt)
    · exact hafter
  have hbound : upperBound key l k < l.length := by
    by_contra hge
    rw [drop_eq_nil_of_le (not_lt.mp hge)] at hafter
    exact absurd hafter not_mem_nil
  have hcons := drop_eq_getElem_cons hbound
  refine ⟨hbound, lt_of_mem_drop_upperBound hl _ (by rw [hcons]; exact mem_cons_self), ?_⟩
  have hsorted : Increasing key (l.drop (upperBound key l k)) := hl.drop
  rw [hcons] at hafter hsorted
  rcases mem_cons.mp hafter with heq | hlater
  · rw [← heq]
  · exact ((pairwise_cons.mp hsorted).1 e hlater).le

/-! ## The entry with a key -/

theorem find_eq_some_iff : find key l k = some e ↔ e ∈ l ∧ key e = k := by
  unfold find
  constructor
  · intro h
    obtain ⟨hget, hkey⟩ := Option.filter_eq_some_iff.mp h
    exact ⟨mem_of_getElem? hget, of_decide_eq_true hkey⟩
  · rintro ⟨hmem, hkey⟩
    -- the entry stands at the bound: those before have smaller keys
    have hdrop : e ∈ l.drop (lowerBound key l k) := by
      rcases mem_take_or_drop (lowerBound key l k) hmem with htake | hdrop
      · exact absurd hkey (lt_of_mem_take_lowerBound e htake).ne
      · exact hdrop
    have hlt : lowerBound key l k < l.length := by
      by_contra hge
      rw [drop_eq_nil_of_le (not_lt.mp hge)] at hdrop
      exact absurd hdrop not_mem_nil
    have hcons := drop_eq_getElem_cons hlt
    have hhead : k ≤ key l[lowerBound key l k] :=
      le_of_mem_drop_lowerBound hl _ (by rw [hcons]; exact mem_cons_self)
    have hsame : e = l[lowerBound key l k] := by
      rw [hcons] at hdrop
      rcases mem_cons.mp hdrop with heq | hlater
      · exact heq
      · have hdropped : Increasing key (l.drop (lowerBound key l k)) := hl.drop
        rw [hcons] at hdropped
        have hlt := (pairwise_cons.mp hdropped).1 e hlater
        rw [hkey] at hlt
        exact absurd hlt hhead.not_gt
    rw [List.getElem?_eq_getElem hlt, Option.filter_eq_some_iff, ← hsame]
    exact ⟨rfl, decide_eq_true hkey⟩

theorem find_eq_none_iff : find key l k = none ↔ ∀ e ∈ l, key e ≠ k := by
  constructor
  · intro h e hmem hkey
    rw [(find_eq_some_iff hl).mpr ⟨hmem, hkey⟩] at h
    exact absurd h (by simp)
  · intro h
    rw [Option.eq_none_iff_forall_not_mem]
    intro e hfind
    obtain ⟨hmem, hkey⟩ := (find_eq_some_iff hl).mp hfind
    exact h e hmem hkey

end

/-! ## Insertion -/

omit [LinearOrder κ] in
theorem mem_insertAt {i : ℕ} {x e : ε} : e ∈ insertAt i x l ↔ e = x ∨ e ∈ l := by
  have hmem : e ∈ l ↔ e ∈ l.take i ∨ e ∈ l.drop i := by
    rw [← mem_append, take_append_drop]
  rw [insertAt, mem_append, mem_cons, hmem]
  tauto

omit [LinearOrder κ] in
theorem getElem?_insertAt {i : ℕ} (h : i ≤ l.length) (x : ε) : (insertAt i x l)[i]? = some x := by
  have hlength : (l.take i).length = i := length_take_of_le h
  rw [insertAt, List.getElem?_append_right hlength.le, hlength, Nat.sub_self, List.getElem?_cons_zero]

variable {x : ε}

theorem Increasing.insertAt {i : ℕ} (hl : Increasing key l)
    (hbefore : ∀ e ∈ l.take i, key e < key x) (hafter : ∀ e ∈ l.drop i, key x < key e) :
    Increasing key (insertAt i x l) := by
  refine pairwise_append.mpr ⟨hl.take, pairwise_cons.mpr ⟨hafter, hl.drop⟩, ?_⟩
  intro a ha b hb
  rcases mem_cons.mp hb with rfl | hb
  · exact hbefore a ha
  · exact (hbefore a ha).trans (hafter b hb)

theorem insertIfNotPresent_fst (hl : Increasing key l) :
    (insertIfNotPresent key x l).1 = true ↔ ∀ e ∈ l, key e ≠ key x := by
  rw [← find_eq_none_iff hl, insertIfNotPresent]
  cases find key l (key x) <;> simp

theorem mem_insertIfNotPresent (h : (insertIfNotPresent key x l).1 = true) (e : ε) :
    e ∈ (insertIfNotPresent key x l).2 ↔ e = x ∨ e ∈ l := by
  rw [insertIfNotPresent] at h ⊢
  split_ifs at h ⊢ with hfind
  exact mem_insertAt

theorem insertIfNotPresent_of_present (h : (insertIfNotPresent key x l).1 = false) :
    (insertIfNotPresent key x l).2 = l := by
  rw [insertIfNotPresent] at h ⊢
  split_ifs at h ⊢ with hfind
  rfl

theorem eq_or_mem_of_mem_insert {x e : ε} (h : e ∈ (insertIfNotPresent key x l).2) : e = x ∨ e ∈ l := by
  cases hnew : (insertIfNotPresent key x l).1 with
  | false =>
    rw [insertIfNotPresent_of_present hnew] at h
    exact Or.inr h
  | true => exact (mem_insertIfNotPresent hnew e).mp h

theorem Increasing.insertIfNotPresent (hl : Increasing key l) (x : ε) :
    Increasing key (insertIfNotPresent key x l).2 := by
  rw [Sorted.insertIfNotPresent]
  split_ifs with hfind
  · exact hl
  · have hnone : Sorted.find key l (key x) = none := by simpa using hfind
    have hne := (find_eq_none_iff hl).mp hnone
    refine hl.insertAt lt_of_mem_take_lowerBound ?_
    intro e hmem
    exact lt_of_le_of_ne (le_of_mem_drop_lowerBound hl e hmem) (hne e (mem_of_mem_drop hmem)).symm

/-! ## Extensionality -/

theorem eq_of_mem_iff {l₁ l₂ : List ε} (h₁ : Increasing key l₁) (h₂ : Increasing key l₂)
    (h : ∀ e, e ∈ l₁ ↔ e ∈ l₂) : l₁ = l₂ := by
  have hnodup : ∀ {l : List ε}, Increasing key l → l.Nodup :=
    fun hl => hl.imp fun hlt heq => absurd (congrArg key heq) hlt.ne
  have hperm : l₁.Perm l₂ := (perm_ext_iff_of_nodup (hnodup h₁) (hnodup h₂)).mpr h
  exact hperm.eq_of_pairwise (fun a b _ _ hab hba => absurd hab hba.not_gt) h₁ h₂

end Protoc.Lib.Sorted
