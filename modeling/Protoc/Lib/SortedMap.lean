import Protoc.Lib.Sorted

/-!
# Partial maps listed in increasing order

An ordered container of pairs and the partial map of which it is the list of entries.  Each
operation on the list, at a position, is an update of the map.
-/

namespace Protoc.Lib.Sorted

open Function (update update_self update_of_ne)
open List Prod

universe u v w
variable {κ : Type v} [LinearOrder κ] {β : Type u} {γ : Type w}

/-- The pairs of a partial map in increasing order of their keys. -/
structure Lists (l : List (κ × β)) (f : κ → Option β) : Prop where
  /-- The keys increase. -/
  increasing : Increasing fst l
  /-- The pairs are those of the map. -/
  mem_iff : ∀ k v, (k, v) ∈ l ↔ f k = some v

variable {l : List (κ × β)} {f : κ → Option β} {k : κ} {v w : β} {i : ℕ}

theorem lists_nil : Lists ([] : List (κ × β)) fun _ => none := ⟨increasing_nil, by simp⟩

namespace Lists

theorem find (h : Lists l f) (k : κ) : find fst l k = (f k).map (Prod.mk k) := by
  cases hk : f k with
  | none =>
    refine (find_eq_none_iff h.increasing).mpr ?_
    rintro ⟨k', v⟩ hmem rfl
    rw [(h.mem_iff _ _).mp hmem] at hk
    exact absurd hk (by simp)
  | some v => exact (find_eq_some_iff h.increasing).mpr ⟨(h.mem_iff k v).mpr hk, rfl⟩

theorem getElem?_lowerBound (h : Lists l f) (hk : f k = some v) : l[lowerBound fst l k]? = some (k, v) := by
  have hfind := h.find k
  rw [hk, Sorted.find, Option.map_some, Option.filter_eq_some_iff] at hfind
  exact hfind.1

theorem ext {l' : List (κ × β)} (h : Lists l f) (h' : Lists l' f) : l = l' :=
  eq_of_mem_iff h.increasing h'.increasing fun e =>
    (h.mem_iff e.1 e.2).trans (h'.mem_iff e.1 e.2).symm

/-! ## Operations -/

theorem insertAt (h : Lists l f) (hk : f k = none) (v : β) :
    Lists (insertAt (lowerBound fst l k) (k, v) l) (update f k (some v)) := by
  have hne : ∀ e ∈ l, e.1 ≠ k := by
    rintro ⟨k', v'⟩ hmem rfl
    rw [(h.mem_iff _ _).mp hmem] at hk
    exact absurd hk (by simp)
  constructor
  · refine h.increasing.insertAt (lt_of_mem_take_lowerBound (k := k)) ?_
    intro e hmem
    exact lt_of_le_of_ne (le_of_mem_drop_lowerBound h.increasing e hmem)
      (hne e (mem_of_mem_drop hmem)).symm
  · intro k' v'
    rw [mem_insertAt, Prod.mk.injEq, h.mem_iff]
    by_cases hkey : k' = k
    · subst hkey
      simp [hk, eq_comm]
    · rw [update_of_ne hkey]
      simp [hkey]

omit [LinearOrder κ] in
theorem exists_split {e : κ × β} (h : l[i]? = some e) :
    ∃ before after, l = before ++ e :: after ∧ before.length = i := by
  obtain ⟨hlt, rfl⟩ := List.getElem?_eq_some_iff.mp h
  refine ⟨l.take i, l.drop (i + 1), ?_, length_take_of_le hlt.le⟩
  rw [← drop_eq_getElem_cons hlt, take_append_drop]

theorem mem_others {before after : List (κ × β)} (h : Lists (before ++ (k, v) :: after) f) (k' : κ)
    (v' : β) : (k', v') ∈ before ++ after ↔ k' ≠ k ∧ f k' = some v' := by
  have hpairs := pairwise_append.mp h.increasing
  rw [← h.mem_iff]
  constructor
  · intro hmem
    refine ⟨?_, by simp only [mem_append, mem_cons] at hmem ⊢; tauto⟩
    rintro rfl
    rcases mem_append.mp hmem with hbefore | hafter
    · exact (hpairs.2.2 _ hbefore _ mem_cons_self).ne rfl
    · exact ((pairwise_cons.mp hpairs.2.1).1 _ hafter).ne rfl
  · rintro ⟨hne, hmem⟩
    simp only [mem_append, mem_cons, Prod.mk.injEq] at hmem ⊢
    tauto

theorem set (h : Lists l f) (hi : l[i]? = some (k, v)) (w : β) :
    Lists (l.set i (k, w)) (update f k (some w)) := by
  obtain ⟨before, after, rfl, rfl⟩ := exists_split hi
  have hothers := h.mem_others
  rw [set_append_right _ _ le_rfl, Nat.sub_self, set_cons_zero]
  constructor
  · obtain ⟨hbefore, hafter, hacross⟩ := pairwise_append.mp h.increasing
    obtain ⟨hhead, htail⟩ := pairwise_cons.mp hafter
    refine pairwise_append.mpr ⟨hbefore, pairwise_cons.mpr ⟨hhead, htail⟩, ?_⟩
    intro a ha b hb
    rcases mem_cons.mp hb with rfl | hb
    · exact hacross a ha (k, v) mem_cons_self
    · exact hacross a ha b (mem_cons_of_mem _ hb)
  · intro k' v'
    have hmem : (k', v') ∈ before ++ (k, w) :: after ↔
        (k' = k ∧ v' = w) ∨ (k', v') ∈ before ++ after := by
      simp only [mem_append, mem_cons, Prod.mk.injEq]
      tauto
    rw [hmem, hothers]
    by_cases hkey : k' = k
    · subst hkey
      simp [eq_comm]
    · rw [update_of_ne hkey]
      simp [hkey]

theorem eraseIdx (h : Lists l f) (hi : l[i]? = some (k, v)) : Lists (l.eraseIdx i) (update f k none) := by
  obtain ⟨before, after, rfl, rfl⟩ := exists_split hi
  have hothers := h.mem_others
  have herase : (before ++ (k, v) :: after).eraseIdx before.length = before ++ after := by
    rw [eraseIdx_append_of_length_le le_rfl, Nat.sub_self, eraseIdx_cons_zero]
  rw [herase]
  constructor
  · exact h.increasing.sublist (List.Sublist.append_left (sublist_cons_self _ _) _)
  · intro k' v'
    rw [hothers]
    by_cases hkey : k' = k
    · subst hkey
      simp
    · rw [update_of_ne hkey]
      simp [hkey]

theorem map (h : Lists l f) (g : β → γ) : Lists (l.map fun e => (e.1, g e.2)) fun k => (f k).map g := by
  constructor
  · exact pairwise_map.mpr h.increasing
  · intro k v
    simp only [mem_map, Prod.exists, Prod.mk.injEq, Option.map_eq_some_iff]
    constructor
    · rintro ⟨k', w, hmem, rfl, rfl⟩
      exact ⟨w, (h.mem_iff _ _).mp hmem, rfl⟩
    · rintro ⟨w, hk, rfl⟩
      exact ⟨k, w, (h.mem_iff _ _).mpr hk, rfl, rfl⟩

/-! ## Runs over the entries -/

theorem foldl (h : Lists l f) (change : Option γ → β → Option γ) (g : κ → Option γ) :
    l.foldl (fun g e => update g e.1 (change (g e.1) e.2)) g =
      fun k => ((f k).map (change (g k))).getD (g k) := by
  induction l generalizing f g with
  | nil =>
    funext k
    have hnone : f k = none := by
      refine Option.eq_none_iff_forall_not_mem.mpr fun v hv => ?_
      exact absurd ((h.mem_iff k v).mpr hv) not_mem_nil
    simp [hnone]
  | cons e l ih =>
    obtain ⟨k₀, v₀⟩ := e
    have hk₀ : f k₀ = some v₀ := (h.mem_iff k₀ v₀).mp mem_cons_self
    have hrest : Lists l (update f k₀ none) := by
      have herase := h.eraseIdx (i := 0) (v := v₀) (k := k₀) rfl
      exact herase
    rw [foldl_cons, ih hrest]
    funext k
    by_cases hkey : k = k₀
    · subst hkey
      simp [hk₀]
    · rw [update_of_ne hkey, update_of_ne hkey]

end Lists

theorem lowerBound_of_all_lt (h : ∀ e ∈ l, e.1 < k) : lowerBound fst l k = l.length := by
  refine findIdx_eq_length.mpr fun e hmem => ?_
  simpa using h e hmem

theorem foldl_insert (h : Increasing fst l) : l.foldl (fun m e => (insertIfNotPresent fst e m).2) [] = l := by
  have hall : ∀ m : List (κ × β), Increasing fst (m ++ l) →
      l.foldl (fun m e => (insertIfNotPresent fst e m).2) m = m ++ l := by
    clear h
    induction l with
    | nil => simp
    | cons e l ih =>
      intro m hm
      have hlt : ∀ a ∈ m, a.1 < e.1 := fun a ha =>
        (pairwise_append.mp hm).2.2 a ha e mem_cons_self
      have hnone : find fst m e.1 = none :=
        (find_eq_none_iff (pairwise_append.mp hm).1).mpr fun a ha => (hlt a ha).ne
      have hinsert : (insertIfNotPresent fst e m).2 = m ++ [e] := by
        rw [insertIfNotPresent, if_neg (by simp [hnone])]
        simp [insertAt, lowerBound_of_all_lt hlt]
      have hm' : Increasing fst ((m ++ [e]) ++ l) := by simpa using hm
      rw [foldl_cons, hinsert, ih _ hm']
      simp
  simpa using hall [] h

end Protoc.Lib.Sorted
