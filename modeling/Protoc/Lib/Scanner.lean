import Mathlib.Data.List.Induction

/-!
# Scanners

An automaton that comes back to its start exactly at the end of each character.  Where it gets
stuck or the input ends, the longest string of characters is what lies before the character it
is in.
-/

namespace Protoc.Lib.Scanner

open List

universe u v
variable {σ : Type u} {β : Type v}

/-- The automaton is at its start after the last of the symbols, and not before. -/
def Accepts (δ : σ → β → Option σ) (start : σ) : σ → List β → Prop
  | _, [] => False
  | s, b :: l => (δ s b = some start ∧ l = []) ∨ ∃ t, δ s b = some t ∧ t ≠ start ∧ Accepts δ start t l

/-- The symbols take one state to another, past states other than the start. -/
def Leads (δ : σ → β → Option σ) (start : σ) : σ → List β → σ → Prop
  | s, [], t => s = t
  | s, b :: l, t => ∃ u, δ s b = some u ∧ u ≠ start ∧ Leads δ start u l t

/-- The next symbol, if there is one, takes the state nowhere. -/
def Stuck (δ : σ → β → Option σ) (t : σ) (rest : List β) : Prop := ∀ b ∈ rest.head?, δ t b = none

variable {δ : σ → β → Option σ} {start s t u : σ} {l m part rest : List β} {b : β}

theorem accepts_append_singleton (h : Leads δ start s l t) (hb : δ t b = some start) :
    Accepts δ start s (l ++ [b]) := by
  induction l generalizing s with
  | nil =>
    obtain rfl : s = t := h
    exact Or.inl ⟨hb, rfl⟩
  | cons c l ih =>
    obtain ⟨u, hu, hne, hrest⟩ := h
    exact Or.inr ⟨u, hu, hne, ih hrest⟩

theorem leads_append_singleton (h : Leads δ start s l t) (hb : δ t b = some u) (hne : u ≠ start) :
    Leads δ start s (l ++ [b]) u := by
  induction l generalizing s with
  | nil =>
    obtain rfl : s = t := h
    exact ⟨u, hb, hne, rfl⟩
  | cons c l ih =>
    obtain ⟨v, hv, hnv, hrest⟩ := h
    exact ⟨v, hv, hnv, ih hrest⟩

theorem ne_start_of_leads (h : Leads δ start s l t) (hne : l ≠ []) : t ≠ start := by
  induction l generalizing s with
  | nil => exact absurd rfl hne
  | cons c l ih =>
    obtain ⟨u, -, hu, hrest⟩ := h
    rcases eq_or_ne l [] with rfl | hl
    · obtain rfl : u = t := hrest
      exact hu
    · exact ih hrest hl

theorem eq_nil_of_accepts (h : Accepts δ start s l) (h' : Accepts δ start s (l ++ m)) : m = [] := by
  induction l generalizing s with
  | nil => exact absurd h id
  | cons c l ih =>
    rcases h with ⟨hc, rfl⟩ | ⟨u, hu, hne, hrest⟩
    · rcases h' with ⟨-, hm⟩ | ⟨v, hv, hne', -⟩
      · simpa using hm
      · exact absurd (Option.some.inj (hv.symm.trans hc)) hne'
    · rcases h' with ⟨hc, -⟩ | ⟨v, hv, -, hrest'⟩
      · exact absurd (Option.some.inj (hu.symm.trans hc)) hne
      · obtain rfl : u = v := Option.some.inj (hu.symm.trans hv)
        exact ih hrest hrest'

theorem not_accepts_of_stuck (h : Leads δ start s part t) (hstuck : Stuck δ t rest)
    (hl : l <+: part ++ rest) : ¬ Accepts δ start s l := by
  induction part generalizing s l with
  | nil =>
    obtain rfl : s = t := h
    obtain _ | ⟨b, l⟩ := l
    · exact id
    · obtain ⟨tail, rfl⟩ := hl
      have hnone : δ s b = none := hstuck b rfl
      rintro (⟨hb, -⟩ | ⟨u, hu, -⟩)
      · simp [hnone] at hb
      · simp [hnone] at hu
  | cons c part ih =>
    obtain ⟨u, hu, hne, hrest⟩ := h
    obtain _ | ⟨b, l⟩ := l
    · exact id
    · obtain ⟨rfl, hl'⟩ := cons_prefix_cons.mp hl
      rintro (⟨hb, -⟩ | ⟨v, hv, -, hrest'⟩)
      · exact hne (Option.some.inj (hu.symm.trans hb))
      · obtain rfl : u = v := Option.some.inj (hu.symm.trans hv)
        exact ih hrest hl' hrest'

theorem exists_characters (h : l.foldlM δ start = some t) :
    ∃ (cs : List (List β)) (part : List β), l = cs.flatten ++ part ∧ (∀ c ∈ cs, Accepts δ start start c) ∧
      Leads δ start start part t := by
  induction l using reverseRecOn generalizing t with
  | nil =>
    obtain rfl : start = t := Option.some.inj h
    exact ⟨[], [], rfl, by simp, rfl⟩
  | append_singleton l b ih =>
    rw [foldlM_append] at h
    obtain ⟨s, hs, hb⟩ := Option.bind_eq_some_iff.mp h
    have hstep : δ s b = some t := by simpa using hb
    obtain ⟨cs, part, rfl, hcs, hpart⟩ := ih hs
    by_cases hstart : t = start
    · subst hstart
      refine ⟨cs ++ [part ++ [b]], [], by simp, fun c hc => ?_, rfl⟩
      rcases mem_append.mp hc with hc | hc
      · exact hcs c hc
      · rw [mem_singleton.mp hc]
        exact accepts_append_singleton hpart hstep
    · exact ⟨cs, part ++ [b], by simp, hcs, leads_append_singleton hpart hstep hstart⟩

/-- **The longest prefix.**  Characters that begin an input are no longer than those read before
the automaton got stuck. -/
theorem le_of_stuck {cs ds : List (List β)} (hcs : ∀ c ∈ cs, Accepts δ start start c)
    (hds : ∀ d ∈ ds, Accepts δ start start d) (hpart : Leads δ start start part t)
    (hstuck : Stuck δ t rest) (hpre : ds.flatten <+: cs.flatten ++ (part ++ rest)) :
    ds.flatten.length ≤ cs.flatten.length := by
  induction cs generalizing ds with
  | nil =>
    obtain _ | ⟨d, ds⟩ := ds
    · exact Nat.le_refl _
    · rw [flatten_nil, nil_append, flatten_cons] at hpre
      have hd : d <+: part ++ rest := (prefix_append d ds.flatten).trans hpre
      exact absurd (hds d mem_cons_self) (not_accepts_of_stuck hpart hstuck hd)
  | cons c cs ih =>
    obtain _ | ⟨d, ds⟩ := ds
    · exact Nat.zero_le _
    · obtain ⟨hc, hcs'⟩ := forall_mem_cons.mp hcs
      obtain ⟨hd, hds'⟩ := forall_mem_cons.mp hds
      rw [flatten_cons, flatten_cons, append_assoc] at hpre
      -- one of the first characters begins with the other
      obtain rfl : c = d := by
        rcases prefix_or_prefix_of_prefix (prefix_append c _)
          ((prefix_append d ds.flatten).trans hpre) with ⟨m, rfl⟩ | ⟨m, rfl⟩
        · rw [eq_nil_of_accepts hc hd, append_nil]
        · rw [eq_nil_of_accepts hd hc, append_nil]
      have hrest := ih hcs' hds' ((prefix_append_right_inj c).mp hpre)
      rw [flatten_cons, flatten_cons, length_append, length_append]
      omega

end Protoc.Lib.Scanner
