import Mathlib.Data.List.TakeWhile
import Mathlib.Data.List.Infix

/-!
# Splits and segments at a delimiter

`List.splitOn` gives the segments of a list between the occurrences of a delimiter, the
empty ones among them.  A list put together from non-empty parts, with or without a delimiter
at either end, is determined by its ends and its parts.
-/

namespace Protoc.Lib

/-! ## Splitting at a delimiter -/

variable {α : Type} [DecidableEq α] {c : α}

/-- The parts between the delimiters, the empty ones left out. -/
def split (c : α) : List α → List (List α)
  | [] => []
  | b :: rest =>
    if b = c then split c rest
    else (b :: rest.takeWhile (· ≠ c)) :: split c (rest.dropWhile (· ≠ c))
termination_by full => full.length
decreasing_by
  · simp
  · have hle := (List.dropWhile_sublist (l := rest) (· ≠ c)).length_le
    simp only [List.length_cons]
    omega

/-- A part that split leaves as it is: not empty, and without the delimiter. -/
def IsPart (c : α) (part : List α) : Prop := part ≠ [] ∧ c ∉ part

theorem split_nil (c : α) : split c [] = [] := by rw [split]

theorem split_delimiter (c : α) (rest : List α) : split c (c :: rest) = split c rest := by
  rw [split, if_pos rfl]

variable {part : List α}

theorem takeWhile_part (h : c ∉ part) (rest : List α) : (part ++ c :: rest).takeWhile (· ≠ c) = part ∧
      (part ++ c :: rest).dropWhile (· ≠ c) = c :: rest := by
  induction part with
  | nil => simp
  | cons b part ih =>
    have hb : b ≠ c := fun heq => h (by simp [heq])
    have hpart : c ∉ part := fun hmem => h (List.mem_cons_of_mem _ hmem)
    obtain ⟨htake, hdrop⟩ := ih hpart
    rw [List.cons_append, List.takeWhile_cons_of_pos (by simpa using hb),
      List.dropWhile_cons_of_pos (by simpa using hb), htake, hdrop]
    exact ⟨rfl, rfl⟩

theorem split_part_cons (h : IsPart c part) (rest : List α) :
    split c (part ++ c :: rest) = part :: split c rest := by
  cases part with
  | nil => exact absurd rfl h.1
  | cons b part =>
    have hb : b ≠ c := fun heq => h.2 (by simp [heq])
    have hpart : c ∉ part := fun hmem => h.2 (List.mem_cons_of_mem _ hmem)
    obtain ⟨htake, hdrop⟩ := takeWhile_part hpart rest
    rw [List.cons_append, split, if_neg hb, htake, hdrop, split_delimiter]

theorem split_part (h : IsPart c part) : split c part = [part] := by
  cases part with
  | nil => exact absurd rfl h.1
  | cons b part =>
    have hb : b ≠ c := fun heq => h.2 (by simp [heq])
    have hall : ∀ a ∈ part, a ≠ c := by
      rintro a hmem rfl
      exact h.2 (List.mem_cons_of_mem _ hmem)
    have htake : part.takeWhile (· ≠ c) = part :=
      List.takeWhile_eq_self_iff.mpr (by simpa using hall)
    have hdrop : part.dropWhile (· ≠ c) = [] := List.dropWhile_eq_nil_iff.mpr (by simpa using hall)
    rw [split, if_neg hb, htake, hdrop, split_nil]

/-- **Splitting undoes joining.** -/
theorem split_join {parts : List (List α)} (h : ∀ part ∈ parts, IsPart c part) :
    split c ([c].intercalate parts) = parts := by
  induction parts with
  | nil => exact split_nil c
  | cons part parts ih =>
    have hpart := h part List.mem_cons_self
    by_cases hempty : parts = []
    · rw [hempty, List.intercalate_singleton, split_part hpart]
    · rw [List.intercalate_cons_of_ne_nil hempty, List.append_assoc, List.singleton_append,
        split_part_cons hpart, ih fun p hmem => h p (List.mem_cons_of_mem _ hmem)]

omit [DecidableEq α] in
theorem intercalate_append {first rest : List (List α)} (hfirst : first ≠ []) (hrest : rest ≠ []) :
    [c].intercalate (first ++ rest) = [c].intercalate first ++ c :: [c].intercalate rest := by
  induction first with
  | nil => exact absurd rfl hfirst
  | cons part first ih =>
    by_cases hempty : first = []
    · rw [hempty, List.singleton_append, List.intercalate_cons_of_ne_nil hrest,
        List.intercalate_singleton, List.append_assoc, List.singleton_append]
    · rw [List.cons_append, List.intercalate_cons_of_ne_nil (by simp [hempty]), ih hempty,
        List.intercalate_cons_of_ne_nil hempty, List.append_assoc, List.append_assoc, List.append_assoc]

theorem notMem_of_mem_splitOn {full part : List α} (h : part ∈ full.splitOn c) : c ∉ part := by
  induction full generalizing part with
  | nil =>
    rw [List.splitOn_nil, List.mem_singleton] at h
    simp [h]
  | cons b rest ih =>
    rw [List.splitOn_cons_eq_if_modifyHead] at h
    by_cases hb : b = c
    · rw [if_pos (beq_iff_eq.mpr hb)] at h
      rcases List.mem_cons.mp h with rfl | hmem
      · simp
      · exact ih hmem
    · rw [if_neg (by simpa using hb)] at h
      obtain ⟨head, tail, heq⟩ := List.exists_cons_of_ne_nil (List.splitOn_ne_nil c rest)
      rw [heq, List.modifyHead_cons] at h
      rcases List.mem_cons.mp h with rfl | hmem
      · have hhead : c ∉ head := ih (by simp [heq])
        simp [hhead, Ne.symm hb]
      · exact ih (by simp [heq, hmem])

theorem isPart_of_mem_split {full part : List α} (h : part ∈ split c full) : IsPart c part := by
  induction full using split.induct (c := c) with
  | case1 => simp [split] at h
  | case2 rest ih =>
    rw [split_delimiter] at h
    exact ih h
  | case3 b rest hb ih =>
    rw [split, if_neg hb] at h
    rcases List.mem_cons.mp h with rfl | hmem
    · refine ⟨by simp, fun hc => ?_⟩
      rcases List.mem_cons.mp hc with heq | hc
      · exact hb heq.symm
      · have := List.mem_takeWhile_imp hc
        simp at this
    · exact ih hmem

theorem split_eq_splitOn {full : List α} (h : [] ∉ full.splitOn c) : split c full = full.splitOn c := by
  have hparts : ∀ part ∈ full.splitOn c, IsPart c part := by
    intro part hmem
    refine ⟨?_, notMem_of_mem_splitOn hmem⟩
    rintro rfl
    exact h hmem
  have hsplit := split_join hparts
  rwa [List.intercalate_splitOn] at hsplit

end Protoc.Lib

namespace Protoc.Lib

/-! ## Segments between delimiters -/

variable {α : Type} [DecidableEq α] {c : α}

def assemble (c : α) (lead : Bool) (parts : List (List α)) (trail : Bool) : List α :=
  (if lead then [c] else []) ++ [c].intercalate parts ++ (if trail then [c] else [])

theorem split_eq_nonempty {segments : List (List α)} (h : ∀ s ∈ segments, c ∉ s) :
    split c ([c].intercalate segments) = segments.filter (· ≠ []) := by
  induction segments with
  | nil => exact split_nil c
  | cons s segments ih =>
    have hs := h s List.mem_cons_self
    have hrest := ih fun t ht => h t (List.mem_cons_of_mem _ ht)
    by_cases hempty : segments = []
    · rw [hempty, List.intercalate_singleton]
      by_cases hnil : s = []
      · rw [hnil, split_nil]
        simp
      · rw [split_part ⟨hnil, hs⟩]
        simp [hnil]
    · rw [List.intercalate_cons_of_ne_nil hempty, List.append_assoc, List.singleton_append]
      by_cases hnil : s = []
      · rw [hnil, List.nil_append, split_delimiter, hrest]
        simp
      · rw [split_part_cons ⟨hnil, hs⟩, hrest]
        simp [hnil]

theorem split_eq_filter (full : List α) : split c full = (full.splitOn c).filter (· ≠ []) := by
  have h := split_eq_nonempty (c := c) fun s (hs : s ∈ full.splitOn c) => notMem_of_mem_splitOn hs
  rwa [List.intercalate_splitOn] at h

theorem split_append_delimiter (a b : List α) : split c (a ++ c :: b) = split c a ++ split c b := by
  rw [split_eq_filter, split_eq_filter, split_eq_filter, List.splitOn_append_cons_self, List.filter_append]

theorem mem_splitOn_iff {x full : List α} (hx : c ∉ x) :
    x ∈ full.splitOn c ↔ full = x ∨ x ++ [c] <+: full ∨ c :: x <:+ full ∨ c :: x ++ [c] <:+: full := by
  have hself : ∀ {y : List α}, c ∉ y → y.splitOn c = [y] := fun hy => List.splitOn_eq_singleton hy
  constructor
  · intro hmem
    obtain ⟨pre, post, heq⟩ := List.append_of_mem hmem
    have hfull : full = [c].intercalate (pre ++ x :: post) := by
      rw [← heq, List.intercalate_splitOn]
    by_cases hpre : pre = [] <;> by_cases hpost : post = []
    · left
      rw [hfull, hpre, hpost, List.nil_append, List.intercalate_singleton]
    · right; left
      rw [hfull, hpre, List.nil_append, List.intercalate_cons_of_ne_nil hpost]
      exact List.prefix_append _ _
    · right; right; left
      rw [hfull, hpost, intercalate_append hpre (by simp), List.intercalate_singleton]
      exact List.suffix_append _ _
    · right; right; right
      rw [hfull, intercalate_append hpre (by simp), List.intercalate_cons_of_ne_nil hpost]
      exact ⟨[c].intercalate pre, [c].intercalate post, by simp⟩
  · rintro (rfl | ⟨b, rfl⟩ | ⟨a, rfl⟩ | ⟨a, b, rfl⟩)
    · rw [hself hx]
      exact List.mem_singleton_self _
    · rw [List.append_assoc, List.singleton_append, List.splitOn_append_cons_self, hself hx]
      simp
    · rw [List.splitOn_append_cons_self, hself hx]
      simp
    · rw [List.append_assoc, List.append_assoc, List.cons_append, List.splitOn_append_cons_self,
        List.singleton_append, List.splitOn_append_cons_self, hself hx]
      simp

/-! ## Parts with delimiters at the ends -/

variable {parts : List (List α)} {lead trail : Bool}

omit [DecidableEq α] in
/-- Joined parts neither start nor end with the delimiter. -/
theorem intercalate_ends (h : ∀ p ∈ parts, IsPart c p) (hne : parts ≠ []) :
    [c].intercalate parts ≠ [] ∧ ([c].intercalate parts).head? ≠ some c ∧
      ([c].intercalate parts).getLast? ≠ some c := by
  induction parts with
  | nil => exact absurd rfl hne
  | cons p parts ih =>
    obtain ⟨hp, hc⟩ := h p List.mem_cons_self
    have hhead : p.head? ≠ some c := fun heq => hc (List.mem_of_head? heq)
    have hlast : p.getLast? ≠ some c := fun heq => hc (List.mem_of_getLast? heq)
    by_cases hempty : parts = []
    · rw [hempty, List.intercalate_singleton]
      exact ⟨hp, hhead, hlast⟩
    · obtain ⟨hnil, -, hrest⟩ := ih (fun q hq => h q (List.mem_cons_of_mem _ hq)) hempty
      rw [List.intercalate_cons_of_ne_nil hempty]
      refine ⟨by simp, ?_, ?_⟩
      · rw [List.append_assoc, List.head?_append_of_ne_nil _ hp]
        exact hhead
      · rw [List.getLast?_append_of_ne_nil _ hnil]
        exact hrest

omit [DecidableEq α] in
/-- The ends of an assembled list. -/
theorem ends_assemble (lead trail : Bool) (h : ∀ p ∈ parts, IsPart c p) (hne : parts ≠ []) :
    ((assemble c lead parts trail).head? = some c ↔ lead = true) ∧
      ((assemble c lead parts trail).getLast? = some c ↔ trail = true) := by
  obtain ⟨hnil, hhead, hlast⟩ := intercalate_ends h hne
  unfold assemble
  constructor
  · cases lead with
    | true => simp
    | false => simp [List.head?_append_of_ne_nil _ hnil, hhead]
  · cases trail with
    | true => simp
    | false =>
      have hend : ∀ first : List α, (first ++ [c].intercalate parts).getLast? ≠ some c := by
        intro first
        rw [List.getLast?_append_of_ne_nil _ hnil]
        exact hlast
      simpa using hend (if lead then [c] else [])

theorem split_assemble (h : ∀ p ∈ parts, IsPart c p) : split c (assemble c lead parts trail) = parts := by
  have hjoin := split_join h
  have htrail : split c ([c].intercalate parts ++ if trail then [c] else []) = parts := by
    cases trail with
    | false => simpa using hjoin
    | true => simp [split_append_delimiter, split_nil, hjoin]
  unfold assemble
  rw [List.append_assoc]
  cases lead with
  | false => simpa using htrail
  | true => simpa [split_delimiter] using htrail

theorem splitOn_assemble (lead trail : Bool) (h : ∀ p ∈ parts, c ∉ p) (hne : parts ≠ []) :
    (assemble c lead parts trail).splitOn c =
      (if lead then [[]] else []) ++ parts ++ (if trail then [[]] else []) := by
  have hjoin : ([c].intercalate parts).splitOn c = parts := List.splitOn_intercalate c h hne
  have htrail : ([c].intercalate parts ++ if trail then [c] else []).splitOn c =
      parts ++ if trail then [[]] else [] := by
    cases trail with
    | false => simpa using hjoin
    | true => simp [List.splitOn_append_cons_self, hjoin]
  unfold assemble
  rw [List.append_assoc]
  cases lead with
  | false => simpa using htrail
  | true =>
    have hcons := List.splitOn_append_cons_self (a := c) []
      ([c].intercalate parts ++ if trail then [c] else [])
    simpa [htrail] using hcons

end Protoc.Lib
