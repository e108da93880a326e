import Protoc.Lib.Matching

/-!
# The maximum matcher

`MaximumMatcher` matches the nodes on the left one by one: with a node on the right that is free, or
with one whose partner can be matched again.
-/

namespace Protoc.Util

open Function (update)
open List Option
open Protoc.Lib.Matching (IsMatching Augments Blocked size)

variable {count₁ count₂ : ℕ}

/-! ## From the source -/

/-- `MaximumMatcher`, and the nodes that its search has visited. -/
structure MaximumMatcher (count₁ count₂ : ℕ) where
  cachedMatchResults : Fin count₁ × Fin count₂ → Option Bool
  matchList₂ : Fin count₂ → Option (Fin count₁)
  visited : Fin count₁ → Bool

/-- What `FindMaximumMatch` returns, and the two lists. -/
structure MaximumMatch (count₁ count₂ : ℕ) where
  result : ℕ
  matchList₁ : Fin count₁ → Option (Fin count₂)
  matchList₂ : Fin count₂ → Option (Fin count₁)

namespace MaximumMatcher

def start : MaximumMatcher count₁ count₂ := ⟨fun _ => none, fun _ => none, fun _ => false⟩

variable (matchCallback : Fin count₁ → Fin count₂ → Bool)

/-- `Match`: the callback is asked once for each pair. -/
def matchNodes (left : Fin count₁) (right : Fin count₂) (s : MaximumMatcher count₁ count₂) :
    Bool × MaximumMatcher count₁ count₂ :=
  match s.cachedMatchResults (left, right) with
  | some result => (result, s)
  | none =>
    let result := matchCallback left right
    (result, { s with cachedMatchResults := update s.cachedMatchResults (left, right) (some result) })

/-- `(*match_list2_)[i] = v` -/
def setPartner (i : Fin count₂) (v : Fin count₁) (s : MaximumMatcher count₁ count₂) :
    MaximumMatcher count₁ count₂ := { s with matchList₂ := update s.matchList₂ i (some v) }

/-- `(*visited)[v] = true` -/
def visit (v : Fin count₁) (s : MaximumMatcher count₁ count₂) : MaximumMatcher count₁ count₂ :=
  { s with visited := update s.visited v true }

/-- The first loop of `FindArgumentPathDFS`, over the nodes on the right that are free. -/
def matchFree (v : Fin count₁) : List (Fin count₂) → MaximumMatcher count₁ count₂ →
    Bool × MaximumMatcher count₁ count₂
  | [], s => (false, s)
  | i :: rest, s =>
    if s.matchList₂ i = none then
      let r := s.matchNodes matchCallback v i
      if r.1 then (true, r.2.setPartner i v) else matchFree v rest r.2
    else matchFree v rest s

/-- The second loop, over those that are matched: their partners may find another one. -/
def matchAgain (search : Fin count₁ → MaximumMatcher count₁ count₂ → Option (Bool × MaximumMatcher count₁ count₂))
    (v : Fin count₁) : List (Fin count₂) → MaximumMatcher count₁ count₂ →
    Option (Bool × MaximumMatcher count₁ count₂)
  | [], s => some (false, s)
  | i :: rest, s =>
    match s.matchList₂ i with
    | none => matchAgain search v rest s
    | some matched =>
      let r := s.matchNodes matchCallback v i
      if r.1 ∧ r.2.visited matched = false then
        (search matched r.2).bind fun found =>
          if found.1 then some (true, found.2.setPartner i v) else matchAgain search v rest found.2
      else matchAgain search v rest r.2

/-- `FindArgumentPathDFS`, to a depth. -/
def findArgumentPathDFS : ℕ → Fin count₁ → MaximumMatcher count₁ count₂ →
    Option (Bool × MaximumMatcher count₁ count₂)
  | 0, _, _ => none
  | depth + 1, v, s =>
    let s := s.visit v
    let r := matchFree matchCallback v (List.finRange count₂) s
    if r.1 then some r
    else matchAgain matchCallback (findArgumentPathDFS depth) v (List.finRange count₂) r.2

/-- The first loop of `FindMaximumMatch`: the number of nodes that are matched, unless it ends early. -/
def findPaths (depth : ℕ) (earlyReturn : Bool) : List (Fin count₁) → ℕ → MaximumMatcher count₁ count₂ →
    Option (Option ℕ × MaximumMatcher count₁ count₂)
  | [], result, s => some (some result, s)
  | i :: rest, result, s =>
    (findArgumentPathDFS matchCallback depth i { s with visited := fun _ => false }).bind fun r =>
      if r.1 then findPaths depth earlyReturn rest (result + 1) r.2
      else if earlyReturn then some (none, r.2)
      else findPaths depth earlyReturn rest result r.2

/-- `match_list1` is filled from `match_list2`. -/
def backfill (matchList₂ : Fin count₂ → Option (Fin count₁)) : Fin count₁ → Option (Fin count₂) :=
  (List.finRange count₂).foldl (fun matchList₁ i =>
    (matchList₂ i).elim matchList₁ fun left => update matchList₁ left (some i)) fun _ => none

/-- `FindMaximumMatch`, with searches to a depth. -/
def findMaximumMatch (depth : ℕ) (earlyReturn : Bool) : Option (MaximumMatch count₁ count₂) :=
  (findPaths matchCallback depth earlyReturn (List.finRange count₁) 0 start).map fun r =>
    match r.1 with
    | none => ⟨0, fun _ => none, r.2.matchList₂⟩
    | some result => ⟨result, backfill r.2.matchList₂, r.2.matchList₂⟩

/-! ## What a search does -/

/-- The nodes on the left and on the right that the callback matches. -/
def Edge (left : Fin count₁) (right : Fin count₂) : Prop := matchCallback left right = true

def Coherent (s : MaximumMatcher count₁ count₂) : Prop :=
  ∀ left right result, s.cachedMatchResults (left, right) = some result → result = matchCallback left right

def unvisited (s : MaximumMatcher count₁ count₂) : ℕ := (Finset.univ.filter fun u => s.visited u = false).card

/-- **Nodes have been visited in vain**: the partners are as before, and all the neighbours of a node that has
been visited are matched with nodes that have been visited. -/
structure Grown (s s' : MaximumMatcher count₁ count₂) : Prop where
  coherent : s'.Coherent matchCallback
  partners : s'.matchList₂ = s.matchList₂
  visited : ∀ u, s.visited u = true → s'.visited u = true
  closed : ∀ u, s'.visited u = true → s.visited u = true ∨
    ∀ j, Edge matchCallback u j → ∃ w, s.matchList₂ j = some w ∧ s'.visited w = true

/-- **A path has been found**, and the partners of the nodes that had been visited are as before. -/
structure Found (s : MaximumMatcher count₁ count₂) (v : Fin count₁) (s' : MaximumMatcher count₁ count₂) : Prop where
  coherent : s'.Coherent matchCallback
  augments : Augments (Edge matchCallback) s.matchList₂ v s'.matchList₂
  kept : ∀ j u, s.matchList₂ j = some u → s.visited u = true ∨ u = v → s'.matchList₂ j = some u

def Searched (s : MaximumMatcher count₁ count₂) (v : Fin count₁) (r : Bool × MaximumMatcher count₁ count₂) : Prop :=
  (r.1 = true → Found matchCallback s v r.2) ∧
    (r.1 = false → Grown matchCallback s r.2 ∧ r.2.visited v = true)

variable {matchCallback} {s s' s'' : MaximumMatcher count₁ count₂} {v : Fin count₁} {i : Fin count₂}
  {rest : List (Fin count₂)} {depth : ℕ}

theorem Grown.refl (hs : s.Coherent matchCallback) : Grown matchCallback s s :=
  ⟨hs, rfl, fun _ hu => hu, fun _ hu => .inl hu⟩

theorem Grown.trans (h : Grown matchCallback s s') (h' : Grown matchCallback s' s'') : Grown matchCallback s s'' := by
  refine ⟨h'.coherent, h'.partners.trans h.partners, fun u hu => h'.visited u (h.visited u hu), fun u hu => ?_⟩
  rcases h'.closed u hu with hu' | hclosed
  · refine (h.closed u hu').imp_right fun hclosed j hedge => ?_
    obtain ⟨w, hw, hvisited⟩ := hclosed j hedge
    exact ⟨w, hw, h'.visited w hvisited⟩
  · rw [h.partners] at hclosed
    exact .inr hclosed

theorem Grown.unvisited_le (h : Grown matchCallback s s') : s'.unvisited ≤ s.unvisited := by
  refine Finset.card_le_card fun u hu => ?_
  rw [Finset.mem_filter] at hu ⊢
  refine ⟨hu.1, Bool.eq_false_iff.mpr fun hvisited => ?_⟩
  exact Bool.false_ne_true (hu.2.symm.trans (h.visited u hvisited))

theorem matchList₂_setPartner (s : MaximumMatcher count₁ count₂) :
    (s.setPartner i v).matchList₂ = update s.matchList₂ i (some v) := rfl

theorem matchNodes_spec (hs : s.Coherent matchCallback) (v : Fin count₁) (i : Fin count₂) :
    (s.matchNodes matchCallback v i).1 = matchCallback v i ∧
      (s.matchNodes matchCallback v i).2.visited = s.visited ∧
      Grown matchCallback s (s.matchNodes matchCallback v i).2 := by
  rw [matchNodes]
  split
  · next result hcached => exact ⟨hs v i result hcached, rfl, .refl hs⟩
  · refine ⟨rfl, rfl, ⟨?_, rfl, fun _ hu => hu, fun _ hu => .inl hu⟩⟩
    intro left right result hcached
    dsimp only at hcached
    rw [Function.update_apply] at hcached
    split at hcached
    · next heq =>
      cases heq
      exact (Option.some_inj.mp hcached).symm
    · exact hs left right result hcached

/-- **The first loop** takes a free node, where one is matched. -/
theorem matchFree_spec (hs : s.Coherent matchCallback) (v : Fin count₁) (is : List (Fin count₂)) :
    ((matchFree matchCallback v is s).1 = true → Found matchCallback s v (matchFree matchCallback v is s).2) ∧
      ((matchFree matchCallback v is s).1 = false → Grown matchCallback s (matchFree matchCallback v is s).2 ∧
        (matchFree matchCallback v is s).2.visited = s.visited ∧
        ∀ i ∈ is, Edge matchCallback v i → s.matchList₂ i ≠ none) := by
  induction is generalizing s with
  | nil => exact ⟨fun h => absurd h Bool.false_ne_true, fun _ => ⟨.refl hs, rfl, nofun⟩⟩
  | cons i rest ih =>
    rw [matchFree]
    split
    · next hfree =>
      obtain ⟨hresult, hvisited, hgrown⟩ := matchNodes_spec hs v i
      dsimp only
      split
      · next hedge =>
        refine ⟨fun _ => ?_, fun h => absurd h.symm Bool.false_ne_true⟩
        rw [hresult] at hedge
        have hset := matchList₂_setPartner (i := i) (v := v) (s.matchNodes matchCallback v i).2
        rw [hgrown.partners] at hset
        refine ⟨hgrown.coherent, ?_, fun j u hj _ => ?_⟩
        · rw [hset]
          exact .free hfree hedge
        · have hne : j ≠ i := by
            rintro rfl
            exact some_ne_none u (hj.symm.trans hfree)
          rw [hset, Function.update_of_ne hne, hj]
      · next hedge =>
        obtain ⟨hfound, hnone⟩ := ih hgrown.coherent
        refine ⟨fun h => ?_, fun h => ?_⟩
        · obtain ⟨hcoherent, haugments, hkept⟩ := hfound h
          rw [hgrown.partners] at haugments hkept
          rw [hvisited] at hkept
          exact ⟨hcoherent, haugments, hkept⟩
        · obtain ⟨hgrown', hvisited', hnone'⟩ := hnone h
          rw [hgrown.partners] at hnone'
          refine ⟨hgrown.trans hgrown', hvisited'.trans hvisited, ?_⟩
          rintro j hj hedge'
          rcases List.mem_cons.mp hj with rfl | hj
          · exact absurd (hresult.trans hedge') hedge
          · exact hnone' j hj hedge'
    · next htaken =>
      obtain ⟨hfound, hnone⟩ := ih hs
      refine ⟨hfound, fun h => ?_⟩
      obtain ⟨hgrown', hvisited', hnone'⟩ := hnone h
      refine ⟨hgrown', hvisited', ?_⟩
      rintro j hj hedge'
      rcases List.mem_cons.mp hj with rfl | hj
      · exact htaken
      · exact hnone' j hj hedge'

/-- A search to a depth, from the nodes that have not been visited. -/
def Searches (matchCallback : Fin count₁ → Fin count₂ → Bool) (depth : ℕ)
    (search : Fin count₁ → MaximumMatcher count₁ count₂ → Option (Bool × MaximumMatcher count₁ count₂)) : Prop :=
  ∀ v (s : MaximumMatcher count₁ count₂), s.Coherent matchCallback → s.visited v = false → s.unvisited ≤ depth →
    ∃ r, search v s = some r ∧ Searched matchCallback s v r

theorem Found.of_grown (h : Grown matchCallback s s') (hfound : Found matchCallback s' v s'') :
    Found matchCallback s v s'' := by
  obtain ⟨hcoherent, haugments, hkept⟩ := hfound
  rw [h.partners] at haugments hkept
  exact ⟨hcoherent, haugments, fun j u hj hu => hkept j u hj (hu.imp_left (h.visited u))⟩

/-- **The second loop** makes a path, or has visited the partners of all the neighbours. -/
theorem matchAgain_spec {search : Fin count₁ → MaximumMatcher count₁ count₂ →
      Option (Bool × MaximumMatcher count₁ count₂)} (hsearch : Searches matchCallback depth search)
    (hs : s.Coherent matchCallback) (hv : s.visited v = true) (hdepth : s.unvisited ≤ depth)
    (is : List (Fin count₂)) :
    ∃ r, matchAgain matchCallback search v is s = some r ∧ (r.1 = true → Found matchCallback s v r.2) ∧
      (r.1 = false → Grown matchCallback s r.2 ∧ ∀ i ∈ is, Edge matchCallback v i → ∀ w,
        s.matchList₂ i = some w → r.2.visited w = true) := by
  induction is generalizing s with
  | nil =>
    exact ⟨_, rfl, fun h => absurd h Bool.false_ne_true, fun _ => ⟨.refl hs, nofun⟩⟩
  | cons i rest ih =>
    -- what is left of the loop, from a state that has grown
    have hrest : ∀ s', Grown matchCallback s s' →
        (Edge matchCallback v i → ∀ w, s.matchList₂ i = some w → s'.visited w = true) →
        ∃ r, matchAgain matchCallback search v rest s' = some r ∧ (r.1 = true → Found matchCallback s v r.2) ∧
          (r.1 = false → Grown matchCallback s r.2 ∧ ∀ j ∈ i :: rest, Edge matchCallback v j → ∀ w,
            s.matchList₂ j = some w → r.2.visited w = true) := by
      intro s' hgrown hpassed
      obtain ⟨r, hr, hfound, hnone⟩ := ih hgrown.coherent (hgrown.visited v hv) (hgrown.unvisited_le.trans hdepth)
      refine ⟨r, hr, fun h => (hfound h).of_grown hgrown, fun h => ?_⟩
      obtain ⟨hgrown', hpassed'⟩ := hnone h
      refine ⟨hgrown.trans hgrown', fun j hj hedge w hw => ?_⟩
      rcases List.mem_cons.mp hj with rfl | hj
      · exact hgrown'.visited w (hpassed hedge w hw)
      · exact hpassed' j hj hedge w (hgrown.partners ▸ hw)
    rw [matchAgain]
    cases hpartner : s.matchList₂ i with
    | none =>
      refine hrest s (.refl hs) fun _ w hw => ?_
      exact absurd (hw.symm.trans hpartner) (some_ne_none w)
    | some matched =>
      obtain ⟨hresult, hvisited, hgrown⟩ := matchNodes_spec hs v i
      dsimp only
      rw [hresult, hvisited]
      split
      · next hedge =>
        obtain ⟨hedge, hfresh⟩ := hedge
        obtain ⟨r, hr, hfound, hnone⟩ := hsearch matched (s.matchNodes matchCallback v i).2 hgrown.coherent
          (hvisited ▸ hfresh) (hgrown.unvisited_le.trans hdepth)
        rw [hr, bind_some]
        split
        · next hpath =>
          refine ⟨_, rfl, fun _ => ?_, fun h => absurd h.symm Bool.false_ne_true⟩
          obtain ⟨hcoherent, haugments, hkept⟩ := (hfound hpath).of_grown hgrown
          refine ⟨hcoherent, ?_, fun j u hj hu => ?_⟩
          · exact .alternate hpartner hedge haugments (hkept i matched hpartner (.inr rfl))
          · have hvisited' : s.visited u = true := hu.elim id fun heq => heq ▸ hv
            have hne : j ≠ i := by
              rintro rfl
              obtain rfl := Option.some_inj.mp (hpartner.symm.trans hj)
              exact Bool.false_ne_true (hfresh.symm.trans hvisited')
            rw [matchList₂_setPartner, Function.update_of_ne hne]
            exact hkept j u hj (.inl hvisited')
        · next hpath =>
          obtain ⟨hgrown', hmatched⟩ := hnone (Bool.eq_false_iff.mpr hpath)
          refine hrest r.2 (hgrown.trans hgrown') fun _ w hw => ?_
          obtain rfl := Option.some_inj.mp (hpartner.symm.trans hw)
          exact hmatched
      · next hskip =>
        refine hrest _ hgrown fun hedge w hw => ?_
        obtain rfl := Option.some_inj.mp (hpartner.symm.trans hw)
        rw [hvisited]
        exact Bool.of_not_eq_false fun hfresh => hskip ⟨hedge, hfresh⟩

theorem visited_visit (u : Fin count₁) : (s.visit v).visited u = true ↔ s.visited u = true ∨ u = v := by
  have hvisited : (s.visit v).visited u = update s.visited v true u := rfl
  rw [hvisited, Function.update_apply]
  by_cases hu : u = v <;> simp [hu]

theorem unvisited_visit (hv : s.visited v = false) : (s.visit v).unvisited < s.unvisited := by
  refine Finset.card_lt_card ((Finset.ssubset_iff_of_subset fun u hu => ?_).mpr ⟨v, ?_, ?_⟩)
  · rw [Finset.mem_filter] at hu ⊢
    refine ⟨hu.1, Bool.eq_false_iff.mpr fun hvisited => ?_⟩
    exact Bool.false_ne_true (hu.2.symm.trans ((visited_visit u).mpr (.inl hvisited)))
  · exact Finset.mem_filter.mpr ⟨Finset.mem_univ v, hv⟩
  · intro hmem
    exact Bool.false_ne_true ((Finset.mem_filter.mp hmem).2.symm.trans ((visited_visit v).mpr (.inr rfl)))

/-- **A search** comes to an end, and makes a path or visits nodes in vain. -/
theorem findArgumentPathDFS_spec (depth : ℕ) :
    Searches matchCallback depth (findArgumentPathDFS matchCallback depth) := by
  induction depth with
  | zero =>
    intro v s hs hv hdepth
    exact absurd (unvisited_visit hv) (by omega)
  | succ depth ih =>
    intro v s hs hv hdepth
    have hlt := unvisited_visit hv
    rw [findArgumentPathDFS]
    have hpartners₁ : (s.visit v).matchList₂ = s.matchList₂ := rfl
    have hcoherent₁ : (s.visit v).Coherent matchCallback := hs
    have hvisited₁ := visited_visit (s := s) (v := v)
    obtain ⟨hfound, hnone⟩ := matchFree_spec hcoherent₁ v (List.finRange count₂)
    split
    · next hfree =>
      refine ⟨_, rfl, fun _ => ?_, fun h => absurd (hfree.symm.trans h).symm Bool.false_ne_true⟩
      obtain ⟨hcoherent, haugments, hkept⟩ := hfound hfree
      rw [hpartners₁] at haugments hkept
      exact ⟨hcoherent, haugments, fun j u hj hu => hkept j u hj (.inl ((hvisited₁ u).mpr hu))⟩
    · next hfree =>
      obtain ⟨hgrown, hvisited, htaken⟩ := hnone (Bool.eq_false_iff.mpr hfree)
      have hv₁ : (s.visit v).visited v = true := (hvisited₁ v).mpr (.inr rfl)
      obtain ⟨r, hr, hfound', hnone'⟩ := matchAgain_spec ih hgrown.coherent (hgrown.visited v hv₁)
        (hgrown.unvisited_le.trans (by omega)) (List.finRange count₂)
      refine ⟨r, hr, fun h => ?_, fun h => ?_⟩
      · obtain ⟨hcoherent, haugments, hkept⟩ := (hfound' h).of_grown hgrown
        rw [hpartners₁] at haugments hkept
        exact ⟨hcoherent, haugments, fun j u hj hu => hkept j u hj (.inl ((hvisited₁ u).mpr hu))⟩
      · obtain ⟨hgrown', hpassed⟩ := hnone' h
        have hall := hgrown.trans hgrown'
        refine ⟨⟨hall.coherent, hall.partners.trans hpartners₁, fun u hu => ?_, fun u hu => ?_⟩,
          hall.visited v hv₁⟩
        · exact hall.visited u ((hvisited₁ u).mpr (.inl hu))
        · rcases hall.closed u hu with hu₁ | hclosed
          · rcases (hvisited₁ u).mp hu₁ with hu | rfl
            · exact .inl hu
            · refine .inr fun j hedge => ?_
              obtain ⟨w, hw⟩ := Option.ne_none_iff_exists'.mp (htaken j (mem_finRange j) hedge)
              refine ⟨w, hpartners₁ ▸ hw, ?_⟩
              exact hpassed j (mem_finRange j) hedge w (hgrown.partners ▸ hw)
          · rw [hpartners₁] at hclosed
            exact .inr hclosed

/-! ## Searches do not depend on the depth -/

theorem matchAgain_mono {search search' : Fin count₁ → MaximumMatcher count₁ count₂ →
      Option (Bool × MaximumMatcher count₁ count₂)} {r : Bool × MaximumMatcher count₁ count₂}
    (hsearch : ∀ w s r, search w s = some r → search' w s = some r) {is : List (Fin count₂)}
    (h : matchAgain matchCallback search v is s = some r) : matchAgain matchCallback search' v is s = some r := by
  induction is generalizing s with
  | nil => exact h
  | cons i rest ih =>
    rw [matchAgain] at h ⊢
    cases hpartner : s.matchList₂ i with
    | none =>
      rw [hpartner] at h
      exact ih h
    | some matched =>
      rw [hpartner] at h
      dsimp only at h ⊢
      split at h
      · next hedge =>
        rw [if_pos hedge]
        obtain ⟨found, hfound, hrest⟩ := Option.bind_eq_some_iff.mp h
        rw [hsearch _ _ _ hfound, bind_some]
        split at hrest
        · next hpath => rwa [if_pos hpath]
        · next hpath =>
          rw [if_neg hpath]
          exact ih hrest
      · next hskip =>
        rw [if_neg hskip]
        exact ih h

theorem findArgumentPathDFS_succ {r : Bool × MaximumMatcher count₁ count₂}
    (h : findArgumentPathDFS matchCallback depth v s = some r) :
    findArgumentPathDFS matchCallback (depth + 1) v s = some r := by
  induction depth generalizing v s r with
  | zero => exact absurd h (some_ne_none r).symm
  | succ depth ih =>
    rw [findArgumentPathDFS] at h ⊢
    split at h
    · next hfree => rwa [if_pos hfree]
    · next hfree =>
      rw [if_neg hfree]
      exact matchAgain_mono (fun _ _ _ => ih) h

variable {earlyReturn : Bool}

theorem findPaths_succ {is : List (Fin count₁)} {result : ℕ} {r : Option ℕ × MaximumMatcher count₁ count₂}
    (h : findPaths matchCallback depth earlyReturn is result s = some r) :
    findPaths matchCallback (depth + 1) earlyReturn is result s = some r := by
  induction is generalizing result s with
  | nil => exact h
  | cons i rest ih =>
    rw [findPaths] at h ⊢
    obtain ⟨found, hfound, hrest⟩ := Option.bind_eq_some_iff.mp h
    rw [findArgumentPathDFS_succ hfound, bind_some]
    split at hrest
    · next hpath =>
      rw [if_pos hpath]
      exact ih hrest
    · next hpath =>
      rw [if_neg hpath]
      split at hrest
      · next hearly => rwa [if_pos hearly]
      · next hearly =>
        rw [if_neg hearly]
        exact ih hrest

/-- **A deeper search** finds the same. -/
theorem findMaximumMatch_add {r : MaximumMatch count₁ count₂}
    (h : findMaximumMatch matchCallback depth earlyReturn = some r) (more : ℕ) :
    findMaximumMatch matchCallback (depth + more) earlyReturn = some r := by
  induction more with
  | zero => exact h
  | succ more ih =>
    rw [findMaximumMatch] at ih ⊢
    obtain ⟨found, hfound, hr⟩ := Option.map_eq_some_iff.mp ih
    rw [← add_assoc, findPaths_succ hfound, map_some, hr]

/-! ## The matching -/

/-- The nodes in front are matched or, where that does not end the search, in a blocked set. -/
structure Progress (matchCallback : Fin count₁ → Fin count₂ → Bool) (earlyReturn : Bool) (is : List (Fin count₁))
    (result : ℕ) (s : MaximumMatcher count₁ count₂) : Prop where
  coherent : s.Coherent matchCallback
  matching : IsMatching (Edge matchCallback) s.matchList₂
  size : size s.matchList₂ = result
  pending : ∀ i ∈ is, ∀ j, s.matchList₂ j ≠ some i
  settled : ∀ u, u ∈ is ∨ (∃ j, s.matchList₂ j = some u) ∨
    earlyReturn = false ∧ ∃ S, Blocked (Edge matchCallback) s.matchList₂ S ∧ u ∈ S

theorem Grown.blocked (h : Grown matchCallback { s with visited := fun _ => false } s') :
    Blocked (Edge matchCallback) s'.matchList₂ {u | s'.visited u = true} := by
  intro u hu j hedge
  rcases h.closed u hu with hfalse | hclosed
  · exact absurd hfalse Bool.false_ne_true
  · obtain ⟨w, hw, hvisited⟩ := hclosed j hedge
    exact ⟨w, hvisited, h.partners ▸ hw⟩

/-- **The nodes one by one**: all are matched or blocked at the end, or there is one that is not matched
in a blocked set. -/
theorem findPaths_spec {is : List (Fin count₁)} {result : ℕ} (hnodup : is.Nodup)
    (h : Progress matchCallback earlyReturn is result s) (hdepth : count₁ ≤ depth) :
    ∃ r, findPaths matchCallback depth earlyReturn is result s = some r ∧
      (∀ k, r.1 = some k → Progress matchCallback earlyReturn [] k r.2) ∧
      (r.1 = none → earlyReturn = true ∧ IsMatching (Edge matchCallback) r.2.matchList₂ ∧
        ∃ S v, Blocked (Edge matchCallback) r.2.matchList₂ S ∧ v ∈ S ∧ ∀ j, r.2.matchList₂ j ≠ some v) := by
  induction is generalizing result s with
  | nil =>
    refine ⟨_, rfl, fun k hk => ?_, fun hnone => absurd hnone (some_ne_none _)⟩
    cases hk
    exact h
  | cons i rest ih =>
    obtain ⟨hi, hnodup⟩ := List.nodup_cons.mp hnodup
    obtain ⟨s₁, hs₁⟩ : ∃ s₁ : MaximumMatcher count₁ count₂, s₁ = { s with visited := fun _ => false } := ⟨_, rfl⟩
    have hcoherent : s₁.Coherent matchCallback := hs₁ ▸ h.coherent
    have hpartners : s₁.matchList₂ = s.matchList₂ := by rw [hs₁]
    have hunvisited : s₁.unvisited ≤ depth := by
      refine (Finset.card_filter_le _ _).trans ?_
      rwa [Finset.card_univ, Fintype.card_fin]
    obtain ⟨r, hr, hfound, hnone⟩ := findArgumentPathDFS_spec depth i s₁ hcoherent (by rw [hs₁]) hunvisited
    have hfree : ∀ j, s.matchList₂ j ≠ some i := h.pending i mem_cons_self
    rw [findPaths, ← hs₁, hr, bind_some]
    split
    · next hpath =>
      obtain ⟨hcoherent', haugments, -⟩ := hfound hpath
      rw [hpartners] at haugments
      obtain ⟨hmatching, hsize, hmatched⟩ := h.matching.augments hfree haugments
      refine ih hnodup ⟨hcoherent', hmatching, hsize.trans (congrArg (· + 1) h.size), fun k hk j hj => ?_,
        fun u => ?_⟩
      · rcases (hmatched k).mp ⟨j, hj⟩ with ⟨j', hj'⟩ | rfl
        · exact h.pending k (mem_cons_of_mem i hk) j' hj'
        · exact hi hk
      · rcases h.settled u with hu | hu | ⟨hearly, S, hS, hu⟩
        · rcases List.mem_cons.mp hu with rfl | hu
          · exact .inr (.inl ((hmatched u).mpr (.inr rfl)))
          · exact .inl hu
        · exact .inr (.inl ((hmatched u).mpr (.inl hu)))
        · exact .inr (.inr ⟨hearly, S, haugments.blocked hS, hu⟩)
    · next hpath =>
      obtain ⟨hgrown, hvisited⟩ := hnone (Bool.eq_false_iff.mpr hpath)
      rw [hs₁] at hgrown
      have hblocked := hgrown.blocked
      have hsame : r.2.matchList₂ = s.matchList₂ := hgrown.partners
      split
      · next hearly =>
        refine ⟨_, rfl, fun k hk => absurd hk.symm (some_ne_none k), fun _ => ⟨hearly, ?_, ?_⟩⟩
        · exact hsame ▸ h.matching
        · exact ⟨_, i, hblocked, hvisited, hsame ▸ hfree⟩
      · next hearly =>
        refine ih hnodup ⟨hgrown.coherent, hsame ▸ h.matching, hsame ▸ h.size, fun k hk => ?_, fun u => ?_⟩
        · exact hsame ▸ h.pending k (mem_cons_of_mem i hk)
        · rcases h.settled u with hu | hu | ⟨hearly', S, hS, hu⟩
          · rcases List.mem_cons.mp hu with rfl | hu
            · exact .inr (.inr ⟨Bool.eq_false_iff.mpr hearly, _, hblocked, hvisited⟩)
            · exact .inl hu
          · exact .inr (.inl (hsame ▸ hu))
          · exact .inr (.inr ⟨hearly', S, hsame ▸ hS, hu⟩)

theorem start_progress (matchCallback : Fin count₁ → Fin count₂ → Bool) (earlyReturn : Bool) :
    Progress matchCallback earlyReturn (List.finRange count₁) 0 start where
  coherent := fun _ _ result h => absurd h.symm (some_ne_none result)
  matching := ⟨fun h => absurd h.symm (some_ne_none _), fun h => absurd h.symm (some_ne_none _)⟩
  size := by rw [size, Finset.card_eq_zero, Finset.filter_eq_empty_iff]; exact fun _ _ => Bool.false_ne_true
  pending := fun _ _ _ h => some_ne_none _ h.symm
  settled := fun u => .inl (mem_finRange u)

/-! ## The two lists -/

/-- The pairs of the nodes on the right, seen from the left. -/
theorem foldl_backfill {m : Fin count₂ → Option (Fin count₁)}
    (hm : ∀ {j j' u}, m j = some u → m j' = some u → j = j') (is : List (Fin count₂)) (u : Fin count₁)
    (j : Fin count₂) :
    is.foldl (fun matchList₁ i => (m i).elim matchList₁ fun left => update matchList₁ left (some i))
        (fun _ => none) u = some j ↔ j ∈ is ∧ m j = some u := by
  induction is using List.reverseRecOn with
  | nil => simp
  | append_singleton is i ih =>
    rw [foldl_append, foldl_cons, foldl_nil, mem_append, mem_singleton]
    cases hi : m i with
    | none =>
      rw [elim_none, ih]
      refine and_congr_left fun hj => ⟨.inl, fun h => h.resolve_right ?_⟩
      rintro rfl
      exact some_ne_none u (hj.symm.trans hi)
    | some w =>
      rw [elim_some, Function.update_apply]
      split
      · next heq =>
        subst heq
        rw [some_inj]
        constructor
        · rintro rfl
          exact ⟨.inr rfl, hi⟩
        · rintro ⟨-, hj⟩
          exact hm hi hj
      · next hne =>
        rw [ih]
        refine and_congr_left fun hj => ⟨.inl, fun h => h.resolve_right ?_⟩
        rintro rfl
        exact hne (Option.some_inj.mp (hj.symm.trans hi))

/-- **The lists are a matching**: inverse to each other, with pairs that match, and as many as are returned. -/
structure Listed (matchCallback : Fin count₁ → Fin count₂ → Bool) (r : MaximumMatch count₁ count₂) : Prop where
  inverse : ∀ u j, r.matchList₁ u = some j ↔ r.matchList₂ j = some u
  agree : ∀ u j, r.matchList₂ j = some u → matchCallback u j = true
  size : (Finset.univ.filter fun j => (r.matchList₂ j).isSome).card = r.result

theorem Progress.listed {k : ℕ} (h : Progress matchCallback earlyReturn [] k s) :
    Listed matchCallback ⟨k, backfill s.matchList₂, s.matchList₂⟩ where
  inverse := fun u j => (foldl_backfill h.matching.injective _ u j).trans (and_iff_right (mem_finRange j))
  agree := fun _ _ hj => h.matching.edge hj
  size := h.size

def CanMatchAll (matchCallback : Fin count₁ → Fin count₂ → Bool) : Prop :=
  ∃ m, IsMatching (Edge matchCallback) m ∧ ∀ u, ∃ j, m j = some u

theorem size_eq_of_all {m : Fin count₂ → Option (Fin count₁)} (hm : IsMatching (Edge matchCallback) m)
    (hall : ∀ u, ∃ j, m j = some u) : Protoc.Lib.Matching.size m = count₁ := by
  choose partner hpartner using hall
  refine (Finset.card_bij (fun u _ => partner u) ?_ ?_ ?_).symm.trans (Finset.card_fin count₁)
  · intro u _
    exact Finset.mem_filter.mpr ⟨Finset.mem_univ _, by rw [hpartner u]; rfl⟩
  · intro u _ u' _ heq
    exact Option.some_inj.mp ((hpartner u).symm.trans (heq ▸ hpartner u'))
  · intro j hj
    obtain ⟨u, hu⟩ := Option.isSome_iff_exists.mp (Finset.mem_filter.mp hj).2
    exact ⟨u, Finset.mem_univ u, hm.injective (hpartner u) hu⟩

theorem findMaximumMatch_late (matchCallback : Fin count₁ → Fin count₂ → Bool) :
    ∃ r, findMaximumMatch matchCallback count₁ false = some r ∧ Listed matchCallback r ∧
      ∀ m, IsMatching (Edge matchCallback) m → Protoc.Lib.Matching.size m ≤ r.result := by
  obtain ⟨⟨found, s⟩, hr, hprogress, hnone⟩ := findPaths_spec (nodup_finRange count₁)
    (start_progress matchCallback false) (Nat.le_refl count₁)
  cases found with
  | none => exact absurd (hnone rfl).1 Bool.false_ne_true
  | some k =>
    have h := hprogress k rfl
    refine ⟨⟨k, backfill s.matchList₂, s.matchList₂⟩, ?_, h.listed, fun m hm => ?_⟩
    · rw [findMaximumMatch, hr, map_some]
    · rw [← h.size]
      refine hm.size_le fun u => ?_
      rcases h.settled u with hu | hu | ⟨-, hu⟩
      · exact absurd hu not_mem_nil
      · exact .inl hu
      · exact .inr hu

theorem findMaximumMatch_early (matchCallback : Fin count₁ → Fin count₂ → Bool) :
    ∃ r, findMaximumMatch matchCallback count₁ true = some r ∧
      (CanMatchAll matchCallback ∧ r.result = count₁ ∧ Listed matchCallback r ∨
        ¬ CanMatchAll matchCallback ∧ r.result = 0) := by
  obtain ⟨⟨found, s⟩, hr, hprogress, hnone⟩ := findPaths_spec (nodup_finRange count₁)
    (start_progress matchCallback true) (Nat.le_refl count₁)
  cases found with
  | none =>
    obtain ⟨-, hmatching, S, v, hS, hv, hfree⟩ := hnone rfl
    refine ⟨⟨0, fun _ => none, s.matchList₂⟩, ?_, .inr ⟨?_, rfl⟩⟩
    · rw [findMaximumMatch, hr, map_some]
    · rintro ⟨m, hm, hall⟩
      obtain ⟨u, -, hu⟩ := hmatching.exists_unmatched hS hv hfree hm
      obtain ⟨j, hj⟩ := hall u
      exact hu j hj
  | some k =>
    have h := hprogress k rfl
    have hall : ∀ u, ∃ j, s.matchList₂ j = some u := by
      intro u
      rcases h.settled u with hu | hu | ⟨hlate, -⟩
      · exact absurd hu not_mem_nil
      · exact hu
      · exact absurd hlate.symm Bool.false_ne_true
    refine ⟨⟨k, backfill s.matchList₂, s.matchList₂⟩, ?_, .inl ⟨⟨s.matchList₂, h.matching, hall⟩, ?_, h.listed⟩⟩
    · rw [findMaximumMatch, hr, map_some]
    · exact h.size.symm.trans (size_eq_of_all h.matching hall)

/-- **`FindMaximumMatch` finds a maximum matching**, with searches no deeper than there are nodes on the left;
and with an early return, one of all the nodes on the left, if there is one. -/
theorem findMaximumMatch_maximum (count₁ count₂ : ℕ) (matchCallback : Fin count₁ → Fin count₂ → Bool) :
    (∃ r, (∀ more, findMaximumMatch matchCallback (count₁ + more) false = some r) ∧ Listed matchCallback r ∧
      IsGreatest {k | ∃ m, IsMatching (Edge matchCallback) m ∧ size m = k} r.result) ∧
    ∃ r, (∀ more, findMaximumMatch matchCallback (count₁ + more) true = some r) ∧
      (CanMatchAll matchCallback ∧ r.result = count₁ ∧ Listed matchCallback r ∨
        ¬ CanMatchAll matchCallback ∧ r.result = 0) := by
  constructor
  · obtain ⟨r, hr, hlisted, hgreatest⟩ := findMaximumMatch_late matchCallback
    refine ⟨r, findMaximumMatch_add hr, hlisted, ⟨r.matchList₂, ⟨fun hj => hlisted.agree _ _ hj, ?_⟩, hlisted.size⟩,
      ?_⟩
    · intro j j' u hj hj'
      have hj₁ := (hlisted.inverse u j).mpr hj
      exact Option.some_inj.mp (hj₁.symm.trans ((hlisted.inverse u j').mpr hj'))
    · rintro k ⟨m, hm, rfl⟩
      exact hgreatest m hm
  · obtain ⟨r, hr, houtcome⟩ := findMaximumMatch_early matchCallback
    exact ⟨r, findMaximumMatch_add hr, houtcome⟩

/-- The first of two nodes gives its partner to the second. -/
example : (findMaximumMatch (fun left right : Fin 2 => decide (left = 0 ∨ right = 0)) 2 false).map
    (fun r => (r.result, r.matchList₁ 0, r.matchList₁ 1)) = some (2, some 1, some 0) := by decide

end MaximumMatcher

end Protoc.Util
