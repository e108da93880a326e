import Protoc.Lib.Run
import Protoc.Extensions.ExtensionSetMap

/-!
# Runs and growth of an extension set

`GrowCapacity` multiplies a capacity of 16 bits by four until it is large enough.  After 16384
comes 0, so a minimum above 16384 is never reached, and the loop does not end.
-/

namespace Protoc.Extensions

/-! ## Runs of extension sets -/

open Protoc.Lib
open Protoc.Lib.Sorted ExtensionSet
open Function (update)

variable {Message : Type} [MessageLite Message] {s other : ExtensionSet Message}
variable {f o : ℤ → Option (Extension Message)}

/-! ## Merging -/

/-- An extension, or none, after `InternalExtensionMergeFrom`. -/
def merged (extension : Option (Extension Message)) (other : Extension Message) : Option (Extension Message) :=
  let placed := { extension.getD Extension.zero with descriptor := other.descriptor }
  if other.isRepeated then some (mergeRepeatedExtension other extension.isNone placed)
  else if other.isCleared then extension
  else
    match other.value with
    | .scalar value => some ((Write.setScalar other.type value).apply extension.isNone placed)
    | .string value => some ((Write.setString other.type value).apply extension.isNone placed)
    | .message message => some (mergeMessageExtension other message extension.isNone placed)
    | _ => extension

namespace Represents

theorem internalExtensionMergeFrom (h : Represents s f) (number : ℤ) (other : Extension Message) :
    ∃ s', s.internalExtensionMergeFrom number other = some s' ∧
      Represents s' (update f number (merged (f number) other)) := by
  have hsame : Represents s (update f number (f number)) := by
    rw [Function.update_eq_self]
    exact h
  rw [ExtensionSet.internalExtensionMergeFrom, merged]
  dsimp only
  split_ifs with hrepeated hcleared
  · exact h.edit number other.descriptor _
  · exact ⟨s, rfl, hsame⟩
  · cases other.value with
    | scalar value => exact h.set number other.descriptor _
    | string value => exact h.set number other.descriptor _
    | message message => exact h.edit number other.descriptor _
    | repeatedScalar values => exact ⟨s, rfl, hsame⟩
    | repeatedString values => exact ⟨s, rfl, hsame⟩
    | repeatedMessage values => exact ⟨s, rfl, hsame⟩

theorem mergeExtensions (h : Represents s f) (l : List (KeyValue Message)) :
    ∃ s', s.mergeExtensions l = some s' ∧
      Represents s' (l.foldl (fun g e => update g e.1 (merged (g e.1) e.2)) f) := by
  induction l generalizing s f with
  | nil => exact ⟨s, rfl, h⟩
  | cons e l ih =>
    obtain ⟨s', hs', hrepresents⟩ := h.internalExtensionMergeFrom e.1 e.2
    rw [mergeExtensions, hs']
    exact ih hrepresents

end Represents

/-! ## The size of the union -/

def numbers (l : List (KeyValue Message)) : Finset ℤ := (l.map Prod.fst).toFinset

variable {l : List (KeyValue Message)}

omit [MessageLite Message] in
theorem mem_numbers {k : ℤ} : k ∈ numbers l ↔ ∃ e, (k, e) ∈ l := by
  simp [numbers]

omit [MessageLite Message] in
theorem card_numbers (h : Increasing Prod.fst l) : (numbers l).card = l.length := by
  have hnodup : (l.map Prod.fst).Nodup := List.pairwise_map.mpr (h.imp fun hlt => hlt.ne)
  rw [numbers, List.toFinset_card_of_nodup hnodup, List.length_map]

omit [MessageLite Message] in
theorem numbers_cons (e : KeyValue Message) (l : List (KeyValue Message)) :
    numbers (e :: l) = insert e.1 (numbers l) := by
  simp [numbers]

omit [MessageLite Message] in
theorem notMem_numbers_of_lt {k : ℤ} (h : ∀ e ∈ l, k < e.1) : k ∉ numbers l := by
  rw [mem_numbers]
  rintro ⟨e, hmem⟩
  exact (h _ hmem).ne rfl

omit [MessageLite Message] in
/-- **`SizeOfUnion`** is the number of numbers in one of the two or in both. -/
theorem sizeOfUnion_eq {xs ys : List (KeyValue Message)} (hx : Increasing Prod.fst xs)
    (hy : Increasing Prod.fst ys) : sizeOfUnion xs ys = (numbers xs ∪ numbers ys).card := by
  induction xs, ys using sizeOfUnion.induct with
  | case1 ys =>
    rw [sizeOfUnion, ← card_numbers hy]
    simp [numbers]
  | case2 xs hne =>
    cases xs with
    | nil => exact absurd rfl hne
    | cons x xs =>
      rw [sizeOfUnion, ← card_numbers hx]
      · simp [numbers]
      · exact fun h => absurd h (by simp)
  | case3 x xs y ys hlt ih =>
    obtain ⟨hfirst, hrest⟩ := List.pairwise_cons.mp hx
    have hsecond : ∀ e ∈ y :: ys, x.1 < e.1 := by
      intro e he
      rcases List.mem_cons.mp he with rfl | he
      · exact hlt
      · exact hlt.trans ((List.pairwise_cons.mp hy).1 e he)
    have hnew : x.1 ∉ numbers xs ∪ numbers (y :: ys) :=
      Finset.notMem_union.mpr ⟨notMem_numbers_of_lt hfirst, notMem_numbers_of_lt hsecond⟩
    rw [sizeOfUnion, if_pos hlt, ih hrest hy, numbers_cons x xs, Finset.insert_union,
      Finset.card_insert_of_notMem hnew]
  | case4 x xs y ys hlt heq ih =>
    obtain ⟨hfirst, hrest⟩ := List.pairwise_cons.mp hx
    obtain ⟨hfirst', hrest'⟩ := List.pairwise_cons.mp hy
    have hnew : x.1 ∉ numbers xs ∪ numbers ys := Finset.notMem_union.mpr
        ⟨notMem_numbers_of_lt hfirst, notMem_numbers_of_lt (by rw [heq]; exact hfirst')⟩
    rw [sizeOfUnion, if_neg hlt, if_pos heq, ih hrest hrest', numbers_cons, numbers_cons,
      ← heq, ← Finset.insert_union_distrib, Finset.card_insert_of_notMem hnew]
  | case5 x xs y ys hlt hne ih =>
    have hgt : y.1 < x.1 := lt_of_le_of_ne (not_lt.mp hlt) (Ne.symm hne)
    obtain ⟨hfirst, hrest⟩ := List.pairwise_cons.mp hy
    have hsecond : ∀ e ∈ x :: xs, y.1 < e.1 := by
      intro e he
      rcases List.mem_cons.mp he with rfl | he
      · exact hgt
      · exact hgt.trans ((List.pairwise_cons.mp hx).1 e he)
    have hnew : y.1 ∉ numbers (x :: xs) ∪ numbers ys :=
      Finset.notMem_union.mpr ⟨notMem_numbers_of_lt hsecond, notMem_numbers_of_lt hfirst⟩
    rw [sizeOfUnion, if_neg hlt, if_neg hne, ih hx hrest, numbers_cons y ys,
      Finset.union_insert, Finset.card_insert_of_notMem hnew]

/-! ## Calls with two sets -/

namespace Represents

theorem mergeFrom_eq (h : Represents s f) (ho : Represents other o) : s.mergeFrom other =
      (s.growCapacity (numbers s.forEach ∪ numbers other.forEach).card).bind fun s =>
        s.mergeExtensions other.forEach := by
  have hincreasing := h.forEach.increasing
  have hincreasing' := ho.forEach.increasing
  rw [mergeFrom]
  by_cases hlarge : s.isLarge = true
  · rw [if_pos hlarge, ExtensionSet.growCapacity, if_pos hlarge]
  · have hsize := sizeOfUnion_eq hincreasing hincreasing'
    rw [if_neg hlarge, ← hsize]
    by_cases hlarge' : other.isLarge = true
    · simp [ExtensionSet.forEach, hlarge, hlarge']
    · simp [ExtensionSet.forEach, hlarge, hlarge']

/-- **`MergeFrom`** merges the extensions of the other set into those of the same numbers. -/
theorem mergeFrom (h : Represents s f) (ho : Represents other o)
    (hfits : s.isLarge = true ∨ (numbers s.forEach ∪ numbers other.forEach).card ≤ 16384) :
    ∃ s', s.mergeFrom other = some s' ∧
      Represents s' fun key => ((o key).map (merged (f key))).getD (f key) := by
  obtain ⟨grown, hgrown, hrepresents, -⟩ := h.growCapacity hfits
  obtain ⟨s', hs', hmerged⟩ := hrepresents.mergeExtensions other.forEach
  rw [ho.forEach.foldl merged f] at hmerged
  refine ⟨s', ?_, hmerged⟩
  rw [h.mergeFrom_eq ho, hgrown]
  exact hs'

omit [MessageLite Message] in
/-- **`SwapExtension`** exchanges the extensions of one number. -/
theorem swapExtension (h : Represents s f) (ho : Represents other o) (number : ℤ) :
    ∃ sets, s.swapExtension other number = some sets ∧
      Represents sets.1 (update f number (o number)) ∧ Represents sets.2 (update o number (f number)) := by
  rw [ExtensionSet.swapExtension, h.findOrNull, ho.findOrNull]
  cases hthis : f number with
  | none =>
    cases hother : o number with
    | none =>
      refine ⟨(s, other), rfl, ?_, ?_⟩
      · rw [Function.update_eq_self_iff.mpr hthis.symm]
        exact h
      · rw [Function.update_eq_self_iff.mpr hother.symm]
        exact ho
    | some otherExt =>
      obtain ⟨inserted, hinserted, hplaced⟩ := h.insert number
      have hwritten := hplaced.represents.modify hplaced.position fun _ => otherExt
      rw [Function.update_idem] at hwritten
      rw [hinserted]
      exact ⟨_, rfl, hwritten, ho.erase number⟩
  | some thisExt =>
    cases hother : o number with
    | none =>
      obtain ⟨inserted, hinserted, hplaced⟩ := ho.insert number
      have hwritten := hplaced.represents.modify hplaced.position fun _ => thisExt
      rw [Function.update_idem] at hwritten
      rw [hinserted]
      exact ⟨_, rfl, h.erase number, hwritten⟩
    | some otherExt =>
      have hwritten := h.modify (h.forEach.getElem?_lowerBound hthis) fun _ => otherExt
      have hwritten' := ho.modify (ho.forEach.getElem?_lowerBound hother) fun _ => thisExt
      exact ⟨_, rfl, hwritten, hwritten'⟩

end Represents

/-! ## Runs -/

variable {ι : Type} [DecidableEq ι]

abbrev Plain (Message : Type) : Type := ℤ → Option (Extension Message)

/-- The calls on a family of plain maps. -/
def plainStep (p : ι → Plain Message) : Op ι Message → ι → Plain Message
  | .set i number descriptor write =>
    update p i (update (p i) number (some (write.apply (p i number).isNone
      { (p i number).getD Extension.zero with descriptor })))
  | .erase i number => update p i (update (p i) number none)
  | .growCapacity _ _ => p
  | .mergeFrom i other _ =>
    update p i fun key => ((p other key).map (merged (p i key))).getD (p i key)
  | .clear i => update p i fun key => (p i key).map Extension.clear
  | .internalSwap i other => exchange p i other
  | .swapExtension i other number =>
    if i = other then p
    else update (update p i (update (p i) number (p other number))) other
      (update (p other) number (p i number))

def plainRun (ops : List (Op ι Message)) : ι → Plain Message := ops.foldl plainStep fun _ _ => none

/-- A call that returns: no array has to grow beyond 16384 elements. -/
def Returns (w : ι → ExtensionSet Message) : Op ι Message → Prop
  | .growCapacity i minimumNewCapacity => (w i).isLarge = true ∨ minimumNewCapacity ≤ 16384
  | .mergeFrom i other _ =>
    (w i).isLarge = true ∨ (numbers (w i).forEach ∪ numbers (w other).forEach).card ≤ 16384
  | _ => True

def AllReturn : (ι → ExtensionSet Message) → List (Op ι Message) → Prop
  | _, [] => True
  | w, op :: ops => Returns w op ∧ ∀ w', step w op = some w' → AllReturn w' ops

def Represented (w : ι → ExtensionSet Message) (p : ι → Plain Message) : Prop :=
  ∀ i, Represents (w i) (p i)

variable {w : ι → ExtensionSet Message} {p : ι → Plain Message}

section
variable (h : Represented w p)
include h

omit [MessageLite Message] in
theorem Represented.update {i : ι} (hi : Represents s f) :
    Represented (update w i s) (Function.update p i f) := by
  intro j
  by_cases hj : j = i
  · subst hj
    rwa [Function.update_self, Function.update_self]
  · rw [Function.update_of_ne hj, Function.update_of_ne hj]
    exact h j

/-- **One call** that returns is one on the plain maps. -/
theorem step_represented {op : Op ι Message} (hreturns : Returns w op) :
    ∃ w', step w op = some w' ∧ Represented w' (plainStep p op) := by
  cases op with
  | set i number descriptor write =>
    obtain ⟨s', hs', hrepresents⟩ := (h i).set number descriptor write
    exact ⟨_, by rw [step, hs']; rfl, h.update hrepresents⟩
  | erase i number => exact ⟨_, rfl, h.update ((h i).erase number)⟩
  | growCapacity i minimumNewCapacity =>
    obtain ⟨s', hs', hrepresents, -⟩ := (h i).growCapacity hreturns
    refine ⟨_, by rw [step, hs']; rfl, ?_⟩
    have hgrown := h.update (i := i) hrepresents
    rwa [Function.update_eq_self] at hgrown
  | mergeFrom i other hne =>
    obtain ⟨s', hs', hrepresents⟩ := (h i).mergeFrom (h other) hreturns
    exact ⟨_, by rw [step, hs']; rfl, h.update hrepresents⟩
  | clear i => exact ⟨_, rfl, h.update (h i).clear⟩
  | internalSwap i other => exact ⟨_, rfl, (h.update (h other)).update (h i)⟩
  | swapExtension i other number =>
    rw [step, plainStep]
    split_ifs with hsame
    · exact ⟨w, rfl, h⟩
    · obtain ⟨sets, hsets, hthis, hother⟩ := (h i).swapExtension (h other) number
      exact ⟨_, by rw [hsets]; rfl, (h.update hthis).update hother⟩

theorem step_eq_none {op : Op ι Message} (hreturns : ¬ Returns w op) : step w op = none := by
  cases op with
  | growCapacity i minimumNewCapacity =>
    obtain ⟨hflat, hmore⟩ := not_or.mp hreturns
    rw [step, (h i).growCapacity_eq_none (by simpa using hflat) (by omega)]
    rfl
  | mergeFrom i other hne =>
    obtain ⟨hflat, hmore⟩ := not_or.mp hreturns
    rw [step, (h i).mergeFrom_eq (h other), (h i).growCapacity_eq_none (by simpa using hflat) (by omega)]
    rfl
  | _ => exact absurd trivial hreturns

theorem exec_represented {ops : List (Op ι Message)} (hreturn : AllReturn w ops) :
    ∃ w', exec step w ops = some w' ∧ Represented w' (ops.foldl plainStep p) := by
  induction ops generalizing w p with
  | nil => exact ⟨w, rfl, h⟩
  | cons op ops ih =>
    obtain ⟨hfirst, hrest⟩ := hreturn
    obtain ⟨w', hstep, hrepresented⟩ := step_represented h hfirst
    rw [exec, hstep]
    exact ih hrepresented (hrest w' hstep)

theorem allReturn_of_exec {ops : List (Op ι Message)}
    {w' : ι → ExtensionSet Message} (hexec : exec step w ops = some w') : AllReturn w ops := by
  induction ops generalizing w p with
  | nil => trivial
  | cons op ops ih =>
    by_cases hfirst : Returns w op
    · obtain ⟨next, hstep, hrepresented⟩ := step_represented h hfirst
      rw [exec, hstep] at hexec
      refine ⟨hfirst, fun next' hstep' => ?_⟩
      obtain rfl : next = next' := Option.some_inj.mp (hstep.symm.trans hstep')
      exact ih hrepresented hexec
    · rw [exec, step_eq_none h hfirst] at hexec
      exact absurd hexec (by simp)

end

/-- What is seen of a set is a plain map: lookups answer from it, and `ForEach` goes through its
extensions in increasing order of the numbers, each number once.  An array has room for its
elements, and their numbers increase. -/
structure Shows (s : ExtensionSet Message) (f : Plain Message) : Prop where
  /-- `FindOrNull`. -/
  findOrNull : ∀ key, s.findOrNull key = f key
  /-- The order of `ForEach`. -/
  increasing : s.forEach.Pairwise fun a b => a.1 < b.1
  /-- What `ForEach` goes through. -/
  mem_forEach : ∀ key extension, (key, extension) ∈ s.forEach ↔ f key = some extension
  /-- The array. -/
  flat : s.isLarge = false →
    s.flatSize ≤ s.flatCapacity ∧ (s.flatArray.take s.flatSize).Pairwise fun a b => a.1 < b.1

omit [MessageLite Message] in
theorem Represents.shows (h : Represents s f) : Shows s f where
  findOrNull := h.findOrNull
  increasing := h.forEach.increasing
  mem_forEach := h.forEach.mem_iff
  flat hflat := by
    cases h with
    | large hcapacity h =>
      rw [isLarge_of_lt hcapacity] at hflat
      exact absurd hflat (by simp)
    | flat hcapacity hlength hsize h => exact ⟨hsize, h.increasing⟩

omit [MessageLite Message] [DecidableEq ι] in
theorem new_represented : Represented (fun _ : ι => (ExtensionSet.new : ExtensionSet Message))
    fun _ _ => none := fun _ => new_represents

/-- **Extension sets show plain maps** after all sequences of calls that return, and only these. -/
theorem shows_iff (ops : List (Op ι Message)) :
    (∃ w, exec step (fun _ => ExtensionSet.new) ops = some w ∧ ∀ i, Shows (w i) (plainRun ops i)) ↔
      AllReturn (fun _ => ExtensionSet.new) ops := by
  constructor
  · rintro ⟨w, hexec, -⟩
    exact allReturn_of_exec new_represented hexec
  · intro hreturn
    obtain ⟨w, hexec, hrepresented⟩ := exec_represented new_represented hreturn
    exact ⟨w, hexec, fun i => (hrepresented i).shows⟩

/-! ## More than 16384 numbers -/

instance messageLiteUnit : MessageLite Unit := ⟨id, id, fun message _ => message⟩

/-- `SetInt32` on the second set, for a number. -/
def setInt32 (number : ℕ) : Op Bool Unit := .set true number none (.setScalar 5 1)

/-- The numbers from 0 on in the second set, which is then merged into the first one. -/
def setAndMerge (n : ℕ) : List (Op Bool Unit) :=
  (List.range n).map setInt32 ++ [.mergeFrom false true (by decide)]

theorem exec_setInt32 (n : ℕ) :
    ∃ w f, exec step (fun _ => ExtensionSet.new) ((List.range n).map setInt32) = some w ∧
      w false = ExtensionSet.new ∧ Represents (w true) f ∧ ∀ m < n, f m ≠ none := by
  induction n with
  | zero => exact ⟨_, _, rfl, rfl, new_represents, by simp⟩
  | succ n ih =>
    obtain ⟨w, f, hexec, hfirst, hrepresents, hnumbers⟩ := ih
    obtain ⟨s', hs', hset⟩ := hrepresents.set n none (.setScalar 5 1)
    have hstep : step w (setInt32 n) = some (update w true s') := by
      rw [setInt32, step, hs']
      rfl
    obtain ⟨e, hset⟩ : ∃ e, Represents s' (update f n (some e)) := ⟨_, hset⟩
    refine ⟨update w true s', update f n (some e), ?_, ?_, ?_, ?_⟩
    · rw [List.range_succ, List.map_append, exec_append, hexec, Option.bind_some, List.map_singleton,
        exec, hstep]
      rfl
    · rw [Function.update_of_ne (by decide)]
      exact hfirst
    · rw [Function.update_self]
      exact hset
    · intro m hm
      by_cases heq : (m : ℤ) = n
      · rw [heq, Function.update_self]
        simp
      · rw [Function.update_of_ne heq]
        exact hnumbers m (by omega)

theorem exec_setInt32_union (n : ℕ) :
    ∃ w, exec step (fun _ => ExtensionSet.new) ((List.range n).map setInt32) = some w ∧
      w false = ExtensionSet.new ∧ (∃ f, Represents (w true) f) ∧
      n ≤ (numbers (w false).forEach ∪ numbers (w true).forEach).card := by
  obtain ⟨w, f, hexec, hfirst, hrepresents, hnumbers⟩ := exec_setInt32 n
  have hsub : (Finset.range n).image (fun m : ℕ => (m : ℤ)) ⊆
      numbers (w false).forEach ∪ numbers (w true).forEach := by
    intro k hk
    obtain ⟨m, hm, rfl⟩ := Finset.mem_image.mp hk
    obtain ⟨e, he⟩ := Option.ne_none_iff_exists'.mp (hnumbers m (Finset.mem_range.mp hm))
    exact Finset.mem_union_right _ (mem_numbers.mpr ⟨e, (hrepresents.forEach.mem_iff _ _).mpr he⟩)
  have hcard := Finset.card_le_card hsub
  rw [Finset.card_image_of_injective _ (fun a b h => Int.ofNat_inj.mp h), Finset.card_range] at hcard
  exact ⟨w, hexec, hfirst, ⟨f, hrepresents⟩, hcard⟩

/-- With 16385 numbers in a map, a merge into an empty set does not return. -/
theorem not_shows_setAndMerge :
    ¬ ∃ w, exec step (fun _ => ExtensionSet.new) (setAndMerge 16385) = some w ∧
      ∀ i, Shows (w i) (plainRun (setAndMerge 16385) i) := by
  rintro ⟨w', hexec, -⟩
  obtain ⟨w, hsets, hfirst, ⟨f, hrepresents⟩, hcard⟩ := exec_setInt32_union 16385
  have hempty : Represents (w false) fun _ => none := by
    rw [hfirst]
    exact new_represents
  rw [setAndMerge, exec_append, hsets, Option.bind_some, exec, step, hempty.mergeFrom_eq hrepresents,
    hempty.growCapacity_eq_none (by rw [hfirst]; rfl) (by omega)] at hexec
  exact absurd hexec (by simp)

end Protoc.Extensions

namespace Protoc.Extensions

/-! ## The growth of an extension set -/

open Protoc.Lib

variable {Message : Type}

/-- `GrowCapacity` ends, the set is a map or its array has the capacity, and it has the same
contents. -/
def Provides (s : ExtensionSet Message) (minimumNewCapacity : ℕ) : Prop :=
  ∃ s', s.growCapacity minimumNewCapacity = some s' ∧
    (s'.isLarge = true ∨ minimumNewCapacity ≤ s'.flatCapacity) ∧
    s'.forEach = s.forEach ∧ ∀ key, s'.findOrNull key = s.findOrNull key

namespace Represents
variable {s : ExtensionSet Message} {f : ℤ → Option (Extension Message)} {minimum : ℕ}

theorem provides (h : Represents s f) (hminimum : s.isLarge = true ∨ minimum ≤ 16384) : Provides s minimum := by
  obtain ⟨s', hs', hrepresents, hroom⟩ := h.growCapacity hminimum
  refine ⟨s', hs', hroom.imp_right And.right, hrepresents.forEach.ext h.forEach, fun key => ?_⟩
  rw [hrepresents.findOrNull, h.findOrNull]

/-- **`GrowCapacity`** provides the capacity up to 16384. -/
theorem provides_iff (h : Represents s f) : Provides s minimum ↔ s.isLarge = true ∨ minimum ≤ 16384 := by
  constructor
  · rintro ⟨s', hs', -⟩
    by_contra hmore
    obtain ⟨hflat, hminimum⟩ := not_or.mp hmore
    rw [h.growCapacity_eq_none (by simpa using hflat) (by omega)] at hs'
    exact absurd hs' (by simp)
  · exact h.provides

end Represents

section Runs
variable [MessageLite Message] {ι : Type} [DecidableEq ι] {ops : List (Op ι Message)}
variable {w : ι → ExtensionSet Message}

theorem represents_of_exec (h : exec step (fun _ => ExtensionSet.new) ops = some w) (i : ι) :
    ∃ f, Represents (w i) f := by
  obtain ⟨w', hw', hrepresented⟩ := exec_represented new_represented (allReturn_of_exec new_represented h)
  obtain rfl : w' = w := Option.some_inj.mp (hw'.symm.trans h)
  exact ⟨_, hrepresented i⟩

/-- **Every set that the calls build** grows to any minimum up to 16384, and to no other unless it
is a map. -/
theorem growCapacity_provides_iff (h : exec step (fun _ => ExtensionSet.new) ops = some w) (i : ι)
    (minimumNewCapacity : ℕ) :
    Provides (w i) minimumNewCapacity ↔ (w i).isLarge = true ∨ minimumNewCapacity ≤ 16384 := by
  obtain ⟨f, hrepresents⟩ := represents_of_exec h i
  exact hrepresents.provides_iff

theorem growCapacity_provides_new : Provides (ExtensionSet.new : ExtensionSet Unit) 16384 :=
  (growCapacity_provides_iff
    (show exec step (fun _ : Bool => ExtensionSet.new) [] = some fun _ => ExtensionSet.new from rfl)
    true 16384).mpr (Or.inr le_rfl)

end Runs

/-- An empty set before the merge with one of 16385 numbers. -/
theorem not_provides_sizeOfUnion : ¬ ∀ (ops : List (Op Bool Unit)) (w : Bool → ExtensionSet Unit),
      exec step (fun _ => ExtensionSet.new) ops = some w →
        Provides (w false) (ExtensionSet.sizeOfUnion (w false).forEach (w true).forEach) := by
  intro hall
  obtain ⟨w, hexec, hfirst, ⟨f, hrepresents⟩, hcard⟩ := exec_setInt32_union 16385
  have hempty : Represents (w false) fun _ => none := by
    rw [hfirst]
    exact new_represents
  have hprovides := hall _ w hexec
  rw [hempty.provides_iff, sizeOfUnion_eq hempty.forEach.increasing hrepresents.forEach.increasing] at hprovides
  rcases hprovides with hlarge | hle
  · rw [hfirst] at hlarge
    exact absurd hlarge (by decide)
  · omega

end Protoc.Extensions
