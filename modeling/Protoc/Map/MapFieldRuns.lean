import Protoc.Map.MapField

/-!
# Runs of map fields
-/

namespace Protoc.Map

open Protoc.Lib
open Option
open Function (update update_self update_of_ne)

universe u v
variable {K : Type u} {V : Type v} [DecidableEq K]

/-! ## The map that a field is -/

namespace MapField

def content (s : MapField K V) : K → Option V :=
  match s.state with
  | .modifiedRepeated => lastWins (s.repeatedField.getD [])
  | _ => fun k => s.map.lookup k

/-- The repeated field is there where the flag says so. -/
def HasRepeated (s : MapField K V) : Prop := s.state ≠ .modifiedMap → s.repeatedField ≠ none

/-- What the flag promises. -/
structure Valid (s : MapField K V) : Prop where
  hasRepeated : s.HasRepeated
  clean : s.state = .clean → ∀ l, s.repeatedField = some l → ∀ k, lastWins l k = s.map.lookup k

variable {s s' : MapField K V} {order : Order K V}

theorem empty_valid : (empty : MapField K V).Valid := ⟨fun h => absurd rfl h, nofun⟩

theorem content_of_map (h : s.state ≠ .modifiedRepeated) : s.content = fun k => s.map.lookup k := by
  rw [content]
  cases hs : s.state with
  | modifiedRepeated => exact absurd hs h
  | modifiedMap => rfl
  | clean => rfl

theorem setMapDirty_valid (s : MapField K V) : s.setMapDirty.Valid := ⟨fun h => absurd rfl h, nofun⟩

theorem content_setMapDirty (s : MapField K V) : s.setMapDirty.content = fun k => s.map.lookup k := rfl

/-- **`SyncMapWithRepeatedField`** makes the map current. -/
theorem Valid.syncMap_spec (h : s.Valid) :
    ∃ s', s.syncMapWithRepeatedField = some s' ∧ s'.Valid ∧ s'.content = s.content ∧
      ∀ k, s'.map.lookup k = s.content k := by
  rw [syncMapWithRepeatedField]
  by_cases hs : s.state = .modifiedRepeated
  · obtain ⟨l, hl⟩ := Option.ne_none_iff_exists'.mp (h.hasRepeated (by rw [hs]; nofun))
    have hcontent : s.content = lastWins l := by rw [content, hs, hl]; rfl
    rw [if_pos hs, syncMapWithRepeatedFieldNoLock, hl]
    refine ⟨_, rfl, ⟨fun _ => some_ne_none l, fun _ l' hl' k => ?_⟩, ?_, fun k => ?_⟩
    · cases hl'
      exact (lookup_insertAll_empty l k).symm
    · rw [hcontent]
      exact funext (lookup_insertAll_empty l)
    · rw [hcontent]
      exact lookup_insertAll_empty l k
  · rw [if_neg hs]
    exact ⟨s, rfl, h, rfl, fun k => by rw [content_of_map hs]⟩

/-- **`SyncRepeatedFieldWithMap`** makes the entries current. -/
theorem Valid.syncRepeated_spec (h : s.Valid) (order : Order K V) :
    ∃ l, (s.syncRepeatedFieldWithMap order).repeatedField = some l ∧ lastWins l = s.content ∧
      (s.syncRepeatedFieldWithMap order).Valid ∧ (s.syncRepeatedFieldWithMap order).content = s.content := by
  obtain ⟨state, map, repeatedField⟩ := s
  cases state with
  | modifiedMap =>
    have hlist : lastWins (order.list map.entries) = fun k => map.lookup k :=
      funext fun k => lastWins_of_perm (order.perm _)
    refine ⟨_, rfl, hlist, ⟨fun _ => some_ne_none _, fun _ l hl k => ?_⟩, rfl⟩
    cases hl
    exact lastWins_of_perm (order.perm _)
  | modifiedRepeated =>
    obtain ⟨l, rfl⟩ := Option.ne_none_iff_exists'.mp (h.hasRepeated nofun)
    exact ⟨l, rfl, rfl, h, rfl⟩
  | clean =>
    obtain ⟨l, rfl⟩ := Option.ne_none_iff_exists'.mp (h.hasRepeated nofun)
    exact ⟨l, rfl, funext (h.clean rfl l rfl), h, rfl⟩

end MapField

/-! ## What the calls should do -/

def IsSize (m : K → Option V) (n : ℕ) : Prop :=
  ∃ keys : List K, keys.Nodup ∧ (∀ k, k ∈ keys ↔ (m k).isSome) ∧ keys.length = n

omit [DecidableEq K] in
theorem IsSize.unique {m : K → Option V} {n n' : ℕ} (h : IsSize m n) (h' : IsSize m n') : n = n' := by
  obtain ⟨keys, hnodup, hmem, rfl⟩ := h
  obtain ⟨keys', hnodup', hmem', rfl⟩ := h'
  exact ((List.perm_ext_iff_of_nodup hnodup hnodup').mpr fun k => (hmem k).trans (hmem' k).symm).length_eq

theorem isSize_lookup (map : Table K V) : IsSize (fun k => map.lookup k) map.entries.length :=
  ⟨map.keys, map.keys_nodup, fun _ => AList.lookup_isSome.symm, List.length_map _⟩

def MapEdit.change (m : K → Option V) : MapEdit K V → K → Option V
  | .set key value => update m key (some value)
  | .erase key => update m key none
  | .clear => fun _ => none

theorem lookup_insert (map : Table K V) (key : K) (value : V) :
    (fun k => (map.insert key value).lookup k) = update (fun k => map.lookup k) key (some value) := by
  funext k
  by_cases hk : k = key
  · rw [hk, update_self, AList.lookup_insert]
  · rw [update_of_ne hk, AList.lookup_insert_ne hk]

theorem lookup_erase (map : Table K V) (key : K) :
    (fun k => (map.erase key).lookup k) = update (fun k => map.lookup k) key none := by
  funext k
  by_cases hk : k = key
  · rw [hk, update_self, AList.lookup_erase]
  · rw [update_of_ne hk, AList.lookup_erase_ne hk]

theorem lookup_edits (map : Table K V) (edits : List (MapEdit K V)) :
    (fun k => (edits.foldl MapEdit.apply map).lookup k) = edits.foldl MapEdit.change fun k => map.lookup k := by
  induction edits generalizing map with
  | nil => rfl
  | cons edit edits ih =>
    have hedit : (fun k => (edit.apply map).lookup k) = edit.change fun k => map.lookup k := by
      cases edit with
      | set key value => exact lookup_insert map key value
      | erase key => exact lookup_erase map key
      | clear => rfl
    rw [List.foldl_cons, ih, hedit, List.foldl_cons]

/-- **The condition** on a call: `ContainsMapKey` reads a map that has the key if and only if the entries
have it, where these are current; and the size is an `int`. -/
def FieldOp.Meets (s : MapField K V) : FieldOp K V → Prop
  | .containsMapKey key => s.state = .modifiedRepeated →
      ((s.map.lookup key).isSome ↔ key ∈ (s.repeatedField.getD []).keys)
  | .size => ∀ n, IsSize s.content n → n < 2 ^ 31
  | _ => True

namespace MapField

variable {s : MapField K V} {key : K}

theorem toInt_eq_iff (n : ℕ) : toInt n = n ↔ n < 2 ^ 31 := by
  rw [toInt]
  constructor <;> intro h <;> omega

/-- **`ContainsMapKey`** is right where the condition holds. -/
theorem containsMapKey_iff : s.containsMapKey key = (s.content key).isSome ↔
    (FieldOp.containsMapKey key).Meets s := by
  rw [containsMapKey, FieldOp.Meets]
  by_cases hs : s.state = .modifiedRepeated
  · rw [content, hs]
    simp only [true_implies]
    rw [← lastWins_isSome, Bool.eq_iff_iff]
  · rw [content_of_map hs]
    exact iff_of_true rfl fun h => absurd h hs

/-- **`MutableMap`** makes the map current and the entries not. -/
theorem Valid.mutableMap_spec (h : s.Valid) :
    ∃ s', s.mutableMap = some s' ∧ s'.state = .modifiedMap ∧ (fun k => s'.map.lookup k) = s.content := by
  obtain ⟨s', hsync, -, -, hlookup⟩ := h.syncMap_spec
  exact ⟨s'.setMapDirty, by rw [mutableMap, hsync, map_some], rfl, funext hlookup⟩

theorem withMap (h : s.state = .modifiedMap) (map : Table K V) :
    ({ s with map } : MapField K V).Valid ∧ ({ s with map } : MapField K V).content = fun k => map.lookup k := by
  obtain ⟨state, map', repeatedField⟩ := s
  subst h
  exact ⟨⟨fun hne => absurd rfl hne, nofun⟩, rfl⟩

end MapField

variable [Inhabited V]

/-- What a call on the map should return. -/
def FieldOp.Correct (m : K → Option V) : FieldOp K V → Result K V → Prop
  | .mutableMap _, r => r = .done
  | .insertOrLookupMapValue key _, r => r = .inserted (m key).isNone ((m key).getD default)
  | .deleteMapValue key, r => r = .bool (m key).isSome
  | .lookupMapValue key, r => r = .value (m key)
  | .containsMapKey key, r => r = .bool (m key).isSome
  | .size, r => ∃ n : ℕ, IsSize m n ∧ r = .int n
  | .iterate, r => ∃ l : List (Entry K V), r = .entries l ∧ l.NodupKeys ∧ lastWins l = m
  | .getRepeatedField, r => ∃ l, r = .entries l ∧ lastWins l = m
  | .mutableRepeatedField _, r => ∃ l, r = .entries l ∧ lastWins l = m
  | .clear, r => r = .done

/-- The map after a call; the entries that were handed out are edited. -/
def FieldOp.next (m : K → Option V) : FieldOp K V → Result K V → K → Option V
  | .mutableMap edits, _ => edits.foldl MapEdit.change m
  | .insertOrLookupMapValue key write, _ => update m key (some (write.getD ((m key).getD default)))
  | .deleteMapValue key, _ => update m key none
  | .mutableRepeatedField edit, .entries l => lastWins (edit l)
  | .clear, _ => fun _ => none
  | _, _ => m

namespace MapField

variable {s : MapField K V}

/-- **A call on a field.** -/
theorem Valid.perform_spec (h : s.Valid) (order : Order K V) (op : FieldOp K V) :
    ∃ r s', s.perform order op = some (r, s') ∧ s'.Valid ∧ s'.content = op.next s.content r ∧
      (op.Correct s.content r ↔ op.Meets s) := by
  obtain ⟨t, hsync, hvalid, hcontent, hlookup⟩ := h.syncMap_spec
  have hget : s.getMap = some (t.map, t) := by rw [getMap, hsync, map_some]
  have hmap : (fun k => t.map.lookup k) = s.content := funext hlookup
  obtain ⟨t', hmutable, hstate, hmap'⟩ := h.mutableMap_spec
  have hlookup' : ∀ k, t'.map.lookup k = s.content k := congrFun hmap'
  obtain ⟨l, hrepeated, hlist, hvalid'', hcontent''⟩ := h.syncRepeated_spec order
  cases op with
  | mutableMap edits =>
    rw [perform, hmutable]
    obtain ⟨hvalid', hcontent'⟩ := withMap hstate (edits.foldl MapEdit.apply t'.map)
    refine ⟨_, _, rfl, hvalid', hcontent'.trans ?_, iff_of_true rfl trivial⟩
    rw [lookup_edits, hmap']
    rfl
  | insertOrLookupMapValue key write =>
    rw [perform, insertOrLookupMapValue, hmutable]
    simp only [map_some, hlookup']
    cases hkey : s.content key with
    | none =>
      obtain ⟨hvalid', hcontent'⟩ := withMap hstate (t'.map.insert key (write.getD default))
      refine ⟨_, _, rfl, hvalid', hcontent'.trans ?_, iff_of_true ?_ trivial⟩
      · rw [lookup_insert, hmap', FieldOp.next, hkey]
        rfl
      · rw [FieldOp.Correct, hkey]
        rfl
    | some value =>
      obtain ⟨hvalid', hcontent'⟩ := withMap hstate (t'.map.insert key (write.getD value))
      refine ⟨_, _, rfl, hvalid', hcontent'.trans ?_, iff_of_true ?_ trivial⟩
      · rw [lookup_insert, hmap', FieldOp.next, hkey]
        rfl
      · rw [FieldOp.Correct, hkey]
        rfl
  | deleteMapValue key =>
    rw [perform, deleteMapValue, hmutable]
    obtain ⟨hvalid', hcontent'⟩ := withMap hstate (t'.map.erase key)
    refine ⟨_, _, rfl, hvalid', hcontent'.trans ?_, iff_of_true ?_ trivial⟩
    · rw [lookup_erase, hmap']
      rfl
    · rw [FieldOp.Correct, ← hlookup' key]
  | lookupMapValue key =>
    rw [perform, lookupMapValue, hget]
    refine ⟨_, _, rfl, hvalid, hcontent, iff_of_true ?_ trivial⟩
    rw [FieldOp.Correct, ← hlookup key]
  | containsMapKey key =>
    refine ⟨_, _, rfl, h, rfl, ?_⟩
    rw [FieldOp.Correct, ← containsMapKey_iff]
    exact ⟨fun heq => Result.bool.inj heq, fun heq => congrArg _ heq⟩
  | size =>
    rw [perform, size, hsync]
    refine ⟨_, _, rfl, hvalid, hcontent, ?_⟩
    have hsize : IsSize s.content t.map.entries.length := hmap ▸ isSize_lookup t.map
    rw [FieldOp.Correct, FieldOp.Meets]
    constructor
    · rintro ⟨n, hn, heq⟩ n' hn'
      obtain rfl := hn.unique hsize
      obtain rfl := hn'.unique hsize
      exact (toInt_eq_iff _).mp (Result.int.inj heq)
    · intro hmeets
      exact ⟨_, hsize, congrArg _ ((toInt_eq_iff _).mpr (hmeets _ hsize))⟩
  | iterate =>
    rw [perform, iterate, hget]
    refine ⟨_, _, rfl, hvalid, hcontent, iff_of_true ⟨_, rfl, ?_, ?_⟩ trivial⟩
    · exact (List.perm_nodupKeys (order.perm _)).mpr t.map.nodupKeys
    · rw [← hmap]
      exact funext fun k => lastWins_of_perm (order.perm _)
  | getRepeatedField =>
    rw [perform, getRepeatedField, hrepeated]
    exact ⟨_, _, rfl, hvalid'', hcontent'', iff_of_true ⟨l, rfl, hlist⟩ trivial⟩
  | mutableRepeatedField edit =>
    have hdirty : (s.syncRepeatedFieldWithMap order).setRepeatedDirty.repeatedField = some l := hrepeated
    rw [perform, mutableRepeatedField, hdirty]
    exact ⟨_, _, rfl, ⟨fun _ => some_ne_none _, nofun⟩, rfl, iff_of_true ⟨l, rfl, hlist⟩ trivial⟩
  | clear => exact ⟨_, _, rfl, setMapDirty_valid _, rfl, iff_of_true rfl trivial⟩

end MapField

/-! ## Several fields -/

abbrev Maps (K : Type u) (V : Type v) := ℕ → K → Option V

def Op.Correct (m : Maps K V) : Op K V → Result K V → Prop
  | .on i op, r => op.Correct (m i) r
  | .mergeFrom _ _, r => r = .done
  | .swap _ _, r => r = .done

def Op.next (m : Maps K V) : Op K V → Result K V → Maps K V
  | .on i op, r => update m i (op.next (m i) r)
  | .mergeFrom i j, _ => update m i fun k => (m j k).or (m i k)
  | .swap i j, _ => update (update m i (m j)) j (m i)

def Op.Meets (fields : Fields K V) : Op K V → Prop
  | .on i op => op.Meets (fields i)
  | _ => True

/-- The fields are these maps. -/
structure Fields.Are (fields : Fields K V) (m : Maps K V) : Prop where
  valid : ∀ i, (fields i).Valid
  content : ∀ i, (fields i).content = m i

namespace Fields

variable {fields : Fields K V} {m : Maps K V} {s : MapField K V} {f : K → Option V} {i j : ℕ} {order : Order K V}

omit [Inhabited V] in
theorem Are.update_are (h : fields.Are m) (i : ℕ) (hvalid : s.Valid) (hcontent : s.content = f) :
    Fields.Are (update fields i s) (update m i f) := by
  constructor <;> intro k <;> by_cases hk : k = i
  · rw [hk, update_self]
    exact hvalid
  · rw [update_of_ne hk]
    exact h.valid k
  · rw [hk, update_self, update_self]
    exact hcontent
  · rw [update_of_ne hk, update_of_ne hk]
    exact h.content k

omit [Inhabited V] in
/-- A field whose map is made current. -/
theorem Are.sync (h : fields.Are m) (i : ℕ) :
    ∃ s, (fields i).syncMapWithRepeatedField = some s ∧ Fields.Are (update fields i s) m ∧
      ∀ k, s.map.lookup k = m i k := by
  obtain ⟨s, hsync, hvalid, hcontent, hlookup⟩ := (h.valid i).syncMap_spec
  have hare := h.update_are i hvalid (hcontent.trans (h.content i))
  rw [Function.update_eq_self] at hare
  exact ⟨s, hsync, hare, fun k => by rw [hlookup, h.content]⟩

omit [Inhabited V] in
/-- **`MergeFrom`**: the entries of the other field win. -/
theorem Are.mergeFrom (h : fields.Are m) (order : Order K V) (i j : ℕ) :
    ∃ fields', fields.mergeFrom order i j = some fields' ∧
      fields'.Are (update m i fun k => (m j k).or (m i k)) := by
  obtain ⟨s, hs, hare, hlookup⟩ := h.sync i
  obtain ⟨other, hother, hare', hlookup'⟩ := hare.sync j
  rw [Fields.mergeFrom, hs, bind_some]
  simp only [hother, map_some]
  refine ⟨_, rfl, hare'.update_are i (MapField.setMapDirty_valid _) ?_⟩
  rw [MapField.content_setMapDirty]
  funext k
  have hj : (update (update fields i s) j other : Fields K V) j = other := update_self ..
  have hi : ((update (update fields i s) j other : Fields K V) i).map.lookup k = m i k := by
    by_cases hij : i = j
    · rw [hij, update_self, hlookup', ← hij]
    · rw [update_of_ne hij, update_self, hlookup]
  change (insertAll _ _).lookup k = _
  rw [lookup_insertAll, hi, hj, lastWins_of_perm (order.perm _), hlookup']

/-- **A call.** -/
theorem Are.perform_spec (h : fields.Are m) (order : Order K V) (op : Op K V) :
    ∃ r fields', fields.perform order op = some (r, fields') ∧ fields'.Are (op.next m r) ∧
      (op.Correct m r ↔ op.Meets fields) := by
  cases op with
  | on i op =>
    obtain ⟨r, s', hperform, hvalid, hcontent, hcorrect⟩ := (h.valid i).perform_spec order op
    rw [h.content] at hcontent hcorrect
    exact ⟨r, _, by rw [perform, hperform, map_some], h.update_are i hvalid hcontent, hcorrect⟩
  | mergeFrom i j =>
    obtain ⟨fields', hmerge, hare⟩ := h.mergeFrom order i j
    exact ⟨.done, fields', by rw [perform, hmerge, map_some], hare, iff_of_true rfl trivial⟩
  | swap i j =>
    refine ⟨.done, _, rfl, ?_, iff_of_true rfl trivial⟩
    exact (h.update_are i (h.valid j) (h.content j)).update_are j (h.valid i) (h.content i)

end Fields

/-! ## Runs -/

/-- All calls return what the maps give, and the repeated fields are there where the flags say so. -/
def Behaves : Fields K V → Maps K V → List (Order K V × Op K V) → Prop
  | _, _, [] => True
  | fields, m, call :: calls => ∃ r fields', fields.perform call.1 call.2 = some (r, fields') ∧
      call.2.Correct m r ∧ (∀ i, (fields' i).HasRepeated) ∧ Behaves fields' (call.2.next m r) calls

def MeetsAll : Fields K V → List (Order K V × Op K V) → Prop
  | _, [] => True
  | fields, call :: calls => call.2.Meets fields ∧
      ∀ r fields', fields.perform call.1 call.2 = some (r, fields') → MeetsAll fields' calls

theorem Fields.Are.behaves_iff {fields : Fields K V} {m : Maps K V} (h : fields.Are m)
    (calls : List (Order K V × Op K V)) : Behaves fields m calls ↔ MeetsAll fields calls := by
  induction calls generalizing fields m with
  | nil => exact Iff.rfl
  | cons call calls ih =>
    obtain ⟨r, fields', hperform, hare, hcorrect⟩ := h.perform_spec call.1 call.2
    rw [Behaves, MeetsAll, ← hcorrect]
    constructor
    · rintro ⟨r', fields'', hperform', hcorrect', -, hbehaves⟩
      obtain ⟨rfl, rfl⟩ := Prod.mk.inj (Option.some.inj (hperform.symm.trans hperform'))
      refine ⟨hcorrect', fun r' fields'' hperform'' => ?_⟩
      obtain ⟨rfl, rfl⟩ := Prod.mk.inj (Option.some.inj (hperform.symm.trans hperform''))
      exact (ih hare).mp hbehaves
    · rintro ⟨hcorrect', hmeets⟩
      exact ⟨r, fields', hperform, hcorrect', fun i => (hare.valid i).hasRepeated,
        (ih hare).mpr (hmeets r fields' hperform)⟩

def newFields : Fields K V := fun _ => .empty

omit [Inhabited V] in
theorem newFields_are : (newFields : Fields K V).Are fun _ _ => none :=
  ⟨fun _ => MapField.empty_valid, fun _ => rfl⟩

/-- **The two views of a map field are one**, in every sequence of calls on any number of fields, except
for `ContainsMapKey`: it is right if and only if the map that it reads has the key where the entries
that are current have it. -/
theorem mapField_behaves_iff (calls : List (Order K V × Op K V)) :
    Behaves newFields (fun _ _ => none) calls ↔ MeetsAll newFields calls :=
  newFields_are.behaves_iff calls

def listed : Order ℕ ℕ := ⟨id, fun _ => .refl _⟩

/-- An entry is added through the repeated field, and its key is asked for. -/
def addedEntry : List (Order ℕ ℕ × Op ℕ ℕ) :=
  [(listed, .on 0 (.mutableRepeatedField fun l => l ++ [⟨1, 2⟩])), (listed, .on 0 (.containsMapKey 1))]

/-- `ContainsMapKey` does not see the entry. -/
theorem not_behaves_addedEntry : ¬ Behaves newFields (fun _ _ => none) addedEntry := by
  rw [newFields_are.behaves_iff]
  rintro ⟨-, hmeets⟩
  have h := (hmeets _ _ rfl).1 rfl
  exact absurd (h.mpr List.mem_cons_self) (by decide)

end Protoc.Map
