import Protoc.Map.DynamicMapField
import Protoc.Map.MapFieldRuns

/-!
# Runs of map fields of dynamic messages
-/

namespace Protoc.Map

open Protoc.Lib
open List Option
open Function (update update_self update_of_ne)

universe u v
variable {K : Type u} {V : Type v} [DecidableEq K]

/-- A value that a caller writes through a reference, if the key has a value. -/
def writeExisting (m : K → Option V) (e : Entry K V) : K → Option V :=
  if (m e.1).isSome then update m e.1 (some e.2) else m

namespace Dynamic

/-! ## The map that a field is -/

def content (d : Dynamic K V) : K → Option V :=
  match d.field.state with
  | .modifiedRepeated => lastWins (d.field.repeatedField.getD [])
  | _ => d.readValue

/-- What the flag promises. -/
structure Valid (d : Dynamic K V) : Prop where
  hasRepeated : d.field.state ≠ .modifiedMap → d.field.repeatedField ≠ none
  clean : d.field.state = .clean → ∀ l, d.field.repeatedField = some l → lastWins l = d.readValue

/-- Entries were put into the map. -/
structure Puts (own : ℕ → Multiset ℕ) (i : ℕ) (d d' : Dynamic K V) (es : List (Entry K V)) : Prop where
  field : d'.field = { d.field with map := d'.field.map }
  change : Change own i d.heap d'.heap (slots d'.field.map)
  read : ∀ k, d'.readValue k = (lastWins es k).or (d.readValue k)

variable {own : ℕ → Multiset ℕ} {i : ℕ} {d d' d'' : Dynamic K V} {e : Entry K V} {es es' : List (Entry K V)}
  {order : Order K ℕ} {key : K} {p : ℕ}

theorem content_of_map (h : d.field.state ≠ .modifiedRepeated) : d.content = d.readValue := by
  rw [content]
  cases hs : d.field.state with
  | modifiedRepeated => exact absurd hs h
  | modifiedMap => rfl
  | clean => rfl

theorem valid_of_modifiedMap (h : d.field.state = .modifiedMap) : d.Valid :=
  ⟨fun hne => absurd h hne, fun hclean => absurd (h.symm.trans hclean) nofun⟩

theorem content_of_modifiedMap (h : d.field.state = .modifiedMap) : d.content = d.readValue :=
  content_of_map (by rw [h]; nofun)

theorem readValue_of_none (hk : d.field.map.lookup key = none) : d.readValue key = none := by
  rw [readValue, deref, hk]
  rfl

theorem readValue_of_some (H : Owned d.heap own) (hmap : own i = slots d.field.map)
    (hk : d.field.map.lookup key = some p) : ∃ x, d.heap.read p = some x ∧ d.readValue key = some x := by
  obtain ⟨x, hx⟩ := Option.isSome_iff_exists.mp (H.live i p (hmap ▸ mem_slots.mpr ⟨key, hk⟩))
  refine ⟨x, hx, ?_⟩
  rw [readValue, deref, hk]
  exact hx

theorem readValue_isSome (H : Owned d.heap own) (hmap : own i = slots d.field.map) (key : K) :
    (d.readValue key).isSome = (d.field.map.lookup key).isSome := by
  cases hk : d.field.map.lookup key with
  | none => rw [readValue_of_none hk]; rfl
  | some p =>
    obtain ⟨x, -, hread⟩ := readValue_of_some H hmap hk
    rw [hread]
    rfl

/-! ## Entries that are put into the map -/

namespace Puts

theorem refl (H : Owned d.heap own) (hmap : own i = slots d.field.map) : Puts own i d d [] where
  field := rfl
  change := hmap ▸ Change.refl H
  read _ := rfl

theorem trans (first : Puts own i d d' es) (second : Puts (update own i (slots d'.field.map)) i d' d'' es') :
    Puts own i d d'' (es ++ es') where
  field := by rw [second.field, first.field]
  change := first.change.trans second.change
  read k := by
    rw [second.read, first.read, ← foldl_update _ (es ++ es'), foldl_append, foldl_update, foldl_update]

theorem single (hfield : d'.field = { d.field with map := d'.field.map })
    (hchange : Change own i d.heap d'.heap (slots d'.field.map))
    (hread : d'.readValue = update d.readValue e.1 (some e.2)) : Puts own i d d' [e] where
  field := hfield
  change := hchange
  read k := by
    rw [← foldl_update, hread]
    rfl

theorem readValue (h : Puts own i d d' [e]) : d'.readValue = update d.readValue e.1 (some e.2) := by
  funext k
  rw [h.read, ← foldl_update]
  rfl

end Puts

section
variable (H : Owned d.heap own) (hmap : own i = slots d.field.map)
include H hmap

/-- **An entry is added**: the value that its key had is deleted. -/
theorem addEntry_spec (e : Entry K V) :
    ∃ d', d.addEntry e = some d' ∧ Puts own i d d' [e] := by
  cases hk : d.field.map.lookup e.1 with
  | none =>
    obtain ⟨hchange, hderef⟩ := Change.insertNew H hmap hk e.2
    refine ⟨{ d with heap := d.heap.new e.2, field.map := d.field.map.insert e.1 d.heap.next }, ?_, ?_⟩
    · rw [addEntry, hk]
      rfl
    · exact .single rfl hchange hderef
  | some p =>
    obtain ⟨heap, hdelete, hchange, hderef⟩ := Change.replace H hmap hk e.2
    refine ⟨{ d with heap := heap.new e.2, field.map := d.field.map.insert e.1 heap.next }, ?_, ?_⟩
    · rw [addEntry, hk]
      simp only [hdelete, map_some]
    · exact .single rfl hchange hderef

theorem addEntries_spec (es : List (Entry K V)) :
    ∃ d', es.foldlM addEntry d = some d' ∧ Puts own i d d' es := by
  induction es generalizing d own with
  | nil => exact ⟨d, rfl, .refl H hmap⟩
  | cons e es ih =>
    obtain ⟨d₁, hadd, hputs⟩ := addEntry_spec H hmap e
    obtain ⟨d', hrest, hputs'⟩ := ih hputs.change.owned (update_self ..)
    refine ⟨d', ?_, hputs.trans hputs'⟩
    rw [foldlM_cons, hadd]
    exact hrest

theorem writeValue_spec
    (hk : d.field.map.lookup e.1 = some p) : ∃ d', d.writeValue e = some d' ∧ Puts own i d d' [e] := by
  obtain ⟨heap, hmodify, hchange, hderef⟩ := Change.assign H hmap hk e.2
  refine ⟨{ d with heap }, ?_, .single rfl hchange hderef⟩
  rw [writeValue, hk]
  simp only [hmodify, map_some]

theorem writeValues_spec (es : List (Entry K V)) :
    ∃ d', es.foldlM writeValue d = some d' ∧ d'.field = d.field ∧
      Change own i d.heap d'.heap (slots d'.field.map) ∧ d'.readValue = es.foldl writeExisting d.readValue := by
  induction es generalizing d own with
  | nil => exact ⟨d, rfl, rfl, hmap ▸ Change.refl H, rfl⟩
  | cons e es ih =>
    have hstep : ∃ d₁, d.writeValue e = some d₁ ∧ d₁.field = d.field ∧
        Change own i d.heap d₁.heap (slots d₁.field.map) ∧ d₁.readValue = writeExisting d.readValue e := by
      cases hk : d.field.map.lookup e.1 with
      | none =>
        refine ⟨d, by rw [writeValue, hk], rfl, hmap ▸ Change.refl H, ?_⟩
        rw [writeExisting, readValue_of_none hk, if_neg (by simp)]
      | some p =>
        obtain ⟨heap, hmodify, hchange, hderef⟩ := Change.assign H hmap hk e.2
        refine ⟨{ d with heap }, by rw [writeValue, hk]; simp only [hmodify, map_some], rfl, hchange, ?_⟩
        have hsome : (d.readValue e.1).isSome := by
          rw [readValue_isSome H hmap, hk]
          rfl
        rw [writeExisting, if_pos hsome]
        exact hderef
    obtain ⟨d₁, hwrite, hfield, hchange, hread⟩ := hstep
    obtain ⟨d', hrest, hfield', hchange', hread'⟩ := ih hchange.owned (update_self ..)
    refine ⟨d', ?_, hfield'.trans hfield, hchange.trans hchange', ?_⟩
    · rw [foldlM_cons, hwrite]
      exact hrest
    · rw [hread', hread]
      rfl

end

/-! ## Making one of the two current -/

omit [DecidableEq K] in
/-- `DeleteData` for each value. -/
theorem clearMap_spec (H : Owned d.heap own) (hmap : own i = slots d.field.map) (order : Order K ℕ) :
    ∃ heap, d.clearMap order = some { d with heap, field.map := ∅ } ∧
      Change own i d.heap heap (slots (∅ : Table K ℕ)) := by
  obtain ⟨heap, hdelete, hchange⟩ := Change.clearAll H hmap (order.perm d.field.map.entries)
  exact ⟨heap, by rw [clearMap, hdelete]; rfl, hchange⟩

theorem readEntries_spec {heap : Heap V} (l : List (Entry K ℕ)) (hlive : ∀ s ∈ l, (heap.cell s.2).isSome) :
    ∃ es, l.mapM (readEntry heap) = some es ∧ ∀ k, lastWins es k = (lastWins l k).bind heap.read := by
  induction l using List.reverseRecOn with
  | nil => exact ⟨[], rfl, fun _ => rfl⟩
  | append_singleton l s ih =>
    obtain ⟨es, hes, hread⟩ := ih fun s' hs' => hlive s' (mem_append_left _ hs')
    obtain ⟨x, hx⟩ := Option.isSome_iff_exists.mp (hlive s (mem_append_right _ mem_cons_self))
    refine ⟨es ++ [⟨s.1, x⟩], ?_, fun k => ?_⟩
    · rw [mapM_append, hes, mapM_cons, readEntry, Heap.read, hx]
      rfl
    · rw [lastWins_concat, lastWins_concat]
      by_cases hk : s.1 = k
      · rw [if_pos hk, if_pos hk, bind_some, Heap.read, hx]
      · rw [if_neg hk, if_neg hk, hread]

omit [DecidableEq K] in
theorem readEntries_congr {heap heap' : Heap V} (l : List (Entry K ℕ))
    (h : ∀ s ∈ l, readEntry heap s = readEntry heap' s) : l.mapM (readEntry heap) = l.mapM (readEntry heap') := by
  induction l with
  | nil => rfl
  | cons s l ih =>
    rw [mapM_cons, mapM_cons, h s mem_cons_self, ih fun s' hs' => h s' (mem_cons_of_mem _ hs')]

theorem readMap_spec {heap : Heap V} (H : Owned heap own) {map : Table K ℕ} (hmap : own i = slots map)
    (order : Order K ℕ) :
    ∃ es, (order.list map.entries).mapM (readEntry heap) = some es ∧ lastWins es = deref heap map := by
  have hlive : ∀ s ∈ order.list map.entries, (heap.cell s.2).isSome := by
    intro s hs
    have hlookup : map.lookup s.1 = some s.2 := AList.mem_lookup_iff.mpr ((order.perm _).mem_iff.mp hs)
    exact H.live i s.2 (hmap ▸ mem_slots.mpr ⟨s.1, hlookup⟩)
  obtain ⟨es, hes, hread⟩ := readEntries_spec _ hlive
  refine ⟨es, hes, funext fun k => ?_⟩
  rw [hread, lastWins_of_perm (order.perm _)]
  rfl

/-- **`SyncMapWithRepeatedField`** makes the map current; what it pointed to is deleted. -/
theorem syncMap_spec (h : d.Valid) (H : Owned d.heap own) (hmap : own i = slots d.field.map) (order : Order K ℕ) :
    ∃ d', d.syncMapWithRepeatedField order = some d' ∧ Change own i d.heap d'.heap (slots d'.field.map) ∧
      d'.Valid ∧ d'.content = d.content ∧ d'.readValue = d.content := by
  rw [syncMapWithRepeatedField]
  by_cases hs : d.field.state = .modifiedRepeated
  · obtain ⟨l, hl⟩ := Option.ne_none_iff_exists'.mp (h.hasRepeated (by rw [hs]; nofun))
    have hcontent : d.content = lastWins l := by rw [content, hs, hl]; rfl
    obtain ⟨heap, hclear, hchange⟩ := clearMap_spec H hmap order
    obtain ⟨t, hadd, hputs⟩ := addEntries_spec (d := { d with heap, field.map := ∅ }) hchange.owned (update_self ..) l
    have hread : t.readValue = lastWins l := by
      funext k
      rw [hputs.read]
      exact or_none
    have hrepeated : t.field.repeatedField = some l := by
      rw [hputs.field]
      exact hl
    refine ⟨{ t with field.state := .clean }, ?_, hchange.trans hputs.change, ⟨?_, ?_⟩, ?_, ?_⟩
    · rw [if_pos hs, syncMapWithRepeatedFieldNoLock, hclear, bind_some, hl, bind_some, hadd]
      rfl
    · exact fun _ hnone => some_ne_none l (hrepeated.symm.trans hnone)
    · intro _ l' hl'
      obtain rfl := Option.some.inj (hrepeated.symm.trans hl')
      exact hread.symm
    · rw [hcontent]
      exact hread
    · rw [hcontent]
      exact hread
  · rw [if_neg hs]
    exact ⟨d, rfl, hmap ▸ Change.refl H, h, rfl, (content_of_map hs).symm⟩

/-- **`SyncRepeatedFieldWithMap`** makes the entries current. -/
theorem syncRepeated_spec (h : d.Valid) (H : Owned d.heap own) (hmap : own i = slots d.field.map)
    (order : Order K ℕ) : ∃ l d', d.syncRepeatedFieldWithMap order = some d' ∧ d'.field.repeatedField = some l ∧
      lastWins l = d.content ∧ d'.heap = d.heap ∧ d'.field.map = d.field.map ∧ d'.Valid ∧ d'.content = d.content := by
  obtain ⟨heap, state, map, repeatedField⟩ := d
  cases state with
  | modifiedMap =>
    obtain ⟨es, hes, hread⟩ := readMap_spec H hmap order
    refine ⟨es, ⟨heap, .clean, map, some es⟩, ?_, rfl, hread, rfl, rfl, ⟨fun _ => some_ne_none _, ?_⟩, rfl⟩
    · rw [syncRepeatedFieldWithMap]
      simp only [syncRepeatedFieldWithMapNoLock, hes, map_some]
    · intro _ l hl
      cases hl
      exact hread
  | modifiedRepeated =>
    obtain ⟨l, rfl⟩ := Option.ne_none_iff_exists'.mp (h.hasRepeated nofun)
    exact ⟨l, _, rfl, rfl, rfl, rfl, rfl, h, rfl⟩
  | clean =>
    obtain ⟨l, rfl⟩ := Option.ne_none_iff_exists'.mp (h.hasRepeated nofun)
    exact ⟨l, _, rfl, rfl, h.clean rfl l rfl, rfl, rfl, h, rfl⟩

/-- **`MutableMap`** makes the map current and the entries not. -/
theorem mutableMap_spec (h : d.Valid) (H : Owned d.heap own) (hmap : own i = slots d.field.map)
    (order : Order K ℕ) :
    ∃ d', d.mutableMap order = some d' ∧ Change own i d.heap d'.heap (slots d'.field.map) ∧
      d'.field.state = .modifiedMap ∧ d'.readValue = d.content := by
  obtain ⟨t, hsync, hchange, -, -, hread⟩ := syncMap_spec h H hmap order
  exact ⟨t.setMapDirty, by rw [mutableMap, hsync, map_some], hchange, rfl, hread⟩

/-! ## Calls -/

/-- **`LookupMapValue`**. -/
theorem lookupMapValue_spec (h : d.Valid) (H : Owned d.heap own) (hmap : own i = slots d.field.map)
    (order : Order K ℕ) (key : K) : ∃ d', d.lookupMapValue order key = some (d.content key, d') ∧
      Change own i d.heap d'.heap (slots d'.field.map) ∧ d'.Valid ∧ d'.content = d.content := by
  obtain ⟨t, hsync, hchange, hvalid, hcontent, hread⟩ := syncMap_spec h H hmap order
  refine ⟨t, ?_, hchange, hvalid, hcontent⟩
  rw [lookupMapValue, hsync, bind_some, ← hread]
  cases hk : t.field.map.lookup key with
  | none => rw [readValue_of_none hk]
  | some p =>
    obtain ⟨x, hx, hvalue⟩ := readValue_of_some hchange.owned (update_self ..) hk
    rw [hvalue]
    simp only [hx, map_some]

/-- **`ContainsMapKey`**. -/
theorem containsMapKey_spec (h : d.Valid) (H : Owned d.heap own) (hmap : own i = slots d.field.map)
    (order : Order K ℕ) (key : K) : ∃ d', d.containsMapKey order key = some ((d.content key).isSome, d') ∧
      Change own i d.heap d'.heap (slots d'.field.map) ∧ d'.Valid ∧ d'.content = d.content := by
  obtain ⟨t, hsync, hchange, hvalid, hcontent, hread⟩ := syncMap_spec h H hmap order
  refine ⟨t, ?_, hchange, hvalid, hcontent⟩
  rw [containsMapKey, hsync, map_some, ← hread, readValue_isSome hchange.owned (update_self ..)]

/-- **`size`**. -/
theorem size_spec (h : d.Valid) (H : Owned d.heap own) (hmap : own i = slots d.field.map) (order : Order K ℕ) :
    ∃ n d', d.size order = some (MapField.toInt n, d') ∧ IsSize d.content n ∧
      Change own i d.heap d'.heap (slots d'.field.map) ∧ d'.Valid ∧ d'.content = d.content := by
  obtain ⟨t, hsync, hchange, hvalid, hcontent, hread⟩ := syncMap_spec h H hmap order
  refine ⟨_, t, by rw [size, hsync, map_some], ?_, hchange, hvalid, hcontent⟩
  obtain ⟨keys, hnodup, hmem, hlength⟩ := isSize_lookup t.field.map
  refine ⟨keys, hnodup, fun k => ?_, hlength⟩
  rw [hmem, ← hread, readValue_isSome hchange.owned (update_self ..)]

/-- **`DeleteMapValue`**. -/
theorem deleteMapValue_spec (h : d.Valid) (H : Owned d.heap own) (hmap : own i = slots d.field.map)
    (order : Order K ℕ) (key : K) : ∃ d', d.deleteMapValue order key = some ((d.content key).isSome, d') ∧
      Change own i d.heap d'.heap (slots d'.field.map) ∧ d'.Valid ∧ d'.content = update d.content key none := by
  obtain ⟨t, hsync, hchange, hvalid, hcontent, hread⟩ := syncMap_spec h H hmap order
  rw [deleteMapValue, hsync, bind_some, ← hread]
  cases hk : t.field.map.lookup key with
  | none =>
    have hnone := readValue_of_none hk
    refine ⟨t, by rw [hnone]; rfl, hchange, hvalid, ?_⟩
    rw [hcontent, ← hread, ← hnone, Function.update_eq_self]
  | some p =>
    obtain ⟨x, -, hvalue⟩ := readValue_of_some hchange.owned (update_self ..) hk
    obtain ⟨heap, hdelete, hchange', hderef⟩ := Change.eraseKey hchange.owned (update_self ..) hk
    refine ⟨{ t.setMapDirty with heap, field.map := t.field.map.erase key }, ?_, hchange.trans hchange',
      valid_of_modifiedMap rfl, ?_⟩
    · rw [hvalue]
      simp only [hdelete, map_some]
      rfl
    · rw [content_of_modifiedMap rfl]
      exact hderef

/-- **`Clear`**. -/
theorem clear_spec (H : Owned d.heap own) (hmap : own i = slots d.field.map) (order : Order K ℕ) :
    ∃ d', d.clear order = some d' ∧ Change own i d.heap d'.heap (slots d'.field.map) ∧ d'.Valid ∧
      d'.content = fun _ => none := by
  obtain ⟨heap, hclear, hchange⟩ := clearMap_spec H hmap order
  refine ⟨_, by rw [clear, hclear, map_some], hchange, valid_of_modifiedMap rfl, ?_⟩
  rw [content_of_modifiedMap rfl]
  rfl

/-- **The destructor**. -/
theorem destroy_spec (H : Owned d.heap own) (hmap : own i = slots d.field.map) (order : Order K ℕ) :
    ∃ d', d.destroy order = some d' ∧ Change own i d.heap d'.heap (slots d'.field.map) ∧ d'.Valid ∧
      d'.content = fun _ => none := by
  obtain ⟨heap, hclear, hchange⟩ := clearMap_spec H hmap order
  refine ⟨_, by rw [destroy, hclear, map_some], hchange, valid_of_modifiedMap rfl, ?_⟩
  rw [content_of_modifiedMap rfl]
  rfl

variable [Inhabited V]

/-- **`InsertOrLookupMapValue`**. -/
theorem insertOrLookupMapValue_spec (h : d.Valid) (H : Owned d.heap own) (hmap : own i = slots d.field.map)
    (order : Order K ℕ) (key : K) : ∃ p d', d.insertOrLookupMapValue order key =
        some (((d.content key).isNone, (d.content key).getD default), d') ∧
      Change own i d.heap d'.heap (slots d'.field.map) ∧ d'.field.state = .modifiedMap ∧
      d'.field.map.lookup key = some p ∧
      d'.readValue = update d.content key (some ((d.content key).getD default)) := by
  obtain ⟨t, hmutable, hchange, hstate, hread⟩ := mutableMap_spec h H hmap order
  rw [insertOrLookupMapValue, hmutable, bind_some, ← hread]
  cases hk : t.field.map.lookup key with
  | none =>
    obtain ⟨hchange', hderef⟩ := Change.insertNew hchange.owned (update_self ..) hk (default : V)
    have hvalue : (t.allocateMapValue key).readValue = update t.readValue key (some default) := hderef
    rw [readValue_of_none hk]
    refine ⟨t.heap.next, t.allocateMapValue key, ?_, hchange.trans hchange', hstate, AList.lookup_insert .., hvalue⟩
    simp only [hvalue, update_self, map_some]
    rfl
  | some p =>
    obtain ⟨x, -, hvalue⟩ := readValue_of_some hchange.owned (update_self ..) hk
    refine ⟨p, t, ?_, hchange, hstate, hk, ?_⟩
    · simp only [hvalue, map_some]
      rfl
    · rw [hvalue, getD_some, ← hvalue, Function.update_eq_self]

section
variable (H : Owned d.heap own) (hmap : own i = slots d.field.map)
include H hmap

theorem mergeSlot_spec {s : Entry K ℕ} {x : V}
    (hx : d.heap.read s.2 = some x) : ∃ d', d.mergeSlot s = some d' ∧ Puts own i d d' [⟨s.1, x⟩] := by
  rw [mergeSlot]
  cases hk : d.field.map.lookup s.1 with
  | some p =>
    obtain ⟨d', hwrite, hputs⟩ := writeValue_spec (e := ⟨s.1, x⟩) H hmap hk
    refine ⟨d', ?_, hputs⟩
    simp only [isSome_some, if_true, hx, bind_some]
    exact hwrite
  | none =>
    obtain ⟨hchange, hderef⟩ := Change.insertNew H hmap hk (default : V)
    have hfirst : Puts own i d (d.allocateMapValue s.1) [⟨s.1, default⟩] := .single rfl hchange hderef
    obtain ⟨d', hwrite, hputs⟩ :=
      writeValue_spec (d := d.allocateMapValue s.1) (e := ⟨s.1, x⟩) hchange.owned (update_self ..)
        (AList.lookup_insert ..)
    have hlt : s.2 < d.heap.next := H.bounded _ (by rw [← Heap.read, hx]; rfl)
    have hx' : (d.allocateMapValue s.1).heap.read s.2 = some x := by
      rw [Heap.read, allocateMapValue, Heap.cell_new, update_of_ne (ne_of_lt hlt)]
      exact hx
    refine ⟨d', ?_, .single ?_ (hchange.trans hputs.change) ?_⟩
    · simp only [isSome_none, Bool.false_eq_true, if_false, hx', bind_some]
      exact hwrite
    · rw [hputs.field, hfirst.field]
    · rw [hputs.readValue, hfirst.readValue, Function.update_idem]

theorem mergeSlots_spec {j : ℕ} (hne : j ≠ i)
    (l : List (Entry K ℕ)) (hl : ∀ s ∈ l, s.2 ∈ own j) (hes : l.mapM (readEntry d.heap) = some es) :
    ∃ d', l.foldlM mergeSlot d = some d' ∧ Puts own i d d' es := by
  induction l generalizing d own es with
  | nil =>
    cases hes
    exact ⟨d, rfl, .refl H hmap⟩
  | cons s l ih =>
    obtain ⟨x, hx⟩ := Option.isSome_iff_exists.mp (H.live j s.2 (hl s mem_cons_self))
    have hhead : readEntry d.heap s = some ⟨s.1, x⟩ := by
      rw [readEntry, Heap.read, hx]
      rfl
    rw [mapM_cons, hhead] at hes
    change ((l.mapM (readEntry d.heap)).bind fun rest => some (⟨s.1, x⟩ :: rest)) = some es at hes
    obtain ⟨rest, hrest, heq⟩ := Option.bind_eq_some_iff.mp hes
    cases heq
    obtain ⟨d₁, hmerge, hputs⟩ := mergeSlot_spec H hmap hx
    -- the values of the other field are as they were
    have hsame : ∀ s' ∈ l, readEntry d₁.heap s' = readEntry d.heap s' := by
      intro s' hs'
      have hmem := hl s' (mem_cons_of_mem _ hs')
      have hnot : s'.2 ∉ own i := fun hi => hne (H.disjoint j i _ hmem hi)
      rw [readEntry, readEntry, Heap.read, Heap.read, hputs.change.frame _ (H.bounded _ (H.live j _ hmem)) hnot]
    have hrest' : l.mapM (readEntry d₁.heap) = some rest := (readEntries_congr l hsame).trans hrest
    obtain ⟨d', hfold, hputs'⟩ := ih hputs.change.owned (update_self ..) (fun s' hs' => by
      rw [update_of_ne hne]
      exact hl s' (mem_cons_of_mem _ hs')) hrest'
    refine ⟨d', ?_, hputs.trans hputs'⟩
    rw [foldlM_cons, hmerge]
    exact hfold

theorem mergeSlots_self (l : List (Entry K ℕ))
    (hl : ∀ s ∈ l, d.field.map.lookup s.1 = some s.2) : l.foldlM mergeSlot d = some d := by
  induction l with
  | nil => rfl
  | cons s l ih =>
    have hk := hl s mem_cons_self
    obtain ⟨x, hx, -⟩ := readValue_of_some H hmap hk
    have hmodify : d.heap.modify s.2 (fun _ => x) = some d.heap := by
      rw [Heap.read] at hx
      rw [Heap.modify, hx, map_some, ← hx, Function.update_eq_self]
    have hmerge : d.mergeSlot s = some d := by
      rw [mergeSlot, hk]
      simp only [isSome_some, if_true, hx, bind_some, writeValue, hk, hmodify, map_some]
    rw [foldlM_cons, hmerge]
    exact ih fun s' hs' => hl s' (mem_cons_of_mem _ hs')

end

end Dynamic

/-! ## What the calls should do -/

variable [Inhabited V]

/-- What a call on a map should return. -/
def DynamicOp.Correct (m : K → Option V) : DynamicOp K V → Result K V → Prop
  | .mutableMap _, r => r = .done
  | .insertOrLookupMapValue key _, r => r = .inserted (m key).isNone ((m key).getD default)
  | .deleteMapValue key, r => r = .bool (m key).isSome
  | .lookupMapValue key, r => r = .value (m key)
  | .containsMapKey key, r => r = .bool (m key).isSome
  | .size, r => ∃ n, IsSize m n ∧ r = .int (MapField.toInt n)
  | .getRepeatedField, r => ∃ l, r = .entries l ∧ lastWins l = m
  | .mutableRepeatedField _, r => ∃ l, r = .entries l ∧ lastWins l = m
  | .clear, r => r = .done
  | .destroy, r => r = .done

/-- The map after a call; the entries that were handed out are edited. -/
def DynamicOp.next (m : K → Option V) : DynamicOp K V → Result K V → K → Option V
  | .mutableMap writes, _ => writes.foldl writeExisting m
  | .insertOrLookupMapValue key write, _ => update m key (some (write.getD ((m key).getD default)))
  | .deleteMapValue key, _ => update m key none
  | .mutableRepeatedField edit, .entries l => lastWins (edit l)
  | .clear, _ => fun _ => none
  | .destroy, _ => fun _ => none
  | _, _ => m

namespace Dynamic

variable {own : ℕ → Multiset ℕ} {i : ℕ} {d : Dynamic K V}

/-- **A call on a field.** -/
theorem perform_spec (h : d.Valid) (H : Owned d.heap own) (hmap : own i = slots d.field.map) (order : Order K ℕ)
    (op : DynamicOp K V) :
    ∃ r d', d.perform order op = some (r, d') ∧ Change own i d.heap d'.heap (slots d'.field.map) ∧ d'.Valid ∧
      d'.content = op.next d.content r ∧ op.Correct d.content r := by
  cases op with
  | mutableMap writes =>
    obtain ⟨t, hmutable, hchange, hstate, hread⟩ := mutableMap_spec h H hmap order
    obtain ⟨d', hwrite, hfield, hchange', hread'⟩ := writeValues_spec hchange.owned (update_self ..) writes
    have hstate' : d'.field.state = .modifiedMap := by rw [hfield, hstate]
    refine ⟨.done, d', ?_, hchange.trans hchange', valid_of_modifiedMap hstate', ?_, rfl⟩
    · rw [perform, hmutable, bind_some, hwrite, map_some]
    · rw [content_of_modifiedMap hstate', hread', hread]
      rfl
  | insertOrLookupMapValue key write =>
    obtain ⟨p, t, hinsert, hchange, hstate, hkey, hread⟩ := insertOrLookupMapValue_spec h H hmap order key
    rw [perform, hinsert, bind_some]
    cases write with
    | none =>
      refine ⟨_, t, rfl, hchange, valid_of_modifiedMap hstate, ?_, rfl⟩
      rw [content_of_modifiedMap hstate, hread]
      rfl
    | some value =>
      obtain ⟨d', hwrite, hputs⟩ := writeValue_spec (e := ⟨key, value⟩) hchange.owned (update_self ..) hkey
      have hstate' : d'.field.state = .modifiedMap := by rw [hputs.field, hstate]
      refine ⟨_, d', by simp only [hwrite, map_some], hchange.trans hputs.change,
        valid_of_modifiedMap hstate', ?_, rfl⟩
      rw [content_of_modifiedMap hstate', hputs.readValue, hread, Function.update_idem]
      rfl
  | deleteMapValue key =>
    obtain ⟨d', hdelete, hchange, hvalid, hcontent⟩ := deleteMapValue_spec h H hmap order key
    exact ⟨_, d', by rw [perform, hdelete, map_some], hchange, hvalid, hcontent, rfl⟩
  | lookupMapValue key =>
    obtain ⟨d', hlookup, hchange, hvalid, hcontent⟩ := lookupMapValue_spec h H hmap order key
    exact ⟨_, d', by rw [perform, hlookup, map_some], hchange, hvalid, hcontent, rfl⟩
  | containsMapKey key =>
    obtain ⟨d', hcontains, hchange, hvalid, hcontent⟩ := containsMapKey_spec h H hmap order key
    exact ⟨_, d', by rw [perform, hcontains, map_some], hchange, hvalid, hcontent, rfl⟩
  | size =>
    obtain ⟨n, d', hsize, hn, hchange, hvalid, hcontent⟩ := size_spec h H hmap order
    exact ⟨_, d', by rw [perform, hsize, map_some], hchange, hvalid, hcontent, n, hn, rfl⟩
  | getRepeatedField =>
    obtain ⟨l, t, hsync, hl, hlist, hheap, htable, hvalid, hcontent⟩ := syncRepeated_spec h H hmap order
    refine ⟨.entries l, t, ?_, ?_, hvalid, hcontent, l, rfl, hlist⟩
    · rw [perform, getRepeatedField, hsync, bind_some, hl]
      rfl
    · rw [hheap, htable, ← hmap]
      exact .refl H
  | mutableRepeatedField edit =>
    obtain ⟨l, t, hsync, hl, hlist, hheap, htable, -, -⟩ := syncRepeated_spec h H hmap order
    have hdirty : t.setRepeatedDirty.field.repeatedField = some l := hl
    refine ⟨.entries l, { t.setRepeatedDirty with field.repeatedField := some (edit l) }, ?_, ?_,
      ⟨fun _ => some_ne_none _, nofun⟩, rfl, l, rfl, hlist⟩
    · rw [perform, mutableRepeatedField, hsync, bind_some, hdirty]
      rfl
    · change Change own i d.heap t.heap (slots t.field.map)
      rw [hheap, htable, ← hmap]
      exact .refl H
  | clear =>
    obtain ⟨d', hclear, hchange, hvalid, hcontent⟩ := clear_spec H hmap order
    exact ⟨.done, d', by rw [perform, hclear, map_some], hchange, hvalid, hcontent, rfl⟩
  | destroy =>
    obtain ⟨d', hdestroy, hchange, hvalid, hcontent⟩ := destroy_spec H hmap order
    exact ⟨.done, d', by rw [perform, hdestroy, map_some], hchange, hvalid, hcontent, rfl⟩

end Dynamic

/-! ## Several fields -/

def WorldOp.Correct (m : Maps K V) : WorldOp K V → Result K V → Prop
  | .on i op, r => op.Correct (m i) r
  | .mergeFrom _ _, r => r = .done
  | .swap _ _, r => r = .done

def WorldOp.next (m : Maps K V) : WorldOp K V → Result K V → Maps K V
  | .on i op, r => update m i (op.next (m i) r)
  | .mergeFrom i j, _ => update m i fun k => (m j k).or (m i k)
  | .swap i j, _ => update (update m i (m j)) j (m i)

/-- **The condition** on a call: `MergeFrom` is from a field whose map is valid. -/
def WorldOp.Meets (w : World K V) : WorldOp K V → Prop
  | .mergeFrom i j => i ≠ j → (w.fields j).isMapValid
  | _ => True

namespace World

omit [Inhabited V]

/-- Every value that was made is referenced by one slot of one map, or it was deleted once; a slot points
to a live value. -/
structure OwnsValues (w : World K V) : Prop where
  live : ∀ i k p, (w.fields i).map.lookup k = some p → (w.heap.cell p).isSome
  once : ∀ p, .made p ∈ w.heap.events →
    (∃! s : ℕ × K, (w.fields s.1).map.lookup s.2 = some p) ∧ w.heap.events.count (.deleted p) = 0 ∨
    (∀ i k, (w.fields i).map.lookup k ≠ some p) ∧ w.heap.events.count (.deleted p) = 1

/-- The fields are these maps. -/
structure Are (w : World K V) (m : Maps K V) : Prop where
  owned : Owned w.heap fun i => slots (w.fields i).map
  given : ∀ p, w.heap.events.count (.given p) = 0
  released : ∀ p, w.heap.events.count (.released p) = 0
  valid : ∀ i, (w.at_ i).Valid
  content : ∀ i, (w.at_ i).content = m i

variable {w : World K V} {m : Maps K V} {i j : ℕ} {d : Dynamic K V} {f : K → Option V} {order : Order K ℕ}

theorem Are.ownsValues (h : w.Are m) : w.OwnsValues where
  live i k p hk := h.owned.live i p (mem_slots.mpr ⟨k, hk⟩)
  once p hp := by
    have hmade : w.heap.events.count (.made p) = 1 :=
      le_antisymm (h.owned.madeOnce p) (List.count_pos_iff.mpr hp)
    have hgiven := h.given p
    have hreleased := h.released p
    by_cases hslot : ∃ i, p ∈ slots (w.fields i).map
    · obtain ⟨i, hi⟩ := hslot
      obtain ⟨k, hk⟩ := mem_slots.mp hi
      have hkept := h.owned.kept i p hi
      rw [Heap.acquired, Heap.disposed] at hkept
      refine .inl ⟨⟨(i, k), hk, ?_⟩, by omega⟩
      rintro ⟨i', k'⟩ hk'
      obtain rfl := h.owned.disjoint i' i p (mem_slots.mpr ⟨k', hk'⟩) hi
      by_contra hne
      have hkeys : k' ≠ k := fun heq => hne (congrArg _ heq)
      exact Change.lookup_ne_of_ne h.owned rfl hk hk' hkeys rfl
    · have hleft := h.owned.left p fun i hi => hslot ⟨i, hi⟩
      rw [Heap.acquired, Heap.disposed] at hleft
      exact .inr ⟨fun i k hk => hslot ⟨i, mem_slots.mpr ⟨k, hk⟩⟩, by omega⟩

/-- A field is changed. -/
theorem Are.put (h : w.Are m) (i : ℕ)
    (hchange : Change (fun i => slots (w.fields i).map) i w.heap d.heap (slots d.field.map)) (hvalid : d.Valid)
    (hcontent : d.content = f) : (w.put i d).Are (update m i f) := by
  have hother : ∀ j, j ≠ i → ((w.put i d).at_ j).field = (w.at_ j).field ∧
      ((w.put i d).at_ j).readValue = (w.at_ j).readValue := by
    intro j hne
    have hfield : ((w.put i d).at_ j).field = (w.at_ j).field := update_of_ne hne ..
    refine ⟨hfield, ?_⟩
    funext k
    rw [Dynamic.readValue, hfield]
    exact congrFun (hchange.deref_of_ne h.owned hne rfl) k
  have hself : (w.put i d).at_ i = d := by
    rw [at_, World.put]
    simp only [update_self]
  refine ⟨?_, fun p => (hchange.given p).trans (h.given p), fun p => (hchange.released p).trans (h.released p), ?_, ?_⟩
  · have hslots : (fun j => slots ((update w.fields i d.field) j).map) =
        update (fun j => slots (w.fields j).map) i (slots d.field.map) :=
      funext fun j => Function.apply_update (fun _ (field : DynamicMapField K V) => slots field.map) ..
    rw [World.put]
    exact hslots ▸ hchange.owned
  · intro j
    by_cases hne : j = i
    · rw [hne, hself]
      exact hvalid
    · obtain ⟨hfield, hread⟩ := hother j hne
      constructor
      · rw [hfield]
        exact (h.valid j).hasRepeated
      · rw [hfield, hread]
        exact (h.valid j).clean
  · intro j
    by_cases hne : j = i
    · rw [hne, hself, update_self]
      exact hcontent
    · obtain ⟨hfield, hread⟩ := hother j hne
      rw [update_of_ne hne, ← h.content j, Dynamic.content, Dynamic.content, hfield, hread]

/-- **`Swap`**. -/
theorem Are.swap (h : w.Are m) (i j : ℕ) : (w.swap i j).Are (update (update m i (m j)) j (m i)) := by
  have hfields : (w.swap i j).fields = w.fields ∘ Equiv.swap j i :=
    (Equiv.comp_swap_eq_update j i w.fields).symm
  have hmaps : update (update m i (m j)) j (m i) = m ∘ Equiv.swap j i :=
    (Equiv.comp_swap_eq_update j i m).symm
  have hat : ∀ k, (w.swap i j).at_ k = w.at_ (Equiv.swap j i k) := by
    intro k
    rw [at_, at_, hfields]
    rfl
  rw [hmaps]
  refine ⟨?_, h.given, h.released, fun k => ?_, fun k => ?_⟩
  · rw [hfields]
    exact h.owned.permute (Equiv.swap j i)
  · rw [hat]
    exact h.valid _
  · rw [hat]
    exact h.content _

variable [Inhabited V]

theorem Are.mergeSlots (h : w.Are m) (order : Order K ℕ) (hi : (w.fields i).state = .modifiedMap)
    (hj : (w.fields j).state ≠ .modifiedRepeated) :
    ∃ d, (order.list (w.fields j).map.entries).foldlM Dynamic.mergeSlot (w.at_ i) = some d ∧
      (w.put i d).Are (update m i fun k => (m j k).or (m i k)) := by
  have hslots : ∀ s ∈ order.list (w.fields j).map.entries, (w.fields j).map.lookup s.1 = some s.2 :=
    fun s hs => AList.mem_lookup_iff.mpr ((order.perm _).mem_iff.mp hs)
  by_cases hij : j = i
  · subst hij
    refine ⟨w.at_ j, Dynamic.mergeSlots_self h.owned rfl _ hslots, ?_⟩
    have hsame : w.put j (w.at_ j) = w := by
      rw [World.put]
      simp only [at_, Function.update_eq_self]
    have hself : (fun k => (m j k).or (m j k)) = m j := funext fun k => Option.or_self
    rw [hsame, hself, Function.update_eq_self]
    exact h
  · obtain ⟨es, hes, hvalues⟩ := Dynamic.readMap_spec (i := j) h.owned rfl order
    obtain ⟨d, hmerge, hputs⟩ := Dynamic.mergeSlots_spec (d := w.at_ i) h.owned rfl hij _
      (fun s hs => mem_slots.mpr ⟨s.1, hslots s hs⟩) hes
    have hstate : d.field.state = .modifiedMap := by rw [hputs.field]; exact hi
    refine ⟨d, hmerge, h.put i hputs.change (Dynamic.valid_of_modifiedMap hstate) ?_⟩
    rw [Dynamic.content_of_modifiedMap hstate]
    funext k
    rw [hputs.read, hvalues, ← h.content, ← h.content, Dynamic.content_of_modifiedMap (d := w.at_ i) hi,
      Dynamic.content_of_map (d := w.at_ j) hj]
    rfl

/-- **`MergeFrom`**: the values of the other field win. -/
theorem Are.mergeFrom (h : w.Are m) (order : Order K ℕ) (hmeets : (WorldOp.mergeFrom i j).Meets w) :
    ∃ w', w.mergeFrom order i j = some w' ∧ w'.Are (update m i fun k => (m j k).or (m i k)) := by
  obtain ⟨d, hmutable, hchange, hstate, hread⟩ := Dynamic.mutableMap_spec (h.valid i) h.owned rfl order
  have hare := h.put i hchange (Dynamic.valid_of_modifiedMap hstate)
    ((Dynamic.content_of_modifiedMap hstate).trans (hread.trans (h.content i)))
  rw [Function.update_eq_self] at hare
  have hi : ((w.put i d).fields i).state = .modifiedMap := by
    rw [World.put]
    simp only [update_self, hstate]
  have hj : ((w.put i d).fields j).state ≠ .modifiedRepeated := by
    by_cases hij : j = i
    · rw [hij, hi]
      nofun
    · have hvalid := hmeets (Ne.symm hij)
      rw [World.put]
      simp only [update_of_ne hij]
      exact of_decide_eq_true hvalid
  obtain ⟨d', hmerge, hare'⟩ := hare.mergeSlots order hi hj
  refine ⟨_, ?_, hare'⟩
  rw [World.mergeFrom, hmutable, bind_some]
  simp only [hmerge, map_some]

/-- **A call.** -/
theorem Are.perform_spec (h : w.Are m) (order : Order K ℕ) (op : WorldOp K V) (hmeets : op.Meets w) :
    ∃ r w', w.perform order op = some (r, w') ∧ w'.Are (op.next m r) ∧ op.Correct m r := by
  cases op with
  | on i op =>
    obtain ⟨r, d, hperform, hchange, hvalid, hcontent, hcorrect⟩ :=
      Dynamic.perform_spec (h.valid i) h.owned rfl order op
    rw [h.content] at hcontent hcorrect
    exact ⟨r, _, by rw [perform, hperform, map_some], h.put i hchange hvalid hcontent, hcorrect⟩
  | mergeFrom i j =>
    obtain ⟨w', hmerge, hare⟩ := h.mergeFrom order hmeets
    exact ⟨.done, w', by rw [perform, hmerge, map_some], hare, rfl⟩
  | swap i j => exact ⟨.done, _, rfl, h.swap i j, rfl⟩

end World

/-! ## Runs -/

def newWorld : World K V := ⟨.empty, fun _ => .empty⟩

/-- All calls return what the maps give, and the fields own their values all along. -/
def World.Behaves : World K V → Maps K V → List (Order K ℕ × WorldOp K V) → Prop
  | _, _, [] => True
  | w, m, call :: calls => ∃ r w', w.perform call.1 call.2 = some (r, w') ∧ call.2.Correct m r ∧ w'.OwnsValues ∧
      w'.Behaves (call.2.next m r) calls

def World.MeetsAll : World K V → List (Order K ℕ × WorldOp K V) → Prop
  | _, [] => True
  | w, call :: calls => call.2.Meets w ∧ ∀ r w', w.perform call.1 call.2 = some (r, w') → w'.MeetsAll calls

omit [Inhabited V] in
theorem newWorld_are : (newWorld : World K V).Are fun _ _ => none where
  owned := Owned.empty
  given _ := rfl
  released _ := rfl
  valid _ := Dynamic.valid_of_modifiedMap rfl
  content _ := Dynamic.content_of_modifiedMap rfl

theorem World.Are.behaves {w : World K V} {m : Maps K V} (h : w.Are m) (calls : List (Order K ℕ × WorldOp K V))
    (hmeets : w.MeetsAll calls) : w.Behaves m calls := by
  induction calls generalizing w m with
  | nil => trivial
  | cons call calls ih =>
    obtain ⟨r, w', hperform, hare, hcorrect⟩ := h.perform_spec call.1 call.2 hmeets.1
    exact ⟨r, w', hperform, hcorrect, hare.ownsValues, ih hare (hmeets.2 r w' hperform)⟩

/-- **Dynamic map fields behave like maps that own their values**, in every sequence of calls on any number
of fields in which `MergeFrom` is from fields whose maps are valid. -/
theorem dynamicMapField_behaves (calls : List (Order K ℕ × WorldOp K V))
    (hmeets : (newWorld : World K V).MeetsAll calls) : newWorld.Behaves (fun _ _ => none) calls :=
  newWorld_are.behaves calls hmeets

/-- Two entries for one key through the repeated field, and a merge after the map is read. -/
def readAndMerged : List (Order ℕ ℕ × WorldOp ℕ ℕ) :=
  [(listed, .on 1 (.mutableRepeatedField fun l => l ++ [⟨1, 2⟩, ⟨1, 3⟩])), (listed, .on 1 .size),
    (listed, .mergeFrom 0 1), (listed, .on 0 (.lookupMapValue 1)), (listed, .on 0 .destroy)]

theorem dynamicMapField_behaves_readAndMerged :
    (newWorld : World ℕ ℕ).Behaves (fun _ _ => none) readAndMerged := by
  refine dynamicMapField_behaves readAndMerged ⟨trivial, fun r w h => ?_⟩
  obtain ⟨rfl, rfl⟩ := Prod.mk.inj (Option.some.inj h)
  refine ⟨trivial, fun r w h => ?_⟩
  obtain ⟨rfl, rfl⟩ := Prod.mk.inj (Option.some.inj h)
  refine ⟨fun _ => rfl, fun r w h => ?_⟩
  obtain ⟨rfl, rfl⟩ := Prod.mk.inj (Option.some.inj h)
  refine ⟨trivial, fun r w h => ?_⟩
  obtain ⟨rfl, rfl⟩ := Prod.mk.inj (Option.some.inj h)
  exact ⟨trivial, fun _ _ _ => trivial⟩

/-- An entry is added through the repeated field, and merged into another field. -/
def addedAndMerged : List (Order ℕ ℕ × WorldOp ℕ ℕ) :=
  [(listed, .on 1 (.mutableRepeatedField fun l => l ++ [⟨1, 2⟩])), (listed, .mergeFrom 0 1),
    (listed, .on 0 (.lookupMapValue 1))]

/-- `MergeFrom` does not see the entry. -/
theorem not_behaves_addedAndMerged : ¬ (newWorld : World ℕ ℕ).Behaves (fun _ _ => none) addedAndMerged := by
  rintro ⟨r, w, h, -, -, r', w', h', -, -, r'', w'', h'', hcorrect, -⟩
  obtain ⟨rfl, rfl⟩ := Prod.mk.inj (Option.some.inj h)
  obtain ⟨rfl, rfl⟩ := Prod.mk.inj (Option.some.inj h')
  obtain ⟨rfl, rfl⟩ := Prod.mk.inj (Option.some.inj h'')
  exact absurd (Result.value.inj hcorrect) (by decide)

end Protoc.Map
