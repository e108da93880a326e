import Mathlib.Data.Nat.Count
import Protoc.Io.Tokenizer

/-!
# Synthetic oneofs

`ParseMessageDefinition` gives each optional field of proto3 a oneof of its own, and puts `X` in front of its name
until no field or oneof has it.  What else is declared in the message shares the scope and is not looked at.
-/

namespace Protoc.Compiler

open Protoc.Io (Text)
open List

/-- What `ParseMessageDefinition` reads and sets of a field. -/
structure FieldDecl where
  name : Text
  proto3Optional : Bool
  oneofIndex : Option ℕ

/-- A message of proto3 behind `ParseMessageBlock`: its fields, the names of its oneofs, and those of its nested
messages, enums, enum values and extensions. -/
structure MessageDecl where
  field : List FieldDecl
  oneofDecl : List Text
  nested : List Text

/-- The name of the field behind an underscore. -/
def oneofName (name : Text) : Text := if name.head? = some 95 then name else 95 :: name

/-- The loop that puts `X` in front. -/
def unused (names : List Text) (name : Text) : Text :=
  if name ∈ names then unused names (88 :: name) else name
termination_by names.flatten.length + 1 - name.length
decreasing_by
  have hle := (sublist_flatten_of_mem ‹name ∈ names›).length_le
  rw [length_cons]
  omega

/-- The loop over the fields, with `names` and the oneofs. -/
def addSyntheticOneofs : List FieldDecl → List Text → List Text →
    List FieldDecl × List Text
  | [], _, oneofDecl => ([], oneofDecl)
  | field :: fields, names, oneofDecl =>
    if field.proto3Optional then
      let name := unused names (oneofName field.name)
      let r := addSyntheticOneofs fields (name :: names) (oneofDecl ++ [name])
      ({ field with oneofIndex := some oneofDecl.length } :: r.1, r.2)
    else
      let r := addSyntheticOneofs fields names oneofDecl
      (field :: r.1, r.2)

/-- The names that are looked at. -/
def MessageDecl.looked (m : MessageDecl) : List Text := m.field.map (·.name) ++ m.oneofDecl

/-- The end of `ParseMessageDefinition`. -/
def addOneofs (m : MessageDecl) : MessageDecl :=
  let r := addSyntheticOneofs m.field m.looked m.oneofDecl
  { m with field := r.1, oneofDecl := r.2 }

/-- The names in the scope of the message. -/
def MessageDecl.names (m : MessageDecl) : List Text := m.looked ++ m.nested

/-- A message with distinct names keeps them distinct, the oneofs that are added are the last ones, and the
optional fields have one each. -/
def KeepsValid (m : MessageDecl) : Prop := m.names.Nodup →
  (addOneofs m).names.Nodup ∧ ∃ synthetic, (addOneofs m).oneofDecl = m.oneofDecl ++ synthetic ∧
    ((addOneofs m).field.filter (·.proto3Optional)).map (·.oneofIndex) =
      (range' m.oneofDecl.length synthetic.length).map some

/-! ## The names that are taken -/

def prefixed (k : ℕ) (base : Text) : Text := replicate k 88 ++ base

/-- How many of the shorter names are free. -/
def freeBelow (looked : List Text) (base : Text) (k : ℕ) : ℕ :=
  Nat.count (fun j => prefixed j base ∉ looked) k

/-- How many optional fields have the name. -/
def sharing (fields : List FieldDecl) (base : Text) : ℕ :=
  fields.countP fun field => field.proto3Optional && oneofName field.name == base

/-- An optional field takes the first free name that the earlier ones have left. -/
def Takes (looked : List Text) (before : List FieldDecl) (field : FieldDecl) (name : Text) : Prop :=
  field.proto3Optional = true ∧ ∃ k, name = prefixed k (oneofName field.name) ∧ name ∉ looked ∧
    freeBelow looked (oneofName field.name) k = sharing before (oneofName field.name)

/-- No nested declaration has a name that an optional field takes. -/
def NoClash (m : MessageDecl) : Prop := ∀ before field after name, m.field = before ++ field :: after →
  Takes m.looked before field name → name ∉ m.nested

section
variable {looked taken names : List Text} {before fields : List FieldDecl} {field : FieldDecl}
  {name base base' : Text} {k k' : ℕ}

theorem head_oneofName (name : Text) : (oneofName name).head? = some 95 := by
  rw [oneofName]
  split_ifs with h
  · exact h
  · rfl

theorem prefixed_inj (hbase : base.head? = some 95) (hbase' : base'.head? = some 95)
    (h : prefixed k base = prefixed k' base') : k = k' ∧ base = base' := by
  induction k generalizing k' with
  | zero =>
    cases k' with
    | zero => exact ⟨rfl, h⟩
    | succ k' =>
      simp [show base = 88 :: prefixed k' base' from h] at hbase
  | succ k ih =>
    cases k' with
    | zero =>
      rw [← show 88 :: prefixed k base = base' from h] at hbase'
      cases hbase'
    | succ k' =>
      obtain ⟨rfl, rfl⟩ := ih (cons.inj h).2
      exact ⟨rfl, rfl⟩

theorem unused_spec (names : List Text) (base : Text) :
    ∃ k, unused names base = prefixed k base ∧ prefixed k base ∉ names ∧ ∀ j < k, prefixed j base ∈ names := by
  fun_induction unused names base with
  | case1 base hmem ih =>
    obtain ⟨k, heq, hnot, hall⟩ := ih
    have hshift : ∀ j, prefixed j (88 :: base) = prefixed (j + 1) base := fun j => by
      rw [prefixed, prefixed, replicate_succ', append_assoc, singleton_append]
    rw [hshift] at heq hnot
    refine ⟨k + 1, heq, hnot, fun j hj => ?_⟩
    cases j with
    | zero => exact hmem
    | succ j => exact hshift j ▸ hall j (Nat.lt_of_succ_lt_succ hj)
  | case2 base hmem => exact ⟨0, rfl, hmem, nofun⟩

/-- The names taken by the fields before. -/
def Taken (looked : List Text) (before : List FieldDecl) (taken : List Text) : Prop :=
  ∀ base k, base.head? = some 95 →
    (prefixed k base ∈ taken ↔ prefixed k base ∉ looked ∧ freeBelow looked base k < sharing before base)

theorem takes_unused (h : Taken looked before taken) (hoptional : field.proto3Optional = true) :
    Takes looked before field (unused (taken ++ looked) (oneofName field.name)) := by
  obtain ⟨k, heq, hnot, hall⟩ := unused_spec (taken ++ looked) (oneofName field.name)
  have hbase := head_oneofName field.name
  rw [mem_append, not_or, h _ _ hbase] at hnot
  rw [heq]
  refine ⟨hoptional, k, rfl, hnot.2, le_antisymm ?_ (not_lt.mp fun hlt => hnot.1 ⟨hnot.2, hlt⟩)⟩
  clear heq hnot
  induction k with
  | zero => exact Nat.zero_le _
  | succ k ih =>
    have hk := hall k k.lt_succ_self
    rw [mem_append, h _ _ hbase] at hk
    rw [freeBelow, Nat.count_succ]
    split_ifs with hfree
    · exact ih fun j hj => hall j (hj.trans k.lt_succ_self)
    · exact (hk.resolve_right hfree).2

theorem Takes.eq {name' : Text} (h : Takes looked before field name) (h' : Takes looked before field name') :
    name = name' := by
  obtain ⟨-, k, rfl, hfree, hcount⟩ := h
  obtain ⟨-, k', rfl, hfree', hcount'⟩ := h'
  rw [Nat.count_injective hfree hfree' (hcount.trans hcount'.symm)]

theorem sharing_concat : sharing (before ++ [field]) base =
    sharing before base + if field.proto3Optional = true ∧ oneofName field.name = base then 1 else 0 := by
  simp [sharing, countP_append, countP_cons]

theorem Taken.cons (h : Taken looked before taken) (hname : Takes looked before field name) :
    Taken looked (before ++ [field]) (name :: taken) := by
  intro base k hbase
  obtain ⟨hoptional, k', rfl, hfree, hcount⟩ := hname
  rw [mem_cons, h base k hbase, sharing_concat]
  by_cases hsame : oneofName field.name = base
  · subst hsame
    rw [if_pos ⟨hoptional, rfl⟩, ← hcount]
    constructor
    · rintro (heq | ⟨hnot, hlt⟩)
      · obtain ⟨rfl, -⟩ := prefixed_inj hbase hbase heq
        exact ⟨hfree, Nat.lt_succ_self _⟩
      · exact ⟨hnot, Nat.lt_succ_of_lt hlt⟩
    · rintro ⟨hnot, hlt⟩
      rcases Nat.lt_succ_iff_lt_or_eq.mp hlt with hlt | heq
      · exact .inr ⟨hnot, hlt⟩
      · exact .inl (congrArg (prefixed · _) (Nat.count_injective hnot hfree heq))
  · rw [if_neg fun h => hsame h.2, Nat.add_zero]
    exact or_iff_right fun heq => hsame (prefixed_inj hbase (head_oneofName _) heq).2.symm

theorem Taken.skip (h : Taken looked before taken) (hoptional : ¬ field.proto3Optional = true) :
    Taken looked (before ++ [field]) taken := by
  intro base k hbase
  rw [sharing_concat, if_neg fun h => hoptional h.1]
  exact h base k hbase

theorem exists_split_cons {P : List FieldDecl → FieldDecl → Prop} :
    (∃ l x r, field :: fields = l ++ x :: r ∧ P l x) ↔
      P [] field ∨ ∃ l x r, fields = l ++ x :: r ∧ P (field :: l) x := by
  constructor
  · rintro ⟨l, x, r, heq, h⟩
    cases l with
    | nil =>
      cases heq
      exact .inl h
    | cons y l =>
      obtain ⟨rfl, hrest⟩ := cons.inj (heq : field :: fields = y :: (l ++ x :: r))
      exact .inr ⟨l, x, r, hrest, h⟩
  · rintro (h | ⟨l, x, r, rfl, h⟩)
    · exact ⟨[], field, fields, rfl, h⟩
    · exact ⟨field :: l, x, r, rfl, h⟩

theorem addSyntheticOneofs_spec (fields : List FieldDecl) (oneofDecl : List Text)
    (h : Taken looked before taken) :
    ∃ new, (addSyntheticOneofs fields (taken ++ looked) oneofDecl).2 = oneofDecl ++ new ∧
      (addSyntheticOneofs fields (taken ++ looked) oneofDecl).1.map (·.name) = fields.map (·.name) ∧
      ((addSyntheticOneofs fields (taken ++ looked) oneofDecl).1.filter (·.proto3Optional)).map (·.oneofIndex) =
        (range' oneofDecl.length new.length).map some ∧ new.Nodup ∧ (∀ name ∈ new, name ∉ taken ++ looked) ∧
      ∀ name, name ∈ new ↔ ∃ l x r, fields = l ++ x :: r ∧ Takes looked (before ++ l) x name := by
  induction fields generalizing before taken oneofDecl with
  | nil => exact ⟨[], (append_nil _).symm, rfl, rfl, nodup_nil, nofun, by simp⟩
  | cons field fields ih =>
    rw [addSyntheticOneofs]
    simp only [exists_split_cons, append_nil]
    split_ifs with hoptional
    · have htakes := takes_unused h hoptional
      have hnot : unused (taken ++ looked) (oneofName field.name) ∉ taken ++ looked := by
        obtain ⟨k, heq, hnot, -⟩ := unused_spec (taken ++ looked) (oneofName field.name)
        rwa [heq]
      generalize unused (taken ++ looked) (oneofName field.name) = name at htakes hnot ⊢
      obtain ⟨new, hdecl, hnames, hindex, hnodup, hfresh, hmem⟩ := ih (oneofDecl ++ [name]) (h.cons htakes)
      rw [cons_append] at hdecl hnames hindex hfresh
      refine ⟨name :: new, ?_, ?_, ?_, nodup_cons.mpr ⟨fun hin => hfresh name hin mem_cons_self, hnodup⟩,
        forall_mem_cons.mpr ⟨hnot, fun x hx => not_mem_of_not_mem_cons (hfresh x hx)⟩, fun x => ?_⟩
      · rw [hdecl, append_assoc, singleton_append]
      · rw [map_cons, map_cons, hnames]
      · simp only [filter_cons, if_pos hoptional]
        rw [map_cons, hindex, length_append, length_singleton, length_cons, range'_succ, map_cons]
      · rw [mem_cons, hmem]
        simp only [append_assoc, singleton_append]
        exact or_congr ⟨fun heq => heq ▸ htakes, fun hx => hx.eq htakes⟩ Iff.rfl
    · obtain ⟨new, hdecl, hnames, hindex, hnodup, hfresh, hmem⟩ := ih oneofDecl (h.skip hoptional)
      refine ⟨new, hdecl, ?_, ?_, hnodup, hfresh, fun x => ?_⟩
      · rw [map_cons, map_cons, hnames]
      · simp only [filter_cons, if_neg hoptional]
        exact hindex
      · rw [hmem, or_iff_right fun hx => hoptional hx.1]
        simp only [append_assoc, singleton_append]

/-- **Where the synthetic oneofs break nothing**: exactly where no nested declaration has the name of one. -/
theorem keepsValid_iff (m : MessageDecl) : KeepsValid m ↔ (m.names.Nodup → NoClash m) := by
  refine forall_congr' fun hnodup => ?_
  have hstart : Taken m.looked [] [] := fun base k _ => by simp [sharing]
  obtain ⟨new, hdecl, hnames, hindex, hnew, hfresh, hmem⟩ := addSyntheticOneofs_spec m.field m.oneofDecl hstart
  have hscope : (addOneofs m).names = m.looked ++ (new ++ m.nested) := by
    rw [MessageDecl.names, MessageDecl.looked, addOneofs]
    dsimp only
    rw [← nil_append m.looked, hdecl, hnames, MessageDecl.looked]
    simp only [nil_append, append_assoc]
  have hperm : m.looked ++ (new ++ m.nested) ~ m.names ++ new := by
    rw [MessageDecl.names, append_assoc]
    exact perm_append_comm.append_left _
  rw [hscope, hperm.nodup_iff, nodup_append']
  have hdisjoint : m.names.Disjoint new ↔ NoClash m := by
    constructor
    · intro h before field after name hsplit htakes hnested
      exact h (mem_append_right _ hnested) ((hmem name).mpr ⟨before, field, after, hsplit, htakes⟩)
    · intro h name hname hin
      rcases mem_append.mp hname with hlooked | hnested
      · exact hfresh name hin hlooked
      · obtain ⟨before, field, after, hsplit, htakes⟩ := (hmem name).mp hin
        exact h before field after name hsplit htakes hnested
  constructor
  · exact fun h => hdisjoint.mp h.1.2.2
  · exact fun h => ⟨⟨hnodup, hnew, hdisjoint.mpr h⟩, new, hdecl, hindex⟩

/-- The field `f` is optional and `_f` a nested message. -/
theorem not_keepsValid : ¬KeepsValid ⟨[⟨[102], true, none⟩], [], [[95, 102]]⟩ := by
  intro h
  have hnames := (h (by decide)).1
  simp [addOneofs, addSyntheticOneofs, MessageDecl.names, MessageDecl.looked, oneofName, unused] at hnames

end

end Protoc.Compiler
