import Protoc.Extensions.ExtensionSetRuns

/-!
# Declared extensions

The sets of one message type have one declaration for each number, and the callers pass what it
says.  The calls keep to it: the type of an extension, whether it is repeated, and the member of
the union never change.
-/

namespace Protoc.Extensions

open Protoc.Lib
open Function (update)

/-- What messages guarantee: a message merged into a new or a cleared one of its type gives the
message. -/
class LawfulMessage (Message : Type) extends MessageLite Message where
  /-- `GetTypeName`. -/
  typeName : Message → Str
  typeName_new : ∀ message, typeName (new message) = typeName message
  typeName_clear : ∀ message, typeName (clear message) = typeName message
  typeName_mergeFrom : ∀ message other, typeName (mergeFrom message other) = typeName message
  mergeFrom_new : ∀ message, mergeFrom (new message) message = message
  mergeFrom_clear : ∀ message other, typeName message = typeName other →
    mergeFrom (clear message) other = other

open LawfulMessage

/-- The C++ types, the eight of one word together. -/
inductive CppType
  | scalar
  | string
  | message
  deriving DecidableEq

/-- `cpp_type`: strings and bytes, groups and messages, and the others. -/
def cppType (type : UInt8) : CppType :=
  if type = 9 ∨ type = 12 then .string
  else if type = 10 ∨ type = 11 then .message
  else .scalar

/-- The declaration of an extension. -/
structure Declaration (Message : Type) where
  /-- Its type. -/
  type : UInt8
  /-- Whether it is repeated. -/
  isRepeated : Bool
  /-- Whether it is packed. -/
  isPacked : Bool
  /-- A message of the type, where it is a message. -/
  prototype : Message

variable {Message : Type} [LawfulMessage Message]

/-- The member of the union is that of the declaration, and messages are of the declared type. -/
def Value.Of (d : Declaration Message) : Value Message → Prop
  | .scalar _ => cppType d.type = .scalar ∧ d.isRepeated = false
  | .string _ => cppType d.type = .string ∧ d.isRepeated = false
  | .message m => cppType d.type = .message ∧ d.isRepeated = false ∧
      typeName m = typeName d.prototype
  | .repeatedScalar _ => cppType d.type = .scalar ∧ d.isRepeated = true
  | .repeatedString _ => cppType d.type = .string ∧ d.isRepeated = true
  | .repeatedMessage ms => cppType d.type = .message ∧ d.isRepeated = true ∧
      ∀ m ∈ ms, typeName m = typeName d.prototype

/-- An extension as it is declared.  A message that counts as cleared has been cleared. -/
structure Extension.Of (d : Declaration Message) (e : Extension Message) : Prop where
  type : e.type = d.type
  isRepeated : e.isRepeated = d.isRepeated
  isPacked : d.isRepeated = true → e.isPacked = d.isPacked
  value : e.value.Of d
  cleared : e.isCleared = true → ∀ m, e.value = .message m → ∃ m₀, m = MessageLite.clear m₀

/-- The arguments of a setter are those of the declaration, and the caller leaves the type of a
message as it is. -/
def Write.Of (d : Declaration Message) : Write Message → Prop
  | .setScalar type _ => type = d.type ∧ cppType d.type = .scalar ∧ d.isRepeated = false
  | .addScalar type packed _ =>
    type = d.type ∧ packed = d.isPacked ∧ cppType d.type = .scalar ∧ d.isRepeated = true
  | .setString type _ => type = d.type ∧ cppType d.type = .string ∧ d.isRepeated = false
  | .addString type _ =>
    type = d.type ∧ d.isPacked = false ∧ cppType d.type = .string ∧ d.isRepeated = true
  | .mutableMessage type prototype edit =>
    type = d.type ∧ cppType d.type = .message ∧ d.isRepeated = false ∧
      typeName prototype = typeName d.prototype ∧
      ∀ m, typeName (edit m) = typeName m
  | .addMessage type prototype edit =>
    type = d.type ∧ d.isPacked = false ∧ cppType d.type = .message ∧ d.isRepeated = true ∧
      typeName prototype = typeName d.prototype ∧
      ∀ m, typeName (edit m) = typeName m

/-! ## One extension -/

variable {d : Declaration Message} {e : Extension Message}

variable {v : Value Message}

theorem Value.Of.repeated (h : v.Of d) (hrepeated : d.isRepeated = true) :
    (∃ xs, v = .repeatedScalar xs ∧ cppType d.type = .scalar) ∨
      (∃ xs, v = .repeatedString xs ∧ cppType d.type = .string) ∨
      ∃ ms, v = .repeatedMessage ms ∧ cppType d.type = .message ∧
        ∀ m ∈ ms, typeName m = typeName d.prototype := by
  cases v with
  | repeatedScalar xs => exact Or.inl ⟨xs, rfl, h.1⟩
  | repeatedString xs => exact Or.inr (Or.inl ⟨xs, rfl, h.1⟩)
  | repeatedMessage ms => exact Or.inr (Or.inr ⟨ms, rfl, h.1, h.2.2⟩)
  | scalar bits => exact absurd (h.2.symm.trans hrepeated) (by decide)
  | string value => exact absurd (h.2.symm.trans hrepeated) (by decide)
  | message m => exact absurd (h.2.1.symm.trans hrepeated) (by decide)

theorem Value.Of.singular (h : v.Of d) (hsingular : d.isRepeated = false) :
    (∃ bits, v = .scalar bits ∧ cppType d.type = .scalar) ∨
      (∃ value, v = .string value ∧ cppType d.type = .string) ∨
      ∃ m, v = .message m ∧ cppType d.type = .message ∧ typeName m = typeName d.prototype := by
  cases v with
  | scalar bits => exact Or.inl ⟨bits, rfl, h.1⟩
  | string value => exact Or.inr (Or.inl ⟨value, rfl, h.1⟩)
  | message m => exact Or.inr (Or.inr ⟨m, rfl, h.1, h.2.2⟩)
  | repeatedScalar xs => exact absurd (h.2.symm.trans hsingular) (by decide)
  | repeatedString xs => exact absurd (h.2.symm.trans hsingular) (by decide)
  | repeatedMessage ms => exact absurd (h.2.1.symm.trans hsingular) (by decide)

theorem Value.Of.clearRepeated (h : v.Of d) : v.clearRepeated.Of d := by
  cases v with
  | repeatedMessage ms => exact ⟨h.1, h.2.1, by simp⟩
  | _ => exact h

theorem Value.Of.clearSingular (h : v.Of d) : v.clearSingular.Of d := by
  cases v with
  | message m => exact ⟨h.1, h.2.1, (typeName_clear m).trans h.2.2⟩
  | _ => exact h

theorem Value.Of.mergeRepeated {v w : Value Message} (h : v.Of d) (h' : w.Of d) : (v.mergeRepeated w).Of d := by
  cases v with
  | repeatedScalar xs => cases w <;> exact h
  | repeatedString xs => cases w <;> exact h
  | repeatedMessage ms =>
    cases w with
    | repeatedMessage others =>
      refine ⟨h.1, h.2.1, fun m hm => ?_⟩
      rcases List.mem_append.mp hm with hm | hm
      · exact h.2.2 m hm
      · obtain ⟨other, hother, rfl⟩ := List.mem_map.mp hm
        rw [mergeFrom_new]
        exact h'.2.2 other hother
    | _ => exact h
  | _ => exact h

namespace Extension.Of

theorem clear (h : e.Of d) : e.clear.Of d := by
  obtain ⟨htype, hrepeated, hpacked, hvalue, hcleared⟩ := h
  rw [Extension.clear]
  split_ifs with hr hc
  · refine ⟨htype, hrepeated, hpacked, hvalue.clearRepeated, fun hcl m hm => ?_⟩
    rcases hvalue.repeated (hrepeated.symm.trans hr) with ⟨xs, hv, -⟩ | ⟨xs, hv, -⟩ | ⟨ms, hv, -⟩ <;>
      · rw [hv] at hm
        exact absurd hm (by simp [Value.clearRepeated])
  · exact ⟨htype, hrepeated, hpacked, hvalue, hcleared⟩
  · refine ⟨htype, hrepeated, hpacked, hvalue.clearSingular, fun _ m hm => ?_⟩
    cases hv : e.value with
    | message m₀ =>
      rw [hv] at hm
      exact ⟨m₀, (Value.message.inj hm).symm⟩
    | _ =>
      rw [hv] at hm
      exact absurd hm (by simp [Value.clearSingular])

theorem withDescriptor (h : e.Of d) (descriptor : Option ℕ) :
    ({ e with descriptor } : Extension Message).Of d :=
  ⟨h.type, h.isRepeated, h.isPacked, h.value, h.cleared⟩

variable {v : Value Message}

theorem setValue (h : e.Of d) (hv : v.Of d) :
    ({ e with isCleared := false, value := v } : Extension Message).Of d :=
  ⟨h.type, h.isRepeated, h.isPacked, hv, fun hcleared => absurd hcleared Bool.false_ne_true⟩

theorem addValues (h : e.Of d) (hv : v.Of d) (hrepeated : d.isRepeated = true) :
    ({ e with value := v } : Extension Message).Of d := by
  refine ⟨h.type, h.isRepeated, h.isPacked, hv, fun _ m hm => ?_⟩
  change v = _ at hm
  rcases hv.repeated hrepeated with ⟨xs, rfl, -⟩ | ⟨xs, rfl, -⟩ | ⟨ms, rfl, -⟩ <;>
    exact absurd hm (by simp)

theorem ofNew {type : UInt8} {repeated packed : Bool} {descriptor : Option ℕ}
    (htype : type = d.type) (hrepeated : repeated = d.isRepeated)
    (hpacked : d.isRepeated = true → packed = d.isPacked) (hv : v.Of d) :
    (⟨v, type, repeated, false, packed, descriptor⟩ : Extension Message).Of d :=
  ⟨htype, hrepeated, hpacked, hv, fun hcleared => absurd hcleared Bool.false_ne_true⟩

end Extension.Of

def OptionOf (d : Declaration Message) (extension : Option (Extension Message)) : Prop :=
  ∀ e, extension = some e → e.Of d

theorem optionOf_some : OptionOf d (some e) ↔ e.Of d := by
  refine ⟨fun h => h e rfl, fun h e' he' => ?_⟩
  cases he'
  exact h

variable {extension : Option (Extension Message)}

/-- **A setter** writes an extension as declared. -/
theorem Write.Of.apply {write : Write Message} (h : write.Of d)
    (hext : OptionOf d extension) (descriptor : Option ℕ) :
    (write.apply extension.isNone { extension.getD Extension.zero with descriptor }).Of d := by
  cases extension with
  | none =>
    cases write with
    | setScalar type value =>
      obtain ⟨htype, hkind, hsingular⟩ := h
      exact .ofNew htype hsingular.symm (by simp [hsingular]) ⟨hkind, hsingular⟩
    | addScalar type packed value =>
      obtain ⟨htype, hpacked, hkind, hrepeated⟩ := h
      exact .ofNew htype hrepeated.symm (fun _ => hpacked) ⟨hkind, hrepeated⟩
    | setString type value =>
      obtain ⟨htype, hkind, hsingular⟩ := h
      exact .ofNew htype hsingular.symm (by simp [hsingular]) ⟨hkind, hsingular⟩
    | addString type value =>
      obtain ⟨htype, hpacked, hkind, hrepeated⟩ := h
      exact .ofNew htype hrepeated.symm (fun _ => hpacked.symm) ⟨hkind, hrepeated⟩
    | mutableMessage type prototype edit =>
      obtain ⟨htype, hkind, hsingular, hprototype, hedit⟩ := h
      refine .ofNew htype hsingular.symm (by simp [hsingular]) ⟨hkind, hsingular, ?_⟩
      rw [hedit, typeName_new, hprototype]
    | addMessage type prototype edit =>
      obtain ⟨htype, hpacked, hkind, hrepeated, hprototype, hedit⟩ := h
      refine .ofNew htype hrepeated.symm (fun _ => hpacked.symm) ⟨hkind, hrepeated, ?_⟩
      intro m hm
      obtain rfl := List.mem_singleton.mp hm
      rw [hedit, typeName_new, hprototype]
  | some e =>
    have he := (optionOf_some.mp hext).withDescriptor descriptor
    cases write with
    | setScalar type value => exact he.setValue h.2
    | addScalar type packed value =>
      obtain ⟨-, -, hkind, hrepeated⟩ := h
      have hone : (Value.repeatedScalar [value] : Value Message).Of d := ⟨hkind, hrepeated⟩
      exact he.addValues (he.value.mergeRepeated hone) hrepeated
    | setString type value => exact he.setValue h.2
    | addString type value =>
      obtain ⟨-, -, hkind, hrepeated⟩ := h
      have hone : (Value.repeatedString [value] : Value Message).Of d := ⟨hkind, hrepeated⟩
      exact he.addValues (he.value.mergeRepeated hone) hrepeated
    | mutableMessage type prototype edit =>
      obtain ⟨-, -, -, -, hedit⟩ := h
      refine he.setValue ?_
      have hvalue := he.value
      dsimp only [Write.apply, Option.getD_some] at hvalue ⊢
      cases hv : e.value with
      | message m =>
        rw [hv] at hvalue
        exact ⟨hvalue.1, hvalue.2.1, (hedit m).trans hvalue.2.2⟩
      | _ =>
        rw [hv] at hvalue
        exact hvalue
    | addMessage type prototype edit =>
      obtain ⟨-, -, -, hrepeated, hprototype, hedit⟩ := h
      refine he.addValues ?_ hrepeated
      have hvalue := he.value
      dsimp only [Write.apply, Option.getD_some] at hvalue ⊢
      cases hv : e.value with
      | repeatedMessage ms =>
        rw [hv] at hvalue
        refine ⟨hvalue.1, hvalue.2.1, fun m hm => ?_⟩
        rcases List.mem_append.mp hm with hm | hm
        · exact hvalue.2.2 m hm
        · obtain rfl := List.mem_singleton.mp hm
          rw [hedit, typeName_new, hprototype]
      | _ =>
        rw [hv] at hvalue
        exact hvalue

/-- **`InternalExtensionMergeFrom`** leaves an extension as declared. -/
theorem OptionOf.merged {other : Extension Message}
    (h : OptionOf d extension) (ho : other.Of d) : OptionOf d (merged extension other) := by
  rw [Extensions.merged]
  dsimp only
  split_ifs with hr hc
  · have hrepeated : d.isRepeated = true := ho.isRepeated.symm.trans hr
    refine optionOf_some.mpr ?_
    cases extension with
    | none =>
      exact .ofNew ho.type hrepeated.symm ho.isPacked (ho.value.clearRepeated.mergeRepeated ho.value)
    | some e =>
      have he := (optionOf_some.mp h).withDescriptor other.descriptor
      exact he.addValues (he.value.mergeRepeated ho.value) hrepeated
  · exact h
  · have hsingular : d.isRepeated = false := ho.isRepeated.symm.trans (by simpa using hr)
    have hwrites : ∀ write : Write Message, write.Of d →
        OptionOf d (some (write.apply extension.isNone
          { extension.getD Extension.zero with descriptor := other.descriptor })) :=
      fun write hwrite => optionOf_some.mpr (hwrite.apply h other.descriptor)
    have hvalue := ho.value
    rcases hvalue.singular hsingular with ⟨bits, hv, hkind⟩ | ⟨value, hv, hkind⟩ | ⟨m, hv, hkind, hm⟩
    · rw [hv]
      exact hwrites (.setScalar other.type bits) ⟨ho.type, hkind, hsingular⟩
    · rw [hv]
      exact hwrites (.setString other.type value) ⟨ho.type, hkind, hsingular⟩
    · rw [hv]
      refine optionOf_some.mpr ?_
      cases extension with
      | none =>
        refine .ofNew ho.type hsingular.symm ho.isPacked ⟨hkind, hsingular, ?_⟩
        rw [mergeFrom_new, hm]
      | some e =>
        have he := (optionOf_some.mp h).withDescriptor other.descriptor
        refine he.setValue ?_
        have hold := he.value
        dsimp only [Option.getD_some] at hold ⊢
        cases he' : e.value with
        | message target =>
          rw [he'] at hold
          exact ⟨hold.1, hold.2.1, (typeName_mergeFrom _ _).trans hold.2.2⟩
        | _ =>
          rw [he'] at hold
          exact hold

/-! ## Sets and runs -/

def PlainTyped (D : ℤ → Declaration Message) (f : Plain Message) : Prop :=
  ∀ key, OptionOf (D key) (f key)

def Typed (D : ℤ → Declaration Message) (s : ExtensionSet Message) : Prop :=
  ∃ f, Represents s f ∧ PlainTyped D f

variable {D : ℤ → Declaration Message} {f g : Plain Message}

theorem plainTyped_none : PlainTyped D fun _ => none := fun _ _ h => absurd h (by simp)

theorem typed_new : Typed D (ExtensionSet.new : ExtensionSet Message) :=
  ⟨_, new_represents, plainTyped_none⟩

theorem PlainTyped.update (h : PlainTyped D f) {number : ℤ}
    (hext : OptionOf (D number) extension) : PlainTyped D (update f number extension) := by
  intro key
  by_cases hkey : key = number
  · subst hkey
    rwa [Function.update_self]
  · rw [Function.update_of_ne hkey]
    exact h key

variable {ι : Type} [DecidableEq ι]

/-- The arguments of a call are those of the declarations. -/
def Op.Of (D : ℤ → Declaration Message) : Op ι Message → Prop
  | .set _ number _ write => write.Of (D number)
  | _ => True

/-- **One call** keeps the maps typed. -/
theorem plainStep_typed {p : ι → Plain Message} (h : ∀ i, PlainTyped D (p i)) {op : Op ι Message}
    (hop : op.Of D) : ∀ i, PlainTyped D (plainStep p op i) := by
  have hupdate : ∀ {p : ι → Plain Message} (i : ι) {f : Plain Message}, (∀ j, PlainTyped D (p j)) →
      PlainTyped D f → ∀ j, PlainTyped D (update p i f j) := by
    intro p i f h hf j
    by_cases hj : j = i
    · subst hj
      rwa [Function.update_self]
    · rw [Function.update_of_ne hj]
      exact h j
  cases op with
  | set i number descriptor write =>
    exact hupdate i h ((h i).update (optionOf_some.mpr (Write.Of.apply hop (h i number) descriptor)))
  | erase i number => exact hupdate i h ((h i).update fun _ hnone => absurd hnone (by simp))
  | growCapacity i minimumNewCapacity => exact h
  | mergeFrom i other hne =>
    refine hupdate i h fun key => ?_
    cases hother : p other key with
    | none => exact h i key
    | some e => exact (h i key).merged (h other key e hother)
  | clear i =>
    refine hupdate i h fun key e he => ?_
    obtain ⟨e₀, he₀, rfl⟩ := Option.map_eq_some_iff.mp he
    exact (h i key e₀ he₀).clear
  | internalSwap i other => exact hupdate other (hupdate i h (h other)) (h i)
  | swapExtension i other number =>
    rw [plainStep]
    split_ifs with hsame
    · exact h
    · exact hupdate other (hupdate i h ((h i).update (h other number)))
        ((h other).update (h i number))

/-- **The sets that the calls build** are typed. -/
theorem typed_of_exec {ops : List (Op ι Message)} (hops : ∀ op ∈ ops, op.Of D)
    {w : ι → ExtensionSet Message} (h : exec step (fun _ => ExtensionSet.new) ops = some w) (i : ι) :
    Typed D (w i) := by
  obtain ⟨w', hw', hrepresented⟩ := exec_represented new_represented (allReturn_of_exec new_represented h)
  obtain rfl : w' = w := Option.some_inj.mp (hw'.symm.trans h)
  have hfold : ∀ (ops : List (Op ι Message)) (p : ι → Plain Message), (∀ op ∈ ops, op.Of D) →
      (∀ i, PlainTyped D (p i)) → ∀ i, PlainTyped D (ops.foldl plainStep p i) := by
    intro ops
    induction ops with
    | nil => exact fun p _ hp => hp
    | cons op ops ih =>
      intro p hops hp
      exact ih _ (fun op' hmem => hops op' (List.mem_cons_of_mem _ hmem))
        (plainStep_typed hp (hops op List.mem_cons_self))
  exact ⟨_, hrepresented i, hfold ops _ hops (fun _ => plainTyped_none) i⟩

end Protoc.Extensions
