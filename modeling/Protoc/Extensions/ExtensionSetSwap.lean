import Protoc.Extensions.ExtensionTypes

/-!
# The exchange of one extension

`SwapExtension` exchanges the extensions of one number.  Two sets on one arena exchange the
structures.  Otherwise the extensions are copied: through a temporary set, where both sets have
one.
-/

namespace Protoc.Extensions

open Protoc.Lib
open Option
open Protoc.Lib.Sorted
open Function (update)

variable {Message : Type} {e : Extension Message}

namespace ExtensionSet
variable [MessageLite Message]

/-- `SwapExtension`, for sets on different arenas: the two sets. -/
def swapExtensionAcross (s other : ExtensionSet Message) (number : ℤ) :
    Option (ExtensionSet Message × ExtensionSet Message) :=
  match s.findOrNull number, other.findOrNull number with
  | none, none => some (s, other)
  | some thisExt, some otherExt => (new.internalExtensionMergeFrom number otherExt).bind fun temp =>
      let clearedOther := other.modify (lowerBound Prod.fst other.forEach number) Extension.clear
      (clearedOther.internalExtensionMergeFrom number thisExt).bind fun other =>
        let clearedThis := s.modify (lowerBound Prod.fst s.forEach number) Extension.clear
        -- `*temp_ext`, which is null where nothing has been merged
        (temp.findOrNull number).bind fun tempExt =>
          (clearedThis.internalExtensionMergeFrom number tempExt).map fun s => (s, other)
  | none, some otherExt =>
    (s.internalExtensionMergeFrom number otherExt).map fun s => (s, other.erase number)
  | some thisExt, none =>
    (other.internalExtensionMergeFrom number thisExt).map fun other => (s.erase number, other)

/-- `SwapExtension` of two different sets, on one arena or not. -/
def swapExtensionOn (sameArena : Bool) (s other : ExtensionSet Message) (number : ℤ) :
    Option (ExtensionSet Message × ExtensionSet Message) :=
  if sameArena then s.swapExtension other number else s.swapExtensionAcross other number

end ExtensionSet

/-! ## What is seen of an extension -/

/-- What is seen of an extension.  A single extension that is cleared counts as absent; only
repeated extensions are packed, and they are not marked as cleared. -/
def observed (extension : Option (Extension Message)) : Option (Extension Message) :=
  extension.bind fun e =>
    if e.isRepeated then some { e with isCleared := false }
    else if e.isCleared then none
    else some { e with isPacked := false }

def IsCleared (e : Extension Message) : Prop := e.isRepeated = false ∧ e.isCleared = true

/-- The extensions of the number are exchanged as far as can be seen, and all others stay. -/
structure Exchanged (number : ℤ) (s other : ExtensionSet Message)
    (sets : ExtensionSet Message × ExtensionSet Message) : Prop where
  first : observed (sets.1.findOrNull number) = observed (other.findOrNull number)
  second : observed (sets.2.findOrNull number) = observed (s.findOrNull number)
  first_frame : ∀ key, key ≠ number → sets.1.findOrNull key = s.findOrNull key
  second_frame : ∀ key, key ≠ number → sets.2.findOrNull key = other.findOrNull key

theorem exchanged_of_represents {number : ℤ} {s other s' other' : ExtensionSet Message}
    {f o : Plain Message} {x y : Option (Extension Message)} (h : Represents s f)
    (ho : Represents other o) (h' : Represents s' (update f number x))
    (ho' : Represents other' (update o number y)) (hx : observed x = observed (o number))
    (hy : observed y = observed (f number)) : Exchanged number s other (s', other') := by
  constructor
  · rw [h'.findOrNull, Function.update_self, ho.findOrNull, hx]
  · rw [ho'.findOrNull, Function.update_self, h.findOrNull, hy]
  · intro key hkey
    rw [h'.findOrNull, Function.update_of_ne hkey, h.findOrNull]
  · intro key hkey
    rw [ho'.findOrNull, Function.update_of_ne hkey, ho.findOrNull]

theorem observed_eq_of_repeated {a b : Extension Message} (ha : a.isRepeated = true)
    (hb : b.isRepeated = true) (hvalue : a.value = b.value) (htype : a.type = b.type)
    (hpacked : a.isPacked = b.isPacked) (hdescriptor : a.descriptor = b.descriptor) :
    observed (some a) = observed (some b) := by
  obtain ⟨va, ta, ra, ca, pa, da⟩ := a
  obtain ⟨vb, tb, rb, cb, pb, db⟩ := b
  dsimp only at ha hb hvalue htype hpacked hdescriptor
  subst ha hb hvalue htype hpacked hdescriptor
  rfl

theorem observed_eq_of_singular {a b : Extension Message} (ha : a.isRepeated = false)
    (hb : b.isRepeated = false) (hca : a.isCleared = false) (hcb : b.isCleared = false)
    (hvalue : a.value = b.value) (htype : a.type = b.type) (hdescriptor : a.descriptor = b.descriptor) :
    observed (some a) = observed (some b) := by
  obtain ⟨va, ta, ra, ca, pa, da⟩ := a
  obtain ⟨vb, tb, rb, cb, pb, db⟩ := b
  dsimp only at ha hb hca hcb hvalue htype hdescriptor
  subst ha hb hca hcb hvalue htype hdescriptor
  rfl

theorem observed_eq_none (hsingular : e.isRepeated = false) (hcleared : e.isCleared = true) :
    observed (some e) = none := by
  rw [observed, bind_some, if_neg (by simp [hsingular]), if_pos hcleared]

/-! ## Copies -/

section Copies
variable [LawfulMessage Message] {d : Declaration Message} {e' : Extension Message}

theorem map_mergeFrom_new (ms : List Message) :
    (ms.map fun m => MessageLite.mergeFrom (MessageLite.new m) m) = ms := by
  induction ms with
  | nil => rfl
  | cons m ms ih => rw [List.map_cons, ih, LawfulMessage.mergeFrom_new]

theorem mergeRepeated_clear {v w : Value Message} (h : v.Of d) (h' : w.Of d)
    (hrepeated : d.isRepeated = true) : v.clearRepeated.mergeRepeated w = w := by
  rcases h.repeated hrepeated with ⟨xs, rfl, hkind⟩ | ⟨xs, rfl, hkind⟩ | ⟨ms, rfl, hkind, -⟩
  · rcases h'.repeated hrepeated with ⟨ys, rfl, -⟩ | ⟨ys, rfl, hkind'⟩ | ⟨ms, rfl, hkind', -⟩
    · rfl
    · exact absurd (hkind.symm.trans hkind') (by decide)
    · exact absurd (hkind.symm.trans hkind') (by decide)
  · rcases h'.repeated hrepeated with ⟨ys, rfl, hkind'⟩ | ⟨ys, rfl, -⟩ | ⟨ms, rfl, hkind', -⟩
    · exact absurd (hkind.symm.trans hkind') (by decide)
    · rfl
    · exact absurd (hkind.symm.trans hkind') (by decide)
  · rcases h'.repeated hrepeated with ⟨ys, rfl, hkind'⟩ | ⟨ys, rfl, hkind'⟩ | ⟨others, rfl, -, -⟩
    · exact absurd (hkind.symm.trans hkind') (by decide)
    · exact absurd (hkind.symm.trans hkind') (by decide)
    · exact congrArg Value.repeatedMessage (map_mergeFrom_new others)

theorem mergeFrom_clear_value {m : Message} (h' : e'.Of d) (hm : (Value.message m).Of d) :
    ∃ target, e'.clear.value = .message target ∧ MessageLite.mergeFrom target m = m := by
  obtain ⟨hkind, hsingular, htype⟩ := hm
  have hvalue := h'.value
  rcases hvalue.singular hsingular with ⟨bits, -, hk⟩ | ⟨value, -, hk⟩ | ⟨target, hv, -, ht⟩
  · exact absurd (hk.symm.trans hkind) (by decide)
  · exact absurd (hk.symm.trans hkind) (by decide)
  have hr : ¬ e'.isRepeated = true := by rw [h'.isRepeated, hsingular]; decide
  rw [Extension.clear, if_neg hr]
  split_ifs with hc
  · obtain ⟨m₀, rfl⟩ := h'.cleared hc target hv
    rw [LawfulMessage.typeName_clear] at ht
    exact ⟨_, hv, LawfulMessage.mergeFrom_clear _ _ (ht.trans htype.symm)⟩
  · refine ⟨MessageLite.clear target, ?_, LawfulMessage.mergeFrom_clear _ _ (ht.trans htype.symm)⟩
    change e'.value.clearSingular = _
    rw [hv]
    rfl

theorem clear_type (e' : Extension Message) : e'.clear.type = e'.type := by
  rw [Extension.clear]
  split_ifs <;> rfl

theorem clear_isRepeated (e' : Extension Message) : e'.clear.isRepeated = e'.isRepeated := by
  rw [Extension.clear]
  split_ifs <;> rfl

theorem clear_isPacked (e' : Extension Message) : e'.clear.isPacked = e'.isPacked := by
  rw [Extension.clear]
  split_ifs <;> rfl

theorem clear_value_of_isRepeated (h : e'.isRepeated = true) : e'.clear.value = e'.value.clearRepeated := by
  rw [Extension.clear, if_pos h]

theorem isCleared_clear (h : e'.isRepeated = false) : e'.clear.isCleared = true := by
  rw [Extension.clear, if_neg (by simp [h])]
  split_ifs with hc
  · exact hc
  · rfl

/-- **An extension merged where there is none.** -/
theorem observed_merged_none (h : e.Of d) : observed (merged none e) = observed (some e) := by
  have hvalue := h.value
  rw [merged]
  dsimp only
  split_ifs with hr hc
  · have hrepeated : d.isRepeated = true := h.isRepeated.symm.trans hr
    exact observed_eq_of_repeated rfl hr (mergeRepeated_clear hvalue hvalue hrepeated) rfl rfl rfl
  · exact (observed_eq_none (by simpa using hr) hc).symm
  · have hr' : e.isRepeated = false := by simpa using hr
    have hc' : e.isCleared = false := by simpa using hc
    rcases hvalue.singular (h.isRepeated.symm.trans hr') with ⟨bits, hv, -⟩ | ⟨value, hv, -⟩ | ⟨m, hv, -⟩
    · rw [hv]
      exact observed_eq_of_singular rfl hr' rfl hc' hv.symm rfl rfl
    · rw [hv]
      exact observed_eq_of_singular rfl hr' rfl hc' hv.symm rfl rfl
    · rw [hv]
      refine observed_eq_of_singular rfl hr' rfl hc' ?_ rfl rfl
      rw [hv]
      exact congrArg Value.message (LawfulMessage.mergeFrom_new m)

/-- **An extension merged into a cleared one.** -/
theorem observed_merged_clear (h : e.Of d) (h' : e'.Of d) :
    observed (merged (some e'.clear) e) = observed (some e) := by
  have hvalue := h.value
  have htype : e'.clear.type = e.type := by rw [clear_type, h'.type, h.type]
  have hsame : e'.clear.isRepeated = e.isRepeated := by rw [clear_isRepeated, h'.isRepeated, h.isRepeated]
  rw [merged]
  dsimp only
  split_ifs with hr hc
  · have hrepeated : d.isRepeated = true := h.isRepeated.symm.trans hr
    refine observed_eq_of_repeated (hsame.trans hr) hr ?_ htype ?_ rfl
    · change e'.clear.value.mergeRepeated e.value = e.value
      rw [clear_value_of_isRepeated (h'.isRepeated.trans hrepeated)]
      exact mergeRepeated_clear h'.value hvalue hrepeated
    · change e'.clear.isPacked = e.isPacked
      rw [clear_isPacked, h'.isPacked hrepeated, h.isPacked hrepeated]
  · have hr' : e.isRepeated = false := by simpa using hr
    rw [observed_eq_none hr' hc]
    refine observed_eq_none (hsame.trans hr') (isCleared_clear ?_)
    rw [h'.isRepeated, ← h.isRepeated, hr']
  · have hr' : e.isRepeated = false := by simpa using hr
    have hc' : e.isCleared = false := by simpa using hc
    rcases hvalue.singular (h.isRepeated.symm.trans hr') with ⟨bits, hv, -⟩ | ⟨value, hv, -⟩ | ⟨m, hv, -⟩
    · rw [hv]
      exact observed_eq_of_singular (hsame.trans hr') hr' rfl hc' hv.symm htype rfl
    · rw [hv]
      exact observed_eq_of_singular (hsame.trans hr') hr' rfl hc' hv.symm htype rfl
    · rw [hv] at hvalue
      obtain ⟨target, htarget, hmerge⟩ := mergeFrom_clear_value h' hvalue
      rw [hv]
      refine observed_eq_of_singular (hsame.trans hr') hr' rfl hc' ?_ htype rfl
      dsimp only [getD_some]
      rw [htarget, hv]
      exact congrArg Value.message hmerge

end Copies

/-! ## The exchange -/

section Exchange
variable [LawfulMessage Message] {D : ℤ → Declaration Message} {s other : ExtensionSet Message}
variable {f o : Plain Message} {number : ℤ}

theorem merged_none_eq_none_iff {d : Declaration Message} (h : e.Of d) : merged none e = none ↔ IsCleared e := by
  constructor
  · intro hnone
    have hobserved := observed_merged_none h
    rw [hnone, observed, observed, bind_some] at hobserved
    split_ifs at hobserved with hr hc
    · exact absurd hobserved.symm (by simp)
    · exact ⟨by simpa using hr, hc⟩
    · exact absurd hobserved.symm (by simp)
  · rintro ⟨hr, hc⟩
    rw [merged]
    dsimp only
    rw [if_neg (by simp [hr]), if_pos hc]

/-- Two maps after an exchange: those of the number look as the other one did before, and are as
declared. -/
structure PlainExchanged (D : ℤ → Declaration Message) (number : ℤ) (f o : Plain Message)
    (sets : ExtensionSet Message × ExtensionSet Message) : Prop where
  first : ∃ x, Represents sets.1 (update f number x) ∧ observed x = observed (o number) ∧
    OptionOf (D number) x
  second : ∃ y, Represents sets.2 (update o number y) ∧ observed y = observed (f number) ∧
    OptionOf (D number) y

namespace Represents

theorem clearAndMerge (h : Represents s f) {e e' : Extension Message} (hkey : f number = some e') :
    ∃ s', (s.modify (lowerBound Prod.fst s.forEach number) Extension.clear).internalExtensionMergeFrom
        number e = some s' ∧ Represents s' (update f number (merged (some e'.clear) e)) := by
  have hclear := h.modify (h.forEach.getElem?_lowerBound hkey) Extension.clear
  obtain ⟨s', hs', hmerged⟩ := hclear.internalExtensionMergeFrom number e
  rw [Function.update_idem, Function.update_self] at hmerged
  exact ⟨s', hs', hmerged⟩

theorem temp (number : ℤ) (e : Extension Message) :
    ∃ temp, ExtensionSet.new.internalExtensionMergeFrom number e = some temp ∧
      temp.findOrNull number = merged none e := by
  have hnew : Represents (ExtensionSet.new : ExtensionSet Message) fun _ => none := new_represents
  obtain ⟨temp, htemp, hrepresents⟩ := hnew.internalExtensionMergeFrom number e
  refine ⟨temp, htemp, ?_⟩
  rw [hrepresents.findOrNull, Function.update_self]

theorem swapExtensionAcross_eq_none (h : Represents s f) (ho : Represents other o)
    (ht : PlainTyped D o) (hthis : f number ≠ none) (hother : o number = some e) (hc : IsCleared e) :
    s.swapExtensionAcross other number = none := by
  obtain ⟨thisExt, hthis⟩ := Option.ne_none_iff_exists'.mp hthis
  obtain ⟨temp, htemp, hfind⟩ := temp number e
  obtain ⟨other', hother', -⟩ := ho.clearAndMerge (e := thisExt) hother
  rw [(merged_none_eq_none_iff (ht number e hother)).mpr hc] at hfind
  rw [ExtensionSet.swapExtensionAcross, h.findOrNull, ho.findOrNull, hthis, hother]
  dsimp only
  rw [htemp, bind_some, hother', bind_some, hfind, bind_none]

/-- **`SwapExtension` across arenas** exchanges the extensions otherwise. -/
theorem swapExtensionAcross (h : Represents s f) (ho : Represents other o) (ht : PlainTyped D f)
    (ht' : PlainTyped D o) (hsafe : ¬ (f number ≠ none ∧ ∃ e, o number = some e ∧ IsCleared e)) :
    ∃ sets, s.swapExtensionAcross other number = some sets ∧ PlainExchanged D number f o sets := by
  rw [ExtensionSet.swapExtensionAcross, h.findOrNull, ho.findOrNull]
  have hfirst := ht number
  have hsecond := ht' number
  cases hthis : f number with
  | none =>
    rw [hthis] at hfirst
    cases hother : o number with
    | none =>
      refine ⟨_, rfl, ⟨none, ?_, by rw [hother], hfirst⟩, ⟨none, ?_, by rw [hthis], hfirst⟩⟩
      · rw [Function.update_eq_self_iff.mpr hthis.symm]
        exact h
      · rw [Function.update_eq_self_iff.mpr hother.symm]
        exact ho
    | some otherExt =>
      have he := hsecond otherExt hother
      obtain ⟨s', hs', hrepresents⟩ := h.internalExtensionMergeFrom number otherExt
      rw [hthis] at hrepresents
      dsimp only
      rw [hs']
      refine ⟨_, rfl, ⟨_, hrepresents, ?_, hfirst.merged he⟩, ⟨none, ho.erase number, ?_, hfirst⟩⟩
      · rw [hother]
        exact observed_merged_none he
      · rw [hthis]
  | some thisExt =>
    have he := hfirst thisExt hthis
    cases hother : o number with
    | none =>
      rw [hother] at hsecond
      obtain ⟨other', hother', hrepresents⟩ := ho.internalExtensionMergeFrom number thisExt
      rw [hother] at hrepresents
      dsimp only
      rw [hother']
      refine ⟨_, rfl, ⟨none, h.erase number, ?_, hsecond⟩, ⟨_, hrepresents, ?_, hsecond.merged he⟩⟩
      · rw [hother]
      · rw [hthis]
        exact observed_merged_none he
    | some otherExt =>
      have he' := hsecond otherExt hother
      obtain ⟨temp, htemp, hfind⟩ := temp number otherExt
      have hmerged : merged none otherExt ≠ none := by
        intro hnone
        have hc := (merged_none_eq_none_iff he').mp hnone
        exact hsafe ⟨by simp [hthis], otherExt, hother, hc⟩
      obtain ⟨tempExt, htempExt⟩ := Option.ne_none_iff_exists'.mp hmerged
      have hnothing : OptionOf (D number) none := fun _ habsurd => absurd habsurd (by simp)
      have hte : tempExt.Of (D number) := hnothing.merged he' tempExt htempExt
      obtain ⟨other', hother', hrepresents'⟩ := ho.clearAndMerge (e := thisExt) hother
      obtain ⟨s', hs', hrepresents⟩ := h.clearAndMerge (e := tempExt) hthis
      rw [htempExt] at hfind
      dsimp only
      rw [htemp, bind_some, hother', bind_some, hfind, bind_some, hs']
      refine ⟨_, rfl, ⟨_, hrepresents, ?_, ?_⟩, ⟨_, hrepresents', ?_, ?_⟩⟩
      · rw [observed_merged_clear hte he, hother, ← htempExt]
        exact observed_merged_none he'
      · exact (optionOf_some.mpr he.clear).merged hte
      · rw [observed_merged_clear he he', hthis]
      · exact (optionOf_some.mpr he'.clear).merged he

end Represents

theorem Represents.swapExtensionOn {sameArena : Bool} (h : Represents s f) (ho : Represents other o)
    (ht : PlainTyped D f) (ht' : PlainTyped D o)
    (hsafe : ¬ (sameArena = false ∧ f number ≠ none ∧ ∃ e, o number = some e ∧ IsCleared e)) :
    ∃ sets, s.swapExtensionOn sameArena other number = some sets ∧ PlainExchanged D number f o sets := by
  rw [ExtensionSet.swapExtensionOn]
  cases sameArena with
  | true =>
    obtain ⟨sets, hsets, hfirst, hsecond⟩ := h.swapExtension ho number
    exact ⟨sets, hsets, ⟨_, hfirst, rfl, ht' number⟩, ⟨_, hsecond, rfl, ht number⟩⟩
  | false => exact h.swapExtensionAcross ho ht ht' fun hnull => hsafe ⟨rfl, hnull⟩

theorem PlainExchanged.exchanged {sets : ExtensionSet Message × ExtensionSet Message}
    (hsets : PlainExchanged D number f o sets) (h : Represents s f) (ho : Represents other o) :
    Exchanged number s other sets := by
  obtain ⟨⟨x, hx, hseen, -⟩, ⟨y, hy, hseen', -⟩⟩ := hsets
  exact exchanged_of_represents h ho hx hy hseen hseen'

theorem Typed.swapExtensionOn_eq_none (h : Typed D s) (ho : Typed D other)
    (hthis : s.findOrNull number ≠ none) (hother : other.findOrNull number = some e)
    (hc : IsCleared e) : s.swapExtensionOn false other number = none := by
  obtain ⟨f, h, -⟩ := h
  obtain ⟨o, ho, ht'⟩ := ho
  rw [h.findOrNull] at hthis
  rw [ho.findOrNull] at hother
  exact h.swapExtensionAcross_eq_none ho ht' hthis hother hc

end Exchange

/-! ## Messages with one field -/

/-- Messages with one optional field. -/
instance lawfulMessageOption : LawfulMessage (Option ℕ) where
  new _ := none
  clear _ := none
  mergeFrom message other := other <|> message
  typeName _ := []
  typeName_new _ := rfl
  typeName_clear _ := rfl
  typeName_mergeFrom _ _ := rfl
  mergeFrom_new message := by cases message <;> rfl
  mergeFrom_clear _ other _ := by cases other <;> rfl

/-- Every number is that of an `int32`. -/
def int32Declaration : Declaration (Option ℕ) := ⟨5, false, false, none⟩

/-- `SetInt32` on both sets; then the second one is cleared. -/
def setAndClear : List (Op Bool (Option ℕ)) :=
  [.set false 1 none (.setScalar 5 7), .set true 1 none (.setScalar 5 8), .clear true]

theorem setAndClear_of : ∀ op ∈ setAndClear, op.Of fun _ => int32Declaration := by
  intro op hop
  simp only [setAndClear, List.mem_cons, List.not_mem_nil, or_false] at hop
  rcases hop with rfl | rfl | rfl
  · exact ⟨rfl, rfl, rfl⟩
  · exact ⟨rfl, rfl, rfl⟩
  · exact trivial

end Protoc.Extensions
