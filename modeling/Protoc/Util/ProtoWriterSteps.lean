import Protoc.Io.VarintCodec
import Protoc.Util.ProtoWriter

/-!
# What events add

A writer that takes an event without an error adds the bytes of its fields, and notes the
lengths that are missing.  An object in a field that is no message is taken without an error,
and gets no length.
-/

namespace Protoc.Util.Converter

open Protoc.Io Protoc.Lib ProtoWriter

/-! ## The encoding -/

section
variable (typeinfo : TypeInfo) (options : Options)

/-- The field that a name stands for, in an object or a list of the type.  No name stands for
the repeated field that the object or list is in. -/
def acceptedField (type : MessageType) (parentField : Option Field) (name : Text) : Option Field :=
  if name = [] then parentField.filter isRepeated else typeinfo.findField type name

def accepted (type : MessageType) (parentField : Option Field) (name : Text) : Option (Field × MessageType) :=
  (acceptedField typeinfo type parentField name).bind fun field =>
    (lookupType typeinfo type field).map fun fieldType => (field, fieldType)

/-- The bytes of a value. -/
def encodeValue (type : MessageType) (parentField : Option Field) (name : Text)
    (data : DataPiece) : List UInt8 :=
  match acceptedField typeinfo type parentField name with
  | none => []
  | some field =>
    match writeValue typeinfo options field data with
    | .ok bytes => bytes
    | .error _ => []

/-- A sub-message: its tag, its length, and its encoding. -/
def encodeMessage (fieldNumber : Int32) (bytes : List UInt8) : List UInt8 :=
  tagBytes fieldNumber .lengthDelimited ++ (varintBytes bytes.length ++ bytes)

/-- The encoding of events in an object or a list of the type: the fields that are accepted, in
the order of the events. -/
def encode (type : MessageType) (parentField : Option Field) : Nested → List UInt8
  | .nil => []
  | .renderDataPiece name data rest =>
    encodeValue typeinfo options type parentField name data ++ encode type parentField rest
  | .object name inside rest =>
    (match accepted typeinfo type parentField name with
      | none => []
      | some (field, fieldType) =>
        encodeMessage field.number (encode fieldType (some field) inside)) ++
      encode type parentField rest
  | .list name inside rest =>
    (match accepted typeinfo type parentField name with
      | none => []
      | some (field, fieldType) => encode fieldType (some field) inside) ++
      encode type parentField rest

/-- Every object that is accepted is in a field that is a message. -/
def ObjectsAreMessages (type : MessageType) (parentField : Option Field) : Nested → Prop
  | .nil => True
  | .renderDataPiece _ _ rest => ObjectsAreMessages type parentField rest
  | .object name inside rest =>
    (match accepted typeinfo type parentField name with
      | none => True
      | some (field, fieldType) =>
        field.kind = .message ∧ ObjectsAreMessages fieldType (some field) inside) ∧
      ObjectsAreMessages type parentField rest
  | .list name inside rest =>
    (match accepted typeinfo type parentField name with
      | none => True
      | some (field, fieldType) => ObjectsAreMessages fieldType (some field) inside) ∧
      ObjectsAreMessages type parentField rest

/-! ## The document -/

theorem tagBytes_ne_nil (fieldNumber : Int32) (wireType : WireType) : tagBytes fieldNumber wireType ≠ [] := by
  intro h
  have hlen := congrArg List.length h
  rw [tagBytes, writeTagToArray, writeVarint32ToArray, length_varintBytes] at hlen
  exact absurd hlen (Nat.succ_ne_zero _)

def fieldTag (field : Field) : { head : List UInt8 // head ≠ [] } :=
  ⟨tagBytes field.number (wireTypeForFieldType field.kind), tagBytes_ne_nil _ _⟩

def enclose (field : Field) (isList : Bool) (inside : Doc UInt8) : Doc UInt8 :=
  if isList then inside
  else if field.kind = .message then .part (fieldTag field) inside .nil
  else .bytes (fieldTag field).1 inside

/-- What the writer takes events for. -/
def document (type : MessageType) (parentField : Option Field) : Nested → Doc UInt8
  | .nil => .nil
  | .renderDataPiece name data rest =>
    .bytes (encodeValue typeinfo options type parentField name data)
      (document type parentField rest)
  | .object name inside rest =>
    (match accepted typeinfo type parentField name with
      | none => Doc.nil
      | some (field, fieldType) =>
        enclose field false (document fieldType (some field) inside)).append
      (document type parentField rest)
  | .list name inside rest =>
    (match accepted typeinfo type parentField name with
      | none => Doc.nil
      | some (field, fieldType) =>
        enclose field true (document fieldType (some field) inside)).append
      (document type parentField rest)

end

def lengthBytes (size : ℕ) : List UInt8 := writeVarint32ToArray (toUInt32 size)

theorem toUInt32_natCast (n : ℕ) : (toUInt32 n).toNat = n % 2 ^ 32 := by
  have hcast : ((n : ℤ) % 2 ^ 32).toNat = n % 2 ^ 32 := by omega
  rw [toUInt32, hcast, UInt32.toNat_ofNat', Nat.mod_mod]

theorem lengthBytes_eq {size : ℕ} (h : size < 2 ^ 32) : lengthBytes size = varintBytes size := by
  rw [lengthBytes, writeVarint32ToArray, toUInt32_natCast, Nat.mod_eq_of_lt h]

theorem length_varintBytes_mono {m n : ℕ} (h : m ≤ n) : (varintBytes m).length ≤ (varintBytes n).length := by
  rw [length_varintBytes, length_varintBytes]
  have hlog : m.log2 ≤ n.log2 := by
    rcases Nat.eq_zero_or_pos m with rfl | hpos
    · exact Nat.zero_le _
    · rw [Nat.le_log2 (by omega)]
      exact le_trans (Nat.log2_self_le hpos.ne') h
  omega

theorem length_lengthBytes_le {m n : ℕ} (h : m ≤ n) : (lengthBytes m).length ≤ (varintBytes n).length := by
  rw [lengthBytes, writeVarint32ToArray, toUInt32_natCast]
  exact length_varintBytes_mono (le_trans (Nat.mod_le _ _) h)

theorem varintSize32_eq (value : UInt32) : varintSize32 value = (writeVarint32ToArray value).length := by
  have hlog : value.toNat.log2 < 64 := by
    rcases Nat.eq_zero_or_pos value.toNat with hzero | hpos
    · rw [hzero]
      decide
    · exact (Nat.log2_lt hpos.ne').mpr (lt_of_lt_of_le value.toNat_lt (by decide))
  rw [varintSize32, writeVarint32ToArray, length_varintBytes, UInt32.toNat_or,
    show (1 : UInt32).toNat = 1 by rfl, log2_or_one, mul_nine_div _ hlog]

/-! ## What events add -/

/-- What does not change in an element while it is open. -/
def ProtoElement.frame (e : ProtoElement) : MessageType × Option Field × Option ℕ :=
  (e.type, e.parentField, e.sizeIndex)

theorem openSizes_congr {es es' : List ProtoElement}
    (h : es'.map ProtoElement.frame = es.map ProtoElement.frame) : openSizes es' = openSizes es := by
  have hframes : ∀ es : List ProtoElement,
      openSizes es = (es.map ProtoElement.frame).filterMap fun f => f.2.2 := by
    intro es
    rw [List.filterMap_map]
    rfl
  rw [hframes, hframes, h]

def SizeInfo.ofGap (gap : ℕ × ℕ) : SizeInfo := ⟨gap.1, gap.2⟩

theorem SizeInfo.grow_zero : SizeInfo.grow 0 = id := by
  funext info
  simp [grow]

theorem SizeInfo.grow_grow (m n : ℤ) (info : SizeInfo) : (info.grow n).grow m = info.grow (n + m) := by
  simp [grow, Int.add_assoc]

theorem SizeInfo.grow_comm (m n : ℤ) (info : SizeInfo) : (info.grow n).grow m = (info.grow m).grow n := by
  rw [grow_grow, grow_grow, Int.add_comm]

theorem modifyAll_grow_zero (indices : List ℕ) (l : List SizeInfo) : modifyAll (.grow 0) indices l = l := by
  rw [SizeInfo.grow_zero, modifyAll_id]

def Within (w : ProtoWriter) : Prop := ∀ i ∈ openSizes w.element, i < w.sizeInsert.length

/-- From `w` to `w'` the document was written, in the same element. -/
structure Wrote (w : ProtoWriter) (d : Doc UInt8) (w' : ProtoWriter) : Prop where
  frames : w'.element.map ProtoElement.frame = w.element.map ProtoElement.frame
  typeinfo : w'.typeinfo = w.typeinfo
  options : w'.options = w.options
  output : w'.output = w.output
  startCount : w'.startCount = w.startCount
  invalidDepth : w'.invalidDepth = w.invalidDepth
  buffer : w'.buffer = w.buffer ++ d.flat
  sizeInsert : w'.sizeInsert =
    modifyAll (.grow (d.extra lengthBytes)) (openSizes w.element) w.sizeInsert ++
      (d.gaps lengthBytes w.buffer.length).map SizeInfo.ofGap

section
variable {w w' w'' : ProtoWriter} {a b d : Doc UInt8}

theorem Wrote.of_nil (hframes : w'.element.map ProtoElement.frame = w.element.map ProtoElement.frame)
    (htypeinfo : w'.typeinfo = w.typeinfo) (hoptions : w'.options = w.options)
    (houtput : w'.output = w.output) (hstart : w'.startCount = w.startCount)
    (hdepth : w'.invalidDepth = w.invalidDepth) (hsizes : w'.sizeInsert = w.sizeInsert)
    {bytes : List UInt8} (hbuffer : w'.buffer = w.buffer ++ bytes) : Wrote w (.bytes bytes .nil) w' where
  frames := hframes
  typeinfo := htypeinfo
  options := hoptions
  output := houtput
  startCount := hstart
  invalidDepth := hdepth
  buffer := by rw [hbuffer, Doc.flat, Doc.flat, List.append_nil]
  sizeInsert := by
    rw [hsizes, Doc.extra, Doc.extra, Doc.gaps, Doc.gaps, List.map_nil, List.append_nil]
    exact (modifyAll_grow_zero _ _).symm

theorem Wrote.head {e : ProtoElement} {rest : List ProtoElement} (h : Wrote w d w')
    (helement : w.element = e :: rest) : ∃ e' rest', w'.element = e' :: rest' ∧ e'.frame = e.frame ∧
      rest'.map ProtoElement.frame = rest.map ProtoElement.frame := by
  have hframes := h.frames
  rw [helement, List.map_cons] at hframes
  obtain ⟨e', rest', helement', he, hrest⟩ := List.map_eq_cons_iff.mp hframes
  exact ⟨e', rest', helement', he, hrest⟩

theorem Wrote.within (h : Wrote w d w') (hwithin : Within w) : Within w' := by
  intro i hi
  rw [openSizes_congr h.frames] at hi
  rw [h.sizeInsert, List.length_append, length_modifyAll]
  exact Nat.lt_add_right _ (hwithin i hi)

theorem Wrote.trans (h : Wrote w a w') (h' : Wrote w' b w'') (hwithin : Within w) :
    Wrote w (a.append b) w'' where
  frames := h'.frames.trans h.frames
  typeinfo := h'.typeinfo.trans h.typeinfo
  options := h'.options.trans h.options
  output := h'.output.trans h.output
  startCount := h'.startCount.trans h.startCount
  invalidDepth := h'.invalidDepth.trans h.invalidDepth
  buffer := by rw [h'.buffer, h.buffer, Doc.flat_append, List.append_assoc]
  sizeInsert := by
    have hopen : ∀ i ∈ openSizes w.element,
        i < (modifyAll (.grow (a.extra lengthBytes)) (openSizes w.element)
          w.sizeInsert).length := by
      intro i hi
      rw [length_modifyAll]
      exact hwithin i hi
    have hgrow : SizeInfo.grow (b.extra lengthBytes) ∘ SizeInfo.grow (a.extra lengthBytes) =
        SizeInfo.grow ((a.append b).extra lengthBytes) := by
      funext info
      rw [Function.comp_apply, SizeInfo.grow_grow, Doc.extra_append, Nat.cast_add]
    rw [h'.sizeInsert, openSizes_congr h.frames, h.sizeInsert, modifyAll_append _ hopen,
      modifyAll_modifyAll (SizeInfo.grow_comm _ _), hgrow, h.buffer, List.length_append,
      Doc.gaps_append, List.map_append, List.append_assoc]

end

/-! ## The errors -/

section
variable {w w' : ProtoWriter}

theorem pushElement_errors (w : ProtoWriter) (field : Field) (type : MessageType) (isList : Bool) :
    (w.pushElement field type isList).errors = w.errors := by
  rw [pushElement]
  split
  · rfl
  · simp only
    split <;> rfl

theorem missingFields_eq (w : ProtoWriter) (fields : List Field) :
    ∃ told : List ErrorCall, told.length = fields.length ∧
      w.missingFields fields = { w with errors := w.errors ++ told } := by
  induction fields generalizing w with
  | nil => exact ⟨[], rfl, by rw [List.append_nil]; rfl⟩
  | cons field fields ih =>
    let missingName := if w.options.useJsonNameInMissingFields then field.jsonName else field.name
    obtain ⟨told, hlen, heq⟩ := ih (w.missingField missingName)
    refine ⟨.missingField w.element missingName :: told, congrArg Nat.succ hlen, ?_⟩
    refine Eq.trans heq ?_
    rw [missingField, List.append_assoc, List.singleton_append]

theorem pop_errors (w : ProtoWriter) : w.errors <+: w.pop.errors := by
  rw [pop]
  split
  · exact List.prefix_rfl
  · rename_i e rest helement
    obtain ⟨told, -, htold⟩ := missingFields_eq w e.requiredFields
    simp only
    split <;> split
    · exact List.prefix_rfl
    · rw [htold]
      exact List.prefix_append _ _
    · exact List.prefix_rfl
    · rw [htold]
      exact List.prefix_append _ _

theorem lookup_errors (w : ProtoWriter) (name : Text) : w.errors <+: (w.lookup name).2.errors := by
  rw [lookup]
  split
  · exact List.prefix_append _ _
  · split
    · split
      · exact List.prefix_append _ _
      · split
        · exact List.prefix_rfl
        · exact List.prefix_append _ _
    · split
      · split
        · exact List.prefix_rfl
        · exact List.prefix_append _ _
      · exact List.prefix_rfl

theorem validOneof_errors (w : ProtoWriter) (field : Field) (name : Text) :
    w.errors <+: (w.validOneof field name).2.errors := by
  rw [validOneof]
  split
  · exact List.prefix_rfl
  · split
    · split
      · exact List.prefix_append _ _
      · exact List.prefix_rfl
    · exact List.prefix_rfl

theorem beginNamed_errors (w : ProtoWriter) (name : Text) (isList : Bool) :
    w.errors <+: (w.beginNamed name isList).2.errors := by
  have hlookup := lookup_errors w name
  rw [beginNamed]
  split
  · exact List.prefix_rfl
  · split
    · rename_i heq
      rw [heq] at hlookup
      exact hlookup
    · rename_i heq
      rw [heq] at hlookup
      split
      · exact hlookup.trans (List.prefix_append _ _)
      · exact hlookup

theorem startField_errors (w : ProtoWriter) (field : Field) (type : MessageType) (isList : Bool) :
    (w.startField field type isList).errors = w.errors := by
  rw [startField]
  split
  · exact pushElement_errors _ _ _ _
  · exact pushElement_errors _ _ _ _

theorem start_errors (w : ProtoWriter) (name : Text) (isList : Bool) :
    w.errors <+: (w.start name isList).errors := by
  have hbegin := beginNamed_errors w name isList
  rw [start]
  split
  · rename_i heq
    rw [heq] at hbegin
    exact hbegin
  · rename_i field w₁ heq
    rw [heq] at hbegin
    have hvalid := validOneof_errors w₁ field name
    split
    · rename_i hone
      rw [hone] at hvalid
      exact hbegin.trans hvalid
    · rename_i hone
      rw [hone] at hvalid
      split
      · exact (hbegin.trans hvalid).trans (List.prefix_append _ _)
      · rw [startField_errors]
        exact hbegin.trans hvalid

theorem renderPrimitiveField_errors (w : ProtoWriter) (field : Field) (type : MessageType)
    (data : DataPiece) : w.errors <+: (w.renderPrimitiveField field type data).errors := by
  have hfirst : (if w.proto3 then w else w.pushElement field type false).errors = w.errors := by
    split
    · rfl
    · exact pushElement_errors _ _ _ _
  rw [renderPrimitiveField]
  generalize (if w.proto3 = true then w else w.pushElement field type false) = w₁ at hfirst ⊢
  rw [← hfirst]
  simp only
  cases writeValue w₁.typeinfo w₁.options field data with
  | ok bytes =>
    simp only
    split
    · exact List.prefix_rfl
    · exact pop_errors (w₁.write bytes)
  | error message =>
    refine List.IsPrefix.trans ?_ (pop_errors _)
    refine List.IsPrefix.trans ?_ (List.prefix_append _ _)
    split
    · exact (pushElement_errors w₁ field type false).symm ▸ List.prefix_rfl
    · exact List.prefix_rfl

theorem perform_errors (w : ProtoWriter) (event : Event) : w.errors <+: (w.perform event).errors := by
  cases event with
  | startObject name =>
    rw [perform, startObject]
    split
    · simp only
      split
      · exact List.prefix_rfl
      · exact List.prefix_append _ _
    · exact start_errors _ _ _
  | endObject =>
    rw [perform, endObject]
    split
    · exact List.prefix_rfl
    · split
      · exact pop_errors w
      · exact pop_errors w
  | startList name => exact start_errors _ _ _
  | endList =>
    rw [perform, endList]
    split
    · exact List.prefix_rfl
    · exact pop_errors w
  | renderDataPiece name data =>
    have hlookup := lookup_errors w name
    rw [perform, renderDataPiece]
    split
    · exact List.prefix_rfl
    · split
      · rename_i heq
        rw [heq] at hlookup
        exact hlookup
      · rename_i field w₁ heq
        rw [heq] at hlookup
        have hvalid := validOneof_errors w₁ field name
        split
        · rename_i hone
          rw [hone] at hvalid
          exact hlookup.trans hvalid
        · rename_i hone
          rw [hone] at hvalid
          split
          · exact (hlookup.trans hvalid).trans (List.prefix_append _ _)
          · exact (hlookup.trans hvalid).trans (renderPrimitiveField_errors _ _ _ _)

theorem performAll_errors (w : ProtoWriter) (events : List Event) :
    w.errors <+: (w.performAll events).errors := by
  induction events generalizing w with
  | nil => exact List.prefix_rfl
  | cons event events ih => exact (perform_errors w event).trans (ih _)

theorem quiet_of_prefix {errors mid last : List ErrorCall} (h : errors <+: mid) (h' : mid <+: last)
    (hquiet : last = errors) : mid = errors := by
  rw [hquiet] at h'
  exact h'.eq_of_length (le_antisymm h'.length_le h.length_le)

theorem quiet_cons {event : Event} {events : List Event}
    (h : (w.performAll (event :: events)).errors = w.errors) : (w.perform event).errors = w.errors ∧
      ((w.perform event).performAll events).errors = (w.perform event).errors := by
  have hmid := quiet_of_prefix (perform_errors w event) (performAll_errors _ events) h
  exact ⟨hmid, h.trans hmid.symm⟩

theorem performAll_append (w : ProtoWriter) (events events' : List Event) :
    w.performAll (events ++ events') = (w.performAll events).performAll events' :=
  List.foldl_append

/-! ## A step without an error -/

theorem ne_append_singleton {α : Type} (l : List α) (a : α) : l ++ [a] ≠ l := by
  intro h
  have hlen := congrArg List.length h
  rw [List.length_append, List.length_singleton] at hlen
  omega

variable {e : ProtoElement} {rest : List ProtoElement} {field : Field} {type : MessageType}
  {name : Text} {isList : Bool}

theorem lookup_quiet (name : Text) (helement : w.element = e :: rest)
    (hquiet : (w.lookup name).2.errors = w.errors) :
    w.lookup name = (acceptedField w.typeinfo e.type e.parentField name, w) := by
  rw [lookup, helement] at hquiet ⊢
  rw [acceptedField]
  simp only at hquiet ⊢
  by_cases hname : name = []
  · rw [if_pos hname] at hquiet ⊢
    rw [if_pos hname]
    cases hparent : e.parentField with
    | none =>
      rw [hparent] at hquiet
      exact absurd hquiet (ne_append_singleton _ _)
    | some field =>
      rw [hparent] at hquiet
      simp only at hquiet ⊢
      by_cases hrepeated : isRepeated field = true
      · rw [if_pos hrepeated, Option.filter_some, if_pos hrepeated]
      · rw [if_neg hrepeated] at hquiet
        exact absurd hquiet (ne_append_singleton _ _)
  · rw [if_neg hname] at hquiet ⊢
    rw [if_neg hname]
    cases hfind : w.typeinfo.findField e.type name with
    | none =>
      rw [hfind] at hquiet
      simp only at hquiet ⊢
      split
      · rfl
      · rename_i hignore
        rw [if_neg hignore] at hquiet
        exact absurd hquiet (ne_append_singleton _ _)
    | some field => rfl

theorem validOneof_quiet (field : Field) (name : Text) (helement : w.element = e :: rest)
    (hquiet : (w.validOneof field name).2.errors = w.errors) :
    (w.validOneof field name).1 = true ∧ Wrote w (.bytes [] .nil) (w.validOneof field name).2 := by
  have hsame : Wrote w (.bytes [] .nil) w :=
    .of_nil rfl rfl rfl rfl rfl rfl rfl (List.append_nil _).symm
  rw [validOneof, helement] at hquiet ⊢
  simp only at hquiet ⊢
  by_cases hindex : 0 < field.oneofIndex
  · rw [if_pos hindex] at hquiet ⊢
    by_cases htaken : e.isOneofIndexTaken field.oneofIndex = true
    · rw [if_pos htaken] at hquiet
      exact absurd hquiet (ne_append_singleton _ _)
    · rw [if_neg htaken]
      have hframes : (e.takeOneofIndex field.oneofIndex :: rest).map ProtoElement.frame =
          w.element.map ProtoElement.frame := by
        rw [helement]
        rfl
      exact ⟨rfl, hframes, rfl, rfl, rfl, rfl, rfl, hsame.buffer, hsame.sizeInsert⟩
  · rw [if_neg hindex]
    exact ⟨rfl, hsame⟩

theorem pop_quiet (helement : w.element = e :: rest) (hquiet : w.pop.errors = w.errors) :
    w.pop = match e.sizeIndex with
      | none => { w with element := rest }
      | some index => { w with element := rest, sizeInsert := w.closeSize index rest } := by
  have hsame : (if e.proto3 then w else w.missingFields e.requiredFields) = w := by
    by_cases hproto3 : e.proto3 = true
    · rw [if_pos hproto3]
    · obtain ⟨told, hlen, htold⟩ := missingFields_eq w e.requiredFields
      rw [if_neg hproto3]
      rw [pop, helement] at hquiet
      simp only [hproto3, htold] at hquiet
      have hnil : told = [] := by
        have herrors : w.errors ++ told = w.errors := by
          cases hindex : e.sizeIndex with
          | none => simpa [hindex] using hquiet
          | some index => simpa [hindex] using hquiet
        simpa using herrors
      rw [htold, hnil, List.append_nil]
  cases hindex : e.sizeIndex with
  | none => simp only [pop, helement, hsame, hindex]
  | some index => simp only [pop, helement, hsame, hindex]

end

/-! ## Values -/

section
variable {w w' : ProtoWriter} {e : ProtoElement} {rest : List ProtoElement} {field : Field}
  {type : MessageType} {name : Text} {isList : Bool} {d : Doc UInt8}

theorem updateParent_frame (parent : ProtoElement) (field : Field) (type : MessageType)
    (isList : Bool) : (updateParent parent field type isList).frame = parent.frame := by
  rw [updateParent]
  split
  · rfl
  · split
    · split <;> rfl
    · split
      · rfl
      · rw [ProtoElement.registerField]
        split <;> rfl

theorem pushElement_plain (type : MessageType) (helement : w.element = e :: rest)
    (hplain : ¬ (isList = false ∧ field.kind = .message)) :
    ∃ c e', w.pushElement field type isList = { w with element := c :: e' :: rest } ∧
      c.type = type ∧ c.parentField = some field ∧ c.sizeIndex = none ∧ c.requiredFields = [] ∧
      e'.frame = e.frame := by
  rw [pushElement, helement]
  simp only
  rw [if_neg hplain]
  exact ⟨_, _, rfl, rfl, rfl, rfl, rfl, updateParent_frame e field type isList⟩

theorem pushElement_message (type : MessageType) (helement : w.element = e :: rest)
    (hkind : field.kind = .message) :
    ∃ c e', w.pushElement field type false = { w with
        element := c :: e' :: rest
        sizeInsert := w.sizeInsert ++ [⟨w.byteCount, -w.byteCount⟩] } ∧
      c.type = type ∧ c.parentField = some field ∧ c.sizeIndex = some w.sizeInsert.length ∧
      e'.frame = e.frame := by
  rw [pushElement, helement]
  simp only
  rw [if_pos ⟨trivial, hkind⟩]
  exact ⟨_, _, rfl, rfl, rfl, rfl, updateParent_frame e field type false⟩

theorem kind_of_ok {typeinfo : TypeInfo} {options : Options} {data : DataPiece}
    {bytes : List UInt8} (h : writeValue typeinfo options field data = .ok bytes) :
    ¬ (field.kind = .message ∨ field.kind = .group) := by
  rintro (hkind | hkind)
  · simp [writeValue, hkind] at h
  · simp [writeValue, hkind] at h

theorem frames_cons {e' : ProtoElement} (helement : w.element = e :: rest) (he : e'.frame = e.frame) :
    (e' :: rest).map ProtoElement.frame = w.element.map ProtoElement.frame := by
  rw [helement, List.map_cons, List.map_cons, he]

theorem renderPrimitiveField_quiet (helement : w.element = e :: rest) {data : DataPiece}
    (hlookup : lookupType w.typeinfo e.type field = some type)
    (hquiet : (w.renderPrimitiveField field type data).errors = w.errors) :
    ∃ bytes, writeValue w.typeinfo w.options field data = .ok bytes ∧
      Wrote w (.bytes bytes .nil) (w.renderPrimitiveField field type data) := by
  -- the state in which the value is written
  obtain ⟨w₁, hw₁, herrors, htypeinfo, hoptions⟩ : ∃ w₁,
      (if w.proto3 then w else w.pushElement field type false) = w₁ ∧ w₁.errors = w.errors ∧
        w₁.typeinfo = w.typeinfo ∧ w₁.options = w.options := by
    refine ⟨_, rfl, ?_⟩
    split
    · exact ⟨rfl, rfl, rfl⟩
    · refine ⟨pushElement_errors _ _ _ _, ?_⟩
      rw [pushElement]
      split
      · exact ⟨rfl, rfl⟩
      · simp only
        split <;> exact ⟨rfl, rfl⟩
  rw [renderPrimitiveField, hw₁] at hquiet ⊢
  simp only at hquiet ⊢
  rw [htypeinfo, hoptions] at hquiet ⊢
  cases hvalue : writeValue w.typeinfo w.options field data with
  | error message =>
    rw [hvalue] at hquiet
    simp only at hquiet
    obtain ⟨w₂, hw₂, herrors₂⟩ : ∃ w₂,
        (if w₁.proto3 then w₁.pushElement field type false else w₁) = w₂ ∧
          w₂.errors = w.errors := by
      refine ⟨_, rfl, ?_⟩
      split
      · rw [pushElement_errors, herrors]
      · exact herrors
    rw [hw₂] at hquiet
    have htold := pop_errors
      (w₂.invalidValue (if field.typeUrl = [] then field.kind.name else field.typeUrl) message)
    rw [hquiet, invalidValue, herrors₂] at htold
    have hlen := htold.length_le
    rw [List.length_append, List.length_singleton] at hlen
    omega
  | ok bytes =>
    refine ⟨bytes, rfl, ?_⟩
    rw [hvalue] at hquiet
    simp only at hquiet ⊢
    have hkind := kind_of_ok hvalue
    have hplain : ¬ (false = false ∧ field.kind = .message) := fun h => hkind (.inl h.2)
    by_cases hproto3 : w.proto3 = true
    · rw [if_pos hproto3] at hw₁
      subst hw₁
      have hsame : (w.write bytes).proto3 = true := hproto3
      rw [if_pos hsame]
      refine Wrote.of_nil ?_ ?_ ?_ ?_ ?_ ?_ ?_ ?_
      all_goals rfl
    · rw [if_neg hproto3] at hw₁
      obtain ⟨c, e', hpush, htype, -, hindex, hrequired, he⟩ :=
        pushElement_plain type helement hplain
      rw [hpush] at hw₁
      subst hw₁
      split
      · -- the element has the type of the one around it
        rename_i hc
        rw [lookupType, if_neg hkind, Option.some.injEq] at hlookup
        refine absurd ?_ hproto3
        rw [proto3, helement, List.head?_cons, Option.all_some, ProtoElement.proto3, hlookup, ← htype]
        exact hc
      · rename_i hc
        rw [if_neg hc] at hquiet
        have helement' : ({ w with
          element := c :: e' :: rest
          buffer := w.buffer ++ bytes } : ProtoWriter).element = c :: e' :: rest := rfl
        refine (congrArg (Wrote w (.bytes bytes .nil)) (pop_quiet helement' hquiet)).mpr ?_
        rw [hindex]
        refine Wrote.of_nil (frames_cons helement he) ?_ ?_ ?_ ?_ ?_ ?_ ?_
        all_goals rfl

end

/-! ## Steps without an error -/

section
variable {w w' : ProtoWriter} {e : ProtoElement} {rest : List ProtoElement} {field : Field}
  {type : MessageType} {name : Text} {isList : Bool} {d : Doc UInt8}

theorem Wrote.of_bytes_nil (h : Wrote w (.bytes [] d) w') : Wrote w d w' :=
  ⟨h.frames, h.typeinfo, h.options, h.output, h.startCount, h.invalidDepth, h.buffer, h.sizeInsert⟩

theorem Wrote.refl (w : ProtoWriter) : Wrote w .nil w :=
  Wrote.of_bytes_nil (.of_nil rfl rfl rfl rfl rfl rfl rfl (List.append_nil _).symm)

theorem frame_eq {e e' : ProtoElement} (h : e'.frame = e.frame) :
    e'.type = e.type ∧ e'.parentField = e.parentField ∧ e'.sizeIndex = e.sizeIndex := by
  simp only [ProtoElement.frame, Prod.mk.injEq] at h
  exact h

theorem fieldType_quiet {w₁ : ProtoWriter} (helement : w.element = e :: rest) {valid : Bool}
    (hfound : w.lookup name = (some field, w₁)) (hvalid : w₁.validOneof field name = (valid, w'))
    (hquiet : w'.errors = w.errors) :
    valid = true ∧ acceptedField w.typeinfo e.type e.parentField name = some field ∧ Wrote w .nil w' ∧
      (w'.element.head?.bind fun e => lookupType w'.typeinfo e.type field) =
        lookupType w.typeinfo e.type field := by
  have hlookup := lookup_errors w name
  have hspec := lookup_quiet name helement
  have hgrown := validOneof_errors w₁ field name
  rw [hfound] at hlookup hspec
  rw [hvalid] at hgrown
  obtain ⟨hsome, rfl⟩ := Prod.mk.inj (hspec ( quiet_of_prefix hlookup hgrown hquiet))
  have hone := validOneof_quiet field name helement
  rw [hvalid] at hone
  obtain ⟨htrue, hwrote⟩ := hone hquiet
  obtain ⟨e', rest', helement', he, -⟩ := hwrote.head helement
  refine ⟨htrue, hsome.symm, hwrote.of_bytes_nil, ?_⟩
  rw [helement', List.head?_cons, Option.bind_some, hwrote.typeinfo, (frame_eq he).1]

theorem renderDataPiece_quiet (helement : w.element = e :: rest) (hdepth : w.invalidDepth = 0)
    (hwithin : Within w) {data : DataPiece} (hquiet : (w.renderDataPiece name data).errors = w.errors) :
    Wrote w (.bytes (encodeValue w.typeinfo w.options e.type e.parentField name data) .nil)
      (w.renderDataPiece name data) := by
  have hactive : ¬ 0 < w.invalidDepth := by omega
  have hlookup := lookup_errors w name
  have hspec := lookup_quiet name helement
  rw [renderDataPiece, if_neg hactive] at hquiet ⊢
  rw [encodeValue]
  obtain ⟨⟨found, w₁⟩, hfound⟩ : ∃ r, w.lookup name = r := ⟨_, rfl⟩
  rw [hfound] at hquiet hlookup hspec ⊢
  cases found with
  | none =>
    obtain ⟨hnone, rfl⟩ := Prod.mk.inj (hspec hquiet)
    rw [← hnone]
    exact .of_nil rfl rfl rfl rfl rfl rfl rfl (List.append_nil _).symm
  | some field =>
    have hvalid := validOneof_errors w₁ field name
    simp only at hquiet hlookup hspec ⊢
    obtain ⟨⟨valid, w₂⟩, hone⟩ : ∃ r, w₁.validOneof field name = r := ⟨_, rfl⟩
    rw [hone] at hquiet hvalid ⊢
    cases valid with
    | false =>
      exact absurd (fieldType_quiet helement hfound hone hquiet).1 Bool.false_ne_true
    | true =>
      simp only at hquiet hvalid ⊢
      cases htype : w₂.element.head?.bind fun e => lookupType w₂.typeinfo e.type field with
      | none =>
        rw [htype] at hquiet
        have htold := (hlookup.trans hvalid).length_le
        have hlen := congrArg List.length hquiet
        simp only [invalidName, List.length_append, List.length_singleton] at hlen
        omega
      | some type =>
        rw [htype] at hquiet
        simp only at hquiet ⊢
        have hrender := renderPrimitiveField_errors w₂ field type data
        have hquiet₂ := quiet_of_prefix (hlookup.trans hvalid) hrender hquiet
        obtain ⟨-, hsome, hwrote, hsame⟩ := fieldType_quiet helement hfound hone hquiet₂
        obtain ⟨e', rest', helement', he, -⟩ := hwrote.head helement
        rw [htype] at hsame
        have hlookupType : lookupType w₂.typeinfo e'.type field = some type := by
          rw [hwrote.typeinfo, (frame_eq he).1, hsame]
        obtain ⟨bytes, hbytes, hprimitive⟩ := renderPrimitiveField_quiet helement' hlookupType
          (hquiet.trans hquiet₂.symm)
        rw [hwrote.typeinfo, hwrote.options] at hbytes
        rw [hsome]
        simp only [hbytes]
        exact hwrote.trans hprimitive hwithin

/-- What `StartObject` and `StartList` do inside the root: the events up to the end are skipped,
or an element is started. -/
theorem start_quiet (helement : w.element = e :: rest) (hdepth : w.invalidDepth = 0)
    (hquiet : (w.start name isList).errors = w.errors) : (accepted w.typeinfo e.type e.parentField name = none ∧
        w.start name isList = w.incrementInvalidDepth) ∨
      ∃ field type w₁, accepted w.typeinfo e.type e.parentField name = some (field, type) ∧
        Wrote w .nil w₁ ∧ w₁.errors = w.errors ∧ w.start name isList = w₁.startField field type isList := by
  have hactive : ¬ 0 < w.invalidDepth := by omega
  have hlookup := lookup_errors w name
  have hspec := lookup_quiet name helement
  rw [start, beginNamed, if_neg hactive] at hquiet ⊢
  rw [accepted]
  obtain ⟨⟨found, w₁⟩, hfound⟩ : ∃ r, w.lookup name = r := ⟨_, rfl⟩
  rw [hfound] at hquiet hlookup hspec ⊢
  cases found with
  | none =>
    obtain ⟨hnone, rfl⟩ := Prod.mk.inj (hspec hquiet)
    rw [← hnone]
    exact .inl ⟨rfl, rfl⟩
  | some field =>
    simp only at hquiet hlookup hspec ⊢
    by_cases hlist : isList = true ∧ isRepeated field = false
    · rw [if_pos hlist] at hquiet
      have htold := hlookup.length_le
      have hlen := congrArg List.length hquiet
      simp only [invalidName, incrementInvalidDepth, List.length_append, List.length_singleton] at hlen
      omega
    · rw [if_neg hlist] at hquiet ⊢
      have hvalid := validOneof_errors w₁ field name
      simp only at hquiet ⊢
      obtain ⟨⟨valid, w₂⟩, hone⟩ : ∃ r, w₁.validOneof field name = r := ⟨_, rfl⟩
      rw [hone] at hquiet hvalid ⊢
      cases valid with
      | false =>
        exact absurd (fieldType_quiet helement hfound hone hquiet).1 Bool.false_ne_true
      | true =>
        simp only at hquiet hvalid ⊢
        cases htype : w₂.element.head?.bind fun e => lookupType w₂.typeinfo e.type field with
        | none =>
          rw [htype] at hquiet
          have htold := (hlookup.trans hvalid).length_le
          have hlen := congrArg List.length hquiet
          simp only [invalidName, incrementInvalidDepth, List.length_append, List.length_singleton] at hlen
          omega
        | some type =>
          rw [htype] at hquiet
          simp only [startField_errors] at hquiet
          obtain ⟨-, hsome, hwrote, hsame⟩ := fieldType_quiet helement hfound hone hquiet
          rw [htype] at hsame
          refine .inr ⟨field, type, w₂, ?_, hwrote, hquiet, rfl⟩
          rw [hsome, Option.bind_some, ← hsame, Option.map_some]

end

end Protoc.Util.Converter
