import Protoc.Util.ProtoWriterSteps

/-!
# The lengths of the sub-messages

`WriteRootMessage` puts the lengths into what the events of the root added.  The output is then
the encoding of the events, unless an object is in a field that is no message.
-/

namespace Protoc.Util.Converter

open Protoc.Io Protoc.Lib ProtoWriter
open List

/-! ## Elements -/

theorem closeSize_eq {w : ProtoWriter} {sizes : List SizeInfo} {info : SizeInfo}
    {after : List SizeInfo} {around : List ProtoElement} {size : ℕ}
    (hsizes : w.sizeInsert = sizes ++ info :: after) (hsize : info.size + w.byteCount = size)
    (haround : ∀ i ∈ openSizes around, i < sizes.length) : w.closeSize sizes.length around =
      modifyAll (.grow (lengthBytes size).length) (openSizes around) sizes ++ ⟨info.pos, size⟩ :: after := by
  have hgrow : info.grow w.byteCount = ⟨info.pos, size⟩ := by
    rw [SizeInfo.grow, hsize]
  rw [closeSize, hsizes, modify_length_append, hgrow, List.getElem?_append_right le_rfl,
    Nat.sub_self, List.getElem?_cons_zero, Option.map_some, Option.getD_some, varintSize32_eq,
    modifyAll_append _ haround, lengthBytes]

section
variable {w w₁ w₂ : ProtoWriter} {e : ProtoElement} {rest : List ProtoElement} {field : Field}
  {type : MessageType} {isList : Bool} {d : Doc UInt8}

theorem startField_plain (type : MessageType) (helement : w.element = e :: rest)
    (hplain : ¬ (isList = false ∧ field.kind = .message)) :
    ∃ c e', w.startField field type isList = { w with
        element := c :: e' :: rest
        buffer := w.buffer ++ if isList then [] else (fieldTag field).1 } ∧
      c.type = type ∧ c.parentField = some field ∧ c.sizeIndex = none ∧ e'.frame = e.frame := by
  rw [startField]
  cases isList with
  | true =>
    obtain ⟨c, e', hpush, htype, hparent, hindex, -, he⟩ :=
      pushElement_plain type helement hplain
    rw [if_pos rfl, hpush, if_pos rfl, append_nil]
    exact ⟨c, e', rfl, htype, hparent, hindex, he⟩
  | false =>
    have hwritten : (w.write (fieldTag field).1).element = e :: rest := helement
    obtain ⟨c, e', hpush, htype, hparent, hindex, -, he⟩ :=
      pushElement_plain type hwritten hplain
    rw [if_neg Bool.false_ne_true, if_neg Bool.false_ne_true]
    exact ⟨c, e', hpush, htype, hparent, hindex, he⟩

theorem byteCount_eq (hstart : w.startCount = 0) (hlen : w.buffer.length < 2 ^ 31) :
    w.byteCount = w.buffer.length := by
  rw [byteCount, toInt32, hstart]
  omega

theorem startField_message (type : MessageType) (helement : w.element = e :: rest)
    (hkind : field.kind = .message) :
    ∃ c e', w.startField field type false = { w with
        element := c :: e' :: rest
        buffer := w.buffer ++ (fieldTag field).1
        sizeInsert := w.sizeInsert ++ [⟨(w.write (fieldTag field).1).byteCount,
          -(w.write (fieldTag field).1).byteCount⟩] } ∧
      c.type = type ∧ c.parentField = some field ∧ c.sizeIndex = some w.sizeInsert.length ∧
      e'.frame = e.frame := by
  have hwritten : (w.write (fieldTag field).1).element = e :: rest := helement
  obtain ⟨c, e', hpush, hspec⟩ := pushElement_message type hwritten hkind
  rw [startField, if_neg Bool.false_ne_true]
  exact ⟨c, e', hpush, hspec⟩

theorem openSizes_cons_none {c : ProtoElement} (es : List ProtoElement) (h : c.sizeIndex = none) :
    openSizes (c :: es) = openSizes es := filterMap_cons_none h

theorem openSizes_cons_some {c : ProtoElement} {i : ℕ} (es : List ProtoElement)
    (h : c.sizeIndex = some i) : openSizes (c :: es) = i :: openSizes es :=
  filterMap_cons_some h

/-- What is written in an element that is no message is written around it. -/
theorem Wrote.pop_plain (helement : w.element = e :: rest) (hplain : ¬ (isList = false ∧ field.kind = .message))
    (h : Wrote (w.startField field type isList) d w₂) (hquiet : w₂.pop.errors = w₂.errors) :
    Wrote w (enclose field isList d) w₂.pop := by
  obtain ⟨c, e', heq, -, -, hindex, he⟩ := startField_plain type helement hplain
  rw [heq] at h
  obtain ⟨c', es, helement₂, hc, hes⟩ := h.head rfl
  have hindex' : c'.sizeIndex = none := (frame_eq hc).2.2.trans hindex
  have hopen : openSizes (c :: e' :: rest) = openSizes w.element :=
    (openSizes_cons_none _ hindex).trans (openSizes_congr (frames_cons helement he))
  have hd : enclose field isList d = if isList then d else .bytes (fieldTag field).1 d := by
    rw [enclose]
    cases isList with
    | true => rfl
    | false =>
      rw [if_neg Bool.false_ne_true, if_neg Bool.false_ne_true, if_neg fun hkind => hplain ⟨rfl, hkind⟩]
  have hflat : (enclose field isList d).flat =
      (if isList then [] else (fieldTag field).1) ++ d.flat := by
    rw [hd]
    cases isList <;> rfl
  have hextra : (enclose field isList d).extra lengthBytes = d.extra lengthBytes := by
    rw [hd]
    cases isList <;> rfl
  have hgaps : ∀ pos, (enclose field isList d).gaps lengthBytes pos =
      d.gaps lengthBytes (pos + (if isList then [] else (fieldTag field).1).length) := by
    intro pos
    rw [hd]
    cases isList <;> rfl
  rw [pop_quiet helement₂ hquiet, hindex']
  refine ⟨hes.trans (frames_cons helement he), h.typeinfo, h.options, h.output, h.startCount,
    h.invalidDepth, ?_, ?_⟩
  · rw [hflat, ← append_assoc]
    exact h.buffer
  · have hsizes := h.sizeInsert
    simp only [hopen, length_append] at hsizes
    rw [hextra, hgaps]
    exact hsizes

/-- What is written in the element of a message gets its length in front. -/
theorem Wrote.pop_message (helement : w.element = e :: rest) (hkind : field.kind = .message)
    (hwithin : Within w) (hstart : w.startCount = 0) (h : Wrote (w.startField field type false) d w₂)
    (hquiet : w₂.pop.errors = w₂.errors) (hlen : w₂.buffer.length < 2 ^ 31) :
    Wrote w (enclose field false d) w₂.pop := by
  obtain ⟨c, e', heq, -, -, hindex, he⟩ := startField_message type helement hkind
  rw [heq] at h
  obtain ⟨c', es, helement₂, hc, hes⟩ := h.head rfl
  have hindex' : c'.sizeIndex = some w.sizeInsert.length := (frame_eq hc).2.2.trans hindex
  have hframes : es.map ProtoElement.frame = w.element.map ProtoElement.frame :=
    hes.trans (frames_cons helement he)
  have hopen : openSizes (c :: e' :: rest) = w.sizeInsert.length :: openSizes w.element := by
    rw [openSizes_cons_some _ hindex, openSizes_congr (frames_cons helement he)]
  have hbuffer : w₂.buffer = w.buffer ++ (fieldTag field).1 ++ d.flat := h.buffer
  have hcount : w₂.byteCount = w₂.buffer.length := byteCount_eq (h.startCount.trans hstart) hlen
  have hwhole : (w.buffer ++ (fieldTag field).1 ++ d.flat).length =
      (w.buffer ++ (fieldTag field).1).length + d.flat.length := length_append
  have hpos : (w.write (fieldTag field).1).byteCount = (w.buffer ++ (fieldTag field).1).length := by
    refine byteCount_eq hstart (lt_of_le_of_lt ?_ hlen)
    rw [hbuffer, hwhole]
    exact Nat.le_add_right _ _
  have hsizes := h.sizeInsert
  simp only [hopen, hpos] at hsizes
  rw [modifyAll_cons_length hwithin] at hsizes
  have hsize : SizeInfo.size (.grow (d.extra lengthBytes)
      ⟨(w.buffer ++ (fieldTag field).1).length, -(w.buffer ++ (fieldTag field).1).length⟩) +
        w₂.byteCount = ((d.encode lengthBytes).length : ℕ) := by
    rw [hcount, hbuffer, hwhole, Doc.length_encode, SizeInfo.grow]
    push_cast
    ring
  have haround : ∀ i ∈ openSizes es, i < (modifyAll (.grow (d.extra lengthBytes))
      (openSizes w.element) w.sizeInsert).length := by
    rw [openSizes_congr hframes, length_modifyAll]
    exact hwithin
  have hclose := closeSize_eq hsizes hsize haround
  rw [length_modifyAll, openSizes_congr hframes, modifyAll_modifyAll (SizeInfo.grow_comm _ _)] at hclose
  have hd : enclose field false d = .part (fieldTag field) d .nil := by
    rw [enclose, if_neg Bool.false_ne_true, if_pos hkind]
  rw [pop_quiet helement₂ hquiet, hindex', hd]
  refine ⟨hframes, h.typeinfo, h.options, h.output, h.startCount, h.invalidDepth, ?_, ?_⟩
  · rw [Doc.flat, Doc.flat, append_nil, ← append_assoc]
    exact hbuffer
  · refine hclose.trans ?_
    have hgrow : SizeInfo.grow (lengthBytes (d.encode lengthBytes).length).length ∘
        SizeInfo.grow (d.extra lengthBytes) =
        SizeInfo.grow ((Doc.part (fieldTag field) d .nil).extra lengthBytes) := by
      funext info
      rw [Function.comp_apply, SizeInfo.grow_grow, Doc.extra, Doc.extra, add_zero, Nat.cast_add, Int.add_comm]
    rw [hgrow, Doc.gaps, Doc.gaps, append_nil, map_cons, ← length_append]
    rfl

/-- The element that a field starts. -/
structure Started (w : ProtoWriter) (field : Field) (type : MessageType) (isList : Bool)
    (w' : ProtoWriter) : Prop where
  element : ∃ c es, w'.element = c :: es ∧ c.type = type ∧ c.parentField = some field
  typeinfo : w'.typeinfo = w.typeinfo
  options : w'.options = w.options
  startCount : w'.startCount = w.startCount
  invalidDepth : w'.invalidDepth = w.invalidDepth
  within : Within w'
  length : ∀ d : Doc UInt8, w'.buffer.length + d.flat.length =
    w.buffer.length + (enclose field isList d).flat.length

theorem startField_started (field : Field) (type : MessageType) (isList : Bool)
    (helement : w.element = e :: rest) (hwithin : Within w) :
    Started w field type isList (w.startField field type isList) := by
  by_cases hmessage : isList = false ∧ field.kind = .message
  · obtain ⟨rfl, hkind⟩ := hmessage
    obtain ⟨c, e', heq, htype, hparent, hindex, he⟩ :=
      startField_message type helement hkind
    rw [heq]
    refine ⟨⟨c, _, rfl, htype, hparent⟩, rfl, rfl, rfl, rfl, ?_, ?_⟩
    · intro i hi
      rw [openSizes_cons_some _ hindex, openSizes_congr (frames_cons helement he)] at hi
      rw [length_append, length_singleton]
      rcases List.mem_cons.mp hi with rfl | hi
      · exact lt_add_one _
      · exact Nat.lt_succ_of_lt (hwithin i hi)
    · intro d
      rw [enclose, if_neg Bool.false_ne_true, if_pos hkind]
      simp only [Doc.flat, length_append, length_nil]
      omega
  · obtain ⟨c, e', heq, htype, hparent, hindex, he⟩ :=
      startField_plain type helement hmessage
    rw [heq]
    refine ⟨⟨c, _, rfl, htype, hparent⟩, rfl, rfl, rfl, rfl, ?_, ?_⟩
    · intro i hi
      rw [openSizes_cons_none _ hindex, openSizes_congr (frames_cons helement he)] at hi
      exact hwithin i hi
    · intro d
      rw [enclose]
      cases isList with
      | true =>
        simp only [if_true, append_nil]
      | false =>
        rw [if_neg Bool.false_ne_true, if_neg Bool.false_ne_true, if_neg fun hkind => hmessage ⟨rfl, hkind⟩]
        simp only [Doc.flat, length_append]
        omega

theorem Wrote.pop (helement : w.element = e :: rest) (hwithin : Within w)
    (hstart : w.startCount = 0) (h : Wrote (w.startField field type isList) d w₂)
    (hquiet : w₂.pop.errors = w₂.errors) (hlen : w₂.buffer.length < 2 ^ 31) :
    Wrote w (enclose field isList d) w₂.pop := by
  by_cases hmessage : isList = false ∧ field.kind = .message
  · obtain ⟨rfl, hkind⟩ := hmessage
    exact .pop_message helement hkind hwithin hstart h hquiet hlen
  · exact .pop_plain helement hmessage h hquiet

end

/-! ## Whole sequences of events -/

section
variable {w w₁ w₂ : ProtoWriter} {e : ProtoElement} {rest : List ProtoElement} {field : Field}
  {type : MessageType} {name : Text} {isList : Bool} {d : Doc UInt8}

theorem start_skip (hdepth : 0 < w.invalidDepth) : w.start name isList = w.incrementInvalidDepth := by
  rw [start, beginNamed, if_pos hdepth]

theorem endList_increment (w : ProtoWriter) : w.incrementInvalidDepth.endList = w :=
  if_pos (Nat.succ_pos w.invalidDepth)

theorem endObject_increment (w : ProtoWriter) : w.incrementInvalidDepth.endObject = w :=
  if_pos (Nat.succ_pos w.invalidDepth)

theorem performAll_skip (nested : Nested) (helement : w.element ≠ [])
    (hdepth : 0 < w.invalidDepth) : w.performAll nested.events = w := by
  induction nested generalizing w with
  | nil => rfl
  | renderDataPiece name data rest ih =>
    have hfirst : w.renderDataPiece name data = w := by rw [renderDataPiece, if_pos hdepth]
    refine (congrArg (performAll · rest.events) hfirst).trans ?_
    exact ih helement hdepth
  | object name inside rest ihi ih =>
    have hfirst : w.startObject name = w.incrementInvalidDepth := by
      rw [startObject, if_neg helement, start_skip hdepth]
    have hinside := ihi (w := w.incrementInvalidDepth) helement (Nat.succ_pos _)
    rw [Nested.events, performAll, foldl_cons, foldl_append, foldl_cons, perform, hfirst]
    rw [performAll] at hinside
    rw [hinside, perform, endObject_increment]
    exact ih helement hdepth
  | list name inside rest ihi ih =>
    have hfirst : w.startList name = w.incrementInvalidDepth := start_skip hdepth
    have hinside := ihi (w := w.incrementInvalidDepth) helement (Nat.succ_pos _)
    rw [Nested.events, performAll, foldl_cons, foldl_append, foldl_cons, perform, hfirst]
    rw [performAll] at hinside
    rw [hinside, perform, endList_increment]
    exact ih helement hdepth

theorem endObject_errors (w : ProtoWriter) : w.endObject.errors = w.endList.errors := by
  rw [endObject, endList]
  split
  · rfl
  · split <;> rfl

theorem endObject_eq (h : w.endList.element ≠ []) : w.endObject = w.endList := by
  rw [endObject]
  rw [endList] at h ⊢
  split
  · rfl
  · rename_i hactive
    rw [if_neg hactive] at h
    exact if_neg h

theorem endList_errors (w : ProtoWriter) : w.errors <+: w.endList.errors :=
  perform_errors w .endList


/-- The document of an object or a list. -/
def documentIn (typeinfo : TypeInfo) (options : Options) (type : MessageType)
    (parentField : Option Field) (name : Text) (isList : Bool) (inside : Nested) : Doc UInt8 :=
  match accepted typeinfo type parentField name with
  | none => .nil
  | some (field, fieldType) =>
    enclose field isList (document typeinfo options fieldType (some field) inside)

/-- What a sequence of events adds, in an element of the writer. -/
def Adds (nested : Nested) : Prop :=
  ∀ {w : ProtoWriter} {e : ProtoElement} {rest : List ProtoElement}, w.element = e :: rest →
    w.invalidDepth = 0 → Within w → w.startCount = 0 →
    (w.performAll nested.events).errors = w.errors →
    w.buffer.length +
        (document w.typeinfo w.options e.type e.parentField nested).flat.length < 2 ^ 31 →
    Wrote w (document w.typeinfo w.options e.type e.parentField nested) (w.performAll nested.events)

/-- An object or a list, from its start to its end. -/
theorem block_wrote {inside : Nested} (hadds : Adds inside) (helement : w.element = e :: rest)
    (hdepth : w.invalidDepth = 0) (hwithin : Within w) (hstart : w.startCount = 0)
    (hquiet : ((w.start name isList).performAll inside.events).endList.errors = w.errors)
    (hlen : w.buffer.length + (documentIn w.typeinfo w.options e.type e.parentField name isList
      inside).flat.length < 2 ^ 31) :
    Wrote w (documentIn w.typeinfo w.options e.type e.parentField name isList inside)
      ((w.start name isList).performAll inside.events).endList := by
  have hinside := performAll_errors (w.start name isList) inside.events
  have hlast := endList_errors ((w.start name isList).performAll inside.events)
  have hquiet₁ := quiet_of_prefix (start_errors w name isList) (hinside.trans hlast) hquiet
  rw [documentIn] at hlen ⊢
  rcases start_quiet helement hdepth hquiet₁ with ⟨hnone, hskip⟩ |
    ⟨field, type, w₁, hsome, hwrote, herrors, hfield⟩
  · have hne : w.incrementInvalidDepth.element ≠ [] := by
      intro hnil
      rw [show w.incrementInvalidDepth.element = w.element by rfl, helement] at hnil
      exact cons_ne_nil _ _ hnil
    rw [hnone, hskip, performAll_skip inside hne (Nat.succ_pos _), endList_increment]
    exact .refl w
  · obtain ⟨e₁, rest₁, helement₁, -, -⟩ := hwrote.head helement
    have hbuffer : w₁.buffer = w.buffer := hwrote.buffer.trans (append_nil _)
    rw [hfield] at hquiet hinside hlast hquiet₁ ⊢
    rw [hsome] at hlen ⊢
    simp only at hlen ⊢
    have hstarted := startField_started field type isList helement₁ (hwrote.within hwithin)
    obtain ⟨c, es, hc, htype, hparent⟩ := hstarted.element
    have htypeinfo := hstarted.typeinfo.trans hwrote.typeinfo
    have hoptions := hstarted.options.trans hwrote.options
    have hquiet₂ := quiet_of_prefix hinside hlast (hquiet.trans hquiet₁.symm)
    have hlen₁ : (w₁.startField field type isList).buffer.length +
        (document w.typeinfo w.options type (some field) inside).flat.length < 2 ^ 31 := by
      rw [hstarted.length, hbuffer]
      exact hlen
    have hadded := hadds hc (hstarted.invalidDepth.trans (hwrote.invalidDepth.trans hdepth))
      hstarted.within (hstarted.startCount.trans (hwrote.startCount.trans hstart)) hquiet₂
      (by rw [htype, hparent, htypeinfo, hoptions]; exact hlen₁)
    rw [htype, hparent, htypeinfo, hoptions] at hadded
    have hend : ((w₁.startField field type isList).performAll inside.events).endList =
        ((w₁.startField field type isList).performAll inside.events).pop := by
      refine if_neg ?_
      rw [hadded.invalidDepth, hstarted.invalidDepth, hwrote.invalidDepth, hdepth]
      exact lt_irrefl 0
    rw [hend] at hquiet ⊢
    have hpop := Wrote.pop helement₁ (hwrote.within hwithin) (hwrote.startCount.trans hstart) hadded
      (hquiet.trans (hquiet₁.symm.trans hquiet₂.symm)) (by
        rw [hadded.buffer, length_append]
        exact hlen₁)
    exact hwrote.trans hpop hwithin


theorem Adds.after {nested : Nested} (hadds : Adds nested) (helement : w.element = e :: rest)
    (hdepth : w.invalidDepth = 0) (hwithin : Within w) (hstart : w.startCount = 0)
    (h : Wrote w d w₁) (hquiet : (w₁.performAll nested.events).errors = w₁.errors)
    (hlen : w.buffer.length + (d.append
      (document w.typeinfo w.options e.type e.parentField nested)).flat.length < 2 ^ 31) :
    Wrote w (d.append (document w.typeinfo w.options e.type e.parentField nested))
      (w₁.performAll nested.events) := by
  obtain ⟨e₁, rest₁, helement₁, he, -⟩ := h.head helement
  obtain ⟨htype, hparent, -⟩ := frame_eq he
  have hadded := hadds helement₁ (h.invalidDepth.trans hdepth) (h.within hwithin)
    (h.startCount.trans hstart) hquiet
  rw [htype, hparent, h.typeinfo, h.options, h.buffer, length_append, add_assoc,
    ← length_append, ← Doc.flat_append] at hadded
  exact h.trans (hadded hlen) hwithin

/-- **Every sequence of events**, of which no error is told, adds its document. -/
theorem performAll_wrote (nested : Nested) : Adds nested := by
  induction nested with
  | nil =>
    intro w e rest _ _ _ _ _ _
    exact .refl w
  | renderDataPiece name data rest ih =>
    intro w e around helement hdepth hwithin hstart hquiet hlen
    obtain ⟨hfirst, hrest⟩ := quiet_cons hquiet
    exact ih.after helement hdepth hwithin hstart
      (renderDataPiece_quiet helement hdepth hwithin hfirst) hrest hlen
  | object name inside rest ihi ih =>
    intro w e around helement hdepth hwithin hstart hquiet hlen
    have hevents : w.performAll (Nested.object name inside rest).events =
        (((w.start name false).performAll inside.events).endObject).performAll rest.events := by
      have hfirst : w.startObject name = w.start name false := by
        rw [startObject, if_neg]
        rw [helement]
        exact cons_ne_nil _ _
      rw [Nested.events, performAll, foldl_cons, foldl_append, foldl_cons, perform, hfirst]
      rfl
    rw [hevents] at hquiet ⊢
    have hblock := (start_errors w name false).trans
      ((performAll_errors (w.start name false) inside.events).trans
        (perform_errors ((w.start name false).performAll inside.events) .endObject))
    have hfirst := quiet_of_prefix hblock (performAll_errors _ rest.events) hquiet
    have hlen₁ : w.buffer.length + (documentIn w.typeinfo w.options e.type e.parentField name
        false inside).flat.length < 2 ^ 31 := by
      rw [document, Doc.flat_append, length_append] at hlen
      exact lt_of_le_of_lt (Nat.add_le_add_left (Nat.le_add_right _ _) _) hlen
    have hwrote := block_wrote ihi helement hdepth hwithin hstart
      ((endObject_errors _).symm.trans hfirst) hlen₁
    obtain ⟨e', rest', helement', -, -⟩ := hwrote.head helement
    have hend := endObject_eq (w := (w.start name false).performAll inside.events) (by
      rw [helement']
      exact cons_ne_nil _ _)
    rw [perform, hend] at hfirst
    rw [hend] at hquiet ⊢
    exact ih.after helement hdepth hwithin hstart hwrote (hquiet.trans hfirst.symm) hlen
  | list name inside rest ihi ih =>
    intro w e around helement hdepth hwithin hstart hquiet hlen
    have hevents : w.performAll (Nested.list name inside rest).events =
        (((w.start name true).performAll inside.events).endList).performAll rest.events := by
      rw [Nested.events, performAll, foldl_cons, foldl_append, foldl_cons]
      rfl
    rw [hevents] at hquiet ⊢
    have hblock := (start_errors w name true).trans
      ((performAll_errors (w.start name true) inside.events).trans (endList_errors _))
    have hfirst := quiet_of_prefix hblock (performAll_errors _ rest.events) hquiet
    have hlen₁ : w.buffer.length + (documentIn w.typeinfo w.options e.type e.parentField name true
        inside).flat.length < 2 ^ 31 := by
      rw [document, Doc.flat_append, length_append] at hlen
      exact lt_of_le_of_lt (Nat.add_le_add_left (Nat.le_add_right _ _) _) hlen
    have hwrote := block_wrote ihi helement hdepth hwithin hstart hfirst hlen₁
    exact ih.after helement hdepth hwithin hstart hwrote (hquiet.trans hfirst.symm) hlen


end
/-! ## The end of the root -/

section
variable {data : List UInt8} {pos last : ℕ}

theorem next_whole (h : pos < data.length) : ArrayInputStream.next ⟨data, data.length, pos, last⟩ =
      (some (data.drop pos), ⟨data, data.length, data.length, data.length - pos⟩) := by
  have hsize : min data.length (data.length - pos) = data.length - pos :=
    min_eq_right (Nat.sub_le _ _)
  have hposition : pos + (data.length - pos) = data.length := by omega
  have htake : (data.drop pos).take (data.length - pos) = data.drop pos :=
    take_of_length_le (le_of_eq length_drop)
  rw [ArrayInputStream.next, if_pos h]
  simp only [hsize, hposition, htake]

theorem next_end (data : List UInt8) (last : ℕ) :
    (ArrayInputStream.next ⟨data, data.length, data.length, last⟩).1 = none := by
  rw [ArrayInputStream.next, if_neg (lt_irrefl _)]

theorem writeLoop_end (fuel : ℕ) (currPos : ℤ) (sizes : List SizeInfo) (output : List UInt8) :
    writeLoop (fuel + 1) ⟨data, data.length, data.length, last⟩ currPos sizes output = (sizes, output) := by
  have h := next_end data last
  rw [writeLoop]
  split
  · rfl
  · rename_i heq
    rw [heq] at h
    exact absurd h (Option.some_ne_none _)

theorem writeLoop_rest (fuel : ℕ) (hle : pos ≤ data.length) (output : List UInt8) :
    writeLoop (fuel + 2) ⟨data, data.length, pos, last⟩ pos [] output = ([], output ++ data.drop pos) := by
  rcases Nat.lt_or_eq_of_le hle with hlt | rfl
  · have hlen : (data.drop pos).length = data.length - pos := length_drop
    have hne : ¬ (data.drop pos).length = 0 := by omega
    rw [writeLoop, next_whole hlt]
    simp only
    rw [if_neg hne, if_neg (lt_irrefl _), Int.toNat_natCast, take_length]
    exact writeLoop_end _ _ _ _
  · rw [writeLoop_end, drop_length, append_nil]

theorem writeLoop_gap (last fuel : ℕ) {place : ℕ} (size : ℕ) (hlt : pos < place)
    (hle : place ≤ data.length) (sizes : List SizeInfo) (output : List UInt8) :
    ∃ last', writeLoop (fuel + 1) ⟨data, data.length, pos, last⟩ pos (.ofGap (place, size) :: sizes) output =
      writeLoop fuel ⟨data, data.length, place, last'⟩ place sizes
        (output ++ (data.drop pos).take (place - pos) ++ lengthBytes size) := by
  have hlen : (data.drop pos).length = data.length - pos := length_drop
  have hne : ¬ (data.drop pos).length = 0 := by omega
  have hbytes : min ((place : ℤ) - pos) ((data.drop pos).length : ℕ) = ((place - pos : ℕ) : ℤ) := by
    omega
  have hpos : ((pos : ℤ) + ((place - pos : ℕ) : ℤ)) = place := by omega
  rw [writeLoop, next_whole (by omega)]
  simp only [SizeInfo.ofGap, hbytes, hpos, Int.toNat_natCast]
  rw [if_neg hne]
  by_cases hback : ((place - pos : ℕ) : ℤ) < ((data.drop pos).length : ℕ)
  · have hcount : (((data.drop pos).length : ℤ) - ((place - pos : ℕ) : ℤ)).toNat =
        data.length - place := by omega
    have hallowed : 0 < data.length - pos ∧ data.length - place ≤ data.length - pos := by omega
    have hplace : data.length - (data.length - place) = place := by omega
    rw [if_pos hback, hcount, ArrayInputStream.backUp, if_pos hallowed, hplace]
    simp only [if_true]
    exact ⟨_, rfl⟩
  · have hplace : place = data.length := by omega
    rw [if_neg hback]
    simp only [if_true]
    rw [hplace]
    exact ⟨_, rfl⟩

/-- **The loop** puts the lengths in. -/
theorem writeLoop_eq (last : ℕ) {gaps : List (ℕ × ℕ)} (hrising : Rising data.length pos gaps)
    {fuel : ℕ} (hfuel : gaps.length + 2 ≤ fuel) (output : List UInt8) :
    writeLoop fuel ⟨data, data.length, pos, last⟩ pos (gaps.map SizeInfo.ofGap) output =
      ([], output ++ putIn lengthBytes pos (data.drop pos) gaps) := by
  induction gaps generalizing pos last fuel output with
  | nil =>
    obtain ⟨fuel, rfl⟩ := Nat.exists_eq_add_of_le' hfuel
    exact writeLoop_rest fuel hrising output
  | cons gap gaps ih =>
    obtain ⟨place, size⟩ := gap
    obtain ⟨hlt, hrest⟩ := hrising
    obtain ⟨fuel, rfl⟩ := Nat.exists_eq_add_of_le' (le_trans (Nat.le_add_left 1 _) hfuel)
    rw [length_cons] at hfuel
    obtain ⟨last', hgap⟩ := writeLoop_gap last fuel size hlt hrest.le_bound
      (gaps.map SizeInfo.ofGap) output
    have hdrop : (data.drop pos).drop (place - pos) = data.drop place := by
      rw [drop_drop, Nat.add_sub_cancel' (le_of_lt hlt)]
    rw [map_cons, hgap, ih _ hrest (by omega), putIn, hdrop, append_assoc, append_assoc]

end

/-! ## The lengths of the encodings -/

theorem length_tagBytes (fieldNumber : Int32) (wireType wireType' : WireType) :
    (tagBytes fieldNumber wireType).length = (tagBytes fieldNumber wireType').length := by
  have hdiv : ∀ t : WireType, (makeTag fieldNumber t).toNat / 2 ^ 7 =
      (fieldNumber.toUInt32 <<< 3).toNat / 2 ^ 7 := by
    intro t
    have htype : t.toUInt32.toNat / 2 ^ 7 = 0 := by cases t <;> rfl
    rw [makeTag, UInt32.toNat_or, Nat.or_div_two_pow, htype, Nat.or_zero]
  have hlen : ∀ m n : ℕ, m / 2 ^ 7 = n / 2 ^ 7 →
      (varintBytes m).length = (varintBytes n).length := by
    intro m n h
    rcases lt_or_ge m 0x80 with hlt | hle
    · rw [varintBytes_of_lt hlt, varintBytes_of_lt (by omega)]
      rfl
    · have hle' : 0x80 ≤ n := by omega
      rw [varintBytes_of_le hle, varintBytes_of_le hle', length_cons, length_cons]
      exact congrArg (fun k => (varintBytes k).length + 1) h
  exact hlen _ _ ((hdiv wireType).trans (hdiv wireType').symm)

section
variable {field : Field} {d : Doc UInt8} {bytes : List UInt8}

theorem encode_message (hkind : field.kind = .message) :
    (enclose field false d).encode lengthBytes = tagBytes field.number .lengthDelimited ++
      (lengthBytes (d.encode lengthBytes).length ++ d.encode lengthBytes) := by
  have htag : (fieldTag field).1 = tagBytes field.number .lengthDelimited :=
    congrArg (fun kind => tagBytes field.number (wireTypeForFieldType kind)) hkind
  rw [enclose, if_neg Bool.false_ne_true, if_pos hkind, Doc.encode, Doc.encode, append_nil, htag]

theorem encode_plain (hkind : field.kind ≠ .message) : (enclose field false d).encode lengthBytes =
      tagBytes field.number (wireTypeForFieldType field.kind) ++ d.encode lengthBytes := by
  rw [enclose, if_neg Bool.false_ne_true, if_neg hkind]
  rfl

theorem length_encodeMessage (fieldNumber : Int32) (bytes : List UInt8) :
    (encodeMessage fieldNumber bytes).length = (tagBytes fieldNumber .lengthDelimited).length +
      ((varintBytes bytes.length).length + bytes.length) := by
  rw [encodeMessage, length_append, length_append]

theorem length_enclose_le (h : (d.encode lengthBytes).length ≤ bytes.length) :
    ((enclose field false d).encode lengthBytes).length ≤ (encodeMessage field.number bytes).length := by
  have hlen := length_lengthBytes_le h
  rw [length_encodeMessage]
  by_cases hkind : field.kind = .message
  · rw [encode_message hkind, length_append, length_append]
    omega
  · rw [encode_plain hkind, length_append, length_tagBytes _ _ .lengthDelimited]
    omega

theorem length_enclose_lt (h : (d.encode lengthBytes).length ≤ bytes.length)
    (hless : field.kind ≠ .message ∨ (d.encode lengthBytes).length < bytes.length) :
    ((enclose field false d).encode lengthBytes).length < (encodeMessage field.number bytes).length := by
  have hlen := length_lengthBytes_le h
  have hpos : 0 < (varintBytes bytes.length).length := by
    rw [length_varintBytes]
    exact Nat.succ_pos _
  rw [length_encodeMessage]
  by_cases hkind : field.kind = .message
  · have hlt := hless.resolve_left (not_not_intro hkind)
    rw [encode_message hkind, length_append, length_append]
    omega
  · rw [encode_plain hkind, length_append, length_tagBytes _ _ .lengthDelimited]
    omega

variable (typeinfo : TypeInfo) (options : Options)

section
variable (type : MessageType) (parentField : Option Field) (nested : Nested)
include type parentField nested

theorem length_document_le :
    ((document typeinfo options type parentField nested).encode lengthBytes).length ≤
      (encode typeinfo options type parentField nested).length := by
  induction nested generalizing type parentField with
  | nil => exact le_rfl
  | renderDataPiece name data rest ih =>
    rw [document, encode, Doc.encode, length_append, length_append]
    exact Nat.add_le_add_left (ih _ _) _
  | object name inside rest ihi ih =>
    rw [document, encode, Doc.encode_append, length_append, length_append]
    refine Nat.add_le_add ?_ (ih _ _)
    cases accepted typeinfo type parentField name with
    | none => exact le_rfl
    | some found => exact length_enclose_le (ihi _ _)
  | list name inside rest ihi ih =>
    rw [document, encode, Doc.encode_append, length_append, length_append]
    refine Nat.add_le_add ?_ (ih _ _)
    cases accepted typeinfo type parentField name with
    | none => exact le_rfl
    | some found => exact ihi _ _

/-- Where an object is in a field that is no message, bytes are missing. -/
theorem length_document_lt (h : ¬ ObjectsAreMessages typeinfo type parentField nested) :
    ((document typeinfo options type parentField nested).encode lengthBytes).length <
      (encode typeinfo options type parentField nested).length := by
  induction nested generalizing type parentField with
  | nil => exact absurd trivial h
  | renderDataPiece name data rest ih =>
    rw [document, encode, Doc.encode, length_append, length_append]
    exact Nat.add_lt_add_left (ih _ _ h) _
  | object name inside rest ihi ih =>
    have hrest := length_document_le typeinfo options type parentField rest
    rw [ObjectsAreMessages] at h
    rw [document, encode, Doc.encode_append, length_append, length_append]
    cases haccepted : accepted typeinfo type parentField name with
    | none =>
      rw [haccepted] at h
      exact Nat.add_lt_add_left (ih _ _ fun hall => h ⟨trivial, hall⟩) _
    | some found =>
      obtain ⟨field, fieldType⟩ := found
      rw [haccepted] at h
      have hinside := length_document_le typeinfo options fieldType (some field) inside
      by_cases hall : ObjectsAreMessages typeinfo type parentField rest
      · refine Nat.add_lt_add_of_lt_of_le (length_enclose_lt hinside ?_) hrest
        by_cases hkind : field.kind = .message
        · exact .inr (ihi _ _ fun hmessages => h ⟨⟨hkind, hmessages⟩, hall⟩)
        · exact .inl hkind
      · exact Nat.add_lt_add_of_le_of_lt (length_enclose_le hinside) (ih _ _ hall)
  | list name inside rest ihi ih =>
    have hrest := length_document_le typeinfo options type parentField rest
    rw [ObjectsAreMessages] at h
    rw [document, encode, Doc.encode_append, length_append, length_append]
    cases haccepted : accepted typeinfo type parentField name with
    | none =>
      rw [haccepted] at h
      exact Nat.add_lt_add_left (ih _ _ fun hall => h ⟨trivial, hall⟩) _
    | some found =>
      obtain ⟨field, fieldType⟩ := found
      rw [haccepted] at h
      by_cases hall : ObjectsAreMessages typeinfo type parentField rest
      · exact Nat.add_lt_add_of_lt_of_le (ihi _ _ fun hmessages => h ⟨hmessages, hall⟩) hrest
      · exact Nat.add_lt_add_of_le_of_lt
          (length_document_le typeinfo options fieldType (some field) inside) (ih _ _ hall)

/-- Where every object is in a field that is a message, the writer's document has the encoding. -/
theorem encode_document (h : ObjectsAreMessages typeinfo type parentField nested)
    (hlen : (encode typeinfo options type parentField nested).length < 2 ^ 32) :
    (document typeinfo options type parentField nested).encode lengthBytes =
      encode typeinfo options type parentField nested := by
  induction nested generalizing type parentField with
  | nil => rfl
  | renderDataPiece name data rest ih =>
    rw [encode, length_append] at hlen
    rw [document, encode, Doc.encode, ih _ _ h (by omega)]
  | object name inside rest ihi ih =>
    rw [encode, length_append] at hlen
    rw [document, encode, Doc.encode_append, ih _ _ h.2 (by omega)]
    refine congrArg (· ++ _) ?_
    have hmessages := h.1
    cases haccepted : accepted typeinfo type parentField name with
    | none => rfl
    | some found =>
      obtain ⟨field, fieldType⟩ := found
      rw [haccepted] at hmessages hlen
      simp only [length_encodeMessage] at hmessages hlen ⊢
      rw [encode_message hmessages.1, ihi _ _ hmessages.2 (by omega), encodeMessage,
        lengthBytes_eq (by omega)]
  | list name inside rest ihi ih =>
    rw [encode, length_append] at hlen
    rw [document, encode, Doc.encode_append, ih _ _ h.2 (by omega)]
    refine congrArg (· ++ _) ?_
    have hmessages := h.1
    cases haccepted : accepted typeinfo type parentField name with
    | none => rfl
    | some found =>
      rw [haccepted] at hmessages hlen
      exact ihi _ _ hmessages (by simp only at hlen; omega)

end

end

/-! ## The root -/

def rootEvents (name : Text) (nested : Nested) : List Event :=
  .startObject name :: (nested.events ++ [.endObject])

section
variable {typeinfo : TypeInfo} {masterType : MessageType} {options : Options} {name : Text}
  {nested : Nested}

/-- **The output** of a root object of which no error is told. -/
theorem output_eq_document
    (hquiet : ((new typeinfo masterType options).performAll (rootEvents name nested)).errors = [])
    (hlen : (encode typeinfo options masterType none nested).length < 2 ^ 31) :
    ((new typeinfo masterType options).performAll (rootEvents name nested)).output =
      (document typeinfo options masterType none nested).encode lengthBytes := by
  obtain ⟨hfirst, hrest⟩ := quiet_cons hquiet
  let w : ProtoWriter := { new typeinfo masterType options with element := [.root masterType] }
  have hstart : (new typeinfo masterType options).perform (.startObject name) = w := by
    have hnone : (new typeinfo masterType options).element = [] := rfl
    rw [perform, startObject, if_pos hnone] at hfirst ⊢
    by_cases hname : name = []
    · rw [if_pos hname]
      rfl
    · rw [if_neg hname] at hfirst
      exact absurd hfirst (cons_ne_nil _ _)
  have hevents : (new typeinfo masterType options).performAll (rootEvents name nested) =
      (w.performAll nested.events).endObject := by
    refine (congrArg (performAll · (nested.events ++ [.endObject])) hstart).trans ?_
    exact performAll_append w nested.events [.endObject]
  rw [hevents] at hquiet ⊢
  have hlast := perform_errors (w.performAll nested.events) .endObject
  have hinside : (w.performAll nested.events).errors = w.errors :=
    quiet_of_prefix (performAll_errors w nested.events) hlast hquiet
  -- the document
  let d : Doc UInt8 := document typeinfo options masterType none nested
  have hle : (d.encode lengthBytes).length ≤
      (encode typeinfo options masterType none nested).length :=
    length_document_le typeinfo options masterType none nested
  rw [Doc.length_encode] at hle
  have hwrote : Wrote w d (w.performAll nested.events) := by
    refine performAll_wrote nested (w := w) rfl rfl (fun _ hi => absurd hi not_mem_nil) rfl
      hinside ?_
    rw [show w.buffer.length = 0 by rfl, zero_add]
    exact lt_of_le_of_lt (le_trans (Nat.le_add_right _ _) hle) hlen
  -- the end of the root
  obtain ⟨e, es, helement, he, hes⟩ := hwrote.head (show w.element = [.root masterType] by rfl)
  have hnil : es = [] := List.map_eq_nil_iff.mp hes
  subst hnil
  have hindex : e.sizeIndex = none := (frame_eq he).2.2
  have hend : (w.performAll nested.events).endList = (w.performAll nested.events).pop := by
    refine if_neg ?_
    rw [hwrote.invalidDepth]
    exact lt_irrefl 0
  have hpop : (w.performAll nested.events).pop =
      { w.performAll nested.events with element := [] } := by
    have hpopQuiet : (w.performAll nested.events).pop.errors =
        (w.performAll nested.events).errors := by
      rw [← hend, ← endObject_errors, hquiet, hinside]
      rfl
    rw [pop_quiet helement hpopQuiet, hindex]
  have hroot : (w.performAll nested.events).endObject =
      (w.performAll nested.events).pop.writeRootMessage := by
    rw [endObject, if_neg, if_pos]
    · rw [hpop]
    · rw [hwrote.invalidDepth]
      exact lt_irrefl 0
  have hbuffer : (w.performAll nested.events).buffer = d.flat := hwrote.buffer
  have hsizes : (w.performAll nested.events).sizeInsert =
      (d.gaps lengthBytes 0).map SizeInfo.ofGap := hwrote.sizeInsert
  have hrising : Rising d.flat.length 0 (d.gaps lengthBytes 0) := by
    have h : Rising d.flat.length (0 + d.flat.length) [] := le_of_eq (zero_add _)
    have hgaps := d.rising lengthBytes h
    rwa [append_nil] at hgaps
  rw [hroot, hpop, writeRootMessage]
  simp only [hbuffer, hsizes, hwrote.output, length_map]
  have hloop := writeLoop_eq 0 hrising le_rfl w.output
  rw [Nat.cast_zero] at hloop
  rw [ArrayInputStream.new, if_neg (by decide), hloop]
  exact d.putIn_eq_encode lengthBytes

/-- **The lengths.**  For a root object of which no error is told, the output is the encoding of
the events if and only if every object is in a field that is a message. -/
theorem output_eq_encode_iff
    (hquiet : ((new typeinfo masterType options).performAll (rootEvents name nested)).errors = [])
    (hlen : (encode typeinfo options masterType none nested).length < 2 ^ 31 - 1) :
    ((new typeinfo masterType options).performAll (rootEvents name nested)).output =
        encode typeinfo options masterType none nested ↔
      ObjectsAreMessages typeinfo masterType none nested := by
  rw [output_eq_document hquiet (by omega)]
  constructor
  · intro heq
    by_contra hbad
    have hlt := length_document_lt typeinfo options masterType none nested hbad
    rw [heq] at hlt
    exact lt_irrefl _ hlt
  · intro h
    exact encode_document typeinfo options masterType none nested h (by omega)

end

/-- An `int32` field that is called `a`, and a message of it. -/
def numberField : Field := ⟨.int32, .optional, 1, [97], [], 0, [97]⟩

def numberType : MessageType := ⟨[78], [numberField], [], .proto3⟩

/-- A message with such a message in a field that is called `b`. -/
def outerType : MessageType :=
  ⟨[79], [⟨.message, .optional, 2, [98], [78], 0, [98]⟩], [], .proto3⟩

def types : TypeInfo where
  getTypeByTypeUrl url := if url = [78] then some numberType else none
  getEnumByTypeUrl _ := none
  findField type name := type.fields.find? fun field => field.name = name

def defaultOptions : Options := ⟨false, false, false, false, false⟩

/-- A value that is the number 7. -/
def seven : DataPiece where
  toInt32 := .ok 7
  toUint32 := .ok 7
  toInt64 := .ok 7
  toUint64 := .ok 7
  toDouble := .error []
  toFloat := .error []
  toBool := .error []
  toBytes := .error []
  toString := .error []
  toEnum _ _ _ _ := (.error [], false)
  valueAsStringOrDefault default := default

/-- The output of a message in a message is its encoding. -/
theorem output_eq_encode_outer : ((new types outerType defaultOptions).performAll
        (rootEvents [] (.object [98] (.renderDataPiece [97] seven .nil) .nil))).output =
      encode types defaultOptions outerType none
        (.object [98] (.renderDataPiece [97] seven .nil) .nil) := by
  refine (output_eq_encode_iff (by decide) ?_).mpr ⟨⟨rfl, trivial⟩, trivial⟩
  have hencode : encode types defaultOptions outerType none
      (.object [98] (.renderDataPiece [97] seven .nil) .nil) =
        encodeMessage 2 (WireFormatLite.writeInt32 1 7 ++ []) ++ [] := rfl
  rw [hencode, append_nil, append_nil, length_encodeMessage, WireFormatLite.writeInt32,
    length_append, tagBytes, tagBytes, writeTagToArray, writeTagToArray, writeVarint32ToArray,
    writeVarint32ToArray, writeVarint64ToArray]
  simp only [length_varintBytes]
  decide

/-- An object in the `int32` field is taken, and gets no length. -/
theorem not_output_eq_encode :
    ¬ ∀ (typeinfo : TypeInfo) (masterType : MessageType) (options : Options) (name : Text)
      (nested : Nested),
      ((new typeinfo masterType options).performAll (rootEvents name nested)).errors = [] →
      (encode typeinfo options masterType none nested).length < 2 ^ 31 - 1 →
      ((new typeinfo masterType options).performAll (rootEvents name nested)).output =
        encode typeinfo options masterType none nested := by
  intro hall
  have hquiet : ((new types numberType defaultOptions).performAll
      (rootEvents [] (.object [97] .nil .nil))).errors = [] := by decide
  have hencode : encode types defaultOptions numberType none (.object [97] .nil .nil) =
      encodeMessage 1 [] ++ [] := rfl
  have hlen : (encode types defaultOptions numberType none (.object [97] .nil .nil)).length <
      2 ^ 31 - 1 := by
    rw [hencode, append_nil, length_encodeMessage, tagBytes, writeTagToArray, writeVarint32ToArray]
    simp only [length_varintBytes]
    decide
  have heq := hall types numberType defaultOptions [] (.object [97] .nil .nil) hquiet hlen
  have hbad : ¬ ObjectsAreMessages types numberType none (.object [97] .nil .nil) := by
    intro h
    exact absurd h.1.1 (by decide)
  have hlt := length_document_lt types defaultOptions numberType none _ hbad
  rw [output_eq_document hquiet (by omega)] at heq
  rw [heq] at hlt
  exact lt_irrefl _ hlt

end Protoc.Util.Converter
