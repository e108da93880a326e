import Protoc.Parse.CursorRead

/-!
# Parsing does not depend on the chunks

The parser over buffers reads the fields of the data before the limit.  Where the data holds
none, it fails, or its pointer goes past the end and the next end test finds that; bytes
behind the end decide nothing.  So a stream, however it is cut into chunks, is parsed like
the flat array of its bytes, as long as these are fewer than the limit over a stream.
-/

namespace Protoc.Parse

open Protoc.Lib Protoc.Io EpsCopyInputStream
open List Option

/-- The context stands at a position, with these depths. -/
structure Stands (data : List UInt8) (lim : ℕ) (depth groupDepth : ℤ) (ctx : ParseContext)
    (pos : ℕ) (ptr : Ptr) : Prop where
  cursor : ∃ E, Cursor data lim ctx.input E pos ptr
  depth_eq : ctx.depth = depth
  groupDepth_eq : ctx.groupDepth = groupDepth

/-- The parser's result for a field from the position `start` on, and what the data holds
there. -/
inductive FieldAt (data : List UInt8) (lim : ℕ) (depth groupDepth : ℤ) (start : ℕ)
    (spec : Option (ℕ × Parsed)) (r : Result) : Prop
  | read {pos : ℕ} {out : Parsed} {ptr : Ptr} {ctx : ParseContext} (hspec : spec = some (pos, out))
      (hr : r = some (ptr, ctx, out)) (hstands : Stands data lim depth groupDepth ctx pos ptr)
      (hlast : ctx.input.lastTagMinus1 = 0) (hle : start ≤ pos)
  | failed (hspec : spec = none) (hr : r = none)
  | past {pos : ℕ} {out : Parsed} {ptr : Ptr} {ctx : ParseContext} (hspec : spec = none)
      (hr : r = some (ptr, ctx, out)) (hstands : Stands data lim depth groupDepth ctx pos ptr)
      (hlast : ctx.input.lastTagMinus1 = 0) (hpos : (body data lim).length < pos)

/-- What `last_tag_minus_1_` tells about how the fields end. -/
def endingTag (data : List UInt8) (lim : ℕ) : Ending → BitVec 32
  | none => if lim ≤ data.length then 0 else 1
  | some tag => tag - 1

/-- The parser's result for a sequence of fields. -/
inductive FieldsAt (data : List UInt8) (lim : ℕ) (depth groupDepth : ℤ) (start : ℕ)
    (spec : Option (Ending × ℕ × Parsed)) (r : Result) : Prop
  | read {ending : Ending} {pos : ℕ} {out : Parsed} {ptr : Ptr} {ctx : ParseContext}
      (hspec : spec = some (ending, pos, out)) (hr : r = some (ptr, ctx, out))
      (hstands : Stands data lim depth groupDepth ctx pos ptr)
      (hlast : ctx.input.lastTagMinus1 = endingTag data lim ending)
      (htag : ∀ tag, ending = some tag → tag = 0 ∨ tag &&& 7 = 4) (hle : start ≤ pos)
  | failed (hspec : spec = none) (hr : r = none)
  | past {pos : ℕ} {out : Parsed} {ptr : Ptr} {ctx : ParseContext} {tag : BitVec 32}
      (hspec : spec = none) (hr : r = some (ptr, ctx, out))
      (hstands : Stands data lim depth groupDepth ctx pos ptr)
      (hlast : ctx.input.lastTagMinus1 = tag - 1) (htag : tag = 0 ∨ tag &&& 7 = 4)
      (hpos : (body data lim).length < pos)

variable {data : List UInt8} {lim : ℕ} {depth groupDepth : ℤ} {ctx : ParseContext} {pos : ℕ}
  {ptr : Ptr} {out : Parsed}

variable {s : EpsCopyInputStream}

theorem Stands.with_input (h : Stands data lim depth groupDepth ctx pos ptr) {E : ℤ} {pos : ℕ} {ptr : Ptr} (hcursor : Cursor data lim s E pos ptr) :
    Stands data lim depth groupDepth { ctx with input := s } pos ptr :=
  ⟨⟨E, hcursor⟩, h.depth_eq, h.groupDepth_eq⟩

theorem Stands.decode {α : Type} {n : ℕ} {D : Decoder UInt8 α} (hD : D.Local n)
    (h : Stands data lim depth groupDepth ctx pos ptr) (hn : ptr.diff ctx.input.bufferEnd + n ≤ kSlopBytes) :
    (∀ {len a}, D ((body data lim).drop pos) = some (len, a) → D (ctx.input.bytes ptr) = some (len, a) ∧
        Stands data lim depth groupDepth ctx (pos + len) (ptr.add len)) ∧
    (∀ {len a}, D ((body data lim).drop pos) = none → D (ctx.input.bytes ptr) = some (len, a) →
      Stands data lim depth groupDepth ctx (pos + len) (ptr.add len) ∧ (body data lim).length < pos + len) := by
  obtain ⟨E, hcursor⟩ := h.cursor
  obtain ⟨hsome, hnone⟩ := hcursor.decode hD hn
  constructor
  · intro len a hspec
    obtain ⟨hread, hroom, -⟩ := hsome hspec
    exact ⟨hread, ⟨E, hcursor.advance hroom⟩, h.depth_eq, h.groupDepth_eq⟩
  · intro len a hspec hread
    obtain ⟨hroom, hpast⟩ := hnone hspec hread
    exact ⟨⟨⟨E, hcursor.advance hroom⟩, h.depth_eq, h.groupDepth_eq⟩, hpast⟩

variable {r : Result}

theorem Stands.number_fieldAt {α : Type} {n : ℕ} {D : Decoder UInt8 α} (hD : D.Local n)
    (h : Stands data lim depth groupDepth ctx pos ptr) (hlast : ctx.input.lastTagMinus1 = 0)
    (hn : ptr.diff ctx.input.bufferEnd + n ≤ kSlopBytes) {add : α → Parsed} {spec : Option (ℕ × Parsed)}
    (hspec : spec = (D ((body data lim).drop pos)).map fun v => (pos + v.1, add v.2))
    (hr : r = (D (ctx.input.bytes ptr)).map fun v => (ptr.add v.1, ctx, add v.2)) :
    FieldAt data lim depth groupDepth pos spec r := by
  rw [hspec, hr]
  obtain ⟨hsome, hnone⟩ := h.decode hD hn
  cases hparse : D ((body data lim).drop pos) with
  | some v =>
    obtain ⟨hread, hstands⟩ := hsome hparse
    rw [hread]
    exact .read rfl rfl hstands hlast (Nat.le_add_right _ _)
  | none =>
    cases hread : D (ctx.input.bytes ptr) with
    | none => exact .failed rfl rfl
    | some v =>
      obtain ⟨hstands, hpast⟩ := hnone hparse hread
      exact .past rfl rfl hstands hlast hpast

/-- A field of a size and a payload. -/
theorem Stands.payload_fieldAt {α : Type} (payload : Payload) (num : BitVec 32) (out : Parsed)
    (read : Ptr → BitVec 32 → Option (α × Ptr × EpsCopyInputStream))
    {value : List UInt8 → Option α} (add : BitVec 32 → α → Parsed)
    (hread : ∀ {E : ℤ} {pos : ℕ} {ptr : Ptr} (size : BitVec 32), Cursor data lim ctx.input E pos ptr →
      ReadAt data lim ctx.input pos size.toNat value (read ptr size))
    (hvalue : ∀ (bytes : List UInt8) (size : BitVec 32), bytes.length = size.toNat →
      payload.read num bytes out = (value bytes).map (add size))
    (h : Stands data lim depth groupDepth ctx pos ptr) (hlast : ctx.input.lastTagMinus1 = 0)
    (hn : ptr.diff ctx.input.bufferEnd + 5 ≤ kSlopBytes) :
    FieldAt data lim depth groupDepth pos (payloadField payload (body data lim) num pos out)
      (match readSize (ctx.input.bytes ptr) with
        | none => none
        | some (n, size) => (read (ptr.add n) size).map fun r =>
          (r.2.1, { ctx with input := r.2.2 }, add size r.1)) := by
  obtain ⟨hsome, hnone⟩ := h.decode readSize_local hn
  rw [payloadField]
  cases hspec : readSize ((body data lim).drop pos) with
  | none =>
    cases hsize : readSize (ctx.input.bytes ptr) with
    | none => exact .failed rfl rfl
    | some v =>
      obtain ⟨n, size⟩ := v
      obtain ⟨hstands, hpast⟩ := hnone hspec hsize
      obtain ⟨E, hcursor⟩ := hstands.cursor
      simp only
      cases hread size hcursor with
      | none hr =>
        rw [hr]
        exact .failed rfl rfl
      | some hr hcursor' hlast' =>
        rw [hr, map_some]
        exact .past rfl rfl (h.with_input hcursor') (hlast'.trans hlast) (by omega)
  | some v =>
    obtain ⟨n, size⟩ := v
    obtain ⟨hsize, hstands⟩ := hsome hspec
    obtain ⟨E, hcursor⟩ := hstands.cursor
    rw [hsize]
    simp only
    by_cases hend : (body data lim).length < pos + n + size.toNat
    · rw [if_pos hend]
      cases hread size hcursor with
      | none hr =>
        rw [hr]
        exact .failed rfl rfl
      | some hr hcursor' hlast' =>
        rw [hr, map_some]
        exact .past rfl rfl (h.with_input hcursor') (hlast'.trans hlast) hend
    · rw [if_neg hend]
      have hle : pos + n + size.toNat ≤ (body data lim).length := not_lt.mp hend
      have hbytes := hvalue _ size (length_payloadBytes hle)
      cases hread size hcursor with
      | none hr hnone =>
        rw [hr, hbytes, hnone hle]
        exact .failed rfl rfl
      | some hr hcursor' hlast' hsome =>
        rw [hr, hbytes, hsome hle]
        exact .read rfl rfl (h.with_input hcursor') (hlast'.trans hlast) (by omega)

/-! ## Fields -/

/-- `ParseLengthDelimited` of the helper. -/
theorem parseLengthDelimited_fieldAt (h : Stands data lim depth groupDepth ctx pos ptr)
    (hlast : ctx.input.lastTagMinus1 = 0)
    (hn : ptr.diff ctx.input.bufferEnd + 5 ≤ kSlopBytes) (num : BitVec 32) :
    FieldAt data lim depth groupDepth pos (payloadField .unknown (body data lim) num pos out)
      (parseLengthDelimited num ptr ctx out) := by
  cases hunknown : out.unknown with
  | none =>
    have happend : ∀ bytes, out.append bytes = out := by
      intro bytes
      cases out with
      | mk unknown added =>
        simp only at hunknown
        rw [hunknown]
        rfl
    have hfield := h.payload_fieldAt .unknown num out
      (fun p size => (ctx.input.skip p size.toNat).map fun r => ((), r)) (fun _ _ => out)
      (fun size hcursor => hcursor.skip_readAt size.toNat)
      (fun bytes size _ => by simp [Payload.read, Parsed.writeVarint, happend]) hlast hn
    have hparse : parseLengthDelimited num ptr ctx out =
        match readSize (ctx.input.bytes ptr) with
        | none => none
        | some (n, size) =>
          ((ctx.input.skip (ptr.add n) size.toNat).map fun r => ((), r)).map fun r =>
            (r.2.1, { ctx with input := r.2.2 }, out) := by
      rw [parseLengthDelimited]
      cases readSize (ctx.input.bytes ptr) with
      | none => rfl
      | some v =>
        simp only [bind_eq_bind, bind_some, hunknown, Option.map_map]
        cases ctx.input.skip (ptr.add v.1) v.2.toNat <;> rfl
    rw [hparse]
    exact hfield
  | some unknown =>
    have hfield := h.payload_fieldAt .unknown num out
      (fun p size => ctx.input.appendString p size.toNat)
      (fun size bytes => ((out.writeVarint (num * 8 + 2).toNat).writeVarint size.toNat).append
        bytes)
      (fun size hcursor => hcursor.appendString_readAt size.toNat)
      (fun bytes size hlength => by simp [Payload.read, hlength]) hlast hn
    have hparse : parseLengthDelimited num ptr ctx out =
        match readSize (ctx.input.bytes ptr) with
        | none => none
        | some (n, size) => (ctx.input.appendString (ptr.add n) size.toNat).map fun r =>
            (r.2.1, { ctx with input := r.2.2 },
              ((out.writeVarint (num * 8 + 2).toNat).writeVarint size.toNat).append r.1) := by
      rw [parseLengthDelimited]
      cases readSize (ctx.input.bytes ptr) with
      | none => rfl
      | some v =>
        simp only [bind_eq_bind, bind_some, hunknown]
        cases ctx.input.appendString (ptr.add v.1) v.2.toNat <;> rfl
    rw [hparse]
    exact hfield

theorem varintParser_fieldAt (h : Stands data lim depth groupDepth ctx pos ptr)
    (hlast : ctx.input.lastTagMinus1 = 0)
    (hn : ptr.diff ctx.input.bufferEnd + 5 ≤ kSlopBytes) (num : BitVec 32) :
    FieldAt data lim depth groupDepth pos (payloadField .packedVarint (body data lim) num pos out)
      (varintParser num ptr ctx out) := by
  have hfield := h.payload_fieldAt .packedVarint num out
    (fun p size => ctx.input.readPackedVarintLoop
      ((size.toNat - ctx.input.bufferEnd.diff p).toNat + 1) p size.toNat)
    (fun _ values => out.add num (values.map BitVec.toNat))
    (fun size hcursor => hcursor.readPackedVarintLoop_readAt _ size.toNat (by
      simp only [Ptr.diff]
      omega))
    (fun bytes size _ => rfl) hlast hn
  have hparse : varintParser num ptr ctx out =
      match readSize (ctx.input.bytes ptr) with
      | none => none
      | some (n, size) => (ctx.input.readPackedVarintLoop
          ((size.toNat - ctx.input.bufferEnd.diff (ptr.add n)).toNat + 1) (ptr.add n) size.toNat).map
            fun r => (r.2.1, { ctx with input := r.2.2 }, out.add num (r.1.map BitVec.toNat)) := by
    rw [varintParser, readPackedVarint]
    cases readSize (ctx.input.bytes ptr) with
    | none => rfl
    | some v =>
      simp only
      cases ctx.input.readPackedVarintLoop
        ((v.2.toNat - ctx.input.bufferEnd.diff (ptr.add v.1)).toNat + 1) (ptr.add v.1) v.2.toNat <;> rfl
  rw [hparse]
  exact hfield

theorem fixedParser_fieldAt {width : ℕ} (hwidth : 0 < width) (hslop : width ≤ kSlopBytes)
    {payload : Payload} {num : BitVec 32} (hpayload : ∀ bytes, payload.read num bytes out =
      (fixeds width bytes).map fun values => out.add num values)
    (h : Stands data lim depth groupDepth ctx pos ptr) (hlast : ctx.input.lastTagMinus1 = 0)
    (hn : ptr.diff ctx.input.bufferEnd + 5 ≤ kSlopBytes) :
    FieldAt data lim depth groupDepth pos (payloadField payload (body data lim) num pos out)
      (fixedParser width num ptr ctx out) := by
  have hfield := h.payload_fieldAt payload num out
    (fun p size => ctx.input.readPackedFixed width p size.toNat)
    (fun _ values => out.add num values)
    (fun size hcursor => hcursor.readPackedFixed_readAt hwidth hslop size.toNat)
    (fun bytes size _ => hpayload bytes) hlast hn
  have hparse : fixedParser width num ptr ctx out =
      match readSize (ctx.input.bytes ptr) with
      | none => none
      | some (n, size) => (ctx.input.readPackedFixed width (ptr.add n) size.toNat).map
          fun r => (r.2.1, { ctx with input := r.2.2 }, out.add num r.1) := by
    rw [fixedParser]
    cases readSize (ctx.input.bytes ptr) with
    | none => rfl
    | some v =>
      simp only [bind_eq_bind, bind_some]
      cases ctx.input.readPackedFixed width (ptr.add v.1) v.2.toNat <;> rfl
  rw [hparse]
  exact hfield

theorem startTag_ne (num : BitVec 32) : num * 8 + 3 ≠ 0 ∧ num * 8 + 3 ≠ 1 := by
  constructor
  · intro h
    have htoNat := congrArg BitVec.toNat h
    simp only [BitVec.toNat_add, BitVec.toNat_mul] at htoNat
    simp at htoNat
    omega
  · intro h
    have htoNat := congrArg BitVec.toNat h
    simp only [BitVec.toNat_add, BitVec.toNat_mul] at htoNat
    simp at htoNat
    omega

/-- `ParseGroup`, given the parser of the group's fields. -/
theorem parseGroup_fieldAt {group : ℤ → ℕ → Parsed → Option (Ending × ℕ × Parsed)}
    {internalParse : Ptr → ParseContext → Parsed → Result} (num : BitVec 32)
    (hinternal : ∀ out, 0 ≤ depth - 1 → FieldsAt data lim (depth - 1) (groupDepth + 1) pos
      (group (depth - 1) pos out)
      (internalParse ptr { ctx with depth := depth - 1, groupDepth := groupDepth + 1 } out))
    (h : Stands data lim depth groupDepth ctx pos ptr) :
    FieldAt data lim depth groupDepth pos
      (if depth - 1 < 0 then none
        else
          match group (depth - 1) pos (out.writeVarint (num * 8 + 3).toNat) with
          | some (some endTag, pos, out) =>
            if endTag - 1 = num * 8 + 3 then some (pos, out.writeVarint (num * 8 + 4).toNat)
            else none
          | _ => none)
      (parseGroup internalParse num ptr ctx out) := by
  have hdepth := h.depth_eq
  have hgroupDepth := h.groupDepth_eq
  rw [parseGroup]
  simp only [hdepth, hgroupDepth]
  by_cases hdeep : depth - 1 < 0
  · rw [if_pos hdeep, if_pos hdeep]
    exact .failed rfl rfl
  · rw [if_neg hdeep, if_neg hdeep]
    have hback : ∀ {ctx' : ParseContext} {pos' : ℕ} {ptr' : Ptr},
        Stands data lim (depth - 1) (groupDepth + 1) ctx' pos' ptr' →
        Stands data lim depth groupDepth
          ⟨(ctx'.input.consumeEndGroup (num * 8 + 3)).2, ctx'.depth + 1, ctx'.groupDepth - 1⟩ pos'
          ptr' := by
      intro ctx' pos' ptr' hstands
      obtain ⟨E, hcursor⟩ := hstands.cursor
      refine ⟨⟨E, ?_⟩, ?_, ?_⟩
      · exact {
          hcursor.with_limits ctx'.input.limitEnd ctx'.input.limit 0 with
          limit_eq := hcursor.limit_eq
          limitEnd_eq := hcursor.limitEnd_eq }
      · have hdepth' := hstands.depth_eq
        simp only
        omega
      · have hgroupDepth' := hstands.groupDepth_eq
        simp only
        omega
    cases hinternal (out.writeVarint (num * 8 + 3).toNat) (by omega) with
    | failed hspec hr =>
      rw [hspec, hr]
      exact .failed rfl rfl
    | past hspec hr hstands hlast htag hpos =>
      rw [hspec, hr]
      simp only
      split
      · exact .failed rfl rfl
      · exact .past rfl rfl (hback hstands) rfl hpos
    | @read ending pos' out' ptr' ctx' hspec hr hstands hlast htag hle =>
      rw [hspec, hr]
      cases ending with
      | none =>
        have hne : ctx'.input.lastTagMinus1 ≠ num * 8 + 3 := by
          rw [hlast, endingTag]
          split
          · exact (startTag_ne num).1.symm
          · exact (startTag_ne num).2.symm
        have hfst : (ctx'.input.consumeEndGroup (num * 8 + 3)).1 = false :=
          beq_eq_false_iff_ne.mpr hne
        simp only
        rw [if_pos hfst]
        exact .failed rfl rfl
      | some tag =>
        have hfst : (ctx'.input.consumeEndGroup (num * 8 + 3)).1 = (tag - 1 == num * 8 + 3) := by
          rw [consumeEndGroup, hlast, endingTag]
        simp only
        by_cases hequal : tag - 1 = num * 8 + 3
        · have htrue : (ctx'.input.consumeEndGroup (num * 8 + 3)).1 ≠ false := by
            rw [hfst, hequal, beq_self_eq_true]
            decide
          rw [if_pos hequal, if_neg htrue]
          exact .read rfl rfl (hback hstands) rfl hle
        · have hfalse : (ctx'.input.consumeEndGroup (num * 8 + 3)).1 = false :=
            hfst.trans (beq_eq_false_iff_ne.mpr hequal)
          rw [if_neg hequal, if_pos hfalse]
          exact .failed rfl rfl

/-- `FieldParser`, given the parser of a group's fields. -/
theorem fieldParser_fieldAt {payload : BitVec 32 → Payload}
    {group : ℤ → ℕ → Parsed → Option (Ending × ℕ × Parsed)}
    {internalParse : Ptr → ParseContext → Parsed → Result} (tag : BitVec 32)
    (hinternal : ∀ out, 0 ≤ depth - 1 → FieldsAt data lim (depth - 1) (groupDepth + 1) pos
      (group (depth - 1) pos out)
      (internalParse ptr { ctx with depth := depth - 1, groupDepth := groupDepth + 1 } out))
    (h : Stands data lim depth groupDepth ctx pos ptr) (hlast : ctx.input.lastTagMinus1 = 0)
    (hn : ptr.diff ctx.input.bufferEnd + 10 ≤ kSlopBytes) :
    FieldAt data lim depth groupDepth pos
      (field payload (body data lim) group depth tag pos out)
      (fieldParser payload internalParse tag ptr ctx out) := by
  rw [field, fieldParser]
  by_cases hnumber : tag >>> 3 = 0
  · rw [if_pos hnumber, if_pos hnumber]
    exact .failed rfl rfl
  · rw [if_neg hnumber, if_neg hnumber]
    -- the kinds of fields in the order of their wire types, 4 and those from 6 on being none
    generalize (tag &&& 7).toNat = kind
    rcases kind with - | - | - | - | - | - | kind
    · apply h.number_fieldAt varintParse_local hlast hn
      · cases varintParse ((body data lim).drop pos) <;> rfl
      · cases varintParse (ctx.input.bytes ptr) <;> rfl
    · apply h.number_fieldAt (unalignedLoad_local (show 0 < 8 by decide)) hlast (by omega)
      · cases unalignedLoad 8 ((body data lim).drop pos) <;> rfl
      · cases unalignedLoad 8 (ctx.input.bytes ptr) <;> rfl
    · simp only [zero_add, Nat.reduceAdd]
      cases hpayload : payload (tag >>> 3) with
      | unknown => exact parseLengthDelimited_fieldAt h hlast (by omega) _
      | packedVarint => exact varintParser_fieldAt h hlast (by omega) _
      | packedFixed32 =>
        exact fixedParser_fieldAt (by decide) (by decide) (fun _ => rfl) h hlast (by omega)
      | packedFixed64 =>
        exact fixedParser_fieldAt (by decide) (by decide) (fun _ => rfl) h hlast (by omega)
    · exact parseGroup_fieldAt (tag >>> 3) hinternal h
    · exact .failed rfl rfl
    · apply h.number_fieldAt (unalignedLoad_local (show 0 < 4 by decide)) hlast (by omega)
      · cases unalignedLoad 4 ((body data lim).drop pos) <;> rfl
      · cases unalignedLoad 4 (ctx.input.bytes ptr) <;> rfl
    · exact .failed rfl rfl

/-! ## Sequences of fields -/

theorem fields_past (payload : BitVec 32 → Payload) (fuel : ℕ) {data : List UInt8} (depth : ℤ)
    {pos : ℕ} (out : Parsed) (hpos : data.length < pos) : fields payload data fuel depth pos out = none := by
  cases fuel with
  | zero => rfl
  | succ fuel =>
    have htag : readTag (data.drop pos) = none := by
      rw [drop_eq_nil_of_le (le_of_lt hpos)]
      rfl
    rw [fields, if_neg (by omega), htag]

theorem FieldsAt.mono {start' : ℕ} {spec : Option (Ending × ℕ × Parsed)} {start : ℕ}
    (h : FieldsAt data lim depth groupDepth start' spec r) (hle : start ≤ start') :
    FieldsAt data lim depth groupDepth start spec r := by
  cases h with
  | read hspec hr hstands hlast htag hpos =>
    exact .read hspec hr hstands hlast htag (le_trans hle hpos)
  | failed hspec hr => exact .failed hspec hr
  | past hspec hr hstands hlast htag hpos => exact .past hspec hr hstands hlast htag hpos

theorem room_behind_tag (hroom : ptr.diff s.bufferEnd < 0) {k : ℕ}
    (hk : k ≤ 5) : (ptr.add k).diff s.bufferEnd + 10 ≤ kSlopBytes := by
  simp only [Ptr.diff, Ptr.add, kSlopBytes] at hroom ⊢
  omega

/-- **`WireFormatParser`** reads the fields up to the end of the data or to the tag that ends
them. -/
theorem wireFormatParser_fieldsAt (payload : BitVec 32 → Payload) (fuel : ℕ)
    (h : Stands data lim depth groupDepth ctx pos ptr) (hlast : ctx.input.lastTagMinus1 = 0)
    (hgroup : groupDepth < 0) (hsum : groupDepth + depth < 0) :
    FieldsAt data lim depth groupDepth pos (fields payload (body data lim) fuel depth pos out)
      (wireFormatParser payload fuel ptr ctx out) := by
  induction fuel generalizing depth groupDepth ctx pos ptr out with
  | zero => exact .failed rfl rfl
  | succ fuel ih =>
    obtain ⟨E, hcursor⟩ := h.cursor
    have hdone := hcursor.done_spec (h.groupDepth_eq ▸ hgroup)
    rw [wireFormatParser, ParseContext.done]
    cases hdone with
    | past hr hpos =>
      rw [fields_past payload _ depth out hpos]
      simp only [hr]
      exact .failed rfl rfl
    | done hr hcursor' hpos hlast' =>
      rw [fields, if_pos hpos]
      simp only [hr]
      refine .read rfl rfl (h.with_input hcursor') ?_ (by simp) le_rfl
      simp only [hlast', hlast, endingTag]
    | @more p s' E' hr hcursor' hroom hpos hlast' =>
      have hzero := hlast'.trans hlast
      have hstands := h.with_input hcursor'
      obtain ⟨hsome, hnone⟩ := hstands.decode readTag_local (by simp only [kSlopBytes]; omega)
      have hfieldAt : ∀ {n : ℕ} (tag : BitVec 32), n ≤ 5 →
          Stands data lim depth groupDepth { ctx with input := s' } (pos + n) (p.add n) →
          FieldAt data lim depth groupDepth (pos + n)
            (field payload (body data lim) (fields payload (body data lim) fuel) depth tag
              (pos + n) out)
            (fieldParser payload (wireFormatParser payload fuel) tag (p.add n)
              { ctx with input := s' } out) := by
        intro n tag hn hstands
        exact fieldParser_fieldAt tag
          (fun out hdepth => ih ⟨hstands.cursor, rfl, rfl⟩ hzero (by omega) (by omega))
          hstands hzero (room_behind_tag hroom hn)
      -- where the pointer is behind the end, the rest finds no field
      have hrest : ∀ {pos' : ℕ} (out' : Parsed) {ptr' : Ptr} {ctx' : ParseContext},
          Stands data lim depth groupDepth ctx' pos' ptr' → ctx'.input.lastTagMinus1 = 0 →
          (body data lim).length < pos' →
          FieldsAt data lim depth groupDepth pos none
            (wireFormatParser payload fuel ptr' ctx' out') := by
        intro pos' out' ptr' ctx' hstands hlast hpast
        rw [← fields_past payload fuel depth out' hpast]
        exact (ih hstands hlast hgroup hsum).mono (by omega)
      rw [fields, if_neg (ne_of_lt hpos)]
      simp only [hr]
      cases hspec : readTag ((body data lim).drop pos) with
      | some v =>
        obtain ⟨n, tag⟩ := v
        obtain ⟨hread, hstands'⟩ := hsome hspec
        obtain ⟨-, hle, -⟩ := readTag_local hspec
        simp only [hread]
        by_cases hend : tag = 0 ∨ tag &&& 7 = 4
        · rw [if_pos hend, if_pos hend]
          obtain ⟨E'', hcursor''⟩ := hstands'.cursor
          refine .read rfl rfl (h.with_input (hcursor''.with_lastTag (tag - 1))) rfl ?_
            (Nat.le_add_right _ _)
          intro tag' htag'
          rwa [← some.inj htag']
        · rw [if_neg hend, if_neg hend]
          cases hfieldAt tag hle hstands' with
          | failed hspec hr =>
            simp only [hspec, hr]
            exact .failed rfl rfl
          | read hspec hr hstands hlast hle =>
            simp only [hspec, hr]
            exact (ih hstands hlast hgroup hsum).mono (by omega)
          | past hspec hr hstands hlast hpast =>
            simp only [hspec, hr]
            exact hrest _ hstands hlast hpast
      | none =>
        cases hread : readTag (s'.bytes p) with
        | none => exact .failed rfl rfl
        | some v =>
          obtain ⟨n, tag⟩ := v
          obtain ⟨hstands', hpast⟩ := hnone hspec hread
          obtain ⟨-, hle, -⟩ := readTag_local hread
          simp only
          by_cases hend : tag = 0 ∨ tag &&& 7 = 4
          · rw [if_pos hend]
            obtain ⟨E'', hcursor''⟩ := hstands'.cursor
            exact .past rfl rfl (h.with_input (hcursor''.with_lastTag (tag - 1))) rfl hend hpast
          · rw [if_neg hend]
            cases hfieldAt tag hle hstands' with
            | failed hspec hr =>
              simp only [hr]
              exact .failed rfl rfl
            | read hspec hr hstands hlast hle =>
              simp only [hr]
              exact hrest _ hstands hlast (by omega)
            | past hspec hr hstands hlast hpast =>
              simp only [hr]
              exact hrest _ hstands hlast hpast

/-! ## Arrays and streams -/

theorem endTag_ne {tag : BitVec 32} (h : tag = 0 ∨ tag &&& 7 = 4) : tag - 1 ≠ 0 ∧ tag - 1 ≠ 1 := by
  constructor
  · intro hzero
    have htag : tag = 1 := by
      rw [← BitVec.sub_add_cancel tag 1, hzero]
      rfl
    rw [htag] at h
    revert h
    decide
  · intro hone
    have htag : tag = 2 := by
      rw [← BitVec.sub_add_cancel tag 1, hone]
      rfl
    rw [htag] at h
    revert h
    decide

/-- What a parse that is to end in a given way has read. -/
def endedWith (code : BitVec 32) : Result → Option Parsed
  | none => none
  | some (_, ctx, out) => if ctx.input.lastTagMinus1 == code then some out else none

theorem FieldsAt.endedWith_eq {payload : BitVec 32 → Payload} {fuel start : ℕ}
    (h : FieldsAt data lim depth groupDepth start
      (fields payload (body data lim) fuel depth 0 out) r)
    (hfuel : (body data lim).length < fuel) {code : BitVec 32} (hcode : code = 0 ∨ code = 1) :
    endedWith code r =
      if endingTag data lim none = code then message payload depth (body data lim) out else none := by
  have hfields : fields payload (body data lim) ((body data lim).length + 1) depth 0 out =
      fields payload (body data lim) fuel depth 0 out := fields_fuel (by omega) (by omega)
  rw [message, hfields]
  have hother : ∀ {tag : BitVec 32} {ctx : ParseContext}, tag = 0 ∨ tag &&& 7 = 4 →
      ctx.input.lastTagMinus1 = tag - 1 → ¬ (ctx.input.lastTagMinus1 == code) = true := by
    intro tag ctx htag hlast
    rw [hlast, beq_iff_eq]
    rcases hcode with rfl | rfl
    · exact (endTag_ne htag).1
    · exact (endTag_ne htag).2
  cases h with
  | failed hspec hr => rw [hspec, hr, endedWith, ite_self]
  | past hspec hr hstands hlast htag hpos =>
    rw [hspec, hr, endedWith, if_neg (hother htag hlast), ite_self]
  | @read ending pos out' ptr ctx hspec hr hstands hlast htag hle =>
    rw [hspec, hr, endedWith]
    cases ending with
    | none => simp only [hlast, beq_iff_eq]
    | some tag => rw [if_neg (hother (htag tag rfl) hlast), ite_self]

theorem ofInput_depths (depth : Int32) : (-INT_MAX - 1 : ℤ) < 0 ∧ (-INT_MAX - 1 : ℤ) + depth.toInt < 0 := by
  have hle := depth.toInt_le
  have hmax : Int32.maxValue.toInt = INT_MAX := rfl
  rw [hmax] at hle
  omega

theorem ofInput_fieldsAt (payload : BitVec 32 → Payload) (fuel : ℕ) (depth : Int32) (out : Parsed) (hcursor : ∃ E, Cursor data lim s E 0 ptr) (hlast : s.lastTagMinus1 = 0) :
    FieldsAt data lim depth.toInt (-INT_MAX - 1) 0 (fields payload (body data lim) fuel depth.toInt 0 out)
      (wireFormatParser payload fuel ptr (.ofInput s depth) out) := by
  obtain ⟨hgroup, hsum⟩ := ofInput_depths depth
  have hstands : Stands data lim depth.toInt (-INT_MAX - 1) (.ofInput s depth) 0 ptr :=
    ⟨hcursor, rfl, rfl⟩
  exact wireFormatParser_fieldsAt payload fuel hstands hlast hgroup hsum

/-- **An array** is parsed as a message. -/
theorem mergeFromFlat_eq (payload : BitVec 32 → Payload) {fuel : ℕ} (depth : Int32)
    (flat : List UInt8) (out : Parsed) (hfuel : flat.length < fuel) :
    mergeFromFlat payload fuel depth flat out = message payload depth.toInt flat out := by
  obtain ⟨hcursor, hlast⟩ := initFromFlat_cursor flat
  have hbody : body flat flat.length = flat := take_length
  have hfields := ofInput_fieldsAt payload fuel depth out hcursor hlast
  have hmessage := hfields.endedWith_eq (by rw [hbody]; exact hfuel) (.inl rfl)
  have hending : endingTag flat flat.length none = 0 := if_pos le_rfl
  rw [if_pos hending, hbody] at hmessage
  rw [← hmessage, mergeFromFlat]
  cases wireFormatParser payload fuel (initFromFlat flat).1
    (.ofInput (initFromFlat flat).2 depth) out <;> rfl

/-- **A stream** is parsed as a message, if it is shorter than the limit. -/
theorem mergeFromStream_eq (payload : BitVec 32 → Payload) {fuel : ℕ} (depth : Int32)
    {chunks : List (List UInt8)} (out : Parsed) (hsize : ∀ chunk ∈ chunks, chunk.length ≤ INT_MAX)
    (hfuel : chunks.flatten.length < fuel) :
    mergeFromStream payload fuel depth ⟨chunks, 0⟩ out =
      if chunks.flatten.length < streamLimit chunks then
        message payload depth.toInt chunks.flatten out
      else none := by
  obtain ⟨hcursor, hlast⟩ := initFrom_cursor hsize
  have hfields := ofInput_fieldsAt payload fuel depth out hcursor hlast
  have hlength : (body chunks.flatten (streamLimit chunks)).length ≤ chunks.flatten.length :=
    length_take_le' _ _
  have hmessage := hfields.endedWith_eq (by omega) (.inr rfl)
  have hmerge : mergeFromStream payload fuel depth ⟨chunks, 0⟩ out =
      if endingTag chunks.flatten (streamLimit chunks) none = 1 then
        message payload depth.toInt (body chunks.flatten (streamLimit chunks)) out
      else none := by
    rw [← hmessage, mergeFromStream]
    cases wireFormatParser payload fuel (initFrom ⟨chunks, 0⟩).1
      (.ofInput (initFrom ⟨chunks, 0⟩).2 depth) out <;> rfl
  rw [hmerge]
  by_cases hless : chunks.flatten.length < streamLimit chunks
  · have hbody : body chunks.flatten (streamLimit chunks) = chunks.flatten :=
      take_of_length_le (by omega)
    have hending : endingTag chunks.flatten (streamLimit chunks) none = 1 := if_neg (by omega)
    rw [if_pos hending, if_pos hless, hbody]
  · have hending : endingTag chunks.flatten (streamLimit chunks) none = 0 := if_pos (by omega)
    rw [if_neg (by rw [hending]; decide), if_neg hless]

/-- **Parsing does not depend on the chunks.**  A stream of fewer bytes than its limit is
accepted when the array of its bytes is, and the same is read from it.  A longer one is
rejected. -/
theorem mergeFromStream_eq_mergeFromFlat (payload : BitVec 32 → Payload) {fuel fuel' : ℕ}
    (depth : Int32) (chunks : List (List UInt8)) (out : Parsed)
    (hsize : ∀ chunk ∈ chunks, chunk.length ≤ INT_MAX) (hfuel : chunks.flatten.length < fuel)
    (hfuel' : chunks.flatten.length < fuel') :
    mergeFromStream payload fuel depth ⟨chunks, 0⟩ out =
      if chunks.flatten.length < streamLimit chunks then
        mergeFromFlat payload fuel' depth chunks.flatten out
      else none := by
  rw [mergeFromStream_eq payload depth out hsize hfuel,
    mergeFromFlat_eq payload depth chunks.flatten out hfuel']

/-- A field in three chunks, one of them empty. -/
theorem mergeFromStream_eq_mergeFromFlat_cut :
    mergeFromStream (fun _ => .unknown) 4 100 ⟨[[0x08], [], [0x96, 0x01]], 0⟩ ⟨some [], []⟩ =
      mergeFromFlat (fun _ => .unknown) 4 100 [0x08, 0x96, 0x01] ⟨some [], []⟩ :=
  mergeFromStream_eq_mergeFromFlat (fun _ => .unknown) 100 [[0x08], [], [0x96, 0x01]]
    ⟨some [], []⟩ (by decide) (show _ < 4 by decide) (show _ < 4 by decide)

/-- A field of the largest size, behind an empty chunk. -/
def longField : List UInt8 :=
  [0x0A, 0xEF, 0xFF, 0xFF, 0xFF, 0x07] ++ replicate (INT_MAX - kSlopBytes) 0

theorem length_longField : longField.length = 6 + (INT_MAX - kSlopBytes) := by
  rw [longField, length_append, length_replicate]
  rfl

theorem message_of_size {bytes : List UInt8} (h : bytes.length = INT_MAX - kSlopBytes) :
    message (fun _ => .unknown) 100 ([0x0A, 0xEF, 0xFF, 0xFF, 0xFF, 0x07] ++ bytes) ⟨none, []⟩ =
      some ⟨none, []⟩ := by
  have hlength : ([0x0A, 0xEF, 0xFF, 0xFF, 0xFF, 0x07] ++ bytes).length = bytes.length + 6 := by
    rw [length_append, add_comm]
    rfl
  have hsize : (BitVec.ofNat 32 2147483631).toNat = bytes.length := by
    rw [h]
    simp [INT_MAX, kSlopBytes]
  have htag : readTag (([0x0A, 0xEF, 0xFF, 0xFF, 0xFF, 0x07] ++ bytes).drop 0) = some (1, 10) := rfl
  have hread : readSize (([0x0A, 0xEF, 0xFF, 0xFF, 0xFF, 0x07] ++ bytes).drop 1) =
      some (5, BitVec.ofNat 32 2147483631) := rfl
  have hfield : field (fun _ => .unknown) ([0x0A, 0xEF, 0xFF, 0xFF, 0xFF, 0x07] ++ bytes)
      (fields (fun _ => .unknown) ([0x0A, 0xEF, 0xFF, 0xFF, 0xFF, 0x07] ++ bytes)
        (bytes.length + 6)) 100 10 (0 + 1) ⟨none, []⟩ = some (bytes.length + 6, ⟨none, []⟩) := by
    apply field_eq_some_iff.mpr
    refine ⟨by decide, .lengthDelimited rfl hread ?_ ?_ rfl⟩
    · rw [hsize]
      omega
    · rw [hsize, hlength]
      omega
  rw [message, hlength, fields, if_neg (by omega), htag]
  simp only
  rw [if_neg (by decide), hfield]
  simp only
  rw [fields, if_pos hlength.symm]

theorem rejected_of_length {field : List UInt8} (h : field.length = 6 + (INT_MAX - kSlopBytes)) :
    (∀ chunk ∈ [[], field], chunk.length ≤ INT_MAX) ∧
      mergeFromStream (fun _ => .unknown) (field.length + 1) 100 ⟨[[], field], 0⟩ ⟨none, []⟩ = none := by
  have hsize : ∀ chunk ∈ [[], field], chunk.length ≤ INT_MAX := by
    intro chunk hmem
    rcases mem_pair.mp hmem with rfl | rfl
    · exact Nat.zero_le _
    · simp only [h, INT_MAX, kSlopBytes]
      omega
  have hflatten : [[], field].flatten = field := by
    rw [flatten_cons, nil_append, flatten_cons, flatten_nil, append_nil]
  refine ⟨hsize, ?_⟩
  rw [mergeFromStream_eq _ _ _ hsize (by rw [hflatten]; exact Nat.lt_add_one _), if_neg]
  have hlimit : streamLimit [[], field] = INT_MAX - kSlopBytes + 0 := by
    rw [streamLimit, length_nil, if_neg (Nat.not_lt_zero _)]
  rw [hflatten, h, hlimit]
  omega

/-- **Long streams differ**: the array is accepted and the stream rejected. -/
theorem longField_accepted_rejected : (∀ chunk ∈ [[], longField], chunk.length ≤ INT_MAX) ∧
      mergeFromFlat (fun _ => .unknown) (longField.length + 1) 100 longField ⟨none, []⟩ =
        some ⟨none, []⟩ ∧
      mergeFromStream (fun _ => .unknown) (longField.length + 1) 100 ⟨[[], longField], 0⟩
        ⟨none, []⟩ = none := by
  obtain ⟨hsize, hrejected⟩ := rejected_of_length length_longField
  refine ⟨hsize, ?_, hrejected⟩
  rw [mergeFromFlat_eq _ _ _ _ (Nat.lt_add_one _), longField]
  exact message_of_size length_replicate

end Protoc.Parse
