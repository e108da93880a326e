import Protoc.Parse.BoundedInput
import Protoc.Parse.WireFormatChunks

/-!
# Backing up behind a bounded parse

`MergeFromImpl` of a stream with a limit ends with `BackUp`.  The stream takes back bytes of
the last chunk only.  A parse that ends at the limit or at the end of the stream stays within
that chunk.  One that ends with a tag need not: the tag may stand in the slop region carried
over from the chunk before, while the next one has been fetched already.
-/

namespace Protoc.Parse

open Protoc.Lib Protoc.Io EpsCopyInputStream List Int Option

/-! ## The chunks that the parser fetches -/

/-- The context has gone on with the same depths, and its chunks are those it needs. -/
structure Follows (chunks : List (List UInt8)) (lim : ℕ) (ctx ctx' : ParseContext) (ptr' : Ptr) :
    Prop where
  depth_eq : ctx'.depth = ctx.depth
  groupDepth_eq : ctx'.groupDepth = ctx.groupDepth
  fetched : ∃ n pos, FetchedAt chunks lim ctx'.input n pos ptr'

section
variable {chunks : List (List UInt8)} {lim n : ℕ} {ctx ctx' : ParseContext} {pos : ℤ}
  {ptr ptr' : Ptr} {out out' : Parsed}

theorem follows_input {s : EpsCopyInputStream} (h : ∃ n', FetchedAt chunks lim s n' pos ptr') :
    Follows chunks lim ctx { ctx with input := s } ptr' := by
  obtain ⟨n', hfetched⟩ := h
  exact ⟨rfl, rfl, n', pos, hfetched⟩

theorem FetchedAt.number_follows {α : Type} {k : ℕ} {D : Decoder UInt8 α} (hD : D.Local k)
    (add : α → Parsed) (h : FetchedAt chunks lim ctx.input n pos ptr)
    (hk : ptr.diff ctx.input.bufferEnd + k ≤ kSlopBytes)
    (hr : ((D (ctx.input.bytes ptr)).map fun v => (ptr.add v.1, ctx, add v.2)) =
      some (ptr', ctx', out')) : Follows chunks lim ctx ctx' ptr' := by
  obtain ⟨⟨len, value⟩, hread, heq⟩ := map_eq_some_iff.mp hr
  obtain ⟨rfl, hrest⟩ := Prod.mk.inj heq
  cases hrest
  obtain ⟨-, hle, -⟩ := hD hread
  exact ⟨rfl, rfl, n, pos + len, h.advance (natCast_nonneg len) (by omega)⟩

section
variable (h : FetchedAt chunks lim ctx.input n pos ptr)
include h

section
variable (hn : ptr.diff ctx.input.bufferEnd + 5 ≤ kSlopBytes)
include hn

theorem FetchedAt.readSize {k : ℕ} {size : BitVec 32}
    (hread : Parse.readSize (ctx.input.bytes ptr) = some (k, size)) :
    FetchedAt chunks lim ctx.input n (pos + k) (ptr.add k) := by
  obtain ⟨-, hle, -⟩ := readSize_local hread
  exact h.advance (natCast_nonneg k) (by omega)

theorem parseLengthDelimited_follows {num : BitVec 32}
    (hr : parseLengthDelimited num ptr ctx out = some (ptr', ctx', out')) :
    Follows chunks lim ctx ctx' ptr' := by
  rw [parseLengthDelimited] at hr
  obtain ⟨⟨k, size⟩, hsize, hr⟩ := bind_eq_some_iff.mp hr
  have hat := h.readSize hn hsize
  cases hunknown : out.unknown with
  | none =>
    simp only [hunknown] at hr
    obtain ⟨⟨p, input⟩, hskip, hr⟩ := bind_eq_some_iff.mp hr
    obtain ⟨rfl, hrest⟩ := Prod.mk.inj (some.inj hr)
    cases hrest
    exact follows_input (hat.skip hskip)
  | some unknown =>
    simp only [hunknown] at hr
    obtain ⟨⟨bytes, p, input⟩, happend, hr⟩ := bind_eq_some_iff.mp hr
    obtain ⟨rfl, hrest⟩ := Prod.mk.inj (some.inj hr)
    cases hrest
    exact follows_input (hat.appendString happend)

theorem varintParser_follows {num : BitVec 32}
    (hr : varintParser num ptr ctx out = some (ptr', ctx', out')) : Follows chunks lim ctx ctx' ptr' := by
  rw [varintParser] at hr
  obtain ⟨⟨values, p, input⟩, hread, hr⟩ := bind_eq_some_iff.mp hr
  obtain ⟨rfl, hrest⟩ := Prod.mk.inj (some.inj hr)
  cases hrest
  rw [readPackedVarint] at hread
  cases hsize : readSize (ctx.input.bytes ptr) with
  | none =>
    simp [hsize] at hread
  | some v =>
    simp only [hsize] at hread
    exact follows_input
      (readPackedVarintLoop_fetched _ (h.readSize hn hsize) (natCast_nonneg _) hread)

end

end

theorem fixedParser_follows {width : ℕ} (hwidth : 0 < width) (hslop : width ≤ kSlopBytes)
    (h : FetchedAt chunks lim ctx.input n pos ptr)
    (hn : ptr.diff ctx.input.bufferEnd + 5 ≤ kSlopBytes) {num : BitVec 32}
    (hr : fixedParser width num ptr ctx out = some (ptr', ctx', out')) : Follows chunks lim ctx ctx' ptr' := by
  rw [fixedParser] at hr
  obtain ⟨⟨k, size⟩, hsize, hr⟩ := bind_eq_some_iff.mp hr
  obtain ⟨⟨values, p, input⟩, hread, hr⟩ := bind_eq_some_iff.mp hr
  obtain ⟨rfl, hrest⟩ := Prod.mk.inj (some.inj hr)
  cases hrest
  exact follows_input (readPackedFixedLoop_fetched hwidth hslop _ (h.readSize hn hsize)
    (natCast_nonneg _) hread)

theorem parseGroup_follows {internalParse : Ptr → ParseContext → Parsed → Result}
    (hinternal : ∀ {out ptr' ctx' out'}, 0 ≤ ctx.depth - 1 →
      internalParse ptr { ctx with depth := ctx.depth - 1, groupDepth := ctx.groupDepth + 1 } out =
        some (ptr', ctx', out') →
      Follows chunks lim { ctx with depth := ctx.depth - 1, groupDepth := ctx.groupDepth + 1 } ctx'
        ptr') {num : BitVec 32}
    (hr : parseGroup internalParse num ptr ctx out = some (ptr', ctx', out')) :
    Follows chunks lim ctx ctx' ptr' := by
  rw [parseGroup] at hr
  by_cases hdeep : ctx.depth - 1 < 0
  · simp only [if_pos hdeep] at hr
    cases hr
  · simp only [if_neg hdeep] at hr
    split at hr
    · cases hr
    · next p ctx'' out'' hparse =>
      have hfollows := hinternal (by omega) hparse
      obtain ⟨n', pos', hfetched⟩ := hfollows.fetched
      have hdepth := hfollows.depth_eq
      have hgroupDepth := hfollows.groupDepth_eq
      split at hr
      · cases hr
      · obtain ⟨rfl, hrest⟩ := Prod.mk.inj (some.inj hr)
        cases hrest
        refine ⟨?_, ?_, n', pos', hfetched.with_lastTag 0⟩
        · simp only at hdepth ⊢
          omega
        · simp only at hgroupDepth ⊢
          omega

/-- `FieldParser`, given the parser of a group's fields. -/
theorem fieldParser_follows {payload : BitVec 32 → Payload}
    {internalParse : Ptr → ParseContext → Parsed → Result}
    (hinternal : ∀ {out ptr' ctx' out'}, 0 ≤ ctx.depth - 1 →
      internalParse ptr { ctx with depth := ctx.depth - 1, groupDepth := ctx.groupDepth + 1 } out =
        some (ptr', ctx', out') →
      Follows chunks lim { ctx with depth := ctx.depth - 1, groupDepth := ctx.groupDepth + 1 } ctx'
        ptr') (h : FetchedAt chunks lim ctx.input n pos ptr)
    (hn : ptr.diff ctx.input.bufferEnd + 10 ≤ kSlopBytes) {tag : BitVec 32}
    (hr : fieldParser payload internalParse tag ptr ctx out = some (ptr', ctx', out')) :
    Follows chunks lim ctx ctx' ptr' := by
  rw [fieldParser] at hr
  by_cases hnumber : tag >>> 3 = 0
  · rw [if_pos hnumber] at hr
    cases hr
  · rw [if_neg hnumber] at hr
    -- the kinds of fields in the order of their wire types, 4 and those from 6 on being none
    generalize (tag &&& 7).toNat = kind at hr
    rcases kind with - | - | - | - | - | - | kind
    · apply h.number_follows varintParse_local (out.addVarint (tag >>> 3)) hn
      rw [← hr]
      cases varintParse (ctx.input.bytes ptr) <;> rfl
    · apply h.number_follows (unalignedLoad_local (show 0 < 8 by decide))
        (out.addFixed64 (tag >>> 3)) (by omega)
      rw [← hr]
      cases unalignedLoad 8 (ctx.input.bytes ptr) <;> rfl
    · simp only [zero_add, Nat.reduceAdd] at hr
      cases hpayload : payload (tag >>> 3) with
      | unknown =>
        rw [hpayload] at hr
        exact parseLengthDelimited_follows h (by omega) hr
      | packedVarint =>
        rw [hpayload] at hr
        exact varintParser_follows h (by omega) hr
      | packedFixed32 =>
        rw [hpayload] at hr
        exact fixedParser_follows (by decide) (by decide) h (by omega) hr
      | packedFixed64 =>
        rw [hpayload] at hr
        exact fixedParser_follows (by decide) (by decide) h (by omega) hr
    · exact parseGroup_follows hinternal hr
    · cases hr
    · apply h.number_follows (unalignedLoad_local (show 0 < 4 by decide))
        (out.addFixed32 (tag >>> 3)) (by omega)
      rw [← hr]
      cases unalignedLoad 4 (ctx.input.bytes ptr) <;> rfl
    · cases hr

/-- **The parser** fetches a chunk only when it comes within 16 bytes of its start. -/
theorem wireFormatParser_follows (payload : BitVec 32 → Payload) (fuel : ℕ)
    (h : FetchedAt chunks lim ctx.input n pos ptr) (hgroup : ctx.groupDepth < 0)
    (hsum : ctx.groupDepth + ctx.depth < 0)
    (hr : wireFormatParser payload fuel ptr ctx out = some (ptr', ctx', out')) :
    Follows chunks lim ctx ctx' ptr' := by
  induction fuel generalizing ctx ctx' n pos ptr ptr' out out' with
  | zero => cases hr
  | succ fuel ih =>
    rw [wireFormatParser, ParseContext.done] at hr
    cases hdone : ctx.input.doneWithCheck ptr ctx.groupDepth with
    | mk found r =>
      obtain ⟨stop, s⟩ := r
      cases found with
      | none =>
        simp [hdone] at hr
      | some p =>
        obtain ⟨⟨n', hat⟩, hroom⟩ := h.done hgroup hdone
        cases stop with
        | true =>
          simp only [hdone] at hr
          obtain ⟨rfl, hrest⟩ := Prod.mk.inj (some.inj hr)
          cases hrest
          exact ⟨rfl, rfl, n', pos, hat⟩
        | false =>
          have hroom := hroom rfl
          simp only [hdone] at hr
          cases hread : readTag (s.bytes p) with
          | none =>
            simp [hread] at hr
          | some v =>
            obtain ⟨k, tag⟩ := v
            obtain ⟨-, hle, -⟩ := readTag_local hread
            have hbehind := hat.advance (natCast_nonneg k) (by simp only [kSlopBytes]; omega)
            simp only [hread] at hr
            by_cases hend : tag = 0 ∨ tag &&& 7 = 4
            · rw [if_pos hend] at hr
              obtain ⟨rfl, hrest⟩ := Prod.mk.inj (some.inj hr)
              cases hrest
              exact ⟨rfl, rfl, n', pos + k, hbehind.with_lastTag (tag - 1)⟩
            · rw [if_neg hend] at hr
              split at hr
              · cases hr
              · next q ctx'' out'' hfield =>
                have hafter := fieldParser_follows
                  (fun hdepth hparse => ih hbehind (by simp only at hdepth ⊢; omega)
                    (by simp only; omega) hparse)
                  hbehind (room_behind_tag hroom hle) hfield
                obtain ⟨n'', pos'', hfetched⟩ := hafter.fetched
                have hdepth := hafter.depth_eq
                have hgroupDepth := hafter.groupDepth_eq
                simp only at hdepth hgroupDepth
                have hrest := ih hfetched (by omega) (by omega) hr
                exact ⟨hrest.depth_eq.trans hdepth, hrest.groupDepth_eq.trans hgroupDepth, hrest.fetched⟩

end

/-! ## The tag that ends the fields -/

/-- Where the tag that ends the fields starts, and where it ends, if a tag ends them. -/
def stoppingTag (payload : BitVec 32 → Payload) (data : List UInt8) :
    ℕ → ℤ → ℕ → Parsed → Option (ℕ × ℕ)
  | 0, _, _, _ => none
  | fuel + 1, depth, pos, out =>
    if pos = data.length then none
    else
      match readTag (data.drop pos) with
      | none => none
      | some (n, tag) =>
        if tag = 0 ∨ tag &&& 7 = 4 then some (pos, pos + n)
        else
          match field payload data (fields payload data fuel) depth tag (pos + n) out with
          | none => none
          | some (pos, out) => stoppingTag payload data fuel depth pos out

theorem stoppingTag_past (payload : BitVec 32 → Payload) (fuel : ℕ) {data : List UInt8} (depth : ℤ)
    {pos : ℕ} (out : Parsed) (hpos : data.length < pos) :
    stoppingTag payload data fuel depth pos out = none := by
  cases fuel with
  | zero => rfl
  | succ fuel =>
    have htag : readTag (data.drop pos) = none := by
      rw [drop_eq_nil_of_le (le_of_lt hpos)]
      rfl
    rw [stoppingTag, if_neg (by omega), htag]

theorem stoppingTag_fuel {payload : BitVec 32 → Payload} {data : List UInt8} {fuel fuel' : ℕ}
    {depth : ℤ} {pos : ℕ} {out : Parsed} (hfuel : data.length - pos < fuel)
    (hfuel' : data.length - pos < fuel') :
    stoppingTag payload data fuel depth pos out = stoppingTag payload data fuel' depth pos out := by
  induction fuel generalizing fuel' pos out with
  | zero => omega
  | succ fuel ih =>
    obtain ⟨fuel', rfl⟩ : ∃ n, fuel' = n + 1 := ⟨fuel' - 1, by omega⟩
    rw [stoppingTag, stoppingTag]
    by_cases hend : pos = data.length
    · rw [if_pos hend, if_pos hend]
    · rw [if_neg hend, if_neg hend]
      cases htag : readTag (data.drop pos) with
      | none => rfl
      | some v =>
        obtain ⟨n, tag⟩ := v
        have hbounds := number_bounds readTag_local htag
        have hfield : field payload data (fields payload data fuel) depth tag (pos + n) out =
            field payload data (fields payload data fuel') depth tag (pos + n) out := by
          have hgroup : ∀ depth out, fields payload data fuel depth (pos + n) out =
              fields payload data fuel' depth (pos + n) out :=
            fun depth out => fields_fuel (by omega) (by omega)
          simp only [field, hgroup]
        simp only [hfield]
        cases hread : field payload data (fields payload data fuel') depth tag (pos + n) out with
        | none => rfl
        | some r =>
          have hafter := field_bounds fields_bounds hread
          have hrest := @ih fuel' r.1 r.2 (by omega) (by omega)
          simp only [hrest]

/-! ## How a parse ends -/

/-- The end of a parse: where the pointer is, and which chunks have been fetched. -/
inductive StopsAt (chunks : List (List UInt8)) (data : List UInt8) (lim : ℕ)
    (spec : Option (ℕ × ℕ)) (r : Result) : Prop
  | failed (hspec : spec = none) (hr : r = none)
  | ended {n : ℕ} {ptr : Ptr} {ctx : ParseContext} {out : Parsed} (hspec : spec = none)
      (hr : r = some (ptr, ctx, out))
      (hfetched : FetchedAt chunks lim ctx.input n (body data lim).length ptr)
      (hlast : ctx.input.lastTagMinus1 = endingTag data lim none)
  | tag {n t len : ℕ} {ptr : Ptr} {ctx : ParseContext} {out : Parsed} {tag : BitVec 32}
      (hspec : spec = some (t, t + len)) (hr : r = some (ptr.add len, ctx, out))
      (hfetched : FetchedAt chunks lim ctx.input n t ptr)
      (hroom : ptr.diff ctx.input.bufferEnd < 0) (hlen : 0 < len ∧ len ≤ 5)
      (hlast : ctx.input.lastTagMinus1 = tag - 1) (htag : tag = 0 ∨ tag &&& 7 = 4)
  | past {n pos : ℕ} {ptr : Ptr} {ctx : ParseContext} {out : Parsed} {tag : BitVec 32}
      (hspec : spec = none) (hr : r = some (ptr, ctx, out))
      (hfetched : FetchedAt chunks lim ctx.input n pos ptr)
      (hlast : ctx.input.lastTagMinus1 = tag - 1) (htag : tag = 0 ∨ tag &&& 7 = 4)
      (hpos : (body data lim).length < pos)

theorem FetchedAt.at_cursor {chunks : List (List UInt8)} {data : List UInt8} {lim n pos : ℕ}
    {s : EpsCopyInputStream} {E pos' : ℤ} {ptr : Ptr} (h : FetchedAt chunks lim s n pos' ptr)
    (hcursor : Cursor data lim s E pos ptr) : FetchedAt chunks lim s n pos ptr := by
  have hpos := h.pos_eq
  have hat := hcursor.pos_eq
  have hlimit := hcursor.limit_eq
  have hequal : pos' = pos := by omega
  exact hequal ▸ h

theorem field_fetched {payload : BitVec 32 → Payload} {fuel : ℕ} {chunks : List (List UInt8)}
    {data : List UInt8} {lim n : ℕ} {depth groupDepth pos : ℤ} {ctx ctx' : ParseContext} {pos' : ℕ}
    {ptr ptr' : Ptr} {out out' : Parsed} {tag : BitVec 32}
    (h : FetchedAt chunks lim ctx.input n pos ptr) (hgroup : ctx.groupDepth < 0)
    (hsum : ctx.groupDepth + ctx.depth < 0) (hroom : ptr.diff ctx.input.bufferEnd + 10 ≤ kSlopBytes)
    (hfield : fieldParser payload (wireFormatParser payload fuel) tag ptr ctx out = some (ptr', ctx', out'))
    (hstands : Stands data lim depth groupDepth ctx' pos' ptr') :
    ∃ m, FetchedAt chunks lim ctx'.input m pos' ptr' := by
  have hafter : Follows chunks lim ctx ctx' ptr' := by
    refine fieldParser_follows ?_ h hroom hfield
    intro _ _ _ _ hdeep hparse
    refine wireFormatParser_follows payload fuel h ?_ ?_ hparse
    · simp only
      omega
    · simp only
      omega
  obtain ⟨m, pos'', hfetched⟩ := hafter.fetched
  obtain ⟨E, hcursor⟩ := hstands.cursor
  exact ⟨m, hfetched.at_cursor hcursor⟩

/-- **How the parser stops**, and with which chunks fetched. -/
theorem wireFormatParser_stopsAt (payload : BitVec 32 → Payload) (fuel : ℕ)
    {chunks : List (List UInt8)} {data : List UInt8} {lim n : ℕ} {depth groupDepth : ℤ}
    {ctx : ParseContext} {pos : ℕ} {ptr : Ptr} {out : Parsed}
    (h : Stands data lim depth groupDepth ctx pos ptr) (hlast : ctx.input.lastTagMinus1 = 0)
    (hgroup : groupDepth < 0) (hsum : groupDepth + depth < 0)
    (hfetched : FetchedAt chunks lim ctx.input n pos ptr) :
    StopsAt chunks data lim (stoppingTag payload (body data lim) fuel depth pos out)
      (wireFormatParser payload fuel ptr ctx out) := by
  induction fuel generalizing ctx n pos ptr out with
  | zero => exact .failed rfl rfl
  | succ fuel ih =>
    obtain ⟨E, hcursor⟩ := h.cursor
    have hdone := hcursor.done_spec (h.groupDepth_eq ▸ hgroup)
    rw [wireFormatParser, ParseContext.done]
    cases hdone with
    | past hr hpos =>
      rw [stoppingTag_past payload _ depth out hpos]
      simp only [hr]
      exact .failed rfl rfl
    | done hr hcursor' hpos hlast' =>
      obtain ⟨⟨n', hat⟩, -⟩ := hfetched.done (h.groupDepth_eq ▸ hgroup) hr
      rw [stoppingTag, if_pos hpos]
      simp only [hr]
      refine .ended rfl rfl (hpos ▸ hat) ?_
      simp only [hlast', hlast, endingTag]
    | @more p s' E' hr hcursor' hroom hpos hlast' =>
      obtain ⟨⟨n', hat⟩, -⟩ := hfetched.done (h.groupDepth_eq ▸ hgroup) hr
      have hzero := hlast'.trans hlast
      have hstands := h.with_input hcursor'
      obtain ⟨hsome, hnone⟩ := hstands.decode readTag_local (by simp only [kSlopBytes]; omega)
      have hbehind : ∀ {k : ℕ}, k ≤ 5 → FetchedAt chunks lim s' n' (pos + k : ℕ) (p.add k) := by
        intro k hk
        rw [Nat.cast_add]
        apply hat.advance (natCast_nonneg k)
        simp only [kSlopBytes]
        omega
      have hfieldAt : ∀ {k : ℕ} (tag : BitVec 32), k ≤ 5 →
          Stands data lim depth groupDepth { ctx with input := s' } (pos + k) (p.add k) →
          FieldAt data lim depth groupDepth (pos + k)
            (field payload (body data lim) (fields payload (body data lim) fuel) depth tag
              (pos + k) out)
            (fieldParser payload (wireFormatParser payload fuel) tag (p.add k)
              { ctx with input := s' } out) := by
        intro k tag hk hstands
        exact fieldParser_fieldAt tag
          (fun out hdepth => wireFormatParser_fieldsAt payload fuel ⟨hstands.cursor, rfl, rfl⟩
            hzero (by omega) (by omega))
          hstands hzero (room_behind_tag hroom hk)
      have hfollows : ∀ {k : ℕ} (tag : BitVec 32) {ptr' : Ptr} {ctx' : ParseContext}
          {out' : Parsed} {pos' : ℕ}, k ≤ 5 →
          fieldParser payload (wireFormatParser payload fuel) tag (p.add k)
            { ctx with input := s' } out = some (ptr', ctx', out') →
          Stands data lim depth groupDepth ctx' pos' ptr' →
          ∃ m, FetchedAt chunks lim ctx'.input m pos' ptr' := by
        intro k tag ptr' ctx' out' pos' hk hfield hstands'
        exact field_fetched (hbehind hk) (h.groupDepth_eq ▸ hgroup)
          (by rw [h.groupDepth_eq, h.depth_eq]; exact hsum) (room_behind_tag hroom hk) hfield hstands'
      -- where the pointer is behind the end, no tag follows
      have hrest : ∀ {pos' m : ℕ} (out' : Parsed) {ptr' : Ptr} {ctx' : ParseContext},
          Stands data lim depth groupDepth ctx' pos' ptr' → ctx'.input.lastTagMinus1 = 0 →
          FetchedAt chunks lim ctx'.input m pos' ptr' → (body data lim).length < pos' →
          StopsAt chunks data lim none (wireFormatParser payload fuel ptr' ctx' out') := by
        intro pos' m out' ptr' ctx' hstands' hlast'' hfetched' hpast
        rw [← stoppingTag_past payload fuel depth out' hpast]
        exact ih hstands' hlast'' hfetched'
      rw [stoppingTag, if_neg (ne_of_lt hpos)]
      simp only [hr]
      cases hspec : readTag ((body data lim).drop pos) with
      | some v =>
        obtain ⟨k, tag⟩ := v
        obtain ⟨hread, hstands'⟩ := hsome hspec
        obtain ⟨hpositive, hle, -⟩ := readTag_local hspec
        simp only [hread]
        by_cases hend : tag = 0 ∨ tag &&& 7 = 4
        · rw [if_pos hend, if_pos hend]
          exact .tag rfl rfl (hat.with_lastTag (tag - 1)) hroom ⟨hpositive, hle⟩ rfl hend
        · rw [if_neg hend, if_neg hend]
          cases hfieldAt tag hle hstands' with
          | failed hspec hr =>
            simp only [hspec, hr]
            exact .failed rfl rfl
          | read hspec hr hstands hlast hle' =>
            obtain ⟨m, hfetched'⟩ := hfollows tag hle hr hstands
            simp only [hspec, hr]
            exact ih hstands hlast hfetched'
          | past hspec hr hstands hlast hpast =>
            obtain ⟨m, hfetched'⟩ := hfollows tag hle hr hstands
            simp only [hspec, hr]
            exact hrest _ hstands hlast hfetched' hpast
      | none =>
        cases hread : readTag (s'.bytes p) with
        | none => exact .failed rfl rfl
        | some v =>
          obtain ⟨k, tag⟩ := v
          obtain ⟨hstands', hpast⟩ := hnone hspec hread
          obtain ⟨-, hle, -⟩ := readTag_local hread
          simp only
          by_cases hend : tag = 0 ∨ tag &&& 7 = 4
          · rw [if_pos hend]
            exact .past rfl rfl ((hbehind hle).with_lastTag (tag - 1)) rfl hend hpast
          · rw [if_neg hend]
            cases hfieldAt tag hle hstands' with
            | failed hspec hr =>
              simp only [hr]
              exact .failed rfl rfl
            | read hspec hr hstands hlast hle' =>
              obtain ⟨m, hfetched'⟩ := hfollows tag hle hr hstands
              simp only [hr]
              exact hrest _ hstands hlast hfetched' (by omega)
            | past hspec hr hstands hlast hpast =>
              obtain ⟨m, hfetched'⟩ := hfollows tag hle hr hstands
              simp only [hr]
              exact hrest _ hstands hlast hfetched' hpast

/-! ## The start -/

/-- A larger limit and other chunks behind the first one make no difference to the bytes in
the buffer. -/
theorem EpsCopyInputStream.Buffered.lower {data : List UInt8} {lim lim' : ℕ} {s : EpsCopyInputStream} {E : ℤ}
    {pos : ℕ} {ptr : Ptr} (h : Buffered data lim' s E pos ptr) (hle : lim ≤ lim')
    (overallLimit : ℤ) (hsource : Source data lim { s with overallLimit } E) :
    Buffered data lim { s with overallLimit } E pos ptr where
  buffer_length := h.buffer_length
  array_eq := h.array_eq
  pos_eq := h.pos_eq
  ptr_nonneg := h.ptr_nonneg
  end_nonneg := h.end_nonneg
  ptr_le := h.ptr_le
  memory_le := by
    have hmemory := h.memory_le
    cases ptr with
    | mk array offset => cases array <;> exact hmemory
  window := by
    have hload : ({ s with overallLimit } : EpsCopyInputStream).load ptr
        (kSlopBytes - ptr.diff s.bufferEnd) = s.load ptr (kSlopBytes - ptr.diff s.bufferEnd) := by
      cases ptr with
      | mk array offset => cases array <;> rfl
    have hbody : (body data lim).drop pos = ((body data lim').drop pos).take (lim - pos) := by
      rw [drop_body, drop_body, take_take]
      congr 1
      omega
    simp only [hload, hbody]
    exact h.window.take_right _
  source := hsource

theorem initFrom_first (first : List UInt8) (rest : List (List UInt8)) :
    let r := initFrom ⟨first :: rest, 0⟩
    r.2.bufferEnd.diff r.1 = first.length - kSlopBytes ∧ r.2.nextChunk = .patch ∧
      r.2.zcis = ⟨rest, first.length⟩ := by
  simp only [initFrom, ZeroCopyInputStream.next, zero_add]
  by_cases hlarge : kSlopBytes < first.length
  · simp only [if_pos hlarge, Ptr.diff]
    exact ⟨by omega, trivial, rfl⟩
  · simp only [if_neg hlarge, Ptr.diff]
    exact ⟨by omega, trivial, rfl⟩

theorem initFromBounded_first (first : List UInt8) (rest : List (List UInt8)) (size : ℕ) :
    let r := initFrom ⟨first :: rest, 0⟩
    let limit := wrapInt (size - (first.length - kSlopBytes))
    initFromBounded ⟨first :: rest, 0⟩ size = (r.1, { r.2 with
      overallLimit := size - first.length
      limit
      limitEnd := r.2.bufferEnd.add (min 0 limit) }) := by
  obtain ⟨hdiff, -, -⟩ := initFrom_first first rest
  have hne : (size : ℤ) ≠ -1 := by omega
  rw [initFromBounded, if_neg hne]
  simp only [initFromOverall, ZeroCopyInputStream.next, hdiff, setLimitEnd]

/-- **The start** of a parse with a limit. -/
theorem initFromBounded_stands {chunks : List (List UInt8)} {size : ℕ}
    (hchunks : ∀ chunk ∈ chunks, chunk.length ≤ INT_MAX) (hsize : size ≤ INT_MAX)
    (hfits : size ≤ streamLimit chunks) :
    let r := initFromBounded ⟨chunks, 0⟩ size
    (∃ E, Cursor chunks.flatten size r.2 E 0 r.1) ∧ r.2.lastTagMinus1 = 0 ∧
      ∃ n, FetchedAt chunks size r.2 n (0 : ℕ) r.1 := by
  obtain ⟨⟨E, hcursor⟩, hlast⟩ := initFrom_cursor hchunks
  cases chunks with
  | nil =>
    have hwrap : wrapInt (size - 0) = size := by
      rw [Int.sub_zero]
      exact wrapInt_of_le (by omega) (Int.ofNat_le.mpr hsize)
    have hr : initFromBounded ⟨[], 0⟩ size = (⟨.patch, 0⟩, { start ⟨[], 0⟩ with
        overallLimit := 0
        limit := size
        limitEnd := ⟨.patch, 0⟩ }) := by
      have hmin : min 0 (size : ℤ) = 0 := by omega
      have hne : (size : ℤ) ≠ -1 := by omega
      rw [initFromBounded, if_neg hne]
      simp only [initFromOverall, initFrom, ZeroCopyInputStream.next, start, Ptr.diff, hwrap,
        setLimitEnd, hmin, Ptr.add, Int.add_zero, Int.sub_self]
    rw [hr]
    refine ⟨⟨0, ?_⟩, rfl, 0, ?_⟩
    · exact {
        buffer_length := rfl
        array_eq := rfl
        pos_eq := rfl
        ptr_nonneg := Int.le_refl 0
        end_nonneg := Int.le_refl 0
        ptr_le := by simp [start, Ptr.diff]
        memory_le := by simp [start, memory, kSlopBytes]
        window := by
          simp only [body, flatten_nil, take_nil, drop_nil]
          exact agree_nil _
        source := .null rfl (.inl rfl)
        limit_eq := (Int.sub_zero _).symm
        limitEnd_eq := by
          have hmin : min 0 (size : ℤ) = 0 := by omega
          simp only [start, hmin, Ptr.add, Int.add_zero] }
    · refine ⟨⟨Nat.le_refl 0, rfl, .inl (Nat.zero_le 1), .null rfl rfl ?_ (.inl rfl)⟩, ?_, ?_, ?_⟩
      · exact Int.sub_self _
      · simp [start, Ptr.diff]
      · simp [start, Ptr.diff]
      · simp [start, Ptr.diff]
  | cons first rest =>
    intro r
    obtain ⟨hdiff, hnext, hzcis⟩ := initFrom_first first rest
    have hsmall : (size : ℤ) - (first.length - kSlopBytes) ≤ INT_MAX := by
      rw [streamLimit] at hfits
      by_cases hlarge : kSlopBytes < first.length
      · omega
      · rw [if_neg hlarge] at hfits
        simp only [INT_MAX, kSlopBytes] at hfits ⊢
        omega
    have hwrap : wrapInt (size - (first.length - kSlopBytes)) =
        size - (first.length - kSlopBytes) := by
      have hfirst : first.length ≤ INT_MAX := hchunks first mem_cons_self
      exact wrapInt_of_le (by simp only [INT_MAX] at hfirst; omega) hsmall
    have hr : r = _ := initFromBounded_first first rest size
    rw [hwrap] at hr
    have hat := hcursor.pos_eq
    have hE : E = first.length - kSlopBytes := by
      simp only [Ptr.diff] at hat hdiff
      omega
    have hfirst : chunkStart (first :: rest) 1 = first.length := by simp [chunkStart]
    rw [hr]
    refine ⟨⟨E, ?_⟩, hlast, 1, ?_⟩
    · have hsource : Source (first :: rest).flatten size
          { (initFrom ⟨first :: rest, 0⟩).2 with overallLimit := size - first.length } E := by
        cases hcursor.source with
        | null hnull =>
          simp [hnext] at hnull
        | chunk hchunk =>
          simp [hnext] at hchunk
        | patch hpatch hstart hend hrest hoverall =>
          refine .patch hpatch hstart hend hrest (.inl ?_)
          simp only
          omega
      exact {
        (hcursor.toBuffered.lower hfits _ hsource).with_limits _ _ _ with
        limit_eq := by
          simp only
          omega
        limitEnd_eq := rfl }
    · refine ⟨⟨by simp, ?_, .inl (Nat.le_refl 1), .patch hnext ?_ ?_ (.inr ?_)⟩, ?_, ?_, ?_⟩
      · rw [streamAfter, hfirst]
        exact hzcis
      · simp only [hfirst]
        omega
      · simp only [hfirst]
      · simp
      · simp only
        omega
      · exact hcursor.ptr_le
      · simp only [Ptr.diff, Ptr.add]
        omega

theorem doneWithCheck_negative {s : EpsCopyInputStream} {ptr : Ptr} (hlimit : s.limit < 0)
    (hlimitEnd : s.limitEnd = s.bufferEnd.add (min 0 s.limit)) (hover : 0 ≤ ptr.diff s.bufferEnd)
    (depth : ℤ) : (s.doneWithCheck ptr depth).1 = none := by
  have hdiff : ptr.diff s.limitEnd = ptr.diff s.bufferEnd - s.limit := by
    rw [hlimitEnd]
    simp only [Ptr.diff, Ptr.add]
    omega
  rw [doneWithCheck, if_neg (by omega)]
  simp only
  rw [if_neg (by omega), doneFallback, if_pos (by omega)]

theorem mergeFromBounded_of_done (payload : BitVec 32 → Payload) (fuel : ℕ) (depth : Int32)
    {zcis : ZeroCopyInputStream} {limit : ℤ} (out : Parsed) {ptr : Ptr} {s : EpsCopyInputStream}
    (hstart : initFromBounded zcis limit = (ptr, s)) (hdone : ∀ depth, (s.doneWithCheck ptr depth).1 = none) :
    mergeFromBounded payload (fuel + 1) depth zcis limit out = none := by
  have hnone : ((ParseContext.ofInput s depth).done ptr).1 = none := hdone _
  rw [mergeFromBounded, hstart]
  simp only [wireFormatParser]
  cases hr : (ParseContext.ofInput s depth).done ptr with
  | mk found r =>
    rw [hr] at hnone
    obtain rfl : found = none := hnone
    rfl

theorem mergeFromBounded_wrapped (payload : BitVec 32 → Payload) (fuel : ℕ) (depth : Int32)
    {chunks : List (List UInt8)} {size : ℕ} (out : Parsed) (hsize : size ≤ INT_MAX)
    (hwraps : streamLimit chunks < size) :
    mergeFromBounded payload (fuel + 1) depth ⟨chunks, 0⟩ size out = none := by
  cases chunks with
  | nil =>
    simp only [streamLimit] at hwraps
    omega
  | cons first rest =>
    have hsmall : first.length < kSlopBytes := by
      rw [streamLimit] at hwraps
      by_cases hlarge : kSlopBytes < first.length
      · rw [if_pos hlarge] at hwraps
        omega
      · rw [if_neg hlarge] at hwraps
        omega
    rw [streamLimit, if_neg (by omega)] at hwraps
    obtain ⟨hdiff, -, -⟩ := initFrom_first first rest
    have hneg : wrapInt (size - (first.length - kSlopBytes)) < 0 := by
      simp only [INT_MAX, kSlopBytes] at hwraps hsize hsmall ⊢
      rw [wrapInt_neg (by simp only [INT_MAX]; omega) (by omega)]
      omega
    apply mergeFromBounded_of_done payload fuel depth out (initFromBounded_first first rest size)
    apply doneWithCheck_negative
    · exact hneg
    · rfl
    · simp only [Ptr.diff] at hdiff ⊢
      omega

/-! ## Backing up -/

def lastReturned (chunks : List (List UInt8)) (zcis : ZeroCopyInputStream) : List UInt8 :=
  (chunks.take (chunks.length - zcis.chunks.length)).getLast?.getD []

/-- `BackUp` is passed no more than the size of the last chunk, and after a parse that succeeds
the stream has gone on by `size` bytes. -/
structure BacksUpWithin (chunks : List (List UInt8)) (size : ℕ) (r : Option BoundedParse) :
    Prop where
  count_le : ∀ b count, r = some b → b.passed = some count →
    count ≤ (lastReturned chunks b.zcis).length
  advanced : ∀ b out, r = some b → b.parsed = some out → b.byteCount = size

/-- A chunk that starts behind the end `q` of the tag that ends the fields has been fetched
before the tag, which starts at `t`, was read: it starts before the limit and at most 16 bytes
behind `t`.  Neither the limit nor the count wraps. -/
def BacksUpTooFar (chunks : List (List UInt8)) (size t q : ℕ) : Prop :=
  (∃ i < chunks.length, q < chunkStart chunks i ∧ chunkStart chunks i ≤ t + kSlopBytes ∧
    chunkStart chunks i < size) ∧
  size ≤ streamLimit chunks ∧
  ∀ i < chunks.length, chunkStart chunks i ≤ t + kSlopBytes → chunkStart chunks i < size →
    chunkStart chunks (i + 1) ≤ q + INT_MAX

theorem chunkStart_lastReturned {chunks : List (List UInt8)} {n : ℕ} (hn : n ≤ chunks.length) :
    chunkStart chunks n = chunkStart chunks (n - 1) + (lastReturned chunks (streamAfter chunks n)).length := by
  have hcount : chunks.length - (chunks.drop n).length = n := by
    rw [length_drop]
    omega
  cases n with
  | zero => simp [lastReturned, streamAfter]
  | succ n =>
    have hlast : (chunks.take (n + 1)).getLast? = some chunks[n] := by
      rw [take_succ_eq_append_getElem hn, List.getLast?_concat]
    rw [lastReturned, streamAfter, hcount, hlast, Nat.add_sub_cancel, chunkStart_succ hn]
    rfl

theorem length_lastReturned_le {chunks : List (List UInt8)}
    (hchunks : ∀ chunk ∈ chunks, chunk.length ≤ INT_MAX) (zcis : ZeroCopyInputStream) :
    (lastReturned chunks zcis).length ≤ INT_MAX := by
  rw [lastReturned]
  cases hlast : (chunks.take (chunks.length - zcis.chunks.length)).getLast? with
  | none => exact Nat.zero_le _
  | some chunk => exact hchunks chunk (mem_of_mem_take (List.mem_of_getLast? hlast))

section
variable {chunks : List (List UInt8)} {lim n : ℕ} {s : EpsCopyInputStream} {pos : ℕ} {ptr : Ptr}

section
variable (h : FetchedAt chunks lim s n pos ptr)
include h

theorem FetchedAt.backUpCount_eq : s.backUpCount ptr = wrapInt (chunkStart chunks n - pos) := by
  have hpos := h.pos_eq
  rw [backUpCount]
  cases h.fetched.held with
  | null hnext hsize hend =>
    rw [if_neg (by rw [hnext]; decide)]
    congr 1
    simp only [Ptr.diff] at hpos ⊢
    omega
  | patch hnext hend =>
    rw [if_pos hnext]
    congr 1
    simp only [Ptr.diff, Ptr.add] at hpos ⊢
    omega
  | chunk hnext hstart hend =>
    rw [if_neg (by rw [hnext]; decide)]
    congr 1
    simp only [Ptr.diff] at hpos ⊢
    omega

/-- The last chunk starts before the limit, within the data, and at most 16 bytes behind the
position. -/
theorem FetchedAt.start_le : chunkStart chunks (n - 1) ≤ min lim chunks.flatten.length ∧
      chunkStart chunks (n - 1) ≤ pos + kSlopBytes := by
  have hle : chunkStart chunks (n - 1) ≤ chunks.flatten.length := chunkStart_le _
  rcases h.fetched.last_start with hfirst | ⟨hlast, hlim⟩
  · have hzero : chunkStart chunks (n - 1) = 0 := by
      obtain rfl | rfl : n = 0 ∨ n = 1 := by omega
      · rfl
      · rfl
    omega
  · omega

theorem FetchedAt.distance (hchunks : ∀ chunk ∈ chunks, chunk.length ≤ INT_MAX) :
    -(2 ^ 31) ≤ (chunkStart chunks n : ℤ) - pos ∧ (chunkStart chunks n : ℤ) - pos < 2 ^ 32 := by
  have hpos := h.pos_eq
  have hle := h.ptr_le
  have hend := chunkStart_lastReturned h.fetched.le_length
  have hlength : (lastReturned chunks (streamAfter chunks n)).length ≤ INT_MAX := by
    apply length_lastReturned_le hchunks
  simp only [kSlopBytes, INT_MAX] at hle hlength
  constructor
  · cases h.fetched.held with
    | null hnext hsize hend => omega
    | patch hnext hend =>
      simp only [kSlopBytes] at hend
      omega
    | chunk hnext hstart hend hlarge =>
      simp only [kSlopBytes] at hlarge
      omega
  · obtain ⟨-, hstart⟩ := h.start_le
    simp only [kSlopBytes] at hstart
    omega

/-- What `BackUp` passes to the stream stays within the last chunk if that chunk starts at the
pointer or before it, or if the count wraps. -/
theorem FetchedAt.count_le_iff (hchunks : ∀ chunk ∈ chunks, chunk.length ≤ INT_MAX) (parsed : Option Parsed) :
    (∀ count, (BoundedParse.mk s.zcis (s.backUpCount ptr) parsed).passed = some count →
        count ≤ (lastReturned chunks s.zcis).length) ↔
      chunkStart chunks (n - 1) ≤ pos ∨ pos + INT_MAX < chunkStart chunks n := by
  obtain ⟨hlow, hhigh⟩ := h.distance hchunks
  have hend := chunkStart_lastReturned h.fetched.le_length
  rw [h.backUpCount_eq, h.fetched.zcis_eq]
  simp only [BoundedParse.passed]
  by_cases hwraps : pos + INT_MAX < chunkStart chunks n
  · have hneg := wrapInt_neg (n := chunkStart chunks n - pos) (by omega) hhigh
    rw [if_neg (by omega)]
    simp [hwraps]
  · rw [wrapInt_of_le hlow (by omega)]
    by_cases hpositive : (0 : ℤ) < chunkStart chunks n - pos
    · rw [if_pos hpositive]
      constructor
      · intro hall
        have hcount := hall _ rfl
        omega
      · intro hwithin count hcount
        cases hcount
        omega
    · rw [if_neg hpositive]
      constructor
      · intro _
        omega
      · intro _ count hcount
        cases hcount

end

theorem FetchedAt.byteCount_eq (h : FetchedAt chunks lim s n lim ptr)
    (hchunks : ∀ chunk ∈ chunks, chunk.length ≤ INT_MAX) (hle : lim ≤ chunks.flatten.length)
    (parsed : Option Parsed) : (BoundedParse.mk s.zcis (s.backUpCount ptr) parsed).byteCount = lim := by
  have hstart := h.start_le
  have hlength := length_lastReturned_le hchunks (streamAfter chunks n)
  have hend := chunkStart_lastReturned h.fetched.le_length
  obtain ⟨hlow, -⟩ := h.distance hchunks
  have hreach : lim ≤ chunkStart chunks n := by
    have hpos := h.pos_eq
    have hptr := h.ptr_le
    cases h.fetched.held with
    | null hnext hsize hend hall =>
      rcases hall with rfl | hall
      · rwa [chunkStart_length]
      · exact hall
    | patch hnext hend => omega
    | chunk hnext hstart hend hlarge => omega
  rw [h.backUpCount_eq, h.fetched.zcis_eq, wrapInt_of_le hlow (by omega)]
  simp only [BoundedParse.byteCount, BoundedParse.passed, streamAfter]
  by_cases hpositive : (0 : ℤ) < chunkStart chunks n - lim
  · rw [if_pos hpositive, getD_some]
    omega
  · rw [if_neg hpositive, getD_none]
    omega

/-- Where the pointer is before the end of the buffer, the next chunk has not been fetched
because it is out of reach or behind the limit. -/
theorem FetchedAt.not_fetched (h : FetchedAt chunks lim s n pos ptr)
    (hroom : ptr.diff s.bufferEnd < 0) {i : ℕ} (hi : i < chunks.length)
    (hnear : chunkStart chunks i ≤ pos + kSlopBytes) (hlim : chunkStart chunks i < lim) : i < n := by
  have hpos := h.pos_eq
  by_contra hge
  have hmono : chunkStart chunks n ≤ chunkStart chunks i := chunkStart_mono (not_lt.mp hge)
  cases h.fetched.held with
  | null hnext hsize hend hall => omega
  | patch hnext hend => omega
  | chunk hnext hstart hend hlarge => omega

/-- When the chunk last fetched before a tag lies behind the tag. -/
theorem FetchedAt.tooFar_iff (h : FetchedAt chunks lim s n pos ptr)
    (hroom : ptr.diff s.bufferEnd < 0) (hfits : lim ≤ streamLimit chunks) {q : ℕ} :
    BacksUpTooFar chunks lim pos q ↔ q < chunkStart chunks (n - 1) ∧ chunkStart chunks n ≤ q + INT_MAX := by
  obtain ⟨-, hstart⟩ := h.start_le
  have hle := h.fetched.le_length
  -- the last chunk is not the first one, if it starts behind the tag
  have hlast : q < chunkStart chunks (n - 1) →
      n - 1 < chunks.length ∧ n - 1 + 1 = n ∧ chunkStart chunks (n - 1) < lim := by
    intro hbehind
    rcases h.fetched.last_start with hfirst | ⟨-, hlim⟩
    · obtain rfl | rfl : n = 0 ∨ n = 1 := by omega
      · exact absurd hbehind (Nat.not_lt_zero q)
      · exact absurd hbehind (Nat.not_lt_zero q)
    · have hne : n ≠ 0 := by
        rintro rfl
        exact absurd hbehind (Nat.not_lt_zero q)
      exact ⟨by omega, by omega, hlim⟩
  constructor
  · rintro ⟨⟨i, hi, hbehind, hnear, hlim⟩, -, hwraps⟩
    have hin := h.not_fetched hroom hi hnear hlim
    have hmono : chunkStart chunks i ≤ chunkStart chunks (n - 1) := chunkStart_mono (by omega)
    have hfar : q < chunkStart chunks (n - 1) := lt_of_lt_of_le hbehind hmono
    obtain ⟨hlt, hsucc, hlim'⟩ := hlast hfar
    have hend := hwraps (n - 1) hlt hstart hlim'
    rw [hsucc] at hend
    exact ⟨hfar, hend⟩
  · rintro ⟨hfar, hend⟩
    obtain ⟨hlt, hsucc, hlim⟩ := hlast hfar
    refine ⟨⟨n - 1, hlt, hfar, hstart, hlim⟩, hfits, ?_⟩
    intro i hi hnear hlim'
    have hin := h.not_fetched hroom hi hnear hlim'
    have hmono : chunkStart chunks (i + 1) ≤ chunkStart chunks n := chunkStart_mono hin
    omega

end

/-- Where the tag that ends a message starts, and where it ends, if a tag ends it. -/
def messageStop (payload : BitVec 32 → Payload) (depth : ℤ) (data : List UInt8) (out : Parsed) :
    Option (ℕ × ℕ) :=
  stoppingTag payload data (data.length + 1) depth 0 out

theorem backsUpWithin_none (chunks : List (List UInt8)) (size : ℕ) :
    BacksUpWithin chunks size none := ⟨by simp, by simp⟩

theorem backsUpWithin_some {chunks : List (List UInt8)} {size : ℕ} {b : BoundedParse}
    (hparsed : ∀ out, b.parsed = some out → b.byteCount = size) : BacksUpWithin chunks size (some b) ↔
      ∀ count, b.passed = some count → count ≤ (lastReturned chunks b.zcis).length := by
  constructor
  · intro h count hcount
    exact h.count_le b count rfl hcount
  · intro h
    refine ⟨?_, ?_⟩
    · intro b' count hb hcount
      cases hb
      exact h count hcount
    · intro b' out hb hout
      cases hb
      exact hparsed out hout

end Protoc.Parse
