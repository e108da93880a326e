import Protoc.Parse.WireFormatChunks

/-!
# The wire-format grammar

Which byte strings are messages: a sequence of complete fields, stated without a parser,
without positions and without a limit to count from.  The parser for unknown fields accepts
an array exactly when it is one.
-/

namespace Protoc.Parse

open Protoc.Lib Protoc.Io EpsCopyInputStream
open List Option

/-- A tag of at most 5 bytes with a field number and a wire type. -/
def IsTag (bytes : List UInt8) (number kind : ℕ) : Prop :=
  bytes.length ≤ 5 ∧ number ≠ 0 ∧ kind < 8 ∧
    ∃ value, Varint bytes value ∧ value % 2 ^ 32 = number * 8 + kind

def IsVarint64 (bytes : List UInt8) : Prop := bytes.length ≤ 10 ∧ ∃ value, Varint bytes value

/-- A sequence of fields with groups nested `depth` deep at most. -/
inductive WireFormat (isSize : List UInt8 → ℕ → Prop) : ℕ → List UInt8 → Prop
  | nil {depth : ℕ} : WireFormat isSize depth []
  | varint {depth number : ℕ} {tag value rest : List UInt8} (htag : IsTag tag number 0)
      (hvalue : IsVarint64 value) (hrest : WireFormat isSize depth rest) :
      WireFormat isSize depth (tag ++ (value ++ rest))
  | fixed64 {depth number : ℕ} {tag value rest : List UInt8} (htag : IsTag tag number 1)
      (hvalue : value.length = 8) (hrest : WireFormat isSize depth rest) :
      WireFormat isSize depth (tag ++ (value ++ rest))
  | lengthDelimited {depth number : ℕ} {tag size payload rest : List UInt8}
      (htag : IsTag tag number 2) (hsize : isSize size payload.length)
      (hrest : WireFormat isSize depth rest) :
      WireFormat isSize depth (tag ++ (size ++ (payload ++ rest)))
  | group {depth number : ℕ} {tag fields endTag rest : List UInt8} (htag : IsTag tag number 3)
      (hfields : WireFormat isSize depth fields) (hend : IsTag endTag number 4)
      (hrest : WireFormat isSize (depth + 1) rest) :
      WireFormat isSize (depth + 1) (tag ++ (fields ++ (endTag ++ rest)))
  | fixed32 {depth number : ℕ} {tag value rest : List UInt8} (htag : IsTag tag number 5)
      (hvalue : value.length = 4) (hrest : WireFormat isSize depth rest) :
      WireFormat isSize depth (tag ++ (value ++ rest))

/-- The sizes that `ReadSize` takes. -/
def IsSize (bytes : List UInt8) (size : ℕ) : Prop :=
  bytes.length ≤ 5 ∧ size ≤ INT_MAX - kSlopBytes ∧ Varint bytes size

/-! ## Tags, sizes and numbers at the head -/

variable {bytes : List UInt8}

theorem IsTag.readTag {number kind : ℕ} (h : IsTag bytes number kind) (more : List UInt8) :
    ∃ tag, Parse.readTag (bytes ++ more) = some (bytes.length, tag) ∧
      (tag >>> 3).toNat = number ∧ (tag &&& 7).toNat = kind := by
  obtain ⟨hlen, -, hkind, value, hvarint, hvalue⟩ := h
  refine ⟨BitVec.ofNat 32 value, ?_, ?_, ?_⟩
  · rw [readTag_eq, hvarint.readVarint hlen more]
    rfl
  · rw [BitVec.toNat_ushiftRight, BitVec.toNat_ofNat, hvalue, Nat.shiftRight_eq_div_pow]
    omega
  · have hseven : (7 : BitVec 32).toNat = 2 ^ 3 - 1 := rfl
    rw [BitVec.toNat_and, BitVec.toNat_ofNat, hvalue, hseven, Nat.and_two_pow_sub_one_eq_mod]
    omega

theorem isTag_of_readTag {n : ℕ} {tag : BitVec 32}
    (h : Parse.readTag bytes = some (n, tag)) (hnumber : tag >>> 3 ≠ 0) :
    IsTag (bytes.take n) (tag >>> 3).toNat (tag &&& 7).toNat := by
  rw [readTag_eq, map_eq_some_iff] at h
  obtain ⟨⟨value, len⟩, hread, heq⟩ := h
  cases heq
  obtain ⟨-, hle, -⟩ := readVarint_length hread
  have hseven : (7 : BitVec 32).toNat = 2 ^ 3 - 1 := rfl
  refine ⟨?_, ?_, ?_, value, varint_of_readVarint hread, ?_⟩
  · exact le_trans (length_take_le _ _) hle
  · intro hzero
    exact hnumber (BitVec.eq_of_toNat_eq hzero)
  · rw [BitVec.toNat_and, hseven, Nat.and_two_pow_sub_one_eq_mod]
    omega
  · rw [BitVec.toNat_ushiftRight, BitVec.toNat_and, BitVec.toNat_ofNat, hseven,
      Nat.and_two_pow_sub_one_eq_mod, Nat.shiftRight_eq_div_pow]
    omega

theorem IsVarint64.varintParse (h : IsVarint64 bytes) (more : List UInt8) :
    ∃ value, Parse.varintParse (bytes ++ more) = some (bytes.length, value) := by
  obtain ⟨hlen, value, hvarint⟩ := h
  exact ⟨BitVec.ofNat 64 value, by rw [varintParse_eq, hvarint.readVarint hlen more]; rfl⟩

theorem isVarint64_of_varintParse {n : ℕ} {value : BitVec 64}
    (h : Parse.varintParse bytes = some (n, value)) : IsVarint64 (bytes.take n) := by
  rw [varintParse_eq, map_eq_some_iff] at h
  obtain ⟨⟨value, len⟩, hread, heq⟩ := h
  cases heq
  obtain ⟨-, hle, -⟩ := readVarint_length hread
  exact ⟨le_trans (length_take_le _ _) hle, value, varint_of_readVarint hread⟩

theorem IsSize.readSize {size : ℕ} (h : IsSize bytes size) (more : List UInt8) :
    Parse.readSize (bytes ++ more) = some (bytes.length, BitVec.ofNat 32 size) := by
  obtain ⟨hlen, hmax, hvarint⟩ := h
  rw [readSize_eq, hvarint.readVarint hlen more, bind_some, readSizeOf, if_pos hmax]

theorem isSize_of_readSize {n : ℕ} {size : BitVec 32}
    (h : Parse.readSize bytes = some (n, size)) : IsSize (bytes.take n) size.toNat := by
  rw [readSize_eq, bind_eq_some_iff] at h
  obtain ⟨⟨value, len⟩, hread, heq⟩ := h
  obtain ⟨-, hle, -⟩ := readVarint_length hread
  have hlen : (bytes.take len).length ≤ 5 := le_trans (length_take_le _ _) hle
  simp only [readSizeOf] at heq
  by_cases hmax : value ≤ INT_MAX - kSlopBytes
  · rw [if_pos hmax] at heq
    cases heq
    have hvalue : (BitVec.ofNat 32 value).toNat = value := by
      rw [BitVec.toNat_ofNat]
      simp only [INT_MAX, kSlopBytes] at hmax
      omega
    rw [hvalue]
    exact ⟨hlen, hmax, varint_of_readVarint hread⟩
  · rw [if_neg hmax] at heq
    cases heq

theorem goesOn_of_kind {tag : BitVec 32} (hnumber : tag >>> 3 ≠ 0) (hkind : (tag &&& 7).toNat ≠ 4) :
    ¬ (tag = 0 ∨ tag &&& 7 = 4) := by
  rintro (rfl | hend)
  · exact hnumber (by decide)
  · exact hkind (by rw [hend]; rfl)

theorem tag_eq (tag : BitVec 32) : tag = (tag >>> 3) * 8 + (tag &&& 7) := by
  have hseven : (7 : BitVec 32).toNat = 2 ^ 3 - 1 := rfl
  have height : (8 : BitVec 32).toNat = 8 := rfl
  apply BitVec.eq_of_toNat_eq
  rw [BitVec.toNat_add, BitVec.toNat_mul, BitVec.toNat_and, BitVec.toNat_ushiftRight, hseven,
    height, Nat.and_two_pow_sub_one_eq_mod, Nat.shiftRight_eq_div_pow]
  omega

theorem endTag_sub_one {tag : BitVec 32} (h : tag &&& 7 = 4) : tag - (1 : BitVec 32) = (tag >>> 3) * 8 + 3 := by
  calc tag - (1 : BitVec 32) = (tag >>> 3) * 8 + (4 : BitVec 32) - 1 := by rw [← h, ← tag_eq]
    _ = (tag >>> 3) * 8 + 3 := by
      rw [add_sub_assoc]
      rfl

theorem endTag_of_sub_one {number tag : BitVec 32} (hnumber : number.toNat < 2 ^ 29)
    (h : tag - (1 : BitVec 32) = number * 8 + 3) : tag >>> 3 = number ∧ tag &&& 7 = 4 := by
  have hseven : (7 : BitVec 32).toNat = 2 ^ 3 - 1 := rfl
  have htag : tag = number * 8 + 4 := by
    rw [sub_eq_iff_eq_add, add_assoc] at h
    exact h
  have htoNat : tag.toNat = number.toNat * 8 + 4 := by
    have hvalue := congrArg BitVec.toNat htag
    rw [BitVec.toNat_add, BitVec.toNat_mul] at hvalue
    have height : (8 : BitVec 32).toNat = 8 := rfl
    have hfour : (4 : BitVec 32).toNat = 4 := rfl
    rw [height, hfour] at hvalue
    omega
  constructor
  · apply BitVec.eq_of_toNat_eq
    rw [BitVec.toNat_ushiftRight, htoNat, Nat.shiftRight_eq_div_pow]
    omega
  · apply BitVec.eq_of_toNat_eq
    rw [BitVec.toNat_and, htoNat, hseven, Nat.and_two_pow_sub_one_eq_mod]
    have hfour : (4 : BitVec 32).toNat = 4 := rfl
    rw [hfour]
    omega

/-! ## Messages are accepted -/

section
variable {data : List UInt8} {depth : ℤ} {pos : ℕ} {out : Parsed}

theorem drop_part {part rest : List UInt8} (h : data.drop pos = part ++ rest) :
    data.drop (pos + part.length) = rest := by
  rw [← drop_drop, h, drop_left]

variable {payload : BitVec 32 → Payload}

theorem fields_field {n pos' : ℕ} {tag : BitVec 32} {out' : Parsed}
    (htag : readTag (data.drop pos) = some (n, tag)) (hgoesOn : ¬ (tag = 0 ∨ tag &&& 7 = 4))
    (hfield : ∀ fuel, data.length - (pos + n) < fuel →
      field payload data (fields payload data fuel) depth tag (pos + n) out = some (pos', out'))
    {fuel : ℕ} (hfuel : data.length - pos < fuel) :
    fields payload data fuel depth pos out = fields payload data fuel depth pos' out' := by
  obtain ⟨fuel, rfl⟩ : ∃ m, fuel = m + 1 := ⟨fuel - 1, by omega⟩
  have hbounds := number_bounds readTag_local htag
  have hread := hfield fuel (by omega)
  have hafter := field_bounds fields_bounds hread
  rw [fields, if_neg (by omega), htag]
  simp only
  rw [if_neg hgoesOn, hread]
  exact fields_fuel (by omega) (by omega)

theorem fields_part {tag part rest more : List UInt8}
    {number kind : ℕ} (htag : IsTag tag number kind) (hkind : kind ≠ 4) (hdata : data.drop pos = tag ++ more)
    (hread : ∀ t : BitVec 32, (t >>> 3).toNat = number → (t &&& 7).toNat = kind →
      ∃ out', ∀ fuel, data.length - (pos + tag.length) < fuel →
        FieldRead payload data (fields payload data fuel) depth t (pos + tag.length) out
          (pos + tag.length + part.length) out')
    (hrest : ∀ out, ∃ out', ∀ fuel, data.length - (pos + tag.length + part.length) < fuel →
      fields payload data fuel depth (pos + tag.length + part.length) out =
        fields payload data fuel depth (pos + tag.length + part.length + rest.length) out') :
    ∃ out', ∀ fuel, data.length - pos < fuel → fields payload data fuel depth pos out =
        fields payload data fuel depth (pos + (tag ++ (part ++ rest)).length) out' := by
  obtain ⟨t, htagRead, hnumber, hkindEq⟩ := htag.readTag more
  have hne : t >>> 3 ≠ 0 := by
    intro hzero
    rw [hzero] at hnumber
    exact htag.2.1 hnumber.symm
  obtain ⟨out₁, hfield⟩ := hread t hnumber hkindEq
  obtain ⟨out', hout'⟩ := hrest out₁
  have hlength : pos + (tag ++ (part ++ rest)).length =
      pos + tag.length + part.length + rest.length := by
    simp only [length_append]
    omega
  refine ⟨out', fun fuel hfuel => ?_⟩
  rw [hlength, ← hout' fuel (by omega)]
  apply fields_field (by rw [hdata]; exact htagRead) (goesOn_of_kind hne (by omega)) _ hfuel
  intro fuel hfuel
  exact field_eq_some_iff.mpr ⟨hne, hfield fuel hfuel⟩

variable {bytes : List UInt8}

theorem unalignedLoad_append {n : ℕ} (h : bytes.length = n)
    (more : List UInt8) : unalignedLoad n (bytes ++ more) = some (n, leValue bytes) := by
  rw [unalignedLoad, if_pos (by rw [length_append]; omega), ← h, take_left]

theorem fields_endTag {n : ℕ} {tag : BitVec 32}
    (htag : readTag (data.drop pos) = some (n, tag)) (hend : tag = 0 ∨ tag &&& 7 = 4) {fuel : ℕ}
    (hfuel : data.length - pos < fuel) :
    fields payload data fuel depth pos out = some (some tag, pos + n, out) := by
  obtain ⟨fuel, rfl⟩ : ∃ m, fuel = m + 1 := ⟨fuel - 1, by omega⟩
  have hbounds := number_bounds readTag_local htag
  rw [fields, if_neg (by omega), htag]
  simp only
  rw [if_pos hend]

/-- **The fields of the grammar are read**, whatever follows. -/
theorem WireFormat.fields {nested : ℕ} {body suffix : List UInt8} (h : WireFormat IsSize nested body)
    (hdata : data.drop pos = body ++ suffix) (hdepth : nested ≤ depth.toNat) (out : Parsed) :
    ∃ out', ∀ fuel, data.length - pos < fuel → Parse.fields (fun _ => .unknown) data fuel depth pos out =
        Parse.fields (fun _ => .unknown) data fuel depth (pos + body.length) out' := by
  induction h generalizing pos depth suffix out with
  | nil => exact ⟨out, fun _ _ => rfl⟩
  | @varint nested number tag value rest htag hvalue hrest ih =>
    rw [append_assoc, append_assoc] at hdata
    obtain ⟨v, hread⟩ := hvalue.varintParse (rest ++ suffix)
    rw [← drop_part hdata] at hread
    apply fields_part htag (by decide) hdata
    · intro t hnumber hkind
      exact ⟨_, fun fuel hfuel => .varint hkind hread rfl rfl⟩
    · exact ih (drop_part (drop_part hdata)) hdepth
  | @fixed64 nested number tag value rest htag hvalue hrest ih =>
    rw [append_assoc, append_assoc] at hdata
    have hread := unalignedLoad_append hvalue (rest ++ suffix)
    rw [← drop_part hdata] at hread
    apply fields_part htag (by decide) hdata
    · intro t hnumber hkind
      exact ⟨_, fun fuel hfuel => .fixed64 hkind hread (by rw [hvalue]) rfl⟩
    · exact ih (drop_part (drop_part hdata)) hdepth
  | @lengthDelimited nested number tag size payload rest htag hsize hrest ih =>
    rw [append_assoc, append_assoc, append_assoc] at hdata
    have hread := hsize.readSize (payload ++ (rest ++ suffix))
    rw [← drop_part hdata] at hread
    have hsizeNat : (BitVec.ofNat 32 payload.length).toNat = payload.length := by
      have hmax := hsize.2.1
      rw [BitVec.toNat_ofNat]
      simp only [INT_MAX, kSlopBytes] at hmax
      omega
    have hrestAt := drop_part (drop_part (drop_part hdata))
    have hlength : data.length - (pos + tag.length + size.length) =
        payload.length + (rest ++ suffix).length := by
      rw [← length_drop, drop_part (drop_part hdata), length_append]
    have hpart : pos + tag.length + (size ++ payload).length =
        pos + tag.length + size.length + payload.length := by
      rw [length_append]
      omega
    rw [← append_assoc size]
    apply fields_part htag (by decide) hdata
    · intro t hnumber hkind
      refine ⟨_, fun fuel hfuel => .lengthDelimited hkind hread ?_ ?_ rfl⟩
      · rw [hsizeNat, hpart]
      · have hbounds := number_bounds readSize_local hread
        rw [hsizeNat]
        omega
    · rw [hpart]
      exact ih hrestAt hdepth
  | @group nested number tag body endTag rest htag hfields hend hrest ihFields ihRest =>
    rw [append_assoc, append_assoc, append_assoc] at hdata
    have hbodyAt := drop_part hdata
    have hendAt := drop_part hbodyAt
    have hrestAt := drop_part hendAt
    obtain ⟨e, hendRead, hendNumber, hendKind⟩ := hend.readTag (rest ++ suffix)
    rw [← hendAt] at hendRead
    have hfour : e &&& 7 = 4 := BitVec.eq_of_toNat_eq hendKind
    have hpart : pos + tag.length + (body ++ endTag).length =
        pos + tag.length + body.length + endTag.length := by
      rw [length_append]
      omega
    rw [← append_assoc body]
    apply fields_part htag (by decide) hdata
    · intro t hnumber hkind
      have hequal : t >>> 3 = e >>> 3 := by
        apply BitVec.eq_of_toNat_eq
        rw [hnumber, hendNumber]
      have hdepth : nested ≤ (depth - 1).toNat := by omega
      obtain ⟨out₁, hbody⟩ := ihFields hbodyAt hdepth
        (out.writeVarint ((t >>> 3) * 8 + 3).toNat)
      have hgroup : ∀ fuel, data.length - (pos + tag.length) < fuel →
          Parse.fields (fun _ => .unknown) data fuel (depth - 1) (pos + tag.length)
            (out.writeVarint ((t >>> 3) * 8 + 3).toNat) =
          some (some e, pos + tag.length + (body ++ endTag).length, out₁) := by
        intro fuel hfuel
        rw [hbody fuel hfuel, fields_endTag hendRead (.inr hfour) (by omega), hpart]
      exact ⟨_, fun fuel hfuel =>
        .group hkind (by omega) (hgroup fuel hfuel) (hequal ▸ endTag_sub_one hfour) rfl⟩
    · rw [hpart]
      exact ihRest hrestAt hdepth
  | @fixed32 nested number tag value rest htag hvalue hrest ih =>
    rw [append_assoc, append_assoc] at hdata
    have hread := unalignedLoad_append hvalue (rest ++ suffix)
    rw [← drop_part hdata] at hread
    apply fields_part htag (by decide) hdata
    · intro t hnumber hkind
      exact ⟨_, fun fuel hfuel => .fixed32 hkind hread (by rw [hvalue]) rfl⟩
    · exact ih (drop_part (drop_part hdata)) hdepth

/-! ## What is accepted is a message -/

theorem drop_split (n : ℕ) : data.drop pos = (data.drop pos).take n ++ data.drop (pos + n) := by
  rw [← drop_drop, take_append_drop]

theorem length_of_unalignedLoad {n len value : ℕ}
    (h : unalignedLoad n bytes = some (len, value)) : (bytes.take len).length = n := by
  rw [unalignedLoad] at h
  by_cases hle : n ≤ bytes.length
  · rw [if_pos hle] at h
    cases h
    rw [length_take, min_eq_left hle]
  · rw [if_neg hle] at h
    cases h

/-- What ends a sequence of fields: nothing, at the end of the data, or the bytes of a tag. -/
def EndBytes (data : List UInt8) (pos' : ℕ) (bytes : List UInt8) : Ending → Prop
  | none => bytes = [] ∧ pos' = data.length
  | some tag => readTag bytes = some (bytes.length, tag)

theorem readTag_take {n : ℕ} {tag : BitVec 32} (h : readTag bytes = some (n, tag)) :
    readTag (bytes.take n) = some ((bytes.take n).length, tag) := by
  obtain ⟨-, -, hlen, hdet⟩ := readTag_local h
  rw [length_take, min_eq_left hlen]
  apply hdet
  rw [take_take, Nat.min_self]

/-- **The fields that are read are those of the grammar.** -/
theorem wireFormat_of_fields {fuel pos' : ℕ} {ending : Ending} {out' : Parsed}
    (h : fields (fun _ => .unknown) data fuel depth pos out = some (ending, pos', out')) :
    ∃ body endBytes, data.drop pos = body ++ (endBytes ++ data.drop pos') ∧
      WireFormat IsSize depth.toNat body ∧ EndBytes data pos' endBytes ending := by
  induction fuel generalizing depth pos out ending pos' out' with
  | zero => cases h
  | succ fuel ih =>
    rw [fields] at h
    by_cases hend : pos = data.length
    · rw [if_pos hend] at h
      cases h
      exact ⟨[], [], rfl, .nil, rfl, hend⟩
    · rw [if_neg hend] at h
      cases htag : readTag (data.drop pos) with
      | none =>
        rw [htag] at h
        cases h
      | some v =>
        obtain ⟨n, tag⟩ := v
        simp only [htag] at h
        by_cases hstop : tag = 0 ∨ tag &&& 7 = 4
        · rw [if_pos hstop] at h
          cases h
          exact ⟨[], (data.drop pos).take n, drop_split n, .nil, readTag_take htag⟩
        · rw [if_neg hstop] at h
          cases hfield : field (fun _ => .unknown) data (fields (fun _ => .unknown) data fuel)
              depth tag (pos + n) out with
          | none =>
            rw [hfield] at h
            cases h
          | some r =>
            obtain ⟨pos₁, out₁⟩ := r
            simp only [hfield] at h
            obtain ⟨rest, endBytes, hrestAt, hrest, hendBytes⟩ := ih h
            obtain ⟨hnumber, hread⟩ := field_eq_some_iff.mp hfield
            have hisTag := isTag_of_readTag htag hnumber
            have hjoin : ∀ len, data.drop pos = (data.drop pos).take n ++
                ((data.drop (pos + n)).take len ++ data.drop (pos + n + len)) := by
              intro len
              rw [← drop_split, ← drop_split]
            cases hread with
            | @varint len value hkind hvalue hpos hout =>
              refine ⟨_, endBytes, ?_, .varint (hkind ▸ hisTag)
                (isVarint64_of_varintParse hvalue) hrest, hendBytes⟩
              rw [append_assoc, append_assoc, ← hrestAt, hpos]
              exact hjoin len
            | @fixed64 len value hkind hvalue hpos hout =>
              refine ⟨_, endBytes, ?_, .fixed64 (hkind ▸ hisTag)
                (length_of_unalignedLoad hvalue) hrest, hendBytes⟩
              rw [append_assoc, append_assoc, ← hrestAt, hpos]
              exact hjoin len
            | @lengthDelimited len size hkind hsize hpos hle hout =>
              have hlength : ((data.drop (pos + n + len)).take size.toNat).length =
                  size.toNat := by
                rw [length_take, length_drop]
                omega
              have hisSize := isSize_of_readSize hsize
              rw [← hlength] at hisSize
              refine ⟨_, endBytes, ?_, .lengthDelimited (hkind ▸ hisTag) hisSize hrest, hendBytes⟩
              rw [append_assoc, append_assoc, append_assoc, ← hrestAt, hpos, ← drop_split]
              exact hjoin len
            | @group endTag out₂ hkind hdepth hgroup hend hout =>
              obtain ⟨body, endTagBytes, hbodyAt, hbody, hendRead⟩ := ih hgroup
              have hsmall : (tag >>> 3).toNat < 2 ^ 29 := by
                rw [BitVec.toNat_ushiftRight, Nat.shiftRight_eq_div_pow]
                omega
              obtain ⟨hendNumber, hfour⟩ := endTag_of_sub_one hsmall hend
              have hisEnd := isTag_of_readTag hendRead (hendNumber ▸ hnumber)
              rw [take_length, hendNumber, hfour] at hisEnd
              have hnested : depth.toNat = (depth - 1).toNat + 1 := by omega
              rw [hnested] at hrest ⊢
              refine ⟨_, endBytes, ?_, .group (hkind ▸ hisTag) hbody hisEnd hrest, hendBytes⟩
              rw [append_assoc, append_assoc, append_assoc, ← hrestAt, ← hbodyAt]
              exact drop_split n
            | @fixed32 len value hkind hvalue hpos hout =>
              refine ⟨_, endBytes, ?_, .fixed32 (hkind ▸ hisTag)
                (length_of_unalignedLoad hvalue) hrest, hendBytes⟩
              rw [append_assoc, append_assoc, ← hrestAt, hpos]
              exact hjoin len

end

/-! ## The ends of the fields -/

/-- Where the parser stands after a field that it has read, in the sequence itself or in a
group of it. -/
inductive FieldEnd (payload : BitVec 32 → Payload) :
    ℕ → Ptr → ParseContext → Parsed → Ptr → ParseContext → Prop
  | here {fuel n : ℕ} {ptr p ptr' : Ptr} {ctx ctx₁ ctx' : ParseContext} {out out' : Parsed}
      {tag : BitVec 32} (hdone : ctx.done ptr = (some p, false, ctx₁))
      (htag : readTag (ctx₁.input.bytes p) = some (n, tag)) (hgoesOn : ¬ (tag = 0 ∨ tag &&& 7 = 4))
      (hfield : fieldParser payload (wireFormatParser payload fuel) tag (p.add n) ctx₁ out =
        some (ptr', ctx', out')) :
      FieldEnd payload (fuel + 1) ptr ctx out ptr' ctx'
  | later {fuel n : ℕ} {ptr p ptr' ptr'' : Ptr} {ctx ctx₁ ctx' ctx'' : ParseContext}
      {out out' : Parsed} {tag : BitVec 32} (hdone : ctx.done ptr = (some p, false, ctx₁))
      (htag : readTag (ctx₁.input.bytes p) = some (n, tag)) (hgoesOn : ¬ (tag = 0 ∨ tag &&& 7 = 4))
      (hfield : fieldParser payload (wireFormatParser payload fuel) tag (p.add n) ctx₁ out =
        some (ptr', ctx', out'))
      (hlater : FieldEnd payload fuel ptr' ctx' out' ptr'' ctx'') :
      FieldEnd payload (fuel + 1) ptr ctx out ptr'' ctx''
  | inside {fuel n : ℕ} {ptr p ptr'' : Ptr} {ctx ctx₁ ctx'' : ParseContext} {out : Parsed}
      {tag : BitVec 32} (hdone : ctx.done ptr = (some p, false, ctx₁))
      (htag : readTag (ctx₁.input.bytes p) = some (n, tag)) (hgoesOn : ¬ (tag = 0 ∨ tag &&& 7 = 4))
      (hkind : (tag &&& 7).toNat = 3)
      (hinside : FieldEnd payload fuel (p.add n)
        { ctx₁ with depth := ctx₁.depth - 1, groupDepth := ctx₁.groupDepth + 1 }
        (out.writeVarint ((tag >>> 3) * 8 + 3).toNat) ptr'' ctx'') :
      FieldEnd payload (fuel + 1) ptr ctx out ptr'' ctx''

section
variable {data : List UInt8} {lim : ℕ} {depth groupDepth : ℤ} {ctx ctx₁ : ParseContext}
  {pos n fuel : ℕ} {ptr p : Ptr} {out : Parsed} {tag : BitVec 32}

variable {payload : BitVec 32 → Payload}

section
variable (h : Stands data lim depth groupDepth ctx pos ptr)
include h

/-- Where the fields are read to their end, the parser stands behind a tag and finds the
field that is there. -/
theorem Stands.step {r : Ending × ℕ × Parsed} (hlast : ctx.input.lastTagMinus1 = 0)
    (hgroup : groupDepth < 0) (hdone : ctx.done ptr = (some p, false, ctx₁))
    (htag : readTag (ctx₁.input.bytes p) = some (n, tag)) (hgoesOn : ¬ (tag = 0 ∨ tag &&& 7 = 4))
    (hspec : fields payload (body data lim) (fuel + 1) depth pos out = some r) :
    Stands data lim depth groupDepth ctx₁ (pos + n) (p.add n) ∧ ctx₁.input.lastTagMinus1 = 0 ∧
      (p.add n).diff ctx₁.input.bufferEnd + 10 ≤ kSlopBytes ∧
      ∃ pos' out', field payload (body data lim) (fields payload (body data lim) fuel) depth tag
          (pos + n) out = some (pos', out') ∧ fields payload (body data lim) fuel depth pos' out' = some r := by
  obtain ⟨E, hcursor⟩ := h.cursor
  have hat := hcursor.done_spec (h.groupDepth_eq ▸ hgroup)
  rw [ParseContext.done] at hdone
  simp only [Prod.mk.injEq] at hdone
  obtain ⟨hsome, hmore, rfl⟩ := hdone
  cases hat with
  | done hr hcursor' hpos hlast' =>
    rw [hr] at hmore
    cases hmore
  | past hr hpos =>
    rw [hr] at hsome
    cases hsome
  | @more p' s' E' hr hcursor' hroom hpos hlast' =>
    rw [hr] at hsome htag ⊢
    obtain rfl : p' = p := some.inj hsome
    have hstands := h.with_input hcursor'
    obtain ⟨hread, -⟩ := hstands.decode readTag_local (by simp only [kSlopBytes]; omega)
    obtain ⟨-, hle, -⟩ := readTag_local htag
    rw [fields, if_neg (ne_of_lt hpos)] at hspec
    cases htagSpec : readTag ((body data lim).drop pos) with
    | none =>
      rw [htagSpec] at hspec
      cases hspec
    | some v =>
      obtain ⟨n', tag'⟩ := v
      obtain ⟨hread', hstands'⟩ := hread htagSpec
      rw [htag] at hread'
      cases hread'
      simp only [htagSpec, if_neg hgoesOn] at hspec
      refine ⟨hstands', hlast'.trans hlast, room_behind_tag hroom hle, ?_⟩
      cases hfield : field payload (body data lim) (fields payload (body data lim) fuel) depth
          tag (pos + n) out with
      | none =>
        rw [hfield] at hspec
        cases hspec
      | some r' =>
        rw [hfield] at hspec
        exact ⟨r'.1, r'.2, rfl, hspec⟩

theorem Stands.fieldParser_read {pos' : ℕ} {out' out'' : Parsed} {ptr' : Ptr} {ctx' : ParseContext}
    (hlast : ctx.input.lastTagMinus1 = 0) (hroom : ptr.diff ctx.input.bufferEnd + 10 ≤ kSlopBytes)
    (hgroup : groupDepth < 0) (hsum : groupDepth + depth < 0)
    (hspec : field payload (body data lim) (fields payload (body data lim) fuel) depth tag pos out =
      some (pos', out')) (hfield : fieldParser payload (wireFormatParser payload fuel) tag ptr ctx out =
      some (ptr', ctx', out'')) :
    Stands data lim depth groupDepth ctx' pos' ptr' ∧ ctx'.input.lastTagMinus1 = 0 ∧ out'' = out' := by
  have hinternal : ∀ out, 0 ≤ depth - 1 → FieldsAt data lim (depth - 1) (groupDepth + 1) pos
      (fields payload (body data lim) fuel (depth - 1) pos out)
      (wireFormatParser payload fuel ptr
        { ctx with depth := depth - 1, groupDepth := groupDepth + 1 } out) := by
    intro out hdepth
    exact wireFormatParser_fieldsAt payload fuel ⟨h.cursor, rfl, rfl⟩ hlast (by omega) (by omega)
  have hat : FieldAt data lim depth groupDepth pos
      (field payload (body data lim) (fields payload (body data lim) fuel) depth tag pos out)
      (fieldParser payload (wireFormatParser payload fuel) tag ptr ctx out) :=
    fieldParser_fieldAt tag hinternal h hlast hroom
  rw [hspec, hfield] at hat
  cases hat with
  | read hspec' hr hstands hlast' hle =>
    cases hspec'
    simp only [some.injEq, Prod.mk.injEq] at hr
    obtain ⟨rfl, rfl, rfl⟩ := hr
    exact ⟨hstands, hlast', rfl⟩
  | failed hspec' => cases hspec'
  | past hspec' => cases hspec'

theorem Stands.inGroup :
    Stands data lim (depth - 1) (groupDepth + 1)
      { ctx with depth := ctx.depth - 1, groupDepth := ctx.groupDepth + 1 } pos ptr :=
  ⟨h.cursor, by rw [← h.depth_eq], by rw [← h.groupDepth_eq]⟩

end

/-- Where the fields are read to their end, each of them ends within the data. -/
theorem FieldEnd.within {ptr'' : Ptr} {ctx'' : ParseContext}
    (hend : FieldEnd payload fuel ptr ctx out ptr'' ctx'') {r : Ending × ℕ × Parsed}
    (h : Stands data lim depth groupDepth ctx pos ptr) (hlast : ctx.input.lastTagMinus1 = 0)
    (hgroup : groupDepth < 0) (hsum : groupDepth + depth < 0)
    (hspec : fields payload (body data lim) fuel depth pos out = some r) :
    ∃ depth' groupDepth' pos'', Stands data lim depth' groupDepth' ctx'' pos'' ptr'' ∧
      pos'' ≤ (body data lim).length := by
  induction hend generalizing depth groupDepth pos r with
  | here hdone htag hgoesOn hfield =>
    obtain ⟨hstands, hzero, hroom, pos', out', hread, hrest⟩ :=
      h.step hlast hgroup hdone htag hgoesOn hspec
    obtain ⟨hstands', -, -⟩ := hstands.fieldParser_read hzero hroom hgroup hsum hread hfield
    exact ⟨_, _, pos', hstands', (field_bounds fields_bounds hread).2⟩
  | later hdone htag hgoesOn hfield hlater ih =>
    obtain ⟨hstands, hzero, hroom, pos', out', hread, hrest⟩ :=
      h.step hlast hgroup hdone htag hgoesOn hspec
    obtain ⟨hstands', hzero', rfl⟩ := hstands.fieldParser_read hzero hroom hgroup hsum hread hfield
    exact ih hstands' hzero' hgroup hsum hrest
  | inside hdone htag hgoesOn hkind hinside ih =>
    obtain ⟨hstands, hzero, hroom, pos', out', hread, hrest⟩ :=
      h.step hlast hgroup hdone htag hgoesOn hspec
    obtain ⟨-, hread⟩ := field_eq_some_iff.mp hread
    cases hread with
    | varint hkind' => omega
    | fixed64 hkind' => omega
    | lengthDelimited hkind' => omega
    | group hkind' hdepth hfields hend hout =>
      have hinner := hstands.inGroup
      exact ih hinner hzero (by omega) (by omega) hfields
    | fixed32 hkind' => omega

end

/-! ## Acceptance -/

theorem message_isSome_iff (depth : ℤ) (data : List UInt8) (out : Parsed) :
    (message (fun _ => .unknown) depth data out).isSome ↔ WireFormat IsSize depth.toNat data := by
  rw [message]
  constructor
  · intro h
    cases hfields : fields (fun _ => .unknown) data (data.length + 1) depth 0 out with
    | none =>
      simp [hfields] at h
    | some r =>
      obtain ⟨ending, pos, out'⟩ := r
      obtain ⟨body, endBytes, hdata, hbody, hend⟩ := wireFormat_of_fields hfields
      cases ending with
      | none =>
        obtain ⟨rfl, rfl⟩ := hend
        rw [drop_zero, drop_length, append_nil, append_nil] at hdata
        rwa [hdata]
      | some tag =>
        simp [hfields] at h
  · intro h
    have hdata : data.drop 0 = data ++ [] := by rw [drop_zero, append_nil]
    obtain ⟨out', hread⟩ := h.fields hdata le_rfl out
    rw [hread _ (by omega), fields, if_pos (Nat.zero_add _)]
    rfl

/-- **The parser for unknown fields accepts the grammar.**  An array is accepted exactly if
it is a sequence of complete fields, and then the pointer is not past the limit after any of
them. -/
theorem accepts_iff_wireFormat (fuel : ℕ) (depth : Int32) (flat : List UInt8) (out : Parsed)
    (hfuel : flat.length < fuel) :
    ((mergeFromFlat (fun _ => .unknown) fuel depth flat out).isSome ↔
      WireFormat IsSize depth.toInt.toNat flat) ∧
    ((mergeFromFlat (fun _ => .unknown) fuel depth flat out).isSome → ∀ ptr ctx,
      FieldEnd (fun _ => .unknown) fuel (initFromFlat flat).1
        (.ofInput (initFromFlat flat).2 depth) out ptr ctx →
      ptr.diff ctx.input.bufferEnd ≤ ctx.input.limit) := by
  rw [mergeFromFlat_eq _ _ _ _ hfuel]
  refine ⟨message_isSome_iff _ _ _, ?_⟩
  intro haccepted ptr ctx hend
  have hbody : body flat flat.length = flat := take_length
  have hfields : fields (fun _ => .unknown) flat (flat.length + 1) depth.toInt 0 out =
      fields (fun _ => .unknown) flat fuel depth.toInt 0 out := fields_fuel (by omega) (by omega)
  obtain ⟨r, hspec⟩ : ∃ r, fields (fun _ => .unknown) flat fuel depth.toInt 0 out = some r := by
    rw [message, hfields] at haccepted
    cases hread : fields (fun _ => .unknown) flat fuel depth.toInt 0 out with
    | none =>
      rw [hread] at haccepted
      cases haccepted
    | some r => exact ⟨r, rfl⟩
  obtain ⟨hcursor, hlast⟩ := initFromFlat_cursor flat
  obtain ⟨hgroup, hsum⟩ := ofInput_depths depth
  rw [← hbody] at hspec
  obtain ⟨_, _, pos, hstands, hle⟩ := hend.within ⟨hcursor, rfl, rfl⟩ hlast hgroup hsum hspec
  obtain ⟨E, hcursor'⟩ := hstands.cursor
  have hpos := hcursor'.pos_eq
  have hlimit := hcursor'.limit_eq
  rw [hbody] at hle
  omega

/-- A group with a varint in it. -/
theorem accepts_iff_wireFormat_group : WireFormat IsSize 1 [0x0B, 0x08, 0x01, 0x0C] := by
  have haccepts := (accepts_iff_wireFormat 5 1 [0x0B, 0x08, 0x01, 0x0C] ⟨none, []⟩ (by decide)).1
  exact haccepts.mp (by decide)

theorem message_of_largeSize :
    message (fun _ => .unknown) 100 ([0x0A, 0xF0, 0xFF, 0xFF, 0xFF, 0x07] ++ bytes) ⟨none, []⟩ = none := by
  have hlength : ([0x0A, 0xF0, 0xFF, 0xFF, 0xFF, 0x07] ++ bytes).length = bytes.length + 6 := by
    rw [length_append, Nat.add_comm]
    rfl
  have htag : readTag (([0x0A, 0xF0, 0xFF, 0xFF, 0xFF, 0x07] ++ bytes).drop 0) = some (1, 10) := rfl
  have hread : readSize (([0x0A, 0xF0, 0xFF, 0xFF, 0xFF, 0x07] ++ bytes).drop 1) = none := rfl
  have hfield : field (fun _ => .unknown) ([0x0A, 0xF0, 0xFF, 0xFF, 0xFF, 0x07] ++ bytes)
      (fields (fun _ => .unknown) ([0x0A, 0xF0, 0xFF, 0xFF, 0xFF, 0x07] ++ bytes)
        (bytes.length + 6)) 100 10 (0 + 1) ⟨none, []⟩ = none := by
    rw [field, if_neg (by decide)]
    have hpayload : payloadField .unknown ([0x0A, 0xF0, 0xFF, 0xFF, 0xFF, 0x07] ++ bytes) (10 >>> 3)
        (0 + 1) ⟨none, []⟩ = none := by
      rw [payloadField, hread]
    exact hpayload
  rw [message, hlength, fields, if_neg (by omega), htag]
  simp only
  rw [if_neg (by decide), hfield]

theorem wireFormat_of_size {size payload : List UInt8} (h : Varint size payload.length) :
    WireFormat Varint 100 ([0x0A] ++ (size ++ (payload ++ []))) := by
  have htag : IsTag [0x0A] 1 2 := ⟨by decide, by decide, by decide, 10, .last (by decide), rfl⟩
  exact .lengthDelimited htag h .nil

def largeField : List UInt8 :=
  [0x0A, 0xF0, 0xFF, 0xFF, 0xFF, 0x07] ++ replicate (INT_MAX - kSlopBytes + 1) 0

theorem wireFormat_of_length (h : bytes.length = INT_MAX - kSlopBytes + 1) :
    WireFormat Varint 100 ([0x0A, 0xF0, 0xFF, 0xFF, 0xFF, 0x07] ++ bytes) := by
  have hread : readVarint 5 [0xF0, 0xFF, 0xFF, 0xFF, 0x07] = some (2147483632, 5) := rfl
  have hsize : Varint [0xF0, 0xFF, 0xFF, 0xFF, 0x07] 2147483632 := varint_of_readVarint hread
  have hlength : bytes.length = 2147483632 := by
    rw [h]
    rfl
  rw [← hlength] at hsize
  have hformat := wireFormat_of_size hsize
  rw [append_nil] at hformat
  exact hformat

/-- **Large sizes and long ones differ**: with any varint for a size, an array
of the grammar is rejected. -/
theorem wireFormat_rejected : (WireFormat Varint 100 largeField ∧
      mergeFromFlat (fun _ => .unknown) (largeField.length + 1) 100 largeField ⟨none, []⟩ = none) ∧
    (WireFormat Varint 100 [0x0A, 0x80, 0x80, 0x80, 0x80, 0x80, 0x00] ∧
      mergeFromFlat (fun _ => .unknown) 8 100 [0x0A, 0x80, 0x80, 0x80, 0x80, 0x80, 0x00] ⟨none, []⟩ =
        none) := by
  have hread : readVarint 6 [0x80, 0x80, 0x80, 0x80, 0x80, 0x00] = some (0, 6) := rfl
  have hsize : Varint [0x80, 0x80, 0x80, 0x80, 0x80, 0x00] 0 := varint_of_readVarint hread
  refine ⟨⟨wireFormat_of_length length_replicate, ?_⟩, ?_, by decide⟩
  · rw [mergeFromFlat_eq _ _ _ _ (Nat.lt_add_one _), largeField]
    exact message_of_largeSize
  · exact @wireFormat_of_size _ [] hsize

end Protoc.Parse
