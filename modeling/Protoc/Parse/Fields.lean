import Protoc.Parse.WireFormat

/-!
# The wire format of a message

What a parse of a message is to do, stated on the whole byte string: no buffers, no pointers
and no bytes behind the end.  A field that goes past the end is no field.
-/

namespace Protoc.Parse

open Protoc.Lib
open List Option

/-- The varints that a payload consists of. -/
def varints (bytes : List UInt8) : Option (List (BitVec 64)) :=
  if bytes = [] then some []
  else
    match _h : varintParse bytes with
    | none => none
    | some (n, varint) => (varints (bytes.drop n)).map fun values => varint :: values
termination_by bytes.length
decreasing_by
  obtain ⟨hpos, -, hlen, -⟩ := varintParse_local _h
  rw [length_drop]
  omega

/-- The numbers of `width` bytes each that a payload consists of. -/
def fixeds (width : ℕ) (bytes : List UInt8) : Option (List ℕ) :=
  if bytes.length % width = 0 then some (loadBlock width (bytes.length / width) bytes) else none

/-- What a payload adds to what was read. -/
def Payload.read (num : BitVec 32) (bytes : List UInt8) (out : Parsed) : Payload → Option Parsed
  | .unknown => some (((out.writeVarint (num * 8 + 2).toNat).writeVarint bytes.length).append bytes)
  | .packedVarint => (varints bytes).map fun values => out.add num (values.map BitVec.toNat)
  | .packedFixed32 => (fixeds 4 bytes).map fun values => out.add num values
  | .packedFixed64 => (fixeds 8 bytes).map fun values => out.add num values

/-- A length-delimited field: the position behind it, and what was read. -/
def payloadField (payload : Payload) (data : List UInt8) (num : BitVec 32) (pos : ℕ)
    (out : Parsed) : Option (ℕ × Parsed) :=
  match readSize (data.drop pos) with
  | none => none
  | some (n, size) =>
    if data.length < pos + n + size.toNat then none
    else
      (payload.read num ((data.drop (pos + n)).take size.toNat) out).map fun out =>
        (pos + n + size.toNat, out)

/-- How a sequence of fields ends: with the data, or with a tag that is zero or ends a
group. -/
abbrev Ending := Option (BitVec 32)

/-- A field behind its tag, with the fields of a group. -/
def field (payload : BitVec 32 → Payload) (data : List UInt8)
    (group : ℤ → ℕ → Parsed → Option (Ending × ℕ × Parsed)) (depth : ℤ) (tag : BitVec 32)
    (pos : ℕ) (out : Parsed) : Option (ℕ × Parsed) :=
  let number := tag >>> 3
  if number = 0 then none
  else
    match (tag &&& 7).toNat with
    | 0 =>
      match varintParse (data.drop pos) with
      | none => none
      | some (n, value) => some (pos + n, out.addVarint number value)
    | 1 =>
      match unalignedLoad 8 (data.drop pos) with
      | none => none
      | some (n, value) => some (pos + n, out.addFixed64 number value)
    | 2 => payloadField (payload number) data number pos out
    | 3 =>
      if depth - 1 < 0 then none
      else
        match group (depth - 1) pos (out.writeVarint (number * 8 + 3).toNat) with
        | some (some endTag, pos, out) =>
          if endTag - 1 = number * 8 + 3 then
            some (pos, out.writeVarint (number * 8 + 4).toNat)
          else none
        | _ => none
    | 5 =>
      match unalignedLoad 4 (data.drop pos) with
      | none => none
      | some (n, value) => some (pos + n, out.addFixed32 number value)
    | _ => none

/-- The fields from a position on, at most `fuel` of them with those of nested groups. -/
def fields (payload : BitVec 32 → Payload) (data : List UInt8) :
    ℕ → ℤ → ℕ → Parsed → Option (Ending × ℕ × Parsed)
  | 0, _, _, _ => none
  | fuel + 1, depth, pos, out =>
    if pos = data.length then some (none, pos, out)
    else
      match readTag (data.drop pos) with
      | none => none
      | some (n, tag) =>
        if tag = 0 ∨ tag &&& 7 = 4 then some (some tag, pos + n, out)
        else
          match field payload data (fields payload data fuel) depth tag (pos + n) out with
          | none => none
          | some (pos, out) => fields payload data fuel depth pos out

/-- What is read from a byte string that is a sequence of fields. -/
def message (payload : BitVec 32 → Payload) (depth : ℤ) (data : List UInt8) (out : Parsed) : Option Parsed :=
  match fields payload data (data.length + 1) depth 0 out with
  | some (none, _, out) => some out
  | _ => none

/-! ## What a field consists of -/

/-- The ways a field is read behind its tag. -/
inductive FieldRead (payload : BitVec 32 → Payload) (data : List UInt8)
    (group : ℤ → ℕ → Parsed → Option (Ending × ℕ × Parsed)) (depth : ℤ) (tag : BitVec 32)
    (pos : ℕ) (out : Parsed) (pos' : ℕ) (out' : Parsed) : Prop
  | varint {n : ℕ} {value : BitVec 64} (hkind : (tag &&& 7).toNat = 0)
      (hvalue : varintParse (data.drop pos) = some (n, value)) (hpos : pos' = pos + n)
      (hout : out' = out.addVarint (tag >>> 3) value)
  | fixed64 {n value : ℕ} (hkind : (tag &&& 7).toNat = 1)
      (hvalue : unalignedLoad 8 (data.drop pos) = some (n, value)) (hpos : pos' = pos + n)
      (hout : out' = out.addFixed64 (tag >>> 3) value)
  | lengthDelimited {n : ℕ} {size : BitVec 32} (hkind : (tag &&& 7).toNat = 2)
      (hsize : readSize (data.drop pos) = some (n, size))
      (hpos : pos' = pos + n + size.toNat) (hle : pos + n + size.toNat ≤ data.length)
      (hout : (payload (tag >>> 3)).read (tag >>> 3) ((data.drop (pos + n)).take size.toNat) out =
        some out')
  | group {endTag : BitVec 32} {out'' : Parsed} (hkind : (tag &&& 7).toNat = 3)
      (hdepth : 0 ≤ depth - 1)
      (hgroup : group (depth - 1) pos (out.writeVarint ((tag >>> 3) * 8 + 3).toNat) =
        some (some endTag, pos', out''))
      (hend : endTag - (1 : BitVec 32) = (tag >>> 3) * 8 + 3)
      (hout : out' = out''.writeVarint ((tag >>> 3) * 8 + 4).toNat)
  | fixed32 {n value : ℕ} (hkind : (tag &&& 7).toNat = 5)
      (hvalue : unalignedLoad 4 (data.drop pos) = some (n, value)) (hpos : pos' = pos + n)
      (hout : out' = out.addFixed32 (tag >>> 3) value)

section
variable {payload : BitVec 32 → Payload} {data : List UInt8}
  {group : ℤ → ℕ → Parsed → Option (Ending × ℕ × Parsed)} {depth : ℤ} {tag : BitVec 32}
  {pos pos' : ℕ} {out out' : Parsed}

theorem payloadField_eq_some_iff {payload : Payload} {num : BitVec 32} :
    payloadField payload data num pos out = some (pos', out') ↔
      ∃ n size, readSize (data.drop pos) = some (n, size) ∧ pos' = pos + n + size.toNat ∧
        pos + n + size.toNat ≤ data.length ∧
        payload.read num ((data.drop (pos + n)).take size.toNat) out = some out' := by
  rw [payloadField]
  cases hsize : readSize (data.drop pos) with
  | none => simp
  | some v =>
    simp only [some.injEq]
    by_cases hend : data.length < pos + v.1 + v.2.toNat
    · rw [if_pos hend]
      constructor
      · intro h
        cases h
      · rintro ⟨n, size, rfl, hpos, hle, -⟩
        simp only at hend
        omega
    · rw [if_neg hend, map_eq_some_iff]
      constructor
      · rintro ⟨out'', hread, heq⟩
        cases heq
        exact ⟨v.1, v.2, rfl, rfl, not_lt.mp hend, hread⟩
      · rintro ⟨n, size, rfl, hpos, -, hread⟩
        exact ⟨out', hread, by rw [hpos]⟩

/-- A field has a number, and is read in one of these ways. -/
theorem field_eq_some_iff : field payload data group depth tag pos out = some (pos', out') ↔
      tag >>> 3 ≠ 0 ∧ FieldRead payload data group depth tag pos out pos' out' := by
  rw [field]
  by_cases hnumber : tag >>> 3 = 0
  · rw [if_pos hnumber]
    simp [hnumber]
  · rw [if_neg hnumber]
    constructor
    · intro h
      refine ⟨hnumber, ?_⟩
      match hkind : (tag &&& 7).toNat with
      | 0 =>
        cases hvalue : varintParse (data.drop pos) with
        | none =>
          simp only [hkind, hvalue] at h
          cases h
        | some v =>
          simp only [hkind, hvalue] at h
          cases h
          exact .varint hkind hvalue rfl rfl
      | 1 =>
        cases hvalue : unalignedLoad 8 (data.drop pos) with
        | none =>
          simp only [hkind, hvalue] at h
          cases h
        | some v =>
          simp only [hkind, hvalue] at h
          cases h
          exact .fixed64 hkind hvalue rfl rfl
      | 2 =>
        simp only [hkind] at h
        obtain ⟨n, size, hsize, hpos, hle, hout⟩ := payloadField_eq_some_iff.mp h
        exact .lengthDelimited hkind hsize hpos hle hout
      | 3 =>
        simp only [hkind] at h
        by_cases hdepth : depth - 1 < 0
        · rw [if_pos hdepth] at h
          cases h
        · rw [if_neg hdepth] at h
          split at h
          · next endTag pos'' out'' hgroup =>
            by_cases hend : endTag - (1 : BitVec 32) = (tag >>> 3) * 8 + 3
            · rw [if_pos hend] at h
              cases h
              exact .group hkind (by omega) hgroup hend rfl
            · rw [if_neg hend] at h
              cases h
          · cases h
      | 5 =>
        cases hvalue : unalignedLoad 4 (data.drop pos) with
        | none =>
          simp only [hkind, hvalue] at h
          cases h
        | some v =>
          simp only [hkind, hvalue] at h
          cases h
          exact .fixed32 hkind hvalue rfl rfl
      | 4 =>
        simp only [hkind] at h
        cases h
      | _ + 6 =>
        simp only [hkind] at h
        cases h
    · rintro ⟨-, hread⟩
      cases hread with
      | varint hkind hvalue hpos hout => simp only [hkind, hvalue, hpos, hout]
      | fixed64 hkind hvalue hpos hout => simp only [hkind, hvalue, hpos, hout]
      | lengthDelimited hkind hsize hpos hle hout =>
        simp only [hkind]
        exact payloadField_eq_some_iff.mpr ⟨_, _, hsize, hpos, hle, hout⟩
      | group hkind hdepth hgroup hend hout =>
        simp only [hkind, hgroup]
        rw [if_neg (by omega), if_pos hend, hout]
      | fixed32 hkind hvalue hpos hout => simp only [hkind, hvalue, hpos, hout]

/-! ## How far the fields go -/

theorem number_bounds {α : Type} {n len : ℕ} {D : Decoder UInt8 α} (hD : D.Local n) {value : α}
    (h : D (data.drop pos) = some (len, value)) : pos < pos + len ∧ pos + len ≤ data.length := by
  obtain ⟨hpos, -, hlen, -⟩ := hD h
  rw [length_drop] at hlen
  omega

theorem field_bounds (hgroup : ∀ {depth out ending pos' out'}, group depth pos out = some (ending, pos', out') →
      pos ≤ pos' ∧ pos' ≤ data.length) (h : field payload data group depth tag pos out = some (pos', out')) :
    pos ≤ pos' ∧ pos' ≤ data.length := by
  obtain ⟨-, hread⟩ := field_eq_some_iff.mp h
  cases hread with
  | varint hkind hvalue hpos hout =>
    have hbounds := number_bounds varintParse_local hvalue
    omega
  | fixed64 hkind hvalue hpos hout =>
    have hbounds := number_bounds (unalignedLoad_local (by decide)) hvalue
    omega
  | lengthDelimited hkind hsize hpos hle hout =>
    have hbounds := number_bounds readSize_local hsize
    omega
  | group hkind hdepth hfields hend hout => exact hgroup hfields
  | fixed32 hkind hvalue hpos hout =>
    have hbounds := number_bounds (unalignedLoad_local (by decide)) hvalue
    omega

theorem fields_bounds {fuel : ℕ} {ending : Ending}
    (h : fields payload data fuel depth pos out = some (ending, pos', out')) :
    pos ≤ pos' ∧ pos' ≤ data.length := by
  induction fuel generalizing depth pos out ending pos' out' with
  | zero => cases h
  | succ fuel ih =>
    rw [fields] at h
    by_cases hend : pos = data.length
    · simp [if_pos hend] at h
      omega
    · rw [if_neg hend] at h
      cases htag : readTag (data.drop pos) with
      | none =>
        simp [htag] at h
      | some v =>
        obtain ⟨n, tag⟩ := v
        have hbounds := number_bounds readTag_local htag
        simp only [htag] at h
        by_cases hstop : tag = 0 ∨ tag &&& 7 = 4
        · rw [if_pos hstop] at h
          cases h
          omega
        · rw [if_neg hstop] at h
          split at h
          · cases h
          · next pos'' out'' hfield =>
            have hafter := field_bounds ih hfield
            have hrest := ih h
            omega

/-- More fuel than there are bytes left makes no difference. -/
theorem fields_fuel {fuel fuel' : ℕ} (hfuel : data.length - pos < fuel) (hfuel' : data.length - pos < fuel') :
    fields payload data fuel depth pos out = fields payload data fuel' depth pos out := by
  induction fuel generalizing fuel' depth pos out with
  | zero => omega
  | succ fuel ih =>
    obtain ⟨fuel', rfl⟩ : ∃ n, fuel' = n + 1 := ⟨fuel' - 1, by omega⟩
    rw [fields, fields]
    by_cases hend : pos = data.length
    · rw [if_pos hend, if_pos hend]
    · rw [if_neg hend, if_neg hend]
      cases htag : readTag (data.drop pos) with
      | none => rfl
      | some v =>
        obtain ⟨n, tag⟩ := v
        have hbounds := number_bounds readTag_local htag
        have hfield : field payload data (fields payload data fuel) depth tag (pos + n) out =
            field payload data (fields payload data fuel') depth tag (pos + n) out := by
          have hgroup : ∀ depth out, fields payload data fuel depth (pos + n) out =
              fields payload data fuel' depth (pos + n) out :=
            fun depth out => ih (by omega) (by omega)
          simp only [field, hgroup]
        simp only
        by_cases hstop : tag = 0 ∨ tag &&& 7 = 4
        · rw [if_pos hstop, if_pos hstop]
        · rw [if_neg hstop, if_neg hstop, hfield]
          cases hread : field payload data (fields payload data fuel') depth tag (pos + n) out with
          | none => rfl
          | some r =>
            have hafter := field_bounds fields_bounds hread
            exact ih (by omega) (by omega)

end

/-! ## Packed payloads, part by part -/

@[simp] theorem varints_nil : varints [] = some [] := by
  rw [varints]
  rfl

variable {bytes : List UInt8}

theorem varints_of_some {n : ℕ} {varint : BitVec 64} (h : varintParse bytes = some (n, varint)) :
    varints bytes = (varints (bytes.drop n)).map fun values => varint :: values := by
  obtain ⟨hpos, -, hlen, -⟩ := varintParse_local h
  have hne : bytes ≠ [] := ne_nil_of_length_pos (by omega)
  rw [varints, if_neg hne]
  split
  · next hnone =>
    rw [h] at hnone
    cases hnone
  · next m v hsome =>
    rw [h] at hsome
    cases hsome
    rfl

theorem varints_of_none (hne : bytes ≠ []) (h : varintParse bytes = none) : varints bytes = none := by
  rw [varints, if_neg hne]
  split
  · rfl
  · next hsome =>
    simp [h] at hsome

/-- The array loop stops at the first varint that ends at the end or behind it. -/
theorem readPackedVarintArrayLoop_length {fuel : ℕ} {ptr : List UInt8} {left : ℤ}
    {added : List (BitVec 64)} {n : ℕ} (h : readPackedVarintArrayLoop fuel ptr left = some (added, n)) :
    (left ≤ 0 → n = 0) ∧ (0 < left → left ≤ n ∧ n ≤ left + 9) := by
  induction fuel generalizing ptr left added n with
  | zero => cases h
  | succ fuel ih =>
    rw [readPackedVarintArrayLoop] at h
    by_cases hleft : 0 < left
    · rw [if_pos hleft] at h
      refine ⟨by omega, fun _ => ?_⟩
      cases hparse : varintParse ptr with
      | none =>
        rw [hparse] at h
        cases h
      | some v =>
        obtain ⟨len, varint⟩ := v
        obtain ⟨hpos, hle, -, -⟩ := varintParse_local hparse
        simp only [hparse, map_eq_some_iff] at h
        obtain ⟨⟨more, n'⟩, hmore, heq⟩ := h
        cases heq
        obtain ⟨hstop, hgoOn⟩ := ih hmore
        simp only
        by_cases hrest : left - len ≤ 0
        · have hzero := hstop hrest
          omega
        · have hbounds := hgoOn (by omega)
          omega
    · rw [if_neg hleft] at h
      cases h
      exact ⟨fun _ => rfl, by omega⟩

/-- The array loop over memory that agrees with a payload: it has read the varints of the
payload's first part, and there is none where it fails or goes past the payload's end. -/
theorem readPackedVarintArrayLoop_varints (fuel room : ℕ) {ptr rest : List UInt8} (left : ℤ)
    (hagree : Agree (ptr.take room) rest) (hlength : room ≤ ptr.length) (hroom : left + 9 ≤ room)
    (hrest : left ≤ rest.length) (hfuel : left.toNat < fuel) :
    (readPackedVarintArrayLoop fuel ptr left = none → varints rest = none) ∧
      ∀ added n, readPackedVarintArrayLoop fuel ptr left = some (added, n) →
        (n ≤ rest.length → varints rest = (varints (rest.drop n)).map fun more => added ++ more) ∧
          (rest.length < n → varints rest = none) := by
  induction fuel generalizing room ptr rest left with
  | zero => omega
  | succ fuel ih =>
    rw [readPackedVarintArrayLoop]
    by_cases hleft : 0 < left
    · rw [if_pos hleft]
      have hne : rest ≠ [] := ne_nil_of_length_pos (by omega)
      have htake : varintParse (ptr.take room) = varintParse ptr :=
        varintParse_local.take_eq (by omega) ptr
      have hten : 10 ≤ (ptr.take room).length := by
        rw [length_take]
        omega
      cases hparse : varintParse rest with
      | some v =>
        obtain ⟨len, varint⟩ := v
        obtain ⟨hpos, hle, hlen, -⟩ := varintParse_local hparse
        have hptr := varintParse_local.of_agree hagree hten hparse
        rw [htake] at hptr
        have hdrop := hagree.drop len
        rw [drop_take] at hdrop
        have hlength' : (rest.drop len).length = rest.length - len := length_drop
        obtain ⟨hnone, hsome⟩ := ih _ (left - len) hdrop
          (by rw [length_drop]; omega) (by omega) (by omega) (by omega)
        simp only [hptr, varints_of_some hparse]
        constructor
        · intro hfail
          rw [hnone (map_eq_none_iff.mp hfail)]
          rfl
        · intro added n hread
          obtain ⟨⟨more, n'⟩, hmore, heq⟩ := map_eq_some_iff.mp hread
          cases heq
          obtain ⟨hwithin, hpast⟩ := hsome more n' hmore
          constructor
          · intro hn
            rw [hwithin (by simp only at hn; omega), drop_drop, Option.map_map]
            rfl
          · intro hn
            rw [hpast (by simp only at hn; omega)]
            rfl
      | none =>
        rw [varints_of_none hne hparse]
        refine ⟨fun _ => rfl, fun added n hread => ⟨fun hn => ?_, fun _ => rfl⟩⟩
        cases hptr : varintParse ptr with
        | none =>
          simp [hptr] at hread
        | some v =>
          -- the varint goes past the end of the payload, and the loop stops behind it
          obtain ⟨len, varint⟩ := v
          have hover := varintParse_local.overrun hagree hparse (htake.trans hptr)
          simp only [hptr, map_eq_some_iff] at hread
          obtain ⟨⟨more, n'⟩, hmore, heq⟩ := hread
          cases heq
          simp only at hn
          omega
    · rw [if_neg hleft]
      refine ⟨by simp, fun added n hread => ?_⟩
      cases hread
      refine ⟨fun _ => ?_, by omega⟩
      rw [drop_zero]
      exact (Option.map_id' ).symm

theorem loadBlock_congr {n num : ℕ} {xs ys : List UInt8}
    (h : xs.take (num * n) = ys.take (num * n)) : loadBlock n num xs = loadBlock n num ys := by
  induction num generalizing xs ys with
  | zero => rfl
  | succ num ih =>
    have hle : n ≤ (num + 1) * n := Nat.le_mul_of_pos_left n (Nat.succ_pos num)
    have hfirst : xs.take n = ys.take n := by
      have htake := congrArg (List.take n) h
      rwa [take_take, take_take, min_eq_left hle] at htake
    have hrest : (xs.drop n).take (num * n) = (ys.drop n).take (num * n) := by
      have hdrop := congrArg (List.drop n) h
      rwa [drop_take, drop_take, Nat.succ_mul, Nat.add_sub_cancel] at hdrop
    rw [loadBlock, loadBlock, hfirst, ih hrest]

theorem loadBlock_add (n num more : ℕ) (bytes : List UInt8) : loadBlock n (num + more) bytes =
      loadBlock n num bytes ++ loadBlock n more (bytes.drop (num * n)) := by
  induction num generalizing bytes with
  | zero => simp [loadBlock]
  | succ num ih => rw [add_right_comm, loadBlock, loadBlock, ih, drop_drop, cons_append,
      Nat.succ_mul, add_comm n]

theorem fixeds_block {width num : ℕ} (hwidth : 0 < width) (hle : num * width ≤ bytes.length) :
    fixeds width bytes = (fixeds width (bytes.drop (num * width))).map fun values =>
        loadBlock width num bytes ++ values := by
  obtain ⟨more, hmore⟩ := Nat.exists_eq_add_of_le' hle
  have hdrop : (bytes.drop (num * width)).length = more := by
    rw [length_drop]
    omega
  have hmod : bytes.length % width = more % width := by
    rw [hmore, Nat.add_mul_mod_self_right]
  have hdiv : bytes.length / width = num + more / width := by
    rw [hmore, Nat.add_mul_div_right _ _ hwidth, add_comm]
  rw [fixeds, fixeds, hdrop, hmod, hdiv]
  by_cases hzero : more % width = 0
  · rw [if_pos hzero, if_pos hzero, map_some, loadBlock_add]
  · rw [if_neg hzero, if_neg hzero, map_none]

end Protoc.Parse
