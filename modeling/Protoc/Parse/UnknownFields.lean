import Protoc.Parse.Grammar

/-!
# Unknown fields are kept

The parser for unknown fields writes the fields that it reads to a string.  What it writes is read as it stands:
parsing the string again gives the same string.
-/

namespace Protoc.Parse

open Protoc.Lib Protoc.Io EpsCopyInputStream
open List Option

/-- The parser writes these bytes again when it reads them, wherever they stand. -/
def Stable (depth : ℤ) (bytes : List UInt8) : Prop :=
  ∀ (data : List UInt8) (pos : ℕ) (rest : List UInt8) (out : Parsed), data.drop pos = bytes ++ rest →
    ∀ fuel, data.length - pos < fuel → fields (fun _ => .unknown) data fuel depth pos out =
      fields (fun _ => .unknown) data fuel depth (pos + bytes.length) (out.append bytes)

theorem append_append (out : Parsed) (bytes more : List UInt8) :
    (out.append bytes).append more = out.append (bytes ++ more) := by
  cases out with
  | mk unknown added => cases unknown <;> simp [Parsed.append]

theorem append_of_nil (out : Parsed) : out.append [] = out := by
  cases out with
  | mk unknown added => cases unknown <;> simp [Parsed.append]

variable {data rest bytes more : List UInt8} {depth : ℤ} {pos pos' : ℕ} {out out' : Parsed} {num tag k : BitVec 32}

theorem stable_nil : Stable depth [] := fun data pos rest out _ fuel _ => by
  rw [append_of_nil, length_nil, Nat.add_zero]

theorem Stable.append (h : Stable depth bytes) (hmore : Stable depth more) : Stable depth (bytes ++ more) := by
  intro data pos rest out hdata fuel hfuel
  rw [append_assoc] at hdata
  rw [h data pos _ out hdata fuel hfuel, hmore data _ rest _ (drop_part hdata) fuel (by omega), append_append,
    length_append, Nat.add_assoc]

theorem isTag_varintBytes (hne : num ≠ 0) (hnum : num.toNat < 2 ^ 29) (hk : k.toNat < 8) :
    IsTag (varintBytes (num * 8 + k).toNat) num.toNat k.toNat := by
  have height : (8 : BitVec 32).toNat = 8 := rfl
  refine ⟨length_varintBytes_le (n := 4) (lt_of_lt_of_le (BitVec.isLt _) (by decide)),
    fun hzero => hne (BitVec.eq_of_toNat_eq hzero), hk, _, varint_varintBytes _, ?_⟩
  rw [BitVec.toNat_add, BitVec.toNat_mul, height]
  omega

/-- **A field** whose content is written as it is read. -/
theorem stable_field (hne : num ≠ 0) (hnum : num.toNat < 2 ^ 29) (hk : k.toNat < 8) (hfour : k.toNat ≠ 4)
    (hread : ∀ (data : List UInt8) (pos : ℕ) (rest : List UInt8) (out : Parsed) (tag : BitVec 32) (fuel : ℕ),
      data.drop pos = bytes ++ rest → tag >>> 3 = num → (tag &&& 7).toNat = k.toNat → data.length - pos < fuel →
      FieldRead (fun _ => .unknown) data (fields (fun _ => .unknown) data fuel) depth tag pos out (pos + bytes.length)
        ((out.writeVarint (num * 8 + k).toNat).append bytes)) :
    Stable depth (varintBytes (num * 8 + k).toNat ++ bytes) := by
  intro data pos rest out hdata fuel hfuel
  rw [append_assoc] at hdata
  obtain ⟨tag, htag, hnumber, hkind⟩ := (isTag_varintBytes hne hnum hk).readTag (bytes ++ rest)
  have hnumEq : tag >>> 3 = num := BitVec.eq_of_toNat_eq hnumber
  rw [fields_field (hdata ▸ htag) (goesOn_of_kind (hnumEq ▸ hne) (hkind ▸ hfour)) (fun fuel hfuel =>
    field_eq_some_iff.mpr ⟨hnumEq ▸ hne, hread data _ rest out tag fuel (drop_part hdata) hnumEq hkind hfuel⟩) hfuel,
    Parsed.writeVarint, append_append, length_append, Nat.add_assoc]

theorem leValue_lt (bytes : List UInt8) : leValue bytes < 256 ^ bytes.length := by
  induction bytes with
  | nil => exact Nat.one_pos
  | cons b bytes ih =>
    have hb := b.toNat_lt
    rw [leValue, length_cons, pow_succ]
    omega

/-- A number of fixed width is read again. -/
theorem unalignedLoad_leBytes {n len value : ℕ} (h : unalignedLoad n bytes = some (len, value)) (more : List UInt8) :
    unalignedLoad n (leBytes n value ++ more) = some (n, value) := by
  rw [unalignedLoad] at h
  split_ifs at h with hle
  cases h
  have hlt := leValue_lt (bytes.take n)
  rw [length_take, min_eq_left hle] at hlt
  rw [unalignedLoad_append (length_leBytes n _), leValue_leBytes hlt]

/-- **What is written for a field** is stable. -/
theorem exists_stable_field {group : ℤ → ℕ → Parsed → Option (Ending × ℕ × Parsed)} (hne : tag >>> 3 ≠ 0)
    (hgroups : ∀ {depth pos out ending pos' out'}, group depth pos out = some (ending, pos', out') →
      ∃ bytes, out' = out.append bytes ∧ Stable depth bytes)
    (h : FieldRead (fun _ => .unknown) data group depth tag pos out pos' out') :
    ∃ bytes, out' = out.append bytes ∧ Stable depth bytes := by
  have hnum : (tag >>> 3).toNat < 2 ^ 29 := by
    have hlt := tag.isLt
    rw [BitVec.toNat_ushiftRight, Nat.shiftRight_eq_div_pow]
    omega
  cases h with
  | @varint n value hkind hvalue hpos hout =>
    have hstable : Stable depth (varintBytes ((tag >>> 3) * 8 + 0#32).toNat ++ varintBytes value.toNat) := by
      refine stable_field hne hnum (by decide) (by decide) fun data pos rest out tag fuel hdata hnumEq hkind hfuel => ?_
      have hread := (varint_varintBytes value.toNat).readVarint
        (length_varintBytes_le (n := 9) (lt_of_lt_of_le value.isLt (by decide))) rest
      have hparse : varintParse (data.drop pos) = some ((varintBytes value.toNat).length, value) := by
        rw [varintParse_eq, hdata]
        simpa using congrArg (Option.map fun r => (r.2, BitVec.ofNat 64 r.1)) hread
      exact .varint hkind hparse rfl (by rw [hnumEq, BitVec.add_zero]; rfl)
    rw [BitVec.add_zero] at hstable
    exact ⟨_, hout.trans (append_append ..), hstable⟩
  | @fixed64 n value hkind hvalue hpos hout =>
    refine ⟨_, hout.trans (append_append ..), stable_field hne hnum (by decide) (by decide)
      fun data pos rest out tag fuel hdata hnumEq hkind hfuel => ?_⟩
    have hload := hdata ▸ unalignedLoad_leBytes hvalue rest
    exact .fixed64 hkind hload (by rw [length_leBytes]) (by rw [hnumEq]; rfl)
  | @lengthDelimited n size hkind hsize hpos hle hout =>
    have hlength : ((data.drop (pos + n)).take size.toNat).length = size.toNat := by
      rw [length_take, length_drop]
      omega
    obtain ⟨-, hmax, -⟩ := isSize_of_readSize hsize
    generalize (data.drop (pos + n)).take size.toNat = payload at hlength hout
    rw [Payload.read, Parsed.writeVarint, append_append, hlength] at hout
    refine ⟨_, (some.inj hout).symm.trans (append_append ..), stable_field hne hnum (by decide) (by decide)
      fun data pos rest out tag fuel hdata hnumEq hkind hfuel => ?_⟩
    have hisSize : IsSize (varintBytes size.toNat) payload.length :=
      ⟨length_varintBytes_le (n := 4) (lt_of_lt_of_le size.isLt (by decide)), hlength ▸ hmax, hlength ▸ varint_varintBytes _⟩
    rw [append_assoc] at hdata
    have hread := hdata ▸ hisSize.readSize (payload ++ rest)
    have hbounds := number_bounds readSize_local hread
    have hpayload := drop_part hdata
    have hend := congrArg length hpayload
    rw [length_drop, length_append] at hend
    rw [hlength, BitVec.ofNat_toNat, BitVec.setWidth_eq] at hread
    refine .lengthDelimited hkind hread ?_ (by omega) ?_
    · rw [length_append, hlength, Nat.add_assoc]
    · rw [hpayload, ← hlength, take_left, Payload.read, hnumEq, hlength]
      exact congrArg some (append_append ..)
  | @group endTag out'' hkind hdepth hgroup hend hout =>
    obtain ⟨inside, rfl, hinside⟩ := hgroups hgroup
    rw [Parsed.writeVarint, append_append] at hout
    refine ⟨_, hout.trans (append_append ..), stable_field hne hnum (by decide) (by decide)
      fun data pos rest out tag fuel hdata hnumEq hkind hfuel => ?_⟩
    rw [append_assoc] at hdata
    have hendAt := drop_part hdata
    obtain ⟨e, he, hnumber, hkindEnd⟩ := (isTag_varintBytes (k := 4) hne hnum (by decide)).readTag rest
    have hfour : e &&& 7 = 4 := BitVec.eq_of_toNat_eq hkindEnd
    have hnumEnd : e >>> 3 = tag >>> 3 := hnumEq ▸ BitVec.eq_of_toNat_eq hnumber
    have hread := (hinside data pos _ (out.writeVarint ((tag >>> 3) * 8 + 3).toNat) hdata fuel hfuel).trans
      (fields_endTag (hendAt ▸ he) (.inr hfour) (by omega))
    rw [Nat.add_assoc, ← length_append] at hread
    refine .group hkind hdepth hread (hnumEnd ▸ endTag_sub_one hfour) ?_
    rw [hnumEq]
    exact (append_append ..).symm
  | @fixed32 n value hkind hvalue hpos hout =>
    refine ⟨_, hout.trans (append_append ..), stable_field hne hnum (by decide) (by decide)
      fun data pos rest out tag fuel hdata hnumEq hkind hfuel => ?_⟩
    have hload := hdata ▸ unalignedLoad_leBytes hvalue rest
    exact .fixed32 hkind hload (by rw [length_leBytes]) (by rw [hnumEq]; rfl)

/-- **What is written for any fields** is stable. -/
theorem exists_stable {fuel : ℕ} {ending : Ending}
    (h : fields (fun _ => .unknown) data fuel depth pos out = some (ending, pos', out')) :
    ∃ bytes, out' = out.append bytes ∧ Stable depth bytes := by
  induction fuel generalizing depth pos out ending pos' out' with
  | zero => cases h
  | succ fuel ih =>
    have hnil : ∃ bytes, out = out.append bytes ∧ Stable depth bytes := ⟨[], (append_of_nil _).symm, stable_nil⟩
    rw [fields] at h
    split at h
    · cases h
      exact hnil
    · split at h
      · cases h
      · split at h
        · cases h
          exact hnil
        · split at h
          · cases h
          · next hfield =>
            obtain ⟨hne, hread⟩ := field_eq_some_iff.mp hfield
            obtain ⟨bytes, rfl, hstable⟩ := exists_stable_field hne ih hread
            obtain ⟨more, rfl, hmore⟩ := ih h
            exact ⟨bytes ++ more, append_append .., hstable.append hmore⟩

end Protoc.Parse
