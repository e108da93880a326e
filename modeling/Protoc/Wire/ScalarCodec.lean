import Protoc.Util.ProtoWriterSteps
import Protoc.Wire.Scalars

/-!
# The scalar codecs

What the writer of a scalar type writes, its reader reads, from whatever chunks, and its size
counts.  The sizes of an array add up the sizes of its elements.
-/

namespace Protoc.Wire

open Protoc.Io Protoc.Lib Protoc.Util.Converter
open List BitVec Nat

/-! ## The zigzag -/

theorem toBitVec_zigZagEncode32 (n : Int32) : (zigZagEncode32 n).toBitVec = zigzag n.toBitVec := by
  rw [zigZagEncode32, zigzag, UInt32.toBitVec_xor, UInt32.toBitVec_shiftLeft]
  rfl

theorem toBitVec_zigZagEncode64 (n : Int64) : (zigZagEncode64 n).toBitVec = zigzag n.toBitVec := by
  rw [zigZagEncode64, zigzag, UInt64.toBitVec_xor, UInt64.toBitVec_shiftLeft]
  rfl

theorem toBitVec_zigZagDecode32 (n : UInt32) : (zigZagDecode32 n).toBitVec = unzigzag n.toBitVec := rfl

theorem toBitVec_zigZagDecode64 (n : UInt64) : (zigZagDecode64 n).toBitVec = unzigzag n.toBitVec := rfl

theorem zigZagDecode32_encode (n : Int32) : zigZagDecode32 (zigZagEncode32 n) = n := by
  apply Int32.toBitVec_inj.mp
  rw [toBitVec_zigZagDecode32, toBitVec_zigZagEncode32, unzigzag_zigzag]

theorem zigZagEncode32_decode (n : UInt32) : zigZagEncode32 (zigZagDecode32 n) = n := by
  apply UInt32.toBitVec_inj.mp
  rw [toBitVec_zigZagEncode32, toBitVec_zigZagDecode32, zigzag_unzigzag]

theorem zigZagDecode64_encode (n : Int64) : zigZagDecode64 (zigZagEncode64 n) = n := by
  apply Int64.toBitVec_inj.mp
  rw [toBitVec_zigZagDecode64, toBitVec_zigZagEncode64, unzigzag_zigzag]

theorem zigZagEncode64_decode (n : UInt64) : zigZagEncode64 (zigZagDecode64 n) = n := by
  apply UInt64.toBitVec_inj.mp
  rw [toBitVec_zigZagEncode64, toBitVec_zigZagDecode64, zigzag_unzigzag]

/-! ## Reading back -/

/-- A read that succeeds with a value, and leaves the rest to read. -/
def Found {α : Type} (data : List UInt8) (r : Bool × Option α × CodedInputStream) (value : α)
    (rest : List UInt8) : Prop :=
  r.1 = true ∧ r.2.1 = some value ∧ readable data r.2.2 = rest

section
variable {α : Type} {data rest : List UInt8} {s : CodedInputStream} {v : ℕ}

theorem Found.of_eq {r : Bool × Option α × CodedInputStream} {value value' : α}
    (h : Found data r value rest) (heq : value = value') : Found data r value' rest := heq ▸ h

theorem length_varintBytes_le_ten (hv : v < 2 ^ 64) : (varintBytes v).length ≤ kMaxVarintBytes :=
  length_varintBytes_le (n := 9) (by omega)

theorem readable_of_reads {bytes : List UInt8} {t : CodedInputStream} {top last : ℕ}
    (h : Stands data top last s) (hread : readable data s = bytes ++ rest) (hreads : Reads s bytes t) :
    readable data t = rest := by
  have htaken := (hreads.stands h).2.2.2.2
  rw [hread] at htaken
  exact (append_cancel_left htaken).symm

theorem found_varint32 (h : CanRead data s (varintBytes v ++ rest)) (hv : v < 2 ^ 64) (convert : ℕ → α) :
    Found data (readVarintVia s.readVarint32 convert) (convert (v % 2 ^ 32)) rest ∧
      Found data (readVarintTo s.readVarint32 convert) (convert (v % 2 ^ 32)) rest := by
  obtain ⟨top, last, hstands⟩ := h.stands
  obtain ⟨hok, hvalue, hreads⟩ :=
    readVarint32_of_varint hstands (varint_varintBytes v) (length_varintBytes_le_ten hv) h.1
  have hrest := readable_of_reads hstands h.1 hreads
  constructor
  · exact ⟨hok, by rw [readVarintVia, if_pos hok, hvalue], hrest⟩
  · exact ⟨hok, by rw [readVarintTo, hvalue], hrest⟩

theorem found_varint64 (h : CanRead data s (varintBytes v ++ rest)) (hv : v < 2 ^ 64) (convert : ℕ → α) :
    Found data (readVarintVia s.readVarint64 convert) (convert v) rest ∧
      Found data (readVarintTo s.readVarint64 convert) (convert v) rest := by
  obtain ⟨top, last, hstands⟩ := h.stands
  obtain ⟨hok, hvalue, hreads⟩ :=
    readVarint64_of_varint hstands (varint_varintBytes v) (length_varintBytes_le_ten hv) h.1
  have hrest := readable_of_reads hstands h.1 hreads
  rw [mod_eq_of_lt hv] at hvalue
  constructor
  · exact ⟨hok, by rw [readVarintVia, if_pos hok, hvalue], hrest⟩
  · exact ⟨hok, by rw [readVarintTo, hvalue], hrest⟩

theorem found_fixed {width : ℕ} (h : CanRead data s (leBytes width v ++ rest)) (hv : v < 256 ^ width)
    (convert : ℕ → α) : Found data (readFixed (s.readLittleEndian width) convert) (convert v) rest := by
  obtain ⟨top, last, hstands⟩ := h.stands
  have hfound := readLittleEndian_of_readable hstands h.1
  rw [length_leBytes, leValue_leBytes hv] at hfound
  obtain ⟨hok, hvalue, hreads⟩ := hfound
  exact ⟨hok, by rw [readFixed, hvalue]; rfl, readable_of_reads hstands h.1 hreads⟩

end

theorem signExtended_mod (value : Int32) : value.toInt64.toUInt64.toNat % 2 ^ 32 = value.toUInt32.toNat := by
  have hvalue := value.toUInt32.toNat_lt
  change (value.toBitVec.signExtend 64).toNat % 2 ^ 32 = value.toBitVec.toNat
  change value.toBitVec.toNat < 2 ^ 32 at hvalue
  rw [toNat_signExtend, toNat_setWidth]
  split <;> omega

theorem mod_of_uint32 (value : UInt32) : UInt32.ofNat (value.toNat % 2 ^ 32) = value := by
  rw [mod_eq_of_lt value.toNat_lt, UInt32.ofNat_toNat]

/-- **Each type is read back.** -/
theorem found_readPrimitive (type : ScalarType) (value : type.Value) {data rest : List UInt8}
    {s : CodedInputStream} (h : CanRead data s (writePrimitiveNoTagToArray type value ++ rest)) :
    Found data (readPrimitive type s) value rest := by
  have hint32 : ∀ n : Int32, (UInt32.ofNat (n.toInt64.toUInt64.toNat % 2 ^ 32)).toInt32 = n := by
    intro n
    rw [signExtended_mod, UInt32.ofNat_toNat]
    rfl
  have huint32 : ∀ n : UInt32, n.toNat < 2 ^ 64 := fun n => lt_of_lt_of_le n.toNat_lt (by decide)
  cases type with
  | double => exact (found_fixed h value.toNat_lt _).of_eq UInt64.ofNat_toNat
  | float => exact (found_fixed h value.toNat_lt _).of_eq UInt32.ofNat_toNat
  | int64 =>
    have hfound := (found_varint64 h value.toUInt64.toNat_lt fun temp => (UInt64.ofNat temp).toInt64).1
    exact hfound.of_eq (congrArg UInt64.toInt64 UInt64.ofNat_toNat)
  | uint64 => exact (found_varint64 h value.toNat_lt _).2.of_eq UInt64.ofNat_toNat
  | int32 =>
    have hfound := (found_varint32 h value.toInt64.toUInt64.toNat_lt fun temp => (UInt32.ofNat temp).toInt32).1
    exact hfound.of_eq (hint32 value)
  | fixed64 => exact (found_fixed h value.toNat_lt _).of_eq UInt64.ofNat_toNat
  | fixed32 => exact (found_fixed h value.toNat_lt _).of_eq UInt32.ofNat_toNat
  | bool =>
    have hlt : (if value then 1 else 0 : UInt32).toNat < 2 ^ 64 := huint32 _
    refine (found_varint64 h hlt _).1.of_eq ?_
    cases value <;> rfl
  | uint32 => exact (found_varint32 h (huint32 value) _).2.of_eq (mod_of_uint32 value)
  | enum =>
    have hfound := (found_varint32 h value.toInt64.toUInt64.toNat_lt fun temp => (UInt32.ofNat temp).toInt32).1
    exact hfound.of_eq (hint32 value)
  | sfixed32 =>
    have hfound := found_fixed h value.toUInt32.toNat_lt fun temp => (UInt32.ofNat temp).toInt32
    exact hfound.of_eq (congrArg UInt32.toInt32 UInt32.ofNat_toNat)
  | sfixed64 =>
    have hfound := found_fixed h value.toUInt64.toNat_lt fun temp => (UInt64.ofNat temp).toInt64
    exact hfound.of_eq (congrArg UInt64.toInt64 UInt64.ofNat_toNat)
  | sint32 =>
    have hfound := (found_varint32 h (huint32 (zigZagEncode32 value)) fun temp => zigZagDecode32 (.ofNat temp)).1
    refine hfound.of_eq ?_
    rw [mod_of_uint32, zigZagDecode32_encode]
  | sint64 =>
    have hfound := (found_varint64 h (zigZagEncode64 value).toNat_lt fun temp => zigZagDecode64 (.ofNat temp)).1
    refine hfound.of_eq ?_
    rw [UInt64.ofNat_toNat, zigZagDecode64_encode]

/-! ## Sizes -/

theorem length_writeVarint64ToArray (value : UInt64) :
    (writeVarint64ToArray value).length = Io.varintSize64 value := by
  rw [← unsafeVarint_toNat, length_unsafeVarint]

theorem length_writeVarint32SignExtended (value : Int32) :
    (writeVarint32SignExtendedToArray value).length = varintSize32SignExtended value := by
  have hextended : value.toInt64.toUInt64.toNat =
      value.toUInt32.toNat + if value < 0 then 2 ^ 64 - 2 ^ 32 else 0 := by
    change (value.toBitVec.signExtend 64).toNat = value.toBitVec.toNat + _
    have hlt : value.toBitVec.toNat < 2 ^ 64 := lt_of_lt_of_le value.toBitVec.isLt (by decide)
    rw [toNat_signExtend, toNat_setWidth, mod_eq_of_lt hlt]
    exact congrArg _ (if_congr slt_zero_iff_msb_cond.symm rfl rfl)
  rw [writeVarint32SignExtendedToArray, varintSize32SignExtended]
  split
  · next hneg =>
    have hmsb : value.toBitVec.msb = true := slt_zero_iff_msb_cond.mp hneg
    rw [msb_eq_decide] at hmsb
    have hlow := value.toUInt32.toNat_lt
    rw [if_pos hneg] at hextended
    have hsign : value.toInt64.toUInt64.toNat.log2 = 63 := by
      rw [log2_eq_iff (by omega)]
      omega
    rw [writeVarint64ToArray, length_varintBytes, hsign]
  · next hnonneg =>
    rw [if_neg hnonneg, add_zero] at hextended
    rw [writeVarint64ToArray, hextended, varintSize32_eq]
    rfl

/-- **Each type is counted.** -/
theorem length_writePrimitive (type : ScalarType) (value : type.Value) :
    (writePrimitiveNoTagToArray type value).length = primitiveSize type value := by
  cases type with
  | double => exact length_leBytes 8 _
  | float => exact length_leBytes 4 _
  | int64 => exact length_writeVarint64ToArray _
  | uint64 => exact length_writeVarint64ToArray _
  | int32 => exact length_writeVarint32SignExtended _
  | fixed64 => exact length_leBytes 8 _
  | fixed32 => exact length_leBytes 4 _
  | bool =>
    have hlt : (if value then 1 else 0 : UInt32).toNat < 0x80 := by cases value <;> decide
    change (varintBytes (if value then 1 else 0 : UInt32).toNat).length = 1
    rw [varintBytes_of_lt hlt]
    rfl
  | uint32 => exact (varintSize32_eq _).symm
  | enum => exact length_writeVarint32SignExtended _
  | sfixed32 => exact length_leBytes 4 _
  | sfixed64 => exact length_leBytes 8 _
  | sint32 => exact (varintSize32_eq _).symm
  | sint64 => exact length_writeVarint64ToArray _

/-! ## The sizes of an array -/

/-- How many of the bounds in the loops a number is above. -/
def boundsBelow (n : ℕ) : ℕ :=
  (if 0x7F < n then 1 else 0) + (if 0x3FFF < n then 1 else 0) + (if 0x1FFFFF < n then 1 else 0) +
    (if 0xFFFFFFF < n then 1 else 0)

theorem log2_lt_iff {n k : ℕ} (hk : 0 < k) : n.log2 < k ↔ n < 2 ^ k := by
  rcases Nat.eq_zero_or_pos n with rfl | hpos
  · simp [hk]
  · exact log2_lt hpos.ne'

theorem length_varintBytes_of_lt {n : ℕ} (h : n < 2 ^ 35) : (varintBytes n).length = 1 + boundsBelow n := by
  have h7 := log2_lt_iff (n := n) (k := 7) (by decide)
  have h14 := log2_lt_iff (n := n) (k := 14) (by decide)
  have h21 := log2_lt_iff (n := n) (k := 21) (by decide)
  have h28 := log2_lt_iff (n := n) (k := 28) (by decide)
  have h35 := log2_lt_iff (n := n) (k := 35) (by decide)
  rw [length_varintBytes, boundsBelow]
  split_ifs <;> omega

theorem length_varintBytes_of_ge {n : ℕ} (h : 2 ^ 35 ≤ n) (hn : n < 2 ^ 64) :
    (varintBytes n).length = 1 + (5 + boundsBelow (n / 2 ^ 35)) := by
  have h35 := log2_lt_iff (n := n) (k := 35) (by decide)
  have h42 := log2_lt_iff (n := n) (k := 42) (by decide)
  have h49 := log2_lt_iff (n := n) (k := 49) (by decide)
  have h56 := log2_lt_iff (n := n) (k := 56) (by decide)
  have h63 := log2_lt_iff (n := n) (k := 63) (by decide)
  have h64 := log2_lt_iff (n := n) (k := 64) (by decide)
  rw [length_varintBytes, boundsBelow]
  split_ifs <;> omega

theorem ite_add_one {α : Type} [Add α] {ofNat : ℕ → α} {one : α} (h : ∀ n, ofNat (n + 1) = ofNat n + one)
    (p : Prop) [Decidable p] (n : ℕ) :
    (if p then ofNat n + one else ofNat n) = ofNat (n + if p then 1 else 0) := by
  split
  · exact (h n).symm
  · rfl

section
variable {zigZag signExtended : Bool}

/-- What an element adds to `sum`. -/
def added (zigZag : Bool) (x : UInt32) : ℕ := boundsBelow (if zigZag then zigZagEncode32 x.toInt32 else x).toNat

/-- What an element adds to `msb_sum`. -/
def addedMsb (zigZag signExtended : Bool) (x : UInt32) : ℕ :=
  if !zigZag && signExtended then x.toNat / 2 ^ 31 else 0

theorem varintSizeStep_eq (n m : ℕ) (x : UInt32) : varintSizeStep zigZag signExtended (.ofNat n, .ofNat m) x =
      (.ofNat (n + added zigZag x), .ofNat (m + addedMsb zigZag signExtended x)) := by
  rw [varintSizeStep, added, addedMsb]
  dsimp only
  generalize (if zigZag then zigZagEncode32 x.toInt32 else x) = y
  have hone : ∀ n, UInt32.ofNat (n + 1) = UInt32.ofNat n + 1 := fun n => UInt32.ofNat_add n 1
  rw [ite_add_one hone, ite_add_one hone, ite_add_one hone, ite_add_one hone, boundsBelow, ← add_assoc,
    ← add_assoc, ← add_assoc]
  refine Prod.ext rfl ?_
  dsimp only
  have hshift : x >>> 31 = UInt32.ofNat (x.toNat / 2 ^ 31) := by
    apply UInt32.toNat_inj.mp
    rw [UInt32.toNat_shiftRight, UInt32.toNat_ofNat', shiftRight_eq_div_pow]
    exact (mod_eq_of_lt (lt_of_le_of_lt (Nat.div_le_self _ _) x.toNat_lt)).symm
  by_cases hmsb : (!zigZag && signExtended) = true
  · rw [if_pos hmsb, if_pos hmsb, UInt32.ofNat_add, hshift]
  · rw [if_neg hmsb, if_neg hmsb, add_zero]

theorem foldl_varintSizeStep (n m : ℕ) (data : List UInt32) :
    data.foldl (varintSizeStep zigZag signExtended) (.ofNat n, .ofNat m) =
      (.ofNat (n + (data.map (added zigZag)).sum),
        .ofNat (m + (data.map (addedMsb zigZag signExtended)).sum)) := by
  induction data generalizing n m with
  | nil => rfl
  | cons x data ih => rw [foldl_cons, varintSizeStep_eq, ih, map_cons, sum_cons, map_cons,
      sum_cons, add_assoc, add_assoc]

def counted (zigZag signExtended : Bool) (x : UInt32) : ℕ :=
  1 + added zigZag x + 5 * if signExtended then addedMsb zigZag signExtended x else 0

theorem sum_counted (data : List UInt32) :
    (data.map (counted zigZag signExtended)).sum = data.length + (data.map (added zigZag)).sum +
      5 * if signExtended then (data.map (addedMsb zigZag signExtended)).sum else 0 := by
  induction data with
  | nil => cases signExtended <;> rfl
  | cons x data ih =>
    simp only [map_cons, sum_cons, ih, counted, length_cons]
    split <;> omega

/-- **The sizes of an array**, modulo the accumulator. -/
theorem varintSize_eq {T : Type} (toUInt32 : T → UInt32) (data : List T) :
    varintSize toUInt32 zigZag signExtended data =
      (data.map fun x => counted zigZag signExtended (toUInt32 x)).sum % 2 ^ 32 := by
  have hloop := @foldl_varintSizeStep zigZag signExtended data.length 0 (data.map toUInt32)
  have hcounted := @sum_counted zigZag signExtended (data.map toUInt32)
  rw [map_map, length_map] at hcounted
  rw [zero_add] at hloop
  change _ = (data.map (counted zigZag signExtended ∘ toUInt32)).sum % 2 ^ 32
  rw [varintSize, hcounted, ← UInt32.toNat_ofNat']
  refine congrArg UInt32.toNat ?_
  change (if signExtended then (List.foldl _ (UInt32.ofNat data.length, UInt32.ofNat 0) _).1 +
    (List.foldl _ (UInt32.ofNat data.length, UInt32.ofNat 0) _).2 * 5 else
    (List.foldl _ (UInt32.ofNat data.length, UInt32.ofNat 0) _).1) = _
  rw [hloop]
  cases signExtended with
  | true =>
    rw [if_pos rfl, if_pos rfl, Nat.mul_comm, UInt32.ofNat_add _ (_ * 5), UInt32.ofNat_mul]
    rfl
  | false => rfl

/-- What an element adds in `VarintSize64`. -/
def added64 (zigZag : Bool) (x : UInt64) : ℕ :=
  let y := (if zigZag then zigZagEncode64 x.toInt64 else x).toNat
  if 2 ^ 35 ≤ y then 5 + boundsBelow (y / 2 ^ 35) else boundsBelow y

theorem four_bounds (n : ℕ) (y : UInt64) :
    (let sum := if 0x7F < y then UInt64.ofNat n + 1 else UInt64.ofNat n
      let sum := if 0x3FFF < y then sum + 1 else sum
      let sum := if 0x1FFFFF < y then sum + 1 else sum
      if 0xFFFFFFF < y then sum + 1 else sum) = UInt64.ofNat (n + boundsBelow y.toNat) := by
  have hone : ∀ n, UInt64.ofNat (n + 1) = UInt64.ofNat n + 1 := fun n => UInt64.ofNat_add n 1
  dsimp only
  rw [ite_add_one hone, ite_add_one hone, ite_add_one hone, ite_add_one hone, boundsBelow, ← add_assoc,
    ← add_assoc, ← add_assoc]
  rfl

theorem varintSize64Step_eq (n : ℕ) (x : UInt64) :
    varintSize64Step zigZag (.ofNat n) x = .ofNat (n + added64 zigZag x) := by
  rw [varintSize64Step, added64]
  generalize (if zigZag then zigZagEncode64 x.toInt64 else x) = y
  by_cases hlong : (1 : UInt64) <<< 35 ≤ y
  · have hshift : (y >>> 35).toNat = y.toNat / 2 ^ 35 := by
      rw [UInt64.toNat_shiftRight, ← shiftRight_eq_div_pow]
      rfl
    have hbound : 2 ^ 35 ≤ y.toNat := hlong
    rw [if_pos hbound, ← add_assoc, ← hshift, ← four_bounds, UInt64.ofNat_add n 5]
    simp only [if_pos hlong]
    rfl
  · have hbound : ¬2 ^ 35 ≤ y.toNat := hlong
    rw [if_neg hbound, ← four_bounds]
    simp only [if_neg hlong, UInt64.and_zero, UInt64.add_zero, UInt64.shiftRight_zero]

/-- **The sizes of an array of 64-bit numbers**, modulo the accumulator. -/
theorem varintSize64_eq {T : Type} (toUInt64 : T → UInt64) (data : List T) : varintSize64 toUInt64 zigZag data =
      (data.map fun x => 1 + added64 zigZag (toUInt64 x)).sum % 2 ^ 64 := by
  have hloop : ∀ (data : List T) (n : ℕ),
      (data.map toUInt64).foldl (varintSize64Step zigZag) (.ofNat (data.length + n)) =
        .ofNat (n + (data.map fun x => 1 + added64 zigZag (toUInt64 x)).sum) := by
    intro data
    induction data with
    | nil => exact fun n => congrArg UInt64.ofNat (add_comm _ _)
    | cons x data ih =>
      intro n
      have hnext := ih (n + (1 + added64 zigZag (toUInt64 x)))
      rw [map_cons, foldl_cons, varintSize64Step_eq, map_cons, sum_cons, ← add_assoc, ← hnext, length_cons]
      congr 2
      omega
  have hstart := hloop data 0
  rw [add_zero, zero_add] at hstart
  rw [varintSize64, hstart, UInt64.toNat_ofNat']

end

/-! ### The single elements -/

theorem varintSize32_eq_bounds (value : UInt32) : varintSize32 value = 1 + boundsBelow value.toNat := by
  rw [varintSize32_eq]
  exact length_varintBytes_of_lt (lt_of_lt_of_le value.toNat_lt (by decide))

theorem counted_zigZag (value : Int32) : counted true false value.toUInt32 = sInt32Size value :=
  (varintSize32_eq_bounds (zigZagEncode32 value)).symm

theorem counted_plain (value : UInt32) : counted false false value = uInt32Size value :=
  (varintSize32_eq_bounds value).symm

theorem counted_signExtended (value : Int32) : counted false true value.toUInt32 = int32Size value := by
  have hlt := value.toUInt32.toNat_lt
  have hsign : value < 0 ↔ 2 ^ 31 ≤ value.toUInt32.toNat := by
    refine slt_zero_iff_msb_cond.trans ?_
    rw [msb_eq_decide, decide_eq_true_iff]
    rfl
  change 1 + boundsBelow value.toUInt32.toNat + 5 * (value.toUInt32.toNat / 2 ^ 31) =
    if value < 0 then 10 else varintSize32 value.toUInt32
  rw [varintSize32_eq_bounds, if_congr hsign rfl rfl]
  split
  · next hneg =>
    have hbounds : boundsBelow value.toUInt32.toNat = 4 := by
      rw [boundsBelow, if_pos (by omega), if_pos (by omega), if_pos (by omega), if_pos (by omega)]
    omega
  · omega

theorem added64_eq (zigZag : Bool) (value : UInt64) :
    1 + added64 zigZag value = Io.varintSize64 (if zigZag then zigZagEncode64 value.toInt64 else value) := by
  rw [added64, ← length_writeVarint64ToArray, writeVarint64ToArray]
  generalize (if zigZag then zigZagEncode64 value.toInt64 else value) = y
  split
  · next hlong => exact (length_varintBytes_of_ge hlong y.toNat_lt).symm
  · next hshort => exact (length_varintBytes_of_lt (not_le.mp hshort)).symm

/-! ## The codecs -/

/-- **The scalar codecs.**  What is written for a value is as long as its size says, and is read
back as the value; the zigzags are inverse to each other; and the sizes of an array are those
of its elements, as long as their sum fits the accumulator. -/
theorem scalar_codecs : (∀ (type : ScalarType) (value : type.Value),
      (writePrimitiveNoTagToArray type value).length = primitiveSize type value ∧
        ∀ data s rest, CanRead data s (writePrimitiveNoTagToArray type value ++ rest) →
          (readPrimitive type s).1 = true ∧ (readPrimitive type s).2.1 = some value ∧
            readable data (readPrimitive type s).2.2 = rest) ∧
      ((∀ n, zigZagDecode32 (zigZagEncode32 n) = n) ∧ (∀ n, zigZagEncode32 (zigZagDecode32 n) = n) ∧
        (∀ n, zigZagDecode64 (zigZagEncode64 n) = n) ∧ ∀ n, zigZagEncode64 (zigZagDecode64 n) = n) ∧
      (∀ data, (data.map sInt32Size).sum < 2 ^ 32 →
        varintSize Int32.toUInt32 true false data = (data.map sInt32Size).sum) ∧
      (∀ data, (data.map int32Size).sum < 2 ^ 32 →
        varintSize Int32.toUInt32 false true data = (data.map int32Size).sum) ∧
      (∀ data, (data.map enumSize).sum < 2 ^ 32 →
        varintSize Int32.toUInt32 false true data = (data.map enumSize).sum) ∧
      (∀ (T : Type) (toUInt32 : T → UInt32) (data : List T),
        (data.map fun x => uInt32Size (toUInt32 x)).sum < 2 ^ 32 →
          varintSize toUInt32 false false data = (data.map fun x => uInt32Size (toUInt32 x)).sum) ∧
      (∀ data, (data.map sInt64Size).sum < 2 ^ 64 →
        varintSize64 Int64.toUInt64 true data = (data.map sInt64Size).sum) ∧
      (∀ data, (data.map int64Size).sum < 2 ^ 64 →
        varintSize64 Int64.toUInt64 false data = (data.map int64Size).sum) ∧
      ∀ data, (data.map uInt64Size).sum < 2 ^ 64 →
        varintSize64 id false data = (data.map uInt64Size).sum := by
  have hint32 : ∀ data : List Int32, (data.map int32Size).sum < 2 ^ 32 →
      varintSize Int32.toUInt32 false true data = (data.map int32Size).sum := by
    intro data hfits
    rw [varintSize_eq]
    simp only [counted_signExtended]
    exact mod_eq_of_lt hfits
  refine ⟨fun type value => ⟨length_writePrimitive type value, fun data s rest h => found_readPrimitive type value h⟩,
    ⟨zigZagDecode32_encode, zigZagEncode32_decode, zigZagDecode64_encode, zigZagEncode64_decode⟩,
    fun data hfits => ?_, hint32, hint32, fun T toUInt32 data hfits => ?_, fun data hfits => ?_,
    fun data hfits => ?_, fun data hfits => ?_⟩
  · rw [varintSize_eq]
    simp only [counted_zigZag]
    exact mod_eq_of_lt hfits
  · rw [varintSize_eq]
    simp only [counted_plain]
    exact mod_eq_of_lt hfits
  · rw [varintSize64_eq]
    simp only [added64_eq]
    exact mod_eq_of_lt hfits
  · rw [varintSize64_eq]
    simp only [added64_eq]
    exact mod_eq_of_lt hfits
  · rw [varintSize64_eq]
    simp only [added64_eq]
    exact mod_eq_of_lt hfits

/-- A number cut in two by the chunks, and an array with a negative number. -/
theorem scalar_codecs_twoChunks :
    (readPrimitive .sfixed32 (.ofStream ⟨[[0xFE, 0xFF], [0xFF, 0xFF, 7]], 0⟩)).2.1 = some (-2) ∧
      varintSize Int32.toUInt32 false true [-1, 300] = 12 := by
  have hread : CanRead [0xFE, 0xFF, 0xFF, 0xFF, 7] (.ofStream ⟨[[0xFE, 0xFF], [0xFF, 0xFF, 7]], 0⟩)
      (writePrimitiveNoTagToArray .sfixed32 (-2) ++ [7]) :=
    ⟨by decide, _, [], _, .stream ⟨[[0xFE, 0xFF], [0xFF, 0xFF, 7]], 0⟩ (by decide), .nil _, rfl⟩
  exact ⟨((scalar_codecs.1 .sfixed32 (-2)).2 _ _ _ hread).2.1, scalar_codecs.2.2.2.1 [-1, 300] (by decide)⟩

end Protoc.Wire
