import Mathlib.Data.List.ModifyLast
import Protoc.Io.CodedInputLimitStack
import Protoc.Io.EpsCopyOutput

/-!
# The varint codec

The reads of a coded input take their bytes from the front of what can be read.  When a whole
varint or a whole number stands there, they succeed and take just that.
-/

namespace Protoc.Io

/-! ## The varint codec -/

open Protoc.Lib CodedInputStream CodedOutputStream

/-! ## The encoder -/

/-- `ptr[-1] |= 0x80`. -/
def continueLast (written : List UInt8) : List UInt8 := written.modifyLast (· ||| 0x80)

/-- The loop of `UnsafeVarint`, on the bytes before `ptr`. -/
def unsafeVarintLoop (written : List UInt8) (value : ℕ) : List UInt8 :=
  if 0x80 ≤ value >>> 7 then
    unsafeVarintLoop (continueLast written ++ [UInt8.ofNat (value >>> 7)]) (value >>> 7)
  else continueLast written ++ [UInt8.ofNat (value >>> 7)]
termination_by value
decreasing_by
  rw [Nat.shiftRight_eq_div_pow] at *
  omega

/-- `UnsafeVarint`: the bytes it writes.  The value is unsigned, of either width. -/
def unsafeVarint (value : ℕ) : List UInt8 :=
  if value < 0x80 then [UInt8.ofNat value]
  else if value >>> 7 < 0x80 then [UInt8.ofNat value ||| 0x80, UInt8.ofNat (value >>> 7)]
  else unsafeVarintLoop [UInt8.ofNat value ||| 0x80, UInt8.ofNat (value >>> 7)] (value >>> 7)

/-- `VarintSize64`. -/
def varintSize64 (value : UInt64) : ℕ := ((value ||| 1).toNat.log2 * 9 + 73) / 64

theorem continueLast_append (front : List UInt8) (b : UInt8) :
    continueLast (front ++ [b]) = front ++ [b ||| 0x80] :=
  List.modifyLast_concat _ b front

theorem unsafeVarintLoop_eq (front : List UInt8) {value : ℕ} (h : 0x80 ≤ value) :
    unsafeVarintLoop (front ++ [UInt8.ofNat value]) value = front ++ varintBytes value := by
  induction value using Nat.strong_induction_on generalizing front with
  | _ value ih =>
    have hshift : value >>> 7 = value / 0x80 := Nat.shiftRight_eq_div_pow value 7
    rw [unsafeVarintLoop, continueLast_append, hshift, varintBytes_of_le h]
    split
    · next hmore =>
      rw [ih _ (by omega) _ hmore, List.append_assoc]
      rfl
    · next hlast =>
      rw [varintBytes_of_lt (not_le.mp hlast), List.append_assoc]
      rfl

theorem unsafeVarint_eq (value : ℕ) : unsafeVarint value = varintBytes value := by
  have hshift : value >>> 7 = value / 0x80 := Nat.shiftRight_eq_div_pow value 7
  rw [unsafeVarint, hshift]
  split
  · next hone => rw [varintBytes_of_lt hone]
  · next hlong =>
    rw [varintBytes_of_le (not_lt.mp hlong)]
    split
    · next htwo => rw [varintBytes_of_lt htwo]
    · next hmore => exact unsafeVarintLoop_eq [UInt8.ofNat value ||| 0x80] (not_lt.mp hmore)

theorem unsafeVarint_toNat (value : UInt64) : unsafeVarint value.toNat = writeVarint64ToArray value :=
  unsafeVarint_eq value.toNat

theorem log2_or_one (n : ℕ) : (n ||| 1).log2 = n.log2 := by
  rcases Nat.eq_zero_or_pos n with rfl | hpos
  · decide
  · obtain ⟨hle, hlt⟩ := (Nat.log2_eq_iff hpos.ne').mp rfl
    have hor : n ≤ n ||| 1 := Nat.left_le_or
    rw [Nat.log2_eq_iff (by omega)]
    exact ⟨hle.trans hor, Nat.or_lt_two_pow hlt (Nat.one_lt_two_pow (Nat.succ_ne_zero _))⟩

theorem mul_nine_div (k : ℕ) (h : k < 64) : (k * 9 + 73) / 64 = k / 7 + 1 := by
  omega

theorem length_unsafeVarint (value : UInt64) : (unsafeVarint value.toNat).length = varintSize64 value := by
  have hlog : value.toNat.log2 < 64 := by
    rcases Nat.eq_zero_or_pos value.toNat with hzero | hpos
    · rw [hzero]
      decide
    · exact (Nat.log2_lt hpos.ne').mpr value.toNat_lt
  rw [unsafeVarint_eq, length_varintBytes, varintSize64, UInt64.toNat_or,
    show (1 : UInt64).toNat = 1 by rfl, log2_or_one, mul_nine_div _ hlog]

/-! ## The decoders -/

variable {data bytes rest : List UInt8} {top last v : ℕ} {s : CodedInputStream}

theorem readVarint_of_continues {n : ℕ} (hlen : n ≤ bytes.length)
    (hall : ∀ b ∈ bytes, 0x80 ≤ b.toNat) (rest : List UInt8) : readVarint n (bytes ++ rest) = none := by
  rw [readVarint_append _ _ (.inl hlen)]
  exact readVarint_of_unterminated fun i hi _ => hall _ (List.getElem_mem hi)

theorem readVarint64Slow_of_varint (h : Stands data top last s) (hv : Varint bytes v)
    (hlen : bytes.length ≤ kMaxVarintBytes) (hread : readable data s = bytes ++ rest) :
    s.readVarint64Slow.1 = true ∧ s.readVarint64Slow.2.1 = v % 2 ^ 64 ∧
      readable data s.readVarint64Slow.2.2 = rest := by
  obtain ⟨taken, hreads, hvalue⟩ := readVarint64Slow_reads s
  obtain ⟨-, -, -, -, hreadable⟩ := hreads.stands h
  have hnext := hv.readVarint hlen rest
  rw [← hread] at hnext
  rcases hvalue with ⟨hok, v', hv', hlen', hvalue⟩ | ⟨-, -, hall, hend⟩
  · have hsame := hv'.readVarint hlen' (readable data s.readVarint64Slow.2.2)
    rw [← hreadable, hnext] at hsame
    obtain ⟨rfl, hlength⟩ := Prod.mk.inj (Option.some.inj hsame)
    rw [hread] at hreadable
    exact ⟨hok, hvalue, (List.append_inj_right hreadable hlength).symm⟩
  · -- a read that fails has seen no end of a varint
    have hnone : readVarint kMaxVarintBytes (readable data s) = none := by
      rcases hend with hten | hstop
      · rw [hreadable]
        exact readVarint_of_continues hten.ge hall _
      · rw [hstop.readable_eq h]
        exact readVarint_of_unterminated fun i hi _ => hall _ (List.getElem_mem hi)
    simp [hnext] at hnone

theorem readVarint64Slow_of_continues (h : Stands data top last s)
    (hlen : kMaxVarintBytes ≤ bytes.length) (hall : ∀ b ∈ bytes, 0x80 ≤ b.toNat)
    (hread : readable data s = bytes ++ rest) : s.readVarint64Slow.1 = false := by
  obtain ⟨taken, hreads, hvalue⟩ := readVarint64Slow_reads s
  obtain ⟨-, -, -, -, hreadable⟩ := hreads.stands h
  rcases hvalue with ⟨-, v', hv', hlen', -⟩ | ⟨hok, -⟩
  · have hsome := hv'.readVarint hlen' (readable data s.readVarint64Slow.2.2)
    rw [← hreadable, hread, readVarint_of_continues hlen hall rest] at hsome
    cases hsome
  · exact hok

theorem byteAt_continues (h : Varint bytes v) (hlong : 2 ≤ bytes.length) : 0x80 ≤ byteAt bytes 0 := by
  cases h with
  | last hb => simp at hlong
  | more hb hrest => exact hb

theorem byteAt_append (rest : List UInt8) (h : 0 < bytes.length) :
    byteAt (bytes ++ rest) 0 = byteAt bytes 0 := by
  cases bytes with
  | nil => simp at h
  | cons b bytes => rfl

theorem fromArray_of_varint (hv : Varint bytes v) (hlen : bytes.length ≤ kMaxVarintBytes)
    (hlong : 2 ≤ bytes.length) (rest : List UInt8) :
    readVarint64FromArray (bytes ++ rest) = some (v % 2 ^ 64, bytes.length) ∧
      readVarint32FromArray (byteAt bytes 0) (bytes ++ rest) = some (v % 2 ^ 32, bytes.length) := by
  have hfirst := byteAt_append rest (lt_of_lt_of_le Nat.zero_lt_two hlong)
  have hcontinues : 0x80 ≤ byteAt (bytes ++ rest) 0 := by
    rw [hfirst]
    exact byteAt_continues hv hlong
  obtain ⟨b, hmem, hb⟩ := hv.ends
  rw [← hfirst, readVarint32FromArray_eq hcontinues,
    readVarint64FromArray_eq hcontinues (.inr ⟨b, List.mem_append_left _ hmem, hb⟩),
    hv.readVarint hlen]
  exact ⟨rfl, rfl⟩

theorem fromArray_of_continues (hlen : bytes.length = kMaxVarintBytes)
    (hall : ∀ b ∈ bytes, 0x80 ≤ b.toNat) (rest : List UInt8) : readVarint64FromArray (bytes ++ rest) = none ∧
      readVarint32FromArray (byteAt bytes 0) (bytes ++ rest) = none := by
  have hpos : 0 < bytes.length := by
    rw [hlen]
    decide
  have hfirst := byteAt_append rest hpos
  have hcontinues : 0x80 ≤ byteAt (bytes ++ rest) 0 := by
    rw [hfirst, byteAt_eq hpos]
    exact hall _ (List.getElem_mem hpos)
  have hten : kMaxVarintBytes ≤ (bytes ++ rest).length := by
    rw [List.length_append, hlen]
    exact Nat.le_add_right _ _
  rw [← hfirst, readVarint32FromArray_eq hcontinues, readVarint64FromArray_eq hcontinues (.inl hten),
    readVarint_of_continues hlen.ge hall]
  exact ⟨rfl, rfl⟩

/-! ## The codec -/

/-- A stream in a state that calls lead to, and the bytes that it can read next. -/
def CanRead (data : List UInt8) (s : CodedInputStream) (string : List UInt8) : Prop :=
  readable data s = string ∧
    ∃ s₀ calls c, Opened data s₀ ∧ Runs callStep InStep ⟨s₀, []⟩ calls c ∧ c.stream = s

theorem CanRead.stands {string : List UInt8} (h : CanRead data s string) :
    ∃ top last, Stands data top last s := by
  obtain ⟨-, s₀, calls, c, hopened, hrun, rfl⟩ := h
  obtain ⟨top, last, hstart⟩ := hopened.stands
  exact ⟨top, last, (runs_stands hstart hrun).1.stream⟩

/-- **The varint codec.**  The encoder writes the one shortest varint of a value, as long as the
formula says; the decoders read every varint of at most ten bytes, in 64 and in 32 bits, over
the same bytes; and they reject ten bytes that continue. -/
theorem varint_codec : (∀ value : UInt64, writeVarint64ToArray value = unsafeVarint value.toNat ∧
      (unsafeVarint value.toNat).length = varintSize64 value ∧
      Varint (unsafeVarint value.toNat) value.toNat ∧
      (∀ bytes, Varint bytes value.toNat →
        bytes = unsafeVarint value.toNat ∨ (unsafeVarint value.toNat).length < bytes.length) ∧
      (∀ data s rest, CanRead data s (unsafeVarint value.toNat ++ rest) →
        s.readVarint64Slow.1 = true ∧ s.readVarint64Slow.2.1 = value.toNat ∧
          readable data s.readVarint64Slow.2.2 = rest) ∧
      (0x80 ≤ value.toNat → ∀ rest, readVarint64FromArray (unsafeVarint value.toNat ++ rest) =
        some (value.toNat, varintSize64 value))) ∧
    (∀ bytes v rest, Varint bytes v → bytes.length ≤ kMaxVarintBytes →
      (∀ data s, CanRead data s (bytes ++ rest) →
        s.readVarint64Slow.1 = true ∧ s.readVarint64Slow.2.1 = v % 2 ^ 64 ∧
          readable data s.readVarint64Slow.2.2 = rest) ∧
      (2 ≤ bytes.length → readVarint64FromArray (bytes ++ rest) = some (v % 2 ^ 64, bytes.length) ∧
          readVarint32FromArray (byteAt bytes 0) (bytes ++ rest) =
            some (v % 2 ^ 64 % 2 ^ 32, bytes.length))) ∧
    ∀ bytes rest, bytes.length = kMaxVarintBytes → (∀ b ∈ bytes, 0x80 ≤ b.toNat) →
      readVarint64FromArray (bytes ++ rest) = none ∧
        readVarint32FromArray (byteAt bytes 0) (bytes ++ rest) = none ∧
        ∀ data s, CanRead data s (bytes ++ rest) → s.readVarint64Slow.1 = false := by
  refine ⟨fun value => ?_, fun bytes v rest hv hlen => ⟨fun data s hread => ?_, fun hlong => ?_⟩,
    fun bytes rest hlen hall => ?_⟩
  · have hvalue := value.toNat_lt
    have hvarint : Varint (unsafeVarint value.toNat) value.toNat := by
      rw [unsafeVarint_eq]
      exact varint_varintBytes _
    have hlen : (unsafeVarint value.toNat).length ≤ kMaxVarintBytes := by
      rw [unsafeVarint_eq]
      exact length_varintBytes_le (n := 9) (by omega)
    refine ⟨(unsafeVarint_toNat value).symm, length_unsafeVarint value, hvarint, fun bytes h => ?_,
      fun data s rest hread => ?_, fun hlong rest => ?_⟩
    · rw [unsafeVarint_eq]
      exact h.eq_or_longer
    · obtain ⟨top, last, hstands⟩ := hread.stands
      have hslow := readVarint64Slow_of_varint hstands hvarint hlen hread.1
      rwa [Nat.mod_eq_of_lt hvalue] at hslow
    · have htwo : 2 ≤ (unsafeVarint value.toNat).length := by
        rw [unsafeVarint_eq, varintBytes_of_le hlong, List.length_cons]
        exact Nat.succ_le_succ (varint_varintBytes _).length_pos
      rw [(fromArray_of_varint hvarint hlen htwo rest).1, Nat.mod_eq_of_lt hvalue, length_unsafeVarint]
  · obtain ⟨top, last, hstands⟩ := hread.stands
    exact readVarint64Slow_of_varint hstands hv hlen hread.1
  · obtain ⟨h64, h32⟩ := fromArray_of_varint hv hlen hlong rest
    rw [Nat.mod_mod_of_dvd v (Nat.pow_dvd_pow 2 (by decide))]
    exact ⟨h64, h32⟩
  · obtain ⟨h64, h32⟩ := fromArray_of_continues hlen hall rest
    refine ⟨h64, h32, fun data s hread => ?_⟩
    obtain ⟨top, last, hstands⟩ := hread.stands
    exact readVarint64Slow_of_continues hstands hlen.ge hall hread.1

/-- A varint cut in two by the chunks. -/
theorem varint_codec_twoChunks :
    (ofStream ⟨[[0x96], [0x01, 7]], 0⟩).readVarint64Slow.2.1 = 150 := by
  have hread : CanRead [0x96, 0x01, 7] (ofStream ⟨[[0x96], [0x01, 7]], 0⟩) ([0x96, 0x01] ++ [7]) :=
    ⟨by decide, _, [], _, .stream ⟨[[0x96], [0x01, 7]], 0⟩ (by decide), .nil _, rfl⟩
  have hvarint : Varint [0x96, 0x01] 150 :=
    .more (b := 0x96) (by decide) (.last (b := 0x01) (by decide))
  exact ((varint_codec.2.1 [0x96, 0x01] 150 [7] hvarint (by decide)).1 _ _ hread).2.1

/-- The decoder of an array takes a single byte and the one behind it for a varint. -/
theorem varint_codec_not_oneByte :
    ¬ ∀ bytes v rest, Varint bytes v → bytes.length ≤ kMaxVarintBytes →
      readVarint64FromArray (bytes ++ rest) = some (v % 2 ^ 64, bytes.length) := by
  intro h
  have hone := h [5] 5 [0] (.last (b := 5) (by decide)) (by decide)
  exact absurd hone (by decide)

end Protoc.Io

namespace Protoc.Io

/-! ## Reads that find what they look for -/

open Protoc.Lib CodedInputStream

variable {data bytes bytes' rest rest' : List UInt8} {top last v v' : ℕ} {s : CodedInputStream}

theorem Varint.append_inj (h : Varint bytes v) (h' : Varint bytes' v')
    (heq : bytes ++ rest = bytes' ++ rest') : bytes = bytes' ∧ v = v' ∧ rest = rest' := by
  have hread := h.readVarint (Nat.le_max_left bytes.length bytes'.length) rest
  have hread' := h'.readVarint (Nat.le_max_right bytes.length bytes'.length) rest'
  rw [heq, hread'] at hread
  obtain ⟨hvalue, hlength⟩ := Prod.mk.inj (Option.some.inj hread)
  obtain ⟨hbytes, hrest⟩ := List.append_inj heq hlength.symm
  exact ⟨hbytes, hvalue.symm, hrest⟩

section
variable (h : Stands data top last s)
include h

theorem readVarint_buffer (hholds : s.holdsVarint) :
    readVarint kMaxVarintBytes s.buffer = readVarint kMaxVarintBytes (readable data s) := by
  obtain ⟨behind, hreadable⟩ := h.visible_first
  have hsplit : s.buffer = s.visible ++ s.buffer.drop s.bufferSize := by
    rw [visible, List.take_append_drop]
  rw [hsplit, ← hreadable, readVarint_append _ _ (visible_of_holdsVarint hholds),
    readVarint_append _ _ (visible_of_holdsVarint hholds)]

section
variable (hv : Varint bytes v) (hlen : bytes.length ≤ kMaxVarintBytes) (hread : readable data s = bytes ++ rest)
include hv hlen hread

theorem readVarint64Fallback_of_varint
    (hlong : 0 < s.bufferSize → 0x80 ≤ byteAt s.buffer 0) : s.readVarint64Fallback.1 = true := by
  rw [readVarint64Fallback]
  split
  · next hholds =>
    obtain ⟨harray, -⟩ := varint_of_holdsVarint hholds
    rw [readVarint64FromArray_eq (hlong (bufferSize_pos_of_holdsVarint hholds)) harray,
      readVarint_buffer h hholds, hread, hv.readVarint hlen]
    rfl
  · exact (readVarint64Slow_of_varint h hv hlen hread).1

theorem readVarint64_of_varint :
    s.readVarint64.1 = true ∧ s.readVarint64.2.1 = v % 2 ^ 64 ∧ Reads s bytes s.readVarint64.2.2 := by
  have hok : s.readVarint64.1 = true := by
    rw [readVarint64]
    split
    · rfl
    · next hlong => exact readVarint64Fallback_of_varint h hv hlen hread (firstByte_continues hlong)
  obtain ⟨taken, hreads, ⟨-, v', hv', hvalue⟩ | ⟨hfail, -⟩⟩ := readVarint64_reads s
  · have htaken := (hreads.stands h).2.2.2.2
    obtain ⟨rfl, rfl, -⟩ := Varint.append_inj hv hv' (hread.symm.trans htaken)
    exact ⟨hok, hvalue, hreads⟩
  · simp [hok] at hfail

theorem readVarint32_of_varint :
    s.readVarint32.1 = true ∧ s.readVarint32.2.1 = v % 2 ^ 32 ∧ Reads s bytes s.readVarint32.2.2 := by
  have hok : s.readVarint32.1 = true := by
    rw [readVarint32]
    split
    · rfl
    · next hlong =>
      rw [readVarint32Fallback]
      by_cases hholds : s.holdsVarint
      · have hpos := bufferSize_pos_of_holdsVarint hholds
        rw [if_pos hholds, firstByteOrZero, if_pos hpos,
          readVarint32FromArray_eq (firstByte_continues hlong hpos), readVarint_buffer h hholds, hread,
          hv.readVarint hlen]
        simp only [Option.map_some]
        exact decide_eq_true (Int.natCast_nonneg _)
      · have hfallback := readVarint64Fallback_of_varint h hv hlen hread (firstByte_continues hlong)
        rw [if_neg hholds, readVarint32Slow]
        simp only [hfallback]
        exact decide_eq_true (Int.natCast_nonneg _)
  obtain ⟨taken, hreads, ⟨-, v', hv', hvalue⟩ | ⟨hfail, -⟩⟩ := readVarint32_reads s
  · have htaken := (hreads.stands h).2.2.2.2
    obtain ⟨rfl, rfl, -⟩ := Varint.append_inj hv hv' (hread.symm.trans htaken)
    exact ⟨hok, hvalue, hreads⟩
  · simp [hok] at hfail

end

theorem readLittleEndian_of_readable (hread : readable data s = bytes ++ rest) :
    (s.readLittleEndian bytes.length).1 = true ∧ (s.readLittleEndian bytes.length).2.1 = some (leValue bytes) ∧
      Reads s bytes (s.readLittleEndian bytes.length).2.2 := by
  have hok : (s.readLittleEndian bytes.length).1 = true := by
    have hraw := (readRaw_readable h bytes.length).1
    rw [hread, List.length_append, decide_eq_true (Nat.le_add_right _ _)] at hraw
    rw [readLittleEndian, readLittleEndianFallback]
    split
    · rfl
    · generalize s.readRaw bytes.length = r at hraw
      obtain ⟨ok, copied, t⟩ := r
      obtain rfl : ok = true := hraw
      rfl
  obtain ⟨taken, hreads, ⟨-, hlength, hvalue⟩ | ⟨hfail, -⟩⟩ := readLittleEndian_reads s bytes.length
  · have htaken := (hreads.stands h).2.2.2.2
    obtain ⟨rfl, -⟩ := List.append_inj (hread.symm.trans htaken) hlength.symm
    exact ⟨hok, hvalue, hreads⟩
  · simp [hok] at hfail

end

end Protoc.Io
