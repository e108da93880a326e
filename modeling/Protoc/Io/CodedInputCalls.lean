import Protoc.Io.CodedInputReader
import Protoc.Lib.Run

/-!
# Calls on a coded input stream, in any order

A caller may go on after a call that failed, move the total bytes limit and ask for the
buffer itself.  Whatever a read does, it does by taking bytes from the visible part of the
buffer and by refilling an empty one.
-/

namespace Protoc.Io

open Protoc.Lib CodedInputStream
open List Nat

/-- `GetDirectBufferPointer`: whether it succeeded, and the bytes it points to. -/
def CodedInputStream.getDirectBufferPointer (s : CodedInputStream) :
    Bool × Option (List UInt8) × CodedInputStream :=
  if s.bufferSize = 0 then
    match s.refresh with
    | (false, s) => (false, none, s)
    | (true, s) => (true, some s.visible, s)
  else (true, some s.visible, s)

/-- A call, the ones that need no limit stack among them. -/
inductive Call
  | op (op : Op)
  | setTotalBytesLimit (totalBytesLimit : ℤ)
  | getDirectBufferPointer
  deriving DecidableEq

/-- What a call does. -/
def CodedInputStream.call (c : Caller CodedInputStream) :
    Call → Option (Bool × Value × Caller CodedInputStream)
  | .op op => CodedInputStream.perform c op
  | .setTotalBytesLimit totalBytesLimit =>
    some (true, .nothing, { c with stream := c.stream.setTotalBytesLimit totalBytesLimit })
  | .getDirectBufferPointer =>
    let r := c.stream.getDirectBufferPointer
    some (r.1, .ofBytes r.2.1, { c with stream := r.2.2 })

/-- The machine of a caller that goes on whether or not a call fails. -/
def callStep (c : Caller CodedInputStream) (call : Call) : Option (Caller CodedInputStream) :=
  (CodedInputStream.call c call).map fun r => r.2.2

/-! ## Reading on -/

/-- From `s` to `t` these bytes are taken from the visible part of the buffer; an empty
buffer is refilled, and the two flags of a tag are set. -/
inductive Reads : CodedInputStream → List UInt8 → CodedInputStream → Prop
  | done (s : CodedInputStream) : Reads s [] s
  | advance {s t : CodedInputStream} {bytes : List UInt8} {n : ℕ} (hn : n ≤ s.bufferSize)
      (rest : Reads (s.advance n) bytes t) : Reads s (s.buffer.take n ++ bytes) t
  | refresh {s t : CodedInputStream} {bytes : List UInt8} (hempty : s.bufferSize = 0)
      (rest : Reads s.refresh.2 bytes t) : Reads s bytes t
  | flags {s t : CodedInputStream} {bytes : List UInt8} (lastTag : ℕ) (legitimateMessageEnd : Bool)
      (rest : Reads { s with lastTag, legitimateMessageEnd } bytes t) : Reads s bytes t

namespace Reads
variable {s t u : CodedInputStream} {bytes bytes' : List UInt8}

theorem trans (first : Reads s bytes t) (second : Reads t bytes' u) : Reads s (bytes ++ bytes') u := by
  induction first with
  | done => exact second
  | advance hn _ ih =>
    rw [append_assoc]
    exact .advance hn (ih second)
  | refresh hempty _ ih => exact .refresh hempty (ih second)
  | flags lastTag legitimateMessageEnd _ ih => exact .flags lastTag legitimateMessageEnd (ih second)

theorem take {n : ℕ} (hn : n ≤ s.bufferSize) : Reads s (s.buffer.take n) (s.advance n) := by
  simpa using Reads.advance hn (.done (s.advance n))

theorem refill (hempty : s.bufferSize = 0) : Reads s [] s.refresh.2 := .refresh hempty (.done _)

end Reads

/-- After these bytes the buffer is empty and cannot be refilled. -/
def Stops (s : CodedInputStream) (bytes : List UInt8) : Prop :=
  ∃ t, Reads s bytes t ∧ t.bufferSize = 0 ∧ t.refresh.1 = false

theorem Stops.after {s t : CodedInputStream} {bytes bytes' : List UInt8} (h : Stops t bytes')
    (first : Reads s bytes t) : Stops s (bytes ++ bytes') := by
  obtain ⟨u, hreads, hempty, hstop⟩ := h
  exact ⟨u, first.trans hreads, hempty, hstop⟩

variable {s : CodedInputStream}

theorem bufferSize_advance (s : CodedInputStream) (n : ℕ) : (s.advance n).bufferSize = s.bufferSize - n := by
  simp only [bufferSize, advance, length_drop]
  omega

/-- The copying loops: what they copy is what they take, and they stop short only where nothing
more comes. -/
theorem copyLoop_reads (s : CodedInputStream) (size : ℕ) : Reads s (s.copyLoop size).2.1 (s.copyLoop size).2.2 ∧
      ((s.copyLoop size).1 = true ∧ (s.copyLoop size).2.1.length = size ∨
        (s.copyLoop size).1 = false ∧ (s.copyLoop size).2.1.length < size ∧ Stops s (s.copyLoop size).2.1) := by
  induction hn : s.chunksLeft using Nat.strong_induction_on generalizing s size with
  | _ n ih =>
    have hbuffer : s.bufferSize ≤ s.buffer.length := sub_le _ _
    rw [copyLoop]
    split
    · next hshort =>
      have hempty : (s.advance s.bufferSize).bufferSize = 0 := by
        rw [bufferSize_advance, Nat.sub_self]
      have hvisible : Reads s s.visible (s.advance s.bufferSize) := .take le_rfl
      have hlength : s.visible.length = s.bufferSize := by
        rw [visible, length_take, min_eq_left hbuffer]
      have hrefill := hvisible.trans (.refill hempty)
      rw [append_nil] at hrefill
      split
      · next s' hs' =>
        rw [hs'] at hrefill
        refine ⟨hrefill, .inr ⟨rfl, ?_, _, hvisible, hempty, by rw [hs']⟩⟩
        dsimp only
        omega
      · next s' hs' =>
        rw [hs'] at hrefill
        subst hn
        obtain ⟨hreads, hend⟩ := ih _ (refresh_chunksLeft (s := s.advance s.bufferSize) hs') s' (size - s.bufferSize) rfl
        refine ⟨hrefill.trans hreads, ?_⟩
        simp only [length_append]
        rcases hend with ⟨hok, hlen⟩ | ⟨hok, hlen, hstop⟩
        · exact .inl ⟨hok, by omega⟩
        · exact .inr ⟨hok, by omega, hstop.after hrefill⟩
    · next hlong =>
      have hle : size ≤ s.bufferSize := not_lt.mp hlong
      exact ⟨.take hle, .inl ⟨rfl, by rw [length_take]; omega⟩⟩

theorem refill_reads (s : CodedInputStream) : Reads s [] s.refill.2 ∧
      (s.refill.1 = true ∧ 0 < s.refill.2.bufferSize ∨ s.refill.1 = false ∧ Stops s []) := by
  induction hn : s.chunksLeft using Nat.strong_induction_on generalizing s with
  | _ n ih =>
    rw [CodedInputStream.refill]
    split
    · next hempty =>
      have hrefill : Reads s [] s.refresh.2 := .refill hempty
      split
      · next s' hs' =>
        rw [hs'] at hrefill
        exact ⟨hrefill, .inr ⟨rfl, s, .done s, hempty, by rw [hs']⟩⟩
      · next s' hs' =>
        rw [hs'] at hrefill
        subst hn
        obtain ⟨hreads, hend⟩ := ih _ (refresh_chunksLeft hs') s' rfl
        exact ⟨hrefill.trans hreads, hend.imp id fun hstop => ⟨hstop.1, hstop.2.after hrefill⟩⟩
    · next hne => exact ⟨.done s, .inl ⟨rfl, Nat.pos_of_ne_zero hne⟩⟩

/-! ## Varints -/

/-- What a read of a varint returns: the value of the bytes in 64 bits, or zero. -/
def IsVarint64 (bytes : List UInt8) (ok : Bool) (value : ℕ) : Prop :=
  ok = true ∧ (∃ v, Varint bytes v ∧ value = v % 2 ^ 64) ∨ ok = false ∧ value = 0

theorem buffer_cons (hpos : 0 < s.bufferSize) : ∃ b rest, s.buffer = b :: rest := by
  rw [bufferSize] at hpos
  cases hbuffer : s.buffer with
  | nil => simp [hbuffer] at hpos
  | cons b rest => exact ⟨b, rest, rfl⟩

/-- The loop of `ReadVarint64Slow` takes the rest of a varint; it fails after `left` bytes that
continue, or where nothing more comes. -/
theorem readVarint64Loop_reads (s : CodedInputStream) {left result : ℕ}
    (hleft : left ≤ kMaxVarintBytes) (hresult : result < 2 ^ (7 * (kMaxVarintBytes - left))) :
    ∃ bytes, Reads s bytes (s.readVarint64Loop left result).2.2 ∧
      ((s.readVarint64Loop left result).1 = true ∧ (∃ v, Varint bytes v ∧ bytes.length ≤ left ∧
          (s.readVarint64Loop left result).2.1 = (result + v * 2 ^ (7 * (kMaxVarintBytes - left))) % 2 ^ 64) ∨
        (s.readVarint64Loop left result).1 = false ∧ (s.readVarint64Loop left result).2.1 = 0 ∧
          (∀ b ∈ bytes, 0x80 ≤ b.toNat) ∧ (bytes.length = left ∨ Stops s bytes)) := by
  induction left generalizing s result with
  | zero => exact ⟨[], .done s, .inr ⟨rfl, rfl, by simp, .inl rfl⟩⟩
  | succ left ih =>
    obtain ⟨hrefill, hfound⟩ := refill_reads s
    rw [readVarint64Loop]
    generalize s.refill = refilled at hrefill hfound
    obtain ⟨ok, s'⟩ := refilled
    rcases hfound with ⟨rfl, hpos⟩ | ⟨rfl, hstop⟩
    · dsimp only at hrefill hpos ⊢
      obtain ⟨b, rest, hbuffer⟩ := buffer_cons hpos
      have hb := b.toNat_lt
      have hcount : kMaxVarintBytes - (left + 1) < kMaxVarintBytes := by
        simp only [kMaxVarintBytes]
        omega
      have hnext : kMaxVarintBytes - left = kMaxVarintBytes - (left + 1) + 1 := by omega
      have hone : Reads s [b] (s'.advance 1) := by
        simpa [hbuffer] using hrefill.trans (.take (n := 1) hpos)
      rw [hbuffer, byteAt_zero_cons]
      simp only [and_0x80_eq_zero hb, or_shift_mod hcount hresult]
      generalize kMaxVarintBytes - (left + 1) = count at *
      by_cases hend : b.toNat < 0x80
      · simp only [if_pos hend]
        refine ⟨[b], hone, .inl ⟨trivial, b.toNat, .last hend, Nat.le_add_left _ _, ?_⟩⟩
        rw [mod_eq_of_lt hend]
      · have hcontinues : 0x80 ≤ b.toNat := not_lt.mp hend
        have hlow : b.toNat % 128 = b.toNat - 0x80 := by omega
        simp only [if_neg hend, hlow]
        obtain ⟨hpow, hsmall⟩ := continued_lt hb hresult
        rw [← hnext] at hsmall
        obtain ⟨bytes, hreads, hvalue⟩ := ih (s'.advance 1) (by omega) hsmall
        refine ⟨b :: bytes, hone.trans hreads, ?_⟩
        rcases hvalue with ⟨hok, v, hv, hlen, hvalue⟩ | ⟨hok, hzero, hall, hend⟩
        · refine .inl ⟨hok, _, .more hcontinues hv, succ_le_succ hlen, ?_⟩
          rw [hvalue, hnext, hpow, mod_add_mod]
          ring_nf
        · refine .inr ⟨hok, hzero, List.forall_mem_cons.mpr ⟨hcontinues, hall⟩, ?_⟩
          exact hend.imp (congrArg Nat.succ) fun hstop => hstop.after hone
    · exact ⟨[], hrefill, .inr ⟨rfl, rfl, by simp, .inr hstop⟩⟩

theorem readVarint64Slow_reads (s : CodedInputStream) : ∃ bytes, Reads s bytes s.readVarint64Slow.2.2 ∧
      (s.readVarint64Slow.1 = true ∧ (∃ v, Varint bytes v ∧ bytes.length ≤ kMaxVarintBytes ∧
          s.readVarint64Slow.2.1 = v % 2 ^ 64) ∨ s.readVarint64Slow.1 = false ∧ s.readVarint64Slow.2.1 = 0 ∧
          (∀ b ∈ bytes, 0x80 ≤ b.toNat) ∧ (bytes.length = kMaxVarintBytes ∨ Stops s bytes)) := by
  have hzero : 0 < 2 ^ (7 * (kMaxVarintBytes - kMaxVarintBytes)) := Nat.two_pow_pos _
  simpa [readVarint64Slow] using readVarint64Loop_reads s (Nat.le_refl kMaxVarintBytes) hzero

theorem visible_of_holdsVarint (hholds : s.holdsVarint) :
    kMaxVarintBytes ≤ s.visible.length ∨ ∃ b ∈ s.visible, b.toNat < 0x80 := by
  have hbuffer : s.bufferSize ≤ s.buffer.length := sub_le _ _
  have hlen : s.visible.length = s.bufferSize := by
    rw [visible, length_take, min_eq_left hbuffer]
  rcases hholds with hten | ⟨hpos, hlast⟩
  · exact .inl (by omega)
  · apply Or.inr
    have hidx : s.bufferSize - 1 < s.visible.length := by omega
    rw [and_0x80_eq_zero (byteAt_lt _ _), byteAt_eq (by omega)] at hlast
    refine ⟨s.visible[s.bufferSize - 1], getElem_mem hidx, ?_⟩
    simpa [visible] using hlast

theorem varint_of_holdsVarint (hholds : s.holdsVarint) :
    (kMaxVarintBytes ≤ s.buffer.length ∨ ∃ b ∈ s.buffer, b.toNat < 0x80) ∧
      ∀ v len, readVarint kMaxVarintBytes s.buffer = some (v, len) →
        Reads s (s.buffer.take len) (s.advance len) ∧ Varint (s.buffer.take len) v := by
  have hbuffer : s.bufferSize ≤ s.buffer.length := sub_le _ _
  have hlen : s.visible.length = s.bufferSize := by
    rw [visible, length_take, min_eq_left hbuffer]
  have hsplit : s.buffer = s.visible ++ s.buffer.drop s.bufferSize := by
    rw [visible, take_append_drop]
  have hvisible := visible_of_holdsVarint hholds
  constructor
  · rcases hvisible with hten | ⟨b, hmem, hb⟩
    · exact .inl (by omega)
    · exact .inr ⟨b, mem_of_mem_take hmem, hb⟩
  · intro v len hv
    refine ⟨.take ?_, varint_of_readVarint hv⟩
    rw [hsplit, readVarint_append _ _ hvisible] at hv
    have hfits := (readVarint_length hv).2.2
    omega

theorem readVarint64Fallback_reads (hlong : 0 < s.bufferSize → 0x80 ≤ byteAt s.buffer 0) :
    ∃ bytes, Reads s bytes s.readVarint64Fallback.2.2 ∧
      IsVarint64 bytes s.readVarint64Fallback.1 s.readVarint64Fallback.2.1 := by
  rw [readVarint64Fallback]
  split
  · next hholds =>
    obtain ⟨harray, hvarint⟩ := varint_of_holdsVarint hholds
    rw [readVarint64FromArray_eq (hlong (bufferSize_pos_of_holdsVarint hholds)) harray]
    cases hread : readVarint kMaxVarintBytes s.buffer with
    | none => exact ⟨[], .done s, .inr ⟨rfl, rfl⟩⟩
    | some r =>
      obtain ⟨hreads, hv⟩ := hvarint r.1 r.2 hread
      exact ⟨_, hreads, .inl ⟨rfl, r.1, hv, rfl⟩⟩
  · obtain ⟨bytes, hreads, hvalue⟩ := readVarint64Slow_reads s
    refine ⟨bytes, hreads, ?_⟩
    rcases hvalue with ⟨hok, v, hv, -, hvalue⟩ | ⟨hok, hzero, -⟩
    · exact .inl ⟨hok, v, hv, hvalue⟩
    · exact .inr ⟨hok, hzero⟩

theorem short_reads (hshort : 0 < s.bufferSize ∧ byteAt s.buffer 0 < 0x80) :
    ∃ bytes, Reads s bytes (s.advance 1) ∧ Varint bytes (byteAt s.buffer 0) := by
  obtain ⟨b, rest, hbuffer⟩ := buffer_cons hshort.1
  refine ⟨_, .take hshort.1, ?_⟩
  rw [hbuffer, byteAt_zero_cons]
  exact .last (by simpa [hbuffer, byteAt_zero_cons] using hshort.2)

theorem readVarint64_reads (s : CodedInputStream) :
    ∃ bytes, Reads s bytes s.readVarint64.2.2 ∧ IsVarint64 bytes s.readVarint64.1 s.readVarint64.2.1 := by
  rw [readVarint64]
  split
  · next hshort =>
    obtain ⟨bytes, hreads, hv⟩ := short_reads hshort
    have hbyte := byteAt_lt s.buffer 0
    exact ⟨bytes, hreads, .inl ⟨rfl, _, hv, (mod_eq_of_lt (lt_of_lt_of_le hbyte (by decide))).symm⟩⟩
  · next hlong => exact readVarint64Fallback_reads (firstByte_continues hlong)

theorem readVarint64Fallback_cases (hlong : ¬(0 < s.bufferSize ∧ byteAt s.buffer 0 < 0x80)) :
    (∃ bytes v s', s.readVarint64Fallback = (true, v % 2 ^ 64, s') ∧ Reads s bytes s' ∧ Varint bytes v) ∨
      ∃ bytes s', s.readVarint64Fallback = (false, 0, s') ∧ Reads s bytes s' := by
  obtain ⟨bytes, hreads, hvalue⟩ := readVarint64Fallback_reads (firstByte_continues hlong)
  rcases hvalue with ⟨hok, v, hv, hvalue⟩ | ⟨hok, hvalue⟩
  · exact .inl ⟨bytes, v, _, by rw [← hok, ← hvalue], hreads, hv⟩
  · exact .inr ⟨bytes, _, by rw [← hok, ← hvalue], hreads⟩

theorem readVarint32_reads (s : CodedInputStream) : ∃ bytes, Reads s bytes s.readVarint32.2.2 ∧
      (s.readVarint32.1 = true ∧ (∃ v, Varint bytes v ∧ s.readVarint32.2.1 = v % 2 ^ 32) ∨
        s.readVarint32.1 = false ∧ s.readVarint32.2.1 = 2 ^ 32 - 1) := by
  rw [readVarint32]
  split
  · next hshort =>
    obtain ⟨bytes, hreads, hv⟩ := short_reads hshort
    have hbyte := byteAt_lt s.buffer 0
    exact ⟨bytes, hreads, .inl ⟨rfl, _, hv, (mod_eq_of_lt (lt_of_lt_of_le hbyte (by decide))).symm⟩⟩
  · next hlong =>
    rw [readVarint32Fallback]
    by_cases hholds : s.holdsVarint
    · have hpos := bufferSize_pos_of_holdsVarint hholds
      rw [if_pos hholds, firstByteOrZero, if_pos hpos,
        readVarint32FromArray_eq (firstByte_continues hlong hpos)]
      cases hread : readVarint kMaxVarintBytes s.buffer with
      | none => exact ⟨[], .done s, .inr ⟨rfl, rfl⟩⟩
      | some r =>
        obtain ⟨hreads, hv⟩ := (varint_of_holdsVarint hholds).2 r.1 r.2 hread
        simp only [Option.map_some]
        exact ⟨_, hreads, .inl ⟨decide_eq_true (Int.natCast_nonneg _), r.1, hv, by omega⟩⟩
    · rw [if_neg hholds, readVarint32Slow]
      rcases readVarint64Fallback_cases hlong with ⟨bytes, v, s', heq, hreads, hv⟩ |
        ⟨bytes, s', heq, hreads⟩
      · rw [heq]
        dsimp only
        exact ⟨bytes, hreads, .inl ⟨decide_eq_true (Int.natCast_nonneg _), v, hv, by omega⟩⟩
      · rw [heq]
        exact ⟨bytes, hreads, .inr ⟨rfl, rfl⟩⟩

/-- `ReadVarintSizeAsInt`; a size above `INT_MAX` fails. -/
theorem readVarintSizeAsInt_reads (s : CodedInputStream) : ∃ bytes, Reads s bytes s.readVarintSizeAsInt.2.2 ∧
      (s.readVarintSizeAsInt.1 = true ∧ (∃ v, Varint bytes v ∧ v % 2 ^ 64 ≤ INT_MAX ∧
          s.readVarintSizeAsInt.2.1 = (v % 2 ^ 64 : ℕ)) ∨
        s.readVarintSizeAsInt.1 = false ∧ s.readVarintSizeAsInt.2.1 = -1) := by
  rw [readVarintSizeAsInt]
  split
  · next hshort =>
    obtain ⟨bytes, hreads, hv⟩ := short_reads hshort
    have hmod : byteAt s.buffer 0 % 2 ^ 64 = byteAt s.buffer 0 := mod_eq_of_lt (by omega)
    refine ⟨bytes, hreads, .inl ⟨rfl, _, hv, ?_, by rw [hmod]⟩⟩
    rw [hmod, INT_MAX]
    omega
  · next hlong =>
    rw [readVarintSizeAsIntFallback]
    by_cases hholds : s.holdsVarint
    · have hpos := bufferSize_pos_of_holdsVarint hholds
      obtain ⟨harray, hvarint⟩ := varint_of_holdsVarint hholds
      rw [if_pos hholds, readVarint64FromArray_eq (firstByte_continues hlong hpos) harray]
      cases hread : readVarint kMaxVarintBytes s.buffer with
      | none => exact ⟨[], .done s, .inr ⟨rfl, rfl⟩⟩
      | some r =>
        obtain ⟨hreads, hv⟩ := hvarint r.1 r.2 hread
        simp only [Option.map_some]
        by_cases hbig : INT_MAX < r.1 % 2 ^ 64
        · simp only [hbig, if_true]
          exact ⟨[], .done s, .inr ⟨rfl, trivial⟩⟩
        · simp only [hbig, if_false]
          exact ⟨_, hreads, .inl ⟨decide_eq_true (by omega), r.1, hv, by omega, rfl⟩⟩
    · rw [if_neg hholds, readVarintSizeAsIntSlow]
      rcases readVarint64Fallback_cases hlong with ⟨bytes, v, s', heq, hreads, hv⟩ |
        ⟨bytes, s', heq, hreads⟩
      · rw [heq]
        by_cases hbig : INT_MAX < v % 2 ^ 64
        · simp only [hbig, if_true]
          exact ⟨bytes, hreads, .inr ⟨rfl, trivial⟩⟩
        · simp only [hbig, if_false]
          exact ⟨bytes, hreads, .inl ⟨decide_eq_true (by omega), v, hv, by omega, rfl⟩⟩
      · rw [heq]
        exact ⟨bytes, hreads, .inr ⟨rfl, rfl⟩⟩

/-! ## Tags -/

/-- What a read of a tag returns: zero, or the value of the bytes in 32 bits. -/
def IsTag (bytes : List UInt8) (tag : ℕ) : Prop := tag = 0 ∨ ∃ v, Varint bytes v ∧ tag = v % 2 ^ 32

theorem readTagSlow_reads (s : CodedInputStream) :
    ∃ bytes, Reads s bytes s.readTagSlow.2.2 ∧ IsTag bytes s.readTagSlow.2.1 := by
  have hrefilled : Reads s [] (if s.bufferSize = 0 then s.refresh else (true, s)).2 := by
    split
    · next hempty => exact .refill hempty
    · exact .done s
  rw [readTagSlow]
  generalize (if s.bufferSize = 0 then s.refresh else (true, s)) = refilled at hrefilled
  obtain ⟨ok, s'⟩ := refilled
  cases ok with
  | false => exact ⟨[], hrefilled.trans (.flags _ _ (.done _)), .inl rfl⟩
  | true =>
    obtain ⟨bytes, hreads, hvalue⟩ := readVarint64_reads s'
    generalize s'.readVarint64 = result at hreads hvalue
    obtain ⟨ok, value, s''⟩ := result
    rcases hvalue with ⟨rfl, v, hv, hvalue⟩ | ⟨rfl, -⟩
    · simp only [if_true]
      dsimp only at hvalue
      exact ⟨bytes, hrefilled.trans hreads, .inr ⟨v, hv, by omega⟩⟩
    · simp only [if_true]
      exact ⟨bytes, hrefilled.trans hreads, .inl rfl⟩

theorem readTagNoLastTag_reads (s : CodedInputStream) :
    ∃ bytes, Reads s bytes s.readTagNoLastTag.2.2 ∧ IsTag bytes s.readTagNoLastTag.2.1 := by
  rw [readTagNoLastTag]
  split
  · next hshort =>
    obtain ⟨bytes, hreads, hv⟩ := short_reads hshort
    have hbyte := byteAt_lt s.buffer 0
    exact ⟨bytes, hreads, .inr ⟨_, hv, (mod_eq_of_lt (lt_of_lt_of_le hbyte (by decide))).symm⟩⟩
  · next hlong =>
    rw [readTagFallback]
    by_cases hholds : s.holdsVarint
    · have hpos := bufferSize_pos_of_holdsVarint hholds
      have hcontinues := firstByte_continues hlong hpos
      have hfirst : ¬s.firstByteOrZero = 0 := by
        rw [firstByteOrZero, if_pos hpos]
        omega
      rw [if_pos hholds, if_neg hfirst, firstByteOrZero, if_pos hpos, readVarint32FromArray_eq hcontinues]
      cases hread : readVarint kMaxVarintBytes s.buffer with
      | none => exact ⟨[], .done s, .inl rfl⟩
      | some r =>
        obtain ⟨hreads, hv⟩ := (varint_of_holdsVarint hholds).2 r.1 r.2 hread
        exact ⟨_, hreads, .inr ⟨r.1, hv, rfl⟩⟩
    · rw [if_neg hholds]
      split
      · exact ⟨[], .flags s.lastTag true (.done _), .inl rfl⟩
      · exact readTagSlow_reads s

theorem readTag_reads (s : CodedInputStream) :
    ∃ bytes, Reads s bytes s.readTag.2.2 ∧ IsTag bytes s.readTag.2.1 := by
  obtain ⟨bytes, hreads, htag⟩ := readTagNoLastTag_reads s
  have hflags := hreads.trans (.flags s.readTagNoLastTag.2.1
    s.readTagNoLastTag.2.2.legitimateMessageEnd (.done _))
  rw [append_nil] at hflags
  exact ⟨bytes, hflags, htag⟩

/-! ## The other reads -/

theorem readLittleEndian_reads (s : CodedInputStream) (width : ℕ) :
    ∃ bytes, Reads s bytes (s.readLittleEndian width).2.2 ∧
      ((s.readLittleEndian width).1 = true ∧ bytes.length = width ∧
          (s.readLittleEndian width).2.1 = some (leValue bytes) ∨
        (s.readLittleEndian width).1 = false ∧ (s.readLittleEndian width).2.1 = none) := by
  have hbuffer : s.bufferSize ≤ s.buffer.length := sub_le _ _
  rw [readLittleEndian, readLittleEndianFallback]
  by_cases hfits : width ≤ s.bufferSize
  · rw [if_pos hfits]
    exact ⟨_, .take hfits, .inl ⟨rfl, by rw [length_take]; omega, rfl⟩⟩
  · rw [if_neg hfits, if_neg hfits, readRaw]
    obtain ⟨hreads, hend⟩ := copyLoop_reads s width
    generalize s.copyLoop width = result at hreads hend
    obtain ⟨ok, bytes, s'⟩ := result
    rcases hend with ⟨rfl, hlen⟩ | ⟨rfl, -⟩
    · exact ⟨bytes, hreads, .inl ⟨rfl, hlen, rfl⟩⟩
    · exact ⟨bytes, hreads, .inr ⟨rfl, rfl⟩⟩

theorem readString_reads (s : CodedInputStream) (size : ℤ) : ∃ bytes, Reads s bytes (s.readString size).2.2 ∧
      ((s.readString size).1 = true ∧ (bytes.length : ℤ) = size ∧ (s.readString size).2.1 = some bytes ∨
        (s.readString size).1 = false ∧
          ((s.readString size).2.1 = none ∨ (s.readString size).2.1 = some bytes)) := by
  have hbuffer : s.bufferSize ≤ s.buffer.length := sub_le _ _
  rw [readString]
  split
  · exact ⟨[], .done s, .inr ⟨rfl, .inl rfl⟩⟩
  · split
    · refine ⟨_, .take (n := size.toNat) (by omega), .inl ⟨rfl, ?_, rfl⟩⟩
      rw [length_take]
      omega
    · obtain ⟨hreads, hend⟩ := copyLoop_reads s size.toNat
      rw [readStringFallback]
      rcases hend with ⟨hok, hlen⟩ | ⟨hok, -⟩
      · exact ⟨_, hreads, .inl ⟨hok, by omega, rfl⟩⟩
      · exact ⟨_, hreads, .inr ⟨hok, .inr rfl⟩⟩

theorem getDirectBufferPointer_reads (s : CodedInputStream) :
    Reads s [] s.getDirectBufferPointer.2.2 ∧ (s.getDirectBufferPointer.1 = true ∧
          s.getDirectBufferPointer.2.1 = some s.getDirectBufferPointer.2.2.visible ∨
        s.getDirectBufferPointer.1 = false ∧ s.getDirectBufferPointer.2.1 = none) := by
  rw [getDirectBufferPointer]
  split
  · next hempty =>
    have hrefill : Reads s [] s.refresh.2 := .refill hempty
    generalize s.refresh = refilled at hrefill
    obtain ⟨ok, s'⟩ := refilled
    cases ok with
    | false => exact ⟨hrefill, .inr ⟨rfl, rfl⟩⟩
    | true => exact ⟨hrefill, .inl ⟨rfl, rfl⟩⟩
  · exact ⟨.done s, .inl ⟨rfl, rfl⟩⟩

end Protoc.Io
