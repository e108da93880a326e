import Protoc.Io.CodedInputVarint
import Protoc.Io.Reader

/-!
# The coded input stream refines the reader

Whatever the chunks, and with or without a stream behind the buffer, each call on the
coded input stream does what it does on the reader at the same position.
-/

namespace Protoc.Io

open Protoc.Lib CodedInputStream
open List Option Nat Reader

def CodedInputStream.behind (s : CodedInputStream) : List UInt8 :=
  s.input.elim [] ZeroCopyInputStream.remaining

/-- The stream stands at the reader's position, with its limits; `top` bounds the limits,
and over a flat array lies within the data. -/
structure Positioned (data : List UInt8) (total top : ℕ) (s : CodedInputStream) (r : Reader) :
    Prop where
  totalBytesLimit : s.totalBytesLimit = total
  currentLimit : s.currentLimit = r.limit
  legitimate : s.legitimateMessageEnd = r.legitimateMessageEnd
  overflow : s.overflowBytes = 0
  pos_le_limit : r.pos ≤ r.limit
  pos_le_total : r.pos ≤ total
  pos_le_length : r.pos ≤ data.length
  rest : data.drop r.pos = s.buffer ++ s.behind
  totalBytesRead : s.totalBytesRead = r.pos + s.buffer.length
  limit_le_top : r.limit ≤ top
  flat : s.input = none → top ≤ data.length
  atEnd : r.legitimateMessageEnd = true →
    r.pos = min r.limit data.length ∧ (r.pos < total ∨ r.limit = total)

/-- The buffer ends at the closest limit, too. -/
structure Refines (data : List UInt8) (total top : ℕ) (s : CodedInputStream) (r : Reader) : Prop
    extends Positioned data total top s r where
  after : s.bufferSizeAfterLimit = s.totalBytesRead - s.closestLimit

variable {data : List UInt8} {total top : ℕ} {s s' : CodedInputStream} {r : Reader}

theorem recomputeBufferLimits_eq (s : CodedInputStream) : s.recomputeBufferLimits =
      { s with bufferSizeAfterLimit := s.totalBytesRead - s.closestLimit } := by
  rw [recomputeBufferLimits]
  split
  · rfl
  · next hge => rw [Nat.sub_eq_zero_of_le (not_lt.mp hge)]

theorem Positioned.recompute (h : Positioned data total top s r) :
    Refines data total top s.recomputeBufferLimits r := by
  rw [recomputeBufferLimits_eq]
  exact ⟨⟨h.totalBytesLimit, h.currentLimit, h.legitimate, h.overflow, h.pos_le_limit,
    h.pos_le_total, h.pos_le_length, h.rest, h.totalBytesRead, h.limit_le_top, h.flat,
    h.atEnd⟩, rfl⟩

namespace Refines

section
variable (h : Refines data total top s r)
include h

theorem sizes : s.buffer.length + s.behind.length = data.length - r.pos ∧
      s.bufferSizeAfterLimit ≤ s.buffer.length ∧
      r.pos + s.bufferSize = min (r.pos + s.buffer.length) (min r.limit total) := by
  have hrest := congrArg List.length h.rest
  have hafter := h.after
  have hread := h.totalBytesRead
  have hlimit := h.pos_le_limit
  have htotal := h.pos_le_total
  simp only [closestLimit, h.currentLimit, h.totalBytesLimit] at hafter
  rw [length_drop, length_append] at hrest
  rw [bufferSize]
  omega

theorem limit_le_of_flat (hinput : s.input = none) : r.limit ≤ s.totalBytesRead := by
  obtain ⟨hlen, -, -⟩ := h.sizes
  have hread := h.totalBytesRead
  have htop := h.limit_le_top
  have hflat := h.flat hinput
  rw [behind, hinput, elim_none, length_nil] at hlen
  omega

theorem length_visible : s.visible.length = s.bufferSize := by
  have hsizes := h.sizes
  rw [visible, length_take, bufferSize]
  omega

theorem currentPosition : s.currentPosition = r.pos := by
  have hsizes := h.sizes
  have hread := h.totalBytesRead
  rw [CodedInputStream.currentPosition, bufferSize]
  omega

theorem readable_eq : r.readable data total = s.visible ++ (s.buffer.drop s.bufferSize ++ s.behind).take
        (r.stop data total - r.pos - s.bufferSize) := by
  obtain ⟨hlen, hafter, hsize⟩ := h.sizes
  have hstop : s.bufferSize ≤ r.stop data total - r.pos := by
    simp only [stop]
    omega
  have hsplit : s.buffer = s.visible ++ s.buffer.drop s.bufferSize := by
    rw [visible, take_append_drop]
  obtain ⟨n, hn⟩ : ∃ n, r.stop data total - r.pos = s.visible.length + n :=
    ⟨r.stop data total - r.pos - s.visible.length, by rw [h.length_visible]; omega⟩
  rw [readable, h.rest, hn]
  conv_lhs => rw [hsplit]
  rw [append_assoc, take_length_add_append, h.length_visible, Nat.add_sub_cancel_left]

theorem bufferSize_le : s.bufferSize ≤ (r.readable data total).length := by
  rw [h.readable_eq, length_append, h.length_visible]
  omega

theorem take_readable {n : ℕ} (hn : n ≤ s.bufferSize) : (r.readable data total).take n = s.buffer.take n := by
  rw [h.readable_eq, take_append_of_le_length (by rw [h.length_visible]; exact hn), visible,
    take_take, min_eq_left hn]

end

end Refines

section
variable (h : Refines data total top s r)
include h

/-- Advancing over visible bytes moves the reader. -/
theorem advance_refines {n : ℕ} (hn : n ≤ s.bufferSize) :
    Refines data total top (s.advance n) (r.move n) := by
  obtain ⟨hlen, hafter, hsize⟩ := h.sizes
  have hread := h.totalBytesRead
  have hpos := h.pos_le_length
  have hnbuf : n ≤ s.buffer.length := by
    rw [bufferSize] at hn
    omega
  constructor
  · constructor
    · exact h.totalBytesLimit
    · exact h.currentLimit
    · exact h.legitimate
    · exact h.overflow
    · simp only [move]
      omega
    · simp only [move]
      omega
    · simp only [move]
      omega
    · rw [move, ← drop_drop, h.rest, drop_append_of_le_length hnbuf]
      rfl
    · simp only [advance, move, length_drop, hread]
      omega
    · exact h.limit_le_top
    · exact h.flat
    · intro hlegit
      have hend := h.atEnd hlegit
      simp only [move]
      omega
  · exact h.after

theorem readable_move {n : ℕ} (hn : n ≤ s.bufferSize) :
    r.readable data total = s.buffer.take n ++ (r.move n).readable data total := by
  rw [← h.take_readable hn]
  conv_lhs => rw [← take_append_drop n (r.readable data total)]
  congr 1
  rw [readable, readable, drop_take, drop_drop]
  congr 1
  simp only [stop, move]
  omega

/-! ## The refills -/

theorem setBuffer_refines (hdata : data.length ≤ INT_MAX)
    (hbuffer : s.buffer = []) {chunk : List UInt8} {input : ZeroCopyInputStream}
    (hrest : s.behind = chunk ++ input.remaining) :
    Refines data total top ({ s with input := some input }.setBuffer chunk) r := by
  obtain ⟨hlen, -, -⟩ := h.sizes
  have hread := h.totalBytesRead
  have hle := h.pos_le_length
  rw [hrest, hbuffer, length_append, length_nil] at hlen
  rw [hbuffer, length_nil] at hread
  have hfits : s.totalBytesRead + chunk.length ≤ INT_MAX := by omega
  rw [setBuffer, if_pos hfits]
  apply Positioned.recompute
  constructor
  · exact h.totalBytesLimit
  · exact h.currentLimit
  · exact h.legitimate
  · exact h.overflow
  · exact h.pos_le_limit
  · exact h.pos_le_total
  · exact h.pos_le_length
  · rw [h.rest, hbuffer, hrest]
    rfl
  · simp only
    omega
  · exact h.limit_le_top
  · intro hnone
    cases hnone
  · exact h.atEnd

/-- What `Refresh` does at the end of the buffer: it stops where nothing more can be
read, and otherwise the position is neither at the limit nor at the end of the data. -/
theorem refresh_refines (hdata : data.length ≤ INT_MAX) (hempty : s.bufferSize = 0) :
    Refines data total top s.refresh.2 r ∧ (s.refresh.1 = false → r.readable data total = []) ∧
      (s.refresh.1 = true → r.pos < r.limit ∧ r.pos < data.length) := by
  obtain ⟨hlen, hafter, hsize⟩ := h.sizes
  have hread := h.totalBytesRead
  have hlimit := h.currentLimit
  have hclosest := h.after
  simp only [closestLimit, h.currentLimit, h.totalBytesLimit] at hclosest
  have hstop : ∀ {e : ℕ}, e ≤ r.pos → r.stop data total ≤ e → r.readable data total = [] := by
    intro e he hs
    rw [readable, show r.stop data total - r.pos = 0 by omega, take_zero]
  rw [bufferSize] at hempty
  by_cases hhit : 0 < s.bufferSizeAfterLimit ∨ 0 < s.overflowBytes ∨
      s.totalBytesRead = s.currentLimit
  · rw [refresh, if_pos hhit]
    refine ⟨h, fun _ => ?_, by simp⟩
    apply hstop (e := r.pos) le_rfl
    simp only [stop]
    have hno := h.overflow
    omega
  · have hbuffer : s.buffer = [] := by
      apply length_eq_zero_iff.mp
      omega
    rw [hbuffer, length_nil] at hlen hread
    rw [refresh, if_neg hhit]
    cases hinput : s.input with
    | none =>
      -- a flat array ends at its limit
      have hflat := h.limit_le_of_flat hinput
      omega
    | some input =>
      have hbehind : s.behind = input.remaining := by rw [behind, hinput]; rfl
      have hnext := input.nextNonEmpty_spec
      simp only
      generalize input.nextNonEmpty = next at hnext ⊢
      obtain ⟨found, input'⟩ := next
      rcases hnext with ⟨rfl, hrest, hleft⟩ | ⟨chunk, rfl, hne, hrest, -⟩
      · rw [hbehind, hrest, length_nil] at hlen
        refine ⟨⟨⟨h.totalBytesLimit, h.currentLimit, h.legitimate, h.overflow, h.pos_le_limit,
          h.pos_le_total, h.pos_le_length, ?_, ?_, h.limit_le_top, by simp, h.atEnd⟩, h.after⟩, fun _ => ?_,
          by simp⟩
        · rw [h.rest, hbuffer, hbehind, hrest]
          simp [behind, hleft]
        · simpa using hread
        · apply hstop (e := data.length)
          · omega
          · exact Nat.min_le_right _ _
      · have hpos : 0 < chunk.length := length_pos_iff.mpr hne
        rw [hbehind, hrest, length_append] at hlen
        refine ⟨setBuffer_refines h hdata hbuffer (by rw [hbehind, hrest]), by simp, fun _ => ?_⟩
        omega

theorem refill_refines (hdata : data.length ≤ INT_MAX) :
    (s.refill.1 = true → Refines data total top s.refill.2 r ∧ 0 < s.refill.2.bufferSize) ∧
      (s.refill.1 = false → r.readable data total = []) := by
  induction hn : s.chunksLeft using Nat.strong_induction_on generalizing s with
  | _ n ih =>
    rw [refill]
    split
    · next hempty =>
      obtain ⟨hrefines, hstop, -⟩ := refresh_refines h hdata hempty
      split
      · next s' hs' =>
        rw [hs'] at hstop
        exact ⟨by simp, fun _ => hstop rfl⟩
      · next s' hs' =>
        rw [hs'] at hrefines
        subst hn
        exact ih _ (refresh_chunksLeft hs') hrefines rfl
    · next hne => exact ⟨fun _ => ⟨h, by simpa using Nat.pos_of_ne_zero hne⟩, by simp⟩

/-! ## The copies -/

/-- The copying loops read as many bytes as asked for, or all there are. -/
theorem copyLoop_refines (hdata : data.length ≤ INT_MAX) (size : ℕ) :
    (s.copyLoop size).1 = decide (size ≤ (r.readable data total).length) ∧
      (s.copyLoop size).2.1 = (r.readable data total).take size ∧ (size ≤ (r.readable data total).length →
        Refines data total top (s.copyLoop size).2.2 (r.move size)) := by
  induction hn : s.chunksLeft using Nat.strong_induction_on generalizing s r size with
  | _ n ih =>
    rw [copyLoop]
    split
    · next hlt =>
      have hadvance := advance_refines h (Nat.le_refl s.bufferSize)
      have hmove := readable_move h (Nat.le_refl s.bufferSize)
      have hempty : (s.advance s.bufferSize).bufferSize = 0 := by
        simp only [bufferSize, advance, length_drop]
        omega
      have hlen := h.length_visible
      rw [← visible] at hmove
      obtain ⟨hrefines, hstop, -⟩ := refresh_refines hadvance hdata hempty
      split
      · next s' hs' =>
        rw [hs'] at hstop
        rw [hmove, hstop rfl, append_nil]
        dsimp only
        refine ⟨by simp only [hlen, not_le.mpr hlt, decide_false],
          (take_of_length_le (by omega)).symm, ?_⟩
        intro hle
        omega
      · next s' hs' =>
        rw [hs'] at hrefines
        dsimp only at hrefines ⊢
        subst hn
        obtain ⟨hok, hbytes, hrest⟩ :=
          ih _ (refresh_chunksLeft (s := s.advance s.bufferSize) hs') hrefines
            (size - s.bufferSize) rfl
        have hlength : (r.readable data total).length = s.bufferSize +
            ((r.move s.bufferSize).readable data total).length := by
          rw [hmove, length_append, hlen]
        refine ⟨?_, ?_, ?_⟩
        · rw [hok, hlength]
          simp only [decide_eq_decide]
          omega
        · have htake : s.visible.take size = s.visible := take_of_length_le (by omega)
          rw [hbytes, hmove, take_append, hlen, htake]
        · intro hle
          have hfinal := hrest (by omega)
          have hsum : s.bufferSize + (size - s.bufferSize) = size := by omega
          simpa only [move, add_assoc, hsum] using hfinal
    · next hge =>
      have hle : size ≤ s.bufferSize := not_lt.mp hge
      have hfits := h.bufferSize_le
      refine ⟨(decide_eq_true (le_trans hle hfits)).symm, (h.take_readable hle).symm, ?_⟩
      intro _
      exact advance_refines h hle

/-! ## The varints -/

theorem readable_cons (hpos : 0 < s.bufferSize) :
    ∃ b rest, s.buffer = b :: rest ∧ r.readable data total = b :: (r.move 1).readable data total := by
  have hone := readable_move h (n := 1) hpos
  rw [bufferSize] at hpos
  cases hbuffer : s.buffer with
  | nil => simp [hbuffer] at hpos
  | cons b rest =>
    rw [hbuffer] at hone
    exact ⟨b, rest, rfl, hone⟩

theorem readVarint_short (hpos : 0 < s.bufferSize) (hshort : byteAt s.buffer 0 < 0x80) :
    readVarint kMaxVarintBytes (r.readable data total) = some (byteAt s.buffer 0, 1) := by
  obtain ⟨b, rest, hbuffer, hread⟩ := readable_cons h hpos
  rw [hbuffer, byteAt_zero_cons] at hshort ⊢
  rw [hread, show kMaxVarintBytes = 9 + 1 by rfl, readVarint_cons_of_lt _ hshort]

/-- A buffer that surely holds a varint decides it. -/
theorem readVarint_of_holdsVarint (hholds : s.holdsVarint) :
    (kMaxVarintBytes ≤ s.buffer.length ∨ ∃ b ∈ s.buffer, b.toNat < 0x80) ∧
      readVarint kMaxVarintBytes s.buffer = readVarint kMaxVarintBytes (r.readable data total) ∧
      ∀ v, readVarint kMaxVarintBytes s.buffer = some v → v.2 ≤ s.bufferSize := by
  have hlen := h.length_visible
  have hsplit : s.buffer = s.visible ++ s.buffer.drop s.bufferSize := by
    rw [visible, take_append_drop]
  have hvisible : kMaxVarintBytes ≤ s.visible.length ∨ ∃ b ∈ s.visible, b.toNat < 0x80 := by
    rcases hholds with hten | ⟨hpos, hlast⟩
    · exact .inl (by omega)
    · apply Or.inr
      have hidx : s.bufferSize - 1 < s.visible.length := by omega
      have hidx' : s.bufferSize - 1 < s.buffer.length := by
        rw [bufferSize] at hpos ⊢
        omega
      rw [and_0x80_eq_zero (byteAt_lt _ _), byteAt_eq hidx'] at hlast
      refine ⟨s.visible[s.bufferSize - 1], getElem_mem hidx, ?_⟩
      simpa [visible] using hlast
  have hbuffer : readVarint kMaxVarintBytes s.buffer = readVarint kMaxVarintBytes s.visible := by
    conv_lhs => rw [hsplit]
    exact readVarint_append _ _ hvisible
  refine ⟨?_, ?_, ?_⟩
  · rcases hvisible with hten | ⟨b, hmem, hb⟩
    · apply Or.inl
      have := congrArg List.length hsplit
      rw [length_append] at this
      omega
    · exact .inr ⟨b, mem_of_mem_take hmem, hb⟩
  · rw [hbuffer, h.readable_eq, readVarint_append _ _ hvisible]
  · intro v hv
    rw [hbuffer] at hv
    have := (readVarint_length hv).2.2
    omega

end

/-- What the reads of a varint return: its value in 64 bits and the stream behind it, or
zero. -/
def VarintRead (data : List UInt8) (total top : ℕ) (r : Reader) (result : Bool × ℕ × CodedInputStream) : Prop :=
  match readVarint kMaxVarintBytes (r.readable data total) with
  | some (value, len) =>
    result.1 = true ∧ result.2.1 = value % 2 ^ 64 ∧ Refines data total top result.2.2 (r.move len)
  | none => result.1 = false ∧ result.2.1 = 0

theorem or_shift_mod {count result b : ℕ} (hcount : count < kMaxVarintBytes)
    (hresult : result < 2 ^ (7 * count)) : result ||| ((b &&& 0x7F) <<< (7 * count)) % 2 ^ 64 =
      (result + (b % 128) * 2 ^ (7 * count)) % 2 ^ 64 := by
  have hten : count < 10 := hcount
  obtain ⟨j, hj⟩ : ∃ j, 64 = 7 * count + j := ⟨64 - 7 * count, by omega⟩
  have hshift : ((b &&& 0x7F) <<< (7 * count)) % 2 ^ 64 = 2 ^ (7 * count) * (b % 128 % 2 ^ j) := by
    rw [and_0x7F, shiftLeft_eq, mul_comm, hj, pow_add, mul_mod_mul_left]
  have hor := two_pow_add_eq_or_of_lt hresult (b % 128 % 2 ^ j)
  rw [hshift, Nat.or_comm, ← hor]
  rw [hj, pow_add, mod_mul, add_mul_mod_self_right, mod_eq_of_lt hresult,
    add_mul_div_right _ _ (Nat.two_pow_pos _), div_eq_of_lt hresult, zero_add,
    add_comm]

/-- What a byte that continues leaves is below the next shift. -/
theorem continued_lt {count result b : ℕ} (hb : b < 2 ^ 8) (hresult : result < 2 ^ (7 * count)) :
    2 ^ (7 * (count + 1)) = 0x80 * 2 ^ (7 * count) ∧
      (result + (b - 0x80) * 2 ^ (7 * count)) % 2 ^ 64 < 2 ^ (7 * (count + 1)) := by
  have hpow : 2 ^ (7 * (count + 1)) = 0x80 * 2 ^ (7 * count) := by
    rw [show 7 * (count + 1) = 7 * count + 7 by ring, pow_add]
    ring
  refine ⟨hpow, lt_of_le_of_lt (mod_le _ _) ?_⟩
  rw [hpow]
  have hle : (b - 0x80) * 2 ^ (7 * count) ≤ 127 * 2 ^ (7 * count) := Nat.mul_le_mul_right _ (by omega)
  omega

section
variable (h : Refines data total top s r) (hdata : data.length ≤ INT_MAX)
include h hdata

/-- The loop of `ReadVarint64Slow` reads the rest of the varint. -/
theorem readVarint64Loop_refines {left result : ℕ} (hleft : left ≤ kMaxVarintBytes)
    (hresult : result < 2 ^ (7 * (kMaxVarintBytes - left))) :
    match readVarint left (r.readable data total) with
    | some (value, len) => (s.readVarint64Loop left result).1 = true ∧
        (s.readVarint64Loop left result).2.1 =
          (result + value * 2 ^ (7 * (kMaxVarintBytes - left))) % 2 ^ 64 ∧
        Refines data total top (s.readVarint64Loop left result).2.2 (r.move len)
    | none => (s.readVarint64Loop left result).1 = false ∧
        (s.readVarint64Loop left result).2.1 = 0 := by
  induction left generalizing s r result with
  | zero => simp [readVarint, readVarint64Loop]
  | succ left ih =>
    obtain ⟨hfound, hstop⟩ := refill_refines h hdata
    rw [readVarint64Loop]
    generalize s.refill = refilled at hfound hstop
    obtain ⟨ok, s'⟩ := refilled
    cases ok with
    | false =>
      rw [hstop rfl]
      exact ⟨rfl, rfl⟩
    | true =>
      obtain ⟨h', hpos⟩ := hfound rfl
      dsimp only at h' hpos ⊢
      obtain ⟨b, rest, hbuffer, hread⟩ := readable_cons h' hpos
      have hb := b.toNat_lt
      have hcount : kMaxVarintBytes - (left + 1) < kMaxVarintBytes := by
        simp only [kMaxVarintBytes]
        omega
      have hnext : kMaxVarintBytes - left = kMaxVarintBytes - (left + 1) + 1 := by omega
      have hadvance := advance_refines h' (n := 1) hpos
      rw [hread, hbuffer, byteAt_zero_cons]
      simp only [and_0x80_eq_zero hb, or_shift_mod hcount hresult]
      generalize kMaxVarintBytes - (left + 1) = count at *
      by_cases hend : b.toNat < 0x80
      · rw [readVarint_cons_of_lt _ hend]
        simp only [if_pos hend, mod_eq_of_lt hend, true_and]
        exact hadvance
      · have hcontinues : 0x80 ≤ b.toNat := not_lt.mp hend
        have hlow : b.toNat % 128 = b.toNat - 0x80 := by omega
        rw [readVarint_cons_of_le _ hcontinues]
        simp only [if_neg hend, hlow]
        obtain ⟨hpow, hsmall⟩ := continued_lt hb hresult
        rw [← hnext] at hsmall
        have hrest := ih hadvance (by omega) hsmall
        cases hvarint : readVarint left ((r.move 1).readable data total) with
        | none => simpa [hvarint] using hrest
        | some v =>
          simp only [hvarint, hnext] at hrest
          obtain ⟨hok, hvalue, hrefines⟩ := hrest
          refine ⟨hok, ?_, ?_⟩
          · rw [hvalue, mod_add_mod, hpow]
            ring_nf
          · simpa only [move, add_assoc, add_comm 1] using hrefines

/-- `ReadVarint64Fallback`, by either path; the short path needs a first byte that
continues. -/
theorem readVarint64Fallback_refines (hlong : 0 < s.bufferSize → 0x80 ≤ byteAt s.buffer 0) :
    VarintRead data total top r s.readVarint64Fallback := by
  rw [readVarint64Fallback]
  split
  · next hholds =>
    obtain ⟨harray, hsame, hfits⟩ := readVarint_of_holdsVarint h hholds
    have hpos : 0 < s.bufferSize := by
      rcases hholds with hten | ⟨hpos, -⟩
      · exact lt_of_lt_of_le (by decide) hten
      · exact hpos
    rw [VarintRead, ← hsame, readVarint64FromArray_eq (hlong hpos) harray]
    cases hvarint : readVarint kMaxVarintBytes s.buffer with
    | none => exact ⟨rfl, rfl⟩
    | some v => exact ⟨rfl, rfl, advance_refines h (hfits v hvarint)⟩
  · have hzero : 0 < 2 ^ (7 * (kMaxVarintBytes - kMaxVarintBytes)) := Nat.two_pow_pos _
    have hloop := readVarint64Loop_refines h hdata (Nat.le_refl kMaxVarintBytes) hzero
    rw [VarintRead, readVarint64Slow]
    cases hvarint : readVarint kMaxVarintBytes (r.readable data total) with
    | none => simpa [hvarint] using hloop
    | some v => simpa [hvarint] using hloop

theorem readVarint64_refines :
    VarintRead data total top r s.readVarint64 := by
  rw [readVarint64]
  split
  · next hshort =>
    rw [VarintRead, readVarint_short h hshort.1 hshort.2]
    refine ⟨rfl, ?_, advance_refines h hshort.1⟩
    exact (mod_eq_of_lt (show byteAt s.buffer 0 < 2 ^ 64 by omega)).symm
  · next hlong =>
    apply readVarint64Fallback_refines h hdata
    intro hpos
    by_contra hlt
    exact hlong ⟨hpos, by omega⟩

end

theorem firstByte_continues (hlong : ¬(0 < s.bufferSize ∧ byteAt s.buffer 0 < 0x80))
    (hpos : 0 < s.bufferSize) : 0x80 ≤ byteAt s.buffer 0 := by
  by_contra hlt
  exact hlong ⟨hpos, by omega⟩

theorem bufferSize_pos_of_holdsVarint (hholds : s.holdsVarint) : 0 < s.bufferSize := by
  rcases hholds with hten | ⟨hpos, -⟩
  · exact lt_of_lt_of_le (by decide) hten
  · exact hpos

section
variable (h : Refines data total top s r) (hdata : data.length ≤ INT_MAX)
include h hdata

/-- `ReadVarint32`. -/
theorem readVarint32_refines :
    match r.varint data total with
    | some (value, r') => s.readVarint32.1 = true ∧ s.readVarint32.2.1 = value % 2 ^ 32 ∧
        Refines data total top s.readVarint32.2.2 r'
    | none => s.readVarint32.1 = false ∧ s.readVarint32.2.1 = 2 ^ 32 - 1 := by
  rw [readVarint32, varint]
  by_cases hshort : 0 < s.bufferSize ∧ byteAt s.buffer 0 < 0x80
  · rw [if_pos hshort]
    rw [readVarint_short h hshort.1 hshort.2]
    refine ⟨rfl, ?_, advance_refines h hshort.1⟩
    exact (mod_eq_of_lt (show byteAt s.buffer 0 < 2 ^ 32 by omega)).symm
  · rw [if_neg hshort, readVarint32Fallback]
    by_cases hholds : s.holdsVarint
    · rw [if_pos hholds]
      have hpos := bufferSize_pos_of_holdsVarint hholds
      obtain ⟨-, hsame, hfits⟩ := readVarint_of_holdsVarint h hholds
      rw [firstByteOrZero, if_pos hpos, readVarint32FromArray_eq (firstByte_continues hshort hpos), ← hsame]
      cases hvarint : readVarint kMaxVarintBytes s.buffer with
      | none => exact ⟨rfl, rfl⟩
      | some v =>
        simp only [map_some]
        exact ⟨decide_eq_true (by omega), by omega, advance_refines h (hfits v hvarint)⟩
    · rw [if_neg hholds]
      have hread := readVarint64Fallback_refines h hdata (firstByte_continues hshort)
      rw [readVarint32Slow]
      rw [VarintRead] at hread
      generalize s.readVarint64Fallback = result at hread
      obtain ⟨ok, value, s'⟩ := result
      cases hvarint : readVarint kMaxVarintBytes (r.readable data total) with
      | none =>
        simp only [hvarint] at hread
        obtain ⟨rfl, -⟩ := hread
        exact ⟨rfl, rfl⟩
      | some v =>
        simp only [hvarint] at hread
        obtain ⟨rfl, rfl, hrefines⟩ := hread
        simp only [map_some]
        exact ⟨decide_eq_true (by omega), by omega, hrefines⟩

/-- `ReadVarintSizeAsInt`. -/
theorem readVarintSizeAsInt_refines :
    match r.varint data total with
    | some (value, r') => if value % 2 ^ 64 ≤ INT_MAX then
        s.readVarintSizeAsInt.1 = true ∧ s.readVarintSizeAsInt.2.1 = (value % 2 ^ 64 : ℕ) ∧
          Refines data total top s.readVarintSizeAsInt.2.2 r'
      else s.readVarintSizeAsInt.1 = false ∧ s.readVarintSizeAsInt.2.1 = -1
    | none => s.readVarintSizeAsInt.1 = false ∧ s.readVarintSizeAsInt.2.1 = -1 := by
  rw [readVarintSizeAsInt, varint]
  by_cases hshort : 0 < s.bufferSize ∧ byteAt s.buffer 0 < 0x80
  · rw [if_pos hshort]
    have hmod : byteAt s.buffer 0 % 2 ^ 64 = byteAt s.buffer 0 := mod_eq_of_lt (by omega)
    rw [readVarint_short h hshort.1 hshort.2]
    simp only [map_some, hmod]
    rw [if_pos (by simp only [INT_MAX]; omega)]
    exact ⟨trivial, trivial, advance_refines h hshort.1⟩
  · rw [if_neg hshort, readVarintSizeAsIntFallback]
    by_cases hholds : s.holdsVarint
    · rw [if_pos hholds]
      have hpos := bufferSize_pos_of_holdsVarint hholds
      obtain ⟨harray, hsame, hfits⟩ := readVarint_of_holdsVarint h hholds
      rw [readVarint64FromArray_eq (firstByte_continues hshort hpos) harray, ← hsame]
      cases hvarint : readVarint kMaxVarintBytes s.buffer with
      | none => exact ⟨rfl, rfl⟩
      | some v =>
        simp only [map_some]
        by_cases hbig : INT_MAX < v.1 % 2 ^ 64
        · simp only [hbig, not_le.mpr hbig, if_true, if_false]
          exact ⟨rfl, trivial⟩
        · simp only [hbig, not_lt.mp hbig, if_true, if_false]
          exact ⟨decide_eq_true (by omega), trivial, advance_refines h (hfits v hvarint)⟩
    · rw [if_neg hholds]
      have hread := readVarint64Fallback_refines h hdata (firstByte_continues hshort)
      rw [readVarintSizeAsIntSlow]
      rw [VarintRead] at hread
      generalize s.readVarint64Fallback = result at hread
      obtain ⟨ok, value, s'⟩ := result
      cases hvarint : readVarint kMaxVarintBytes (r.readable data total) with
      | none =>
        simp only [hvarint] at hread
        obtain ⟨rfl, -⟩ := hread
        exact ⟨rfl, rfl⟩
      | some v =>
        simp only [hvarint] at hread
        obtain ⟨rfl, rfl, hrefines⟩ := hread
        simp only [map_some]
        by_cases hbig : INT_MAX < v.1 % 2 ^ 64
        · simp only [hbig, not_le.mpr hbig, if_true, if_false]
          exact ⟨rfl, trivial⟩
        · simp only [hbig, not_lt.mp hbig, if_true, if_false]
          exact ⟨decide_eq_true (by omega), trivial, hrefines⟩

/-! ## The other reads -/

theorem readLittleEndian_refines (width : ℕ) :
    (s.readLittleEndian width).1 = (r.littleEndian data total width).1 ∧
      (s.readLittleEndian width).2.1 = (r.littleEndian data total width).2.1 ∧
      ((s.readLittleEndian width).1 = true → Refines data total top (s.readLittleEndian width).2.2
          (r.littleEndian data total width).2.2) := by
  rw [readLittleEndian, readLittleEndianFallback]
  by_cases hfits : width ≤ s.bufferSize
  · have hle := le_trans hfits h.bufferSize_le
    rw [if_pos hfits, littleEndian, if_pos hle, h.take_readable hfits]
    exact ⟨rfl, rfl, fun _ => advance_refines h hfits⟩
  · rw [if_neg hfits, if_neg hfits, readRaw, littleEndian]
    obtain ⟨hok, hbytes, hrefines⟩ := copyLoop_refines h hdata width
    generalize s.copyLoop width = result at hok hbytes hrefines
    obtain ⟨ok, bytes, s'⟩ := result
    by_cases hle : width ≤ (r.readable data total).length
    · obtain rfl : ok = true := by simpa [hle] using hok
      obtain rfl : bytes = (r.readable data total).take width := hbytes
      rw [if_pos hle]
      exact ⟨rfl, rfl, fun _ => hrefines hle⟩
    · obtain rfl : ok = false := by simpa [hle] using hok
      rw [if_neg hle]
      exact ⟨rfl, rfl, by simp⟩

theorem readString_refines
    {size : ℤ} (hsize : ¬size < 0) : (s.readString size).1 = (r.bytes data total size.toNat).1 ∧
      (s.readString size).2.1 = some (r.bytes data total size.toNat).2.1 ∧ ((s.readString size).1 = true →
        Refines data total top (s.readString size).2.2 (r.move size.toNat)) := by
  rw [readString, if_neg hsize, bytes]
  split
  · next hfits =>
    have hle : size.toNat ≤ s.bufferSize := by omega
    have hall := le_trans hle h.bufferSize_le
    refine ⟨(decide_eq_true hall).symm, by rw [h.take_readable hle], fun _ => ?_⟩
    exact advance_refines h hle
  · obtain ⟨hok, hbytes, hrefines⟩ := copyLoop_refines h hdata size.toNat
    rw [readStringFallback]
    refine ⟨hok, congrArg some hbytes, fun htrue => ?_⟩
    rw [hok] at htrue
    exact hrefines (of_decide_eq_true htrue)

end

theorem length_readable (data : List UInt8) (total : ℕ) (r : Reader) :
    (r.readable data total).length = r.stop data total - r.pos := by
  have hstop : r.stop data total ≤ data.length := Nat.min_le_right _ _
  rw [readable, length_take, length_drop]
  omega

/-- `SkipFallback`, once the buffer is left behind. -/
theorem skipFallback_refines (h : Refines data total top s r) {count : ℕ} (hcount : s.bufferSize < count) :
    (s.skipFallback count s.bufferSize).1 = decide (count ≤ (r.readable data total).length) ∧
      ((s.skipFallback count s.bufferSize).1 = true →
        Refines data total top (s.skipFallback count s.bufferSize).2 (r.move count)) := by
  obtain ⟨hlen, hafter, hsize⟩ := h.sizes
  have hread := h.totalBytesRead
  have hclosest := h.after
  have hstop : r.stop data total = min (min r.limit total) data.length := rfl
  simp only [closestLimit, h.currentLimit, h.totalBytesLimit] at hclosest
  rw [length_readable data total r, skipFallback]
  rw [bufferSize] at hcount hsize ⊢
  have hleft := Nat.min_le_left r.limit total
  have hright := Nat.min_le_right r.limit total
  by_cases hlimit : 0 < s.bufferSizeAfterLimit
  · rw [if_pos hlimit]
    refine ⟨(decide_eq_false (by omega)).symm, by simp⟩
  · rw [if_neg hlimit]
    simp only [closestLimit, h.currentLimit, h.totalBytesLimit]
    have hfull : s.bufferSizeAfterLimit = 0 := Nat.eq_zero_of_not_pos hlimit
    rw [hfull] at hclosest hcount
    have hreach : s.totalBytesRead ≤ min r.limit total := Nat.sub_eq_zero_iff_le.mp hclosest.symm
    clear hsize hclosest hafter
    rw [hfull, Nat.sub_zero]
    generalize min r.limit total = closest at hleft hright hreach hstop ⊢
    by_cases hfar : ((closest : ℤ) - (s.totalBytesRead : ℤ)) < ((count - s.buffer.length : ℕ) : ℤ)
    · rw [if_pos hfar]
      have hfail : ¬count ≤ r.stop data total - r.pos := by omega
      split
      · exact ⟨(decide_eq_false hfail).symm, by simp⟩
      · exact ⟨(decide_eq_false hfail).symm, by simp⟩
    · rw [if_neg hfar]
      cases hinput : s.input with
      | none =>
        have hflat := h.limit_le_of_flat hinput
        omega
      | some input =>
        have hbehind : s.behind = input.remaining := by rw [behind, hinput]; rfl
        rw [hbehind] at hlen
        simp only
        have hskip := input.skip_fst (count - s.buffer.length)
        have hrest : count - s.buffer.length ≤ input.remaining.length → _ := input.remaining_skip
        generalize input.skip (count - s.buffer.length) = skipped at hskip hrest ⊢
        obtain ⟨ok, input'⟩ := skipped
        obtain rfl : ok = _ := hskip
        by_cases henough : count - s.buffer.length ≤ input.remaining.length
        · rw [decide_eq_true henough]
          refine ⟨(decide_eq_true (by omega)).symm, fun _ => ?_⟩
          have hmore : (s.buffer ++ input.remaining).drop count = input'.remaining := by
            rw [hrest henough, drop_append, drop_eq_nil_of_le (by omega), nil_append]
          dsimp only
          constructor
          · constructor
            · rfl
            · rfl
            · exact h.legitimate
            · exact h.overflow
            · simp only [move]
              omega
            · simp only [move]
              omega
            · simp only [move]
              omega
            · rw [move, ← drop_drop, h.rest, hbehind, hmore]
              rfl
            · simp only [move, length_nil]
              omega
            · exact h.limit_le_top
            · intro hnone
              cases hnone
            · intro hlegit
              have hend := h.atEnd hlegit
              simp only [move]
              omega
          · simp only [closestLimit]
            omega
        · rw [decide_eq_false henough]
          exact ⟨(decide_eq_false (by omega)).symm, by simp⟩

theorem skip_refines (h : Refines data total top s r) {count : ℤ} (hcount : ¬count < 0) :
    (s.skip count).1 = (r.bytes data total count.toNat).1 ∧
      ((s.skip count).1 = true → Refines data total top (s.skip count).2 (r.move count.toNat)) := by
  rw [skip, if_neg hcount, bytes]
  split
  · next hfits =>
    have hle : count.toNat ≤ s.bufferSize := by omega
    have hall := le_trans hle h.bufferSize_le
    exact ⟨(decide_eq_true hall).symm, fun _ => advance_refines h hle⟩
  · exact skipFallback_refines h (by omega)

/-! ## Tags -/

section
variable (h : Refines data total top s r)
include h

theorem bufferSize_eq_zero (hnil : r.readable data total = []) : s.bufferSize = 0 := by
  have hle := h.bufferSize_le
  rw [hnil, length_nil] at hle
  omega

theorem position_of_empty (hempty : s.bufferSize = 0) : s.totalBytesRead - s.bufferSizeAfterLimit = r.pos := by
  obtain ⟨-, hafter, -⟩ := h.sizes
  have hread := h.totalBytesRead
  rw [bufferSize] at hempty
  omega

section
variable (hdata : data.length ≤ INT_MAX)
include hdata

/-- The end of a message that `ReadTagSlow` sees when the refill fails. -/
theorem readTagSlow_refines_of_end (hnil : r.readable data total = []) :
    s.readTagSlow.1 = r.atMessageEnd total ∧ s.readTagSlow.2.1 = 0 ∧ (s.readTagSlow.1 = true →
        Refines data total top s.readTagSlow.2.2 { r with legitimateMessageEnd := r.atMessageEnd total }) := by
  have hempty := bufferSize_eq_zero h hnil
  have hend : r.stop data total ≤ r.pos := by
    have hlen := length_readable data total r
    rw [hnil, length_nil] at hlen
    omega
  obtain ⟨hrefines, -, hmore⟩ := refresh_refines h hdata hempty
  rw [readTagSlow, if_pos hempty]
  generalize s.refresh = refreshed at hrefines hmore
  obtain ⟨ok, s'⟩ := refreshed
  simp only at hrefines hmore ⊢
  cases ok with
  | true =>
    -- a chunk behind the total bytes limit: the varint is missing
    have hread := readVarint64_refines hrefines hdata
    rw [VarintRead, hnil] at hread
    obtain ⟨hlimit, hlength⟩ := hmore rfl
    have hnot : r.atMessageEnd total = false := by
      simp only [stop] at hend
      simp only [atMessageEnd]
      exact decide_eq_false (by omega)
    generalize s'.readVarint64 = result at hread
    obtain ⟨ok, value, s''⟩ := result
    obtain rfl : ok = false := hread.1
    rw [hnot]
    exact ⟨rfl, rfl, by simp⟩
  | false =>
    have hposition := position_of_empty hrefines (bufferSize_eq_zero hrefines hnil)
    have hflag : (if s'.totalBytesLimit ≤ s'.totalBytesRead - s'.bufferSizeAfterLimit then
        decide (s'.currentLimit = s'.totalBytesLimit) else true) = r.atMessageEnd total := by
      rw [hposition, hrefines.totalBytesLimit, hrefines.currentLimit, atMessageEnd]
      by_cases htotal : total ≤ r.pos
      · rw [if_pos htotal]
        simp [not_lt.mpr htotal]
      · rw [if_neg htotal]
        simp [not_le.mp htotal]
    simp only [Bool.false_eq_true, if_false, hflag]
    refine ⟨trivial, trivial, fun hatEnd => ?_⟩
    refine ⟨⟨hrefines.totalBytesLimit, hrefines.currentLimit, rfl, hrefines.overflow,
      hrefines.pos_le_limit, hrefines.pos_le_total, hrefines.pos_le_length, hrefines.rest,
      hrefines.totalBytesRead, hrefines.limit_le_top, hrefines.flat, fun _ => ?_⟩, hrefines.after⟩
    have hlimit := h.pos_le_limit
    have hlength := h.pos_le_length
    have htotal := of_decide_eq_true hatEnd
    simp only [stop] at hend
    dsimp only
    omega

theorem readTagNoLastTag_refines_of_end (hnil : r.readable data total = []) :
    s.readTagNoLastTag.1 = r.atMessageEnd total ∧ s.readTagNoLastTag.2.1 = 0 ∧
      (s.readTagNoLastTag.1 = true → Refines data total top s.readTagNoLastTag.2.2
          { r with legitimateMessageEnd := r.atMessageEnd total }) := by
  have hempty := bufferSize_eq_zero h hnil
  have hholds : ¬s.holdsVarint := by
    intro hholds
    have hpos := bufferSize_pos_of_holdsVarint hholds
    omega
  rw [readTagNoLastTag, if_neg (by omega), readTagFallback, if_neg hholds]
  split
  · next hquick =>
    obtain ⟨-, -, htotal⟩ := hquick
    rw [position_of_empty h hempty, h.totalBytesLimit] at htotal
    have hend : r.atMessageEnd total = true := decide_eq_true (.inl htotal)
    rw [hend]
    refine ⟨rfl, rfl, fun _ => ?_⟩
    refine ⟨⟨h.totalBytesLimit, h.currentLimit, rfl, h.overflow, h.pos_le_limit,
      h.pos_le_total, h.pos_le_length, h.rest, h.totalBytesRead, h.limit_le_top,
      h.flat, fun _ => ⟨?_, .inl htotal⟩⟩, h.after⟩
    have hlen := length_readable data total r
    have hlimit := h.pos_le_limit
    have hlength := h.pos_le_length
    rw [hnil, length_nil, stop] at hlen
    dsimp only
    omega
  · exact readTagSlow_refines_of_end h hdata hnil

/-- `ReadTag` where a byte can be read. -/
theorem readTagNoLastTag_refines (hne : r.readable data total ≠ []) :
    match r.varint data total with
    | some (value, r') => s.readTagNoLastTag.1 = true ∧ s.readTagNoLastTag.2.1 = value % 2 ^ 32 ∧
        Refines data total top s.readTagNoLastTag.2.2 r'
    | none => s.readTagNoLastTag.1 = false ∧ s.readTagNoLastTag.2.1 = 0 := by
  rw [readTagNoLastTag, varint]
  by_cases hshort : 0 < s.bufferSize ∧ byteAt s.buffer 0 < 0x80
  · rw [if_pos hshort]
    rw [readVarint_short h hshort.1 hshort.2]
    refine ⟨rfl, ?_, advance_refines h hshort.1⟩
    exact (mod_eq_of_lt (show byteAt s.buffer 0 < 2 ^ 32 by omega)).symm
  · rw [if_neg hshort, readTagFallback]
    by_cases hholds : s.holdsVarint
    · have hpos := bufferSize_pos_of_holdsVarint hholds
      have hcontinues := firstByte_continues hshort hpos
      obtain ⟨-, hsame, hfits⟩ := readVarint_of_holdsVarint h hholds
      have hfirst : ¬s.firstByteOrZero = 0 := by
        rw [firstByteOrZero, if_pos hpos]
        omega
      rw [if_pos hholds, if_neg hfirst, firstByteOrZero, if_pos hpos,
        readVarint32FromArray_eq hcontinues, ← hsame]
      cases hvarint : readVarint kMaxVarintBytes s.buffer with
      | none => exact ⟨rfl, rfl⟩
      | some v => exact ⟨rfl, rfl, advance_refines h (hfits v hvarint)⟩
    · have hquick : ¬(s.bufferSize = 0 ∧ (0 < s.bufferSizeAfterLimit ∨
          s.totalBytesRead = s.currentLimit) ∧
          s.totalBytesRead - s.bufferSizeAfterLimit < s.totalBytesLimit) := by
        rintro ⟨hempty, hhit, -⟩
        apply hne
        apply (refresh_refines h hdata hempty).2.1
        rw [refresh, if_pos (by omega)]
      rw [if_neg hholds, if_neg hquick, readTagSlow]
      have hrefill : (if s.bufferSize = 0 then s.refresh else (true, s)).1 = true ∧
          Refines data total top (if s.bufferSize = 0 then s.refresh else (true, s)).2 r := by
        split
        · next hempty =>
          obtain ⟨hrefines, hstop, -⟩ := refresh_refines h hdata hempty
          refine ⟨?_, hrefines⟩
          cases hok : s.refresh.1 with
          | true => rfl
          | false => exact absurd (hstop hok) hne
        · exact ⟨rfl, h⟩
      generalize (if s.bufferSize = 0 then s.refresh else (true, s)) = refilled at hrefill
      obtain ⟨ok, s'⟩ := refilled
      obtain ⟨rfl, hrefines⟩ := hrefill
      have hread := readVarint64_refines hrefines hdata
      rw [VarintRead] at hread
      dsimp only at hread ⊢
      generalize s'.readVarint64 = result at hread
      obtain ⟨ok, value, s''⟩ := result
      cases hvarint : readVarint kMaxVarintBytes (r.readable data total) with
      | none =>
        simp only [hvarint] at hread
        obtain ⟨rfl, rfl⟩ := hread
        exact ⟨rfl, rfl⟩
      | some v =>
        simp only [hvarint] at hread
        obtain ⟨rfl, rfl, hafter⟩ := hread
        simp only [map_some, if_true]
        exact ⟨trivial, by omega, hafter⟩

theorem readTag_refines :
    s.readTag.1 = (r.tag data total).1 ∧ s.readTag.2.1 = (r.tag data total).2.1 ∧
      (s.readTag.1 = true → Refines data total top s.readTag.2.2 (r.tag data total).2.2) := by
  have hlast : ∀ {s : CodedInputStream} {r : Reader} (tag : ℕ), Refines data total top s r →
      Refines data total top { s with lastTag := tag } r := by
    intro s r tag h
    exact ⟨⟨h.totalBytesLimit, h.currentLimit, h.legitimate, h.overflow, h.pos_le_limit,
      h.pos_le_total, h.pos_le_length, h.rest, h.totalBytesRead, h.limit_le_top, h.flat,
      h.atEnd⟩, h.after⟩
  rw [readTag, tag]
  by_cases hnil : r.readable data total = []
  · obtain ⟨hok, htag, hrefines⟩ := readTagNoLastTag_refines_of_end h hdata hnil
    rw [if_pos hnil]
    exact ⟨hok, htag, fun htrue => hlast _ (hrefines htrue)⟩
  · have hread := readTagNoLastTag_refines h hdata hnil
    rw [if_neg hnil]
    cases hvarint : r.varint data total with
    | none =>
      simp only [hvarint] at hread
      exact ⟨hread.1, hread.2, by simp [hread.1]⟩
    | some v =>
      simp only [hvarint] at hread
      obtain ⟨hok, htag, hrefines⟩ := hread
      exact ⟨hok, htag, fun _ => hlast _ hrefines⟩

end

end

/-! ## Limits -/

theorem pushLimit_refines (h : Refines data total top s r) (byteLimit : ℤ) :
    (s.pushLimit byteLimit).1 = r.limit ∧
      Refines data total top (s.pushLimit byteLimit).2 (r.push byteLimit) := by
  rw [pushLimit, h.currentPosition, h.currentLimit, push]
  split
  · next hcloser =>
    refine ⟨rfl, ?_⟩
    apply Positioned.recompute
    have htop := h.limit_le_top
    refine ⟨h.totalBytesLimit, rfl, h.legitimate, h.overflow, ?_, h.pos_le_total,
      h.pos_le_length, h.rest, h.totalBytesRead, ?_, h.flat, ?_⟩
    · simp only
      omega
    · simp only
      omega
    · intro hlegit
      have hend := h.atEnd hlegit
      simp only
      omega
  · exact ⟨rfl, h⟩

theorem popLimit_eq (s : CodedInputStream) (limit : ℕ) : s.popLimit limit = { s with
      currentLimit := limit
      legitimateMessageEnd := false }.recomputeBufferLimits := by
  rw [popLimit, recomputeBufferLimits_eq, recomputeBufferLimits_eq]
  rfl

theorem popLimit_refines (h : Refines data total top s r) {limit : ℕ} (hlimit : r.limit ≤ limit)
    (htop : limit ≤ top) :
    Refines data total top (s.popLimit limit) { r with limit, legitimateMessageEnd := false } := by
  have hpos := h.pos_le_limit
  have hpositioned : Positioned data total top
      { s with currentLimit := limit, legitimateMessageEnd := false }
      { r with limit, legitimateMessageEnd := false } :=
    ⟨h.totalBytesLimit, rfl, rfl, h.overflow, le_trans hpos hlimit, h.pos_le_total,
      h.pos_le_length, h.rest, h.totalBytesRead, htop, h.flat, by simp⟩
  have hrecompute := hpositioned.recompute
  rwa [← popLimit_eq] at hrecompute

/-! ## Calls -/

/-- The caller's stream refines the reader, and the limits to be popped are nested. -/
structure CallerRefines (data : List UInt8) (total top : ℕ) (c : Caller CodedInputStream)
    (a : Caller Reader) : Prop where
  stream : Refines data total top c.stream a.stream
  limits : c.limits = a.limits
  nested : (a.stream.limit :: a.limits).Pairwise (· ≤ ·)
  limits_le : ∀ limit ∈ a.limits, limit ≤ top

variable {c : Caller CodedInputStream} {a : Caller Reader}

/-- The results of a call agree, and after a success the streams still do. -/
def CallRefines (data : List UInt8) (total top : ℕ) :
    Option (Bool × Value × Caller CodedInputStream) → Option (Bool × Value × Caller Reader) → Prop
  | none, none => True
  | some (ok, value, c), some (ok', value', a) =>
    ok = ok' ∧ value = value' ∧ (ok = true → CallerRefines data total top c a)
  | _, _ => False

theorem CallerRefines.read (h : CallerRefines data total top c a) {s : CodedInputStream}
    {r : Reader} (hrefines : Refines data total top s r) (hlimit : r.limit = a.stream.limit) :
    CallerRefines data total top { c with stream := s } { a with stream := r } := by
  refine ⟨hrefines, h.limits, ?_, h.limits_le⟩
  have hnested := h.nested
  simpa only [hlimit] using hnested

theorem varint_limit {v : ℕ × Reader} (h : r.varint data total = some v) : v.2.limit = r.limit := by
  rw [varint, map_eq_some_iff] at h
  obtain ⟨v', -, rfl⟩ := h
  rfl

theorem tag_limit : (r.tag data total).2.2.limit = r.limit := by
  rw [tag]
  split
  · rfl
  · split
    · next value r' hvarint => exact varint_limit (v := (value, r')) hvarint
    · rfl

/-- **A call** on the coded input stream does what it does on the reader. -/
theorem perform_refines (h : CallerRefines data total top c a) (hdata : data.length ≤ INT_MAX) (op : Op) :
    CallRefines data total top (CodedInputStream.perform c op) (Reader.perform data total a op) := by
  have hstream := h.stream
  cases op with
  | readVarint32 =>
    have hread := readVarint32_refines hstream hdata
    simp only [CodedInputStream.perform, Reader.perform]
    cases hvarint : a.stream.varint data total with
    | none =>
      simp only [hvarint] at hread
      exact ⟨hread.1, by rw [hread.2]; rfl, by simp [hread.1]⟩
    | some v =>
      simp only [hvarint] at hread
      obtain ⟨hok, hvalue, hrefines⟩ := hread
      exact ⟨hok, by rw [hvalue], fun _ => h.read hrefines (varint_limit hvarint)⟩
  | readVarint64 =>
    have hread := readVarint64_refines hstream hdata
    simp only [CodedInputStream.perform, Reader.perform, varint]
    rw [VarintRead] at hread
    cases hvarint : readVarint kMaxVarintBytes (a.stream.readable data total) with
    | none =>
      simp only [hvarint] at hread
      exact ⟨hread.1, by rw [hread.2]; rfl, by simp [hread.1]⟩
    | some v =>
      simp only [hvarint] at hread
      obtain ⟨hok, hvalue, hrefines⟩ := hread
      exact ⟨hok, by rw [hvalue], fun _ => h.read hrefines rfl⟩
  | readVarintSizeAsInt =>
    have hread := readVarintSizeAsInt_refines hstream hdata
    simp only [CodedInputStream.perform, Reader.perform]
    cases hvarint : a.stream.varint data total with
    | none =>
      simp only [hvarint] at hread
      exact ⟨hread.1, by rw [hread.2], by simp [hread.1]⟩
    | some v =>
      simp only [hvarint] at hread
      by_cases hbig : v.1 % 2 ^ 64 ≤ INT_MAX
      · simp only [if_pos hbig] at hread ⊢
        obtain ⟨hok, hvalue, hrefines⟩ := hread
        exact ⟨hok, by rw [hvalue], fun _ => h.read hrefines (varint_limit hvarint)⟩
      · simp only [if_neg hbig] at hread ⊢
        exact ⟨hread.1, by rw [hread.2], by simp [hread.1]⟩
  | readLittleEndian32 =>
    obtain ⟨hok, hvalue, hrefines⟩ := readLittleEndian_refines hstream hdata 4
    refine ⟨hok, congrArg Value.ofOption hvalue, fun htrue => ?_⟩
    apply h.read (hrefines htrue)
    simp only [littleEndian]
    split <;> rfl
  | readLittleEndian64 =>
    obtain ⟨hok, hvalue, hrefines⟩ := readLittleEndian_refines hstream hdata 8
    refine ⟨hok, congrArg Value.ofOption hvalue, fun htrue => ?_⟩
    apply h.read (hrefines htrue)
    simp only [littleEndian]
    split <;> rfl
  | readRaw size =>
    obtain ⟨hok, hbytes, hrefines⟩ := copyLoop_refines hstream hdata size
    refine ⟨hok, congrArg Value.bytes hbytes, fun htrue => ?_⟩
    rw [show (c.stream.readRaw size).1 = _ from hok] at htrue
    exact h.read (hrefines (of_decide_eq_true htrue)) rfl
  | readString size =>
    simp only [CodedInputStream.perform, Reader.perform]
    by_cases hsize : size < 0
    · simp only [if_pos hsize, readString]
      exact ⟨rfl, rfl, by simp⟩
    · obtain ⟨hok, hbytes, hrefines⟩ := readString_refines hstream hdata hsize
      simp only [if_neg hsize]
      refine ⟨hok, by rw [hbytes]; rfl, fun htrue => ?_⟩
      exact h.read (hrefines htrue) rfl
  | skip count =>
    simp only [CodedInputStream.perform, Reader.perform]
    by_cases hcount : count < 0
    · simp only [if_pos hcount, skip]
      exact ⟨rfl, rfl, by simp⟩
    · obtain ⟨hok, hrefines⟩ := skip_refines hstream hcount
      simp only [if_neg hcount]
      refine ⟨hok, rfl, fun htrue => ?_⟩
      exact h.read (hrefines htrue) rfl
  | readTag =>
    obtain ⟨hok, htag, hrefines⟩ := readTag_refines hstream hdata
    refine ⟨hok, by rw [htag], fun htrue => ?_⟩
    exact h.read (hrefines htrue) tag_limit
  | pushLimit byteLimit =>
    obtain ⟨hold, hrefines⟩ := pushLimit_refines hstream byteLimit
    refine ⟨rfl, rfl, fun _ => ?_⟩
    have hle : (a.stream.push byteLimit).limit ≤ a.stream.limit := by
      rw [push]
      split
      · simp only
        omega
      · exact le_rfl
    refine ⟨hrefines, by rw [hold, h.limits], ?_, ?_⟩
    · refine List.Pairwise.cons ?_ h.nested
      intro limit hmem
      rcases mem_cons.mp hmem with rfl | hmem
      · exact hle
      · exact le_trans hle (rel_of_pairwise_cons h.nested hmem)
    · intro limit hmem
      rcases mem_cons.mp hmem with rfl | hmem
      · exact hstream.limit_le_top
      · exact h.limits_le limit hmem
  | popLimit =>
    simp only [CodedInputStream.perform, Reader.perform, h.limits]
    have hnested := h.nested
    have hle := h.limits_le
    cases hlimits : a.limits with
    | nil => trivial
    | cons limit limits =>
      rw [hlimits] at hnested hle
      refine ⟨rfl, rfl, fun _ => ⟨?_, rfl, ?_, ?_⟩⟩
      · apply popLimit_refines hstream
        · exact rel_of_pairwise_cons hnested mem_cons_self
        · exact hle limit mem_cons_self
      · exact hnested.of_cons
      · intro l hmem
        exact hle l (mem_cons_of_mem limit hmem)
  | consumedEntireMessage => exact ⟨rfl, congrArg Value.flag hstream.legitimate, fun _ => h⟩

/-- **A sequence of calls** has the outcomes it has on the reader. -/
theorem run_refines (h : CallerRefines data total top c a) (hdata : data.length ≤ INT_MAX) (ops : List Op) :
    run CodedInputStream.perform CodedInputStream.currentPosition c ops =
      run (Reader.perform data total) pos a ops := by
  induction ops generalizing c a with
  | nil => rfl
  | cons op ops ih =>
    have hcall := perform_refines h hdata op
    rw [run, run]
    generalize CodedInputStream.perform c op = result at hcall
    generalize Reader.perform data total a op = result' at hcall
    cases result with
    | none =>
      cases result' with
      | none => rfl
      | some _ => exact hcall.elim
    | some call =>
      obtain ⟨ok, value, c'⟩ := call
      cases result' with
      | none => exact hcall.elim
      | some call' =>
        obtain ⟨ok', value', a'⟩ := call'
        obtain ⟨rfl, rfl, hnext⟩ := hcall
        cases ok with
        | false => rfl
        | true =>
          have hc := hnext rfl
          simp only [hc.stream.currentPosition, ih hc]

end Protoc.Io
