import Protoc.Io.EpsCopyOutputErrors

/-!
# How many blocks the coded output takes

Where every buffer is a block of one size, the stream has handed out as many blocks as the
bytes written need: a block is asked for only when a byte goes behind the blocks before it.
-/

namespace Protoc.Io

open Protoc.Lib
open List

/-- A stream that never fails and hands out blocks of one size. -/
structure Blocks (buffers : Buffers) (size : ℕ) : Prop where
  succeeds : ∀ n, buffers.result n ≠ none
  length_eq : ∀ n data, buffers.result n = some data → data.length = size
  pos : 0 < size

/-- What was handed out is the blocks. -/
structure Filled (size : ℕ) (stream : ZeroCopyOutputStream) : Prop where
  length_eq : stream.bytes.length = stream.calls * size
  last_le : stream.last ≤ size

/-- The last block is needed for the bytes written, unless it is the first one. -/
def Tight (size : ℕ) (stream : ZeroCopyOutputStream) (out : List UInt8) : Prop :=
  1 < stream.calls → stream.calls * size < out.length + size

theorem Blocks.nonempty {buffers : Buffers} {size : ℕ} (h : Blocks buffers size) (n : ℕ) :
    buffers.result n ≠ some [] := by
  intro hempty
  have hpos := h.pos
  have hlength := h.length_eq n [] hempty
  simp only [length_nil] at hlength
  omega

namespace EpsCopyOutputStream

variable {s : EpsCopyOutputStream} {ptr : Ptr} {out data : List UInt8} {buffers : Buffers}
  {size : ℕ}

theorem Holds.length_le (h : Holds s ptr out) : s.stream.bytes.length ≤ out.length + s.stream.last := by
  cases h with
  | @direct p e _ h =>
    have hlength := h.length_eq
    have hlast := h.last_le
    rw [h.out_eq, length_take]
    omega
  | @patched p e b _ h =>
    have hlength := h.length_eq
    have hlast := h.last_le
    rw [h.out_eq, length_append, length_take]
    omega

theorem Holds.calls_le (h : Holds s ptr out) (hfilled : Filled size s.stream) :
    s.stream.calls * size ≤ out.length + size := by
  have hlength := h.length_le
  have hlast := hfilled.last_le
  rw [hfilled.length_eq] at hlength
  omega

theorem Holds.tight_append (h : Holds s ptr out) (hfilled : Filled size s.stream)
    (hdata : data ≠ []) : Tight size s.stream (out ++ data) := by
  intro
  have hcalls := h.calls_le hfilled
  have hpos := length_pos_of_ne_nil hdata
  rw [length_append]
  omega

theorem Holds.store_filled (h : Holds s ptr out) (hfits : data.length ≤ s.getSize ptr)
    (hfilled : Filled size s.stream) : Filled size (s.store ptr data).stream := by
  cases h with
  | @direct p e _ h =>
    have hlength : p + data.length ≤ s.stream.bytes.length := by
      simp only [getSize, h.end_eq, Ptr.diff, Ptr.offset] at hfits
      have := h.ptr_le
      have := h.length_eq
      omega
    exact ⟨(Ring.length_blit hlength).trans hfilled.length_eq, hfilled.last_le⟩
  | patched h => exact hfilled

/-- A new block for the patch buffer. -/
theorem Patched.next_filled {p e b : ℕ} (h : Patched s p e b out) (hblocks : Blocks buffers size)
    (hfilled : Filled size s.stream) : Filled size (s.next buffers).2.stream ∧
      (s.next buffers).2.stream.calls = s.stream.calls + 1 := by
  obtain ⟨data, hdata⟩ := Option.ne_none_iff_exists'.mp (hblocks.succeeds s.stream.calls)
  have hnull : s.bufferEnd ≠ .null := by
    rcases h.bufferEnd_eq with heq | ⟨heq, -⟩ <;> simp [heq]
  have hfirst : (s.end_.diff (.patch 0)).toNat = e := by
    simp [h.end_eq, Ptr.diff, Ptr.offset]
  have hdatalen := hblocks.length_eq _ _ hdata
  have hbuffer := h.buffer_length
  have hend := h.end_le
  have hlength := h.length_eq
  have hfilledlen := hfilled.length_eq
  simp only [kSlopBytes] at hend
  have hmemory : (s.stream.bytes.take b ++ s.buffer.take e).length = s.stream.calls * size := by
    rw [length_append, length_take, length_take, hbuffer]
    omega
  refine ⟨?_, (s.next_of_some hblocks.nonempty hnull (hblocks.succeeds _)).1⟩
  rw [next, if_pos hnull, hfirst, h.fill le_rfl, hlength, drop_length, append_nil]
  simp only [ZeroCopyOutputStream.nextNonEmpty_eq_next hblocks.nonempty,
    ZeroCopyOutputStream.next, hdata, Option.map_some, h.end_eq]
  by_cases hlarge : kSlopBytes < data.length
  · rw [if_pos hlarge]
    simp only [memcpy, load, store, ZeroCopyOutputStream.byteCount]
    constructor
    · rw [Ring.length_blit, length_append, hmemory, hdatalen, Nat.add_mul, one_mul]
      simp only [length_append, length_take, length_drop, kSlopBytes] at hlarge ⊢
      omega
    · exact le_of_eq hdatalen
  · rw [if_neg hlarge]
    simp only [memcpy, load, store]
    constructor
    · rw [length_append, hmemory, hdatalen, Nat.add_mul, one_mul]
    · exact le_of_eq hdatalen

/-- **`Next`** keeps the blocks; a new one holds the overrun. -/
theorem Holds.next_filled (h : Holds s ptr out) (hblocks : Blocks buffers size)
    (hover : 0 ≤ ptr.diff s.end_) (hfilled : Filled size s.stream) :
    Filled size (s.next buffers).2.stream ∧ ((s.next buffers).2.stream = s.stream ∨
        (s.next buffers).2.stream.calls * size + (ptr.diff s.end_).toNat = out.length + size) := by
  cases h with
  | direct h =>
    rw [h.next_eq]
    exact ⟨hfilled, .inl rfl⟩
  | @patched p e b _ h =>
    obtain ⟨hnext, hcalls⟩ := h.next_filled hblocks hfilled
    refine ⟨hnext, .inr ?_⟩
    have hbuffer := h.buffer_length
    have hend := h.end_le
    have hptr := h.ptr_le
    have hlength := h.length_eq
    have hfilledlen := hfilled.length_eq
    simp only [h.end_eq, Ptr.diff, Ptr.offset] at hover
    simp only [kSlopBytes] at hend hptr
    rw [hcalls, Nat.add_mul, ← hfilledlen, h.out_eq, length_append, length_take, length_take, hbuffer]
    simp only [h.end_eq, Ptr.diff, Ptr.offset]
    omega

section
variable (hblocks : Blocks buffers size)
include hblocks

theorem ensureSpaceLoop_filled (fuel : ℕ) (h : Holds s ptr out) (hover : 0 ≤ ptr.diff s.end_)
    (hfuel : ptr.diff s.end_ < fuel) (hfilled : Filled size s.stream) :
    Filled size (ensureSpaceLoop buffers fuel ptr s).2.stream := by
  induction fuel generalizing s ptr with
  | zero => omega
  | succ fuel ih =>
    obtain ⟨hnext, hless⟩ := h.next_holds hblocks.succeeds hover
    have hfilled' := (h.next_filled hblocks hover hfilled).1
    rw [ensureSpaceLoop, h.ready.noError, if_neg Bool.false_ne_true]
    simp only
    generalize s.next buffers = r at hnext hless hfilled' ⊢
    by_cases hagain : 0 ≤ (r.1.add (ptr.diff s.end_).toNat).diff r.2.end_
    · rw [if_pos hagain]
      exact ih hnext hagain (by omega) hfilled'
    · rw [if_neg hagain]
      exact hfilled'

theorem Holds.ensureSpaceFallback_filled (h : Holds s ptr out) (hover : 0 ≤ ptr.diff s.end_)
    (hfilled : Filled size s.stream) : Filled size (s.ensureSpaceFallback buffers ptr).2.stream :=
  ensureSpaceLoop_filled hblocks ((ptr.diff s.end_).toNat + 1) h hover (by omega) hfilled

/-- **`EnsureSpace`** keeps the blocks. -/
theorem Holds.ensureSpace_filled (h : Holds s ptr out) (hfilled : Filled size s.stream) :
    Filled size (s.ensureSpace buffers ptr).2.stream := by
  by_cases hover : 0 ≤ ptr.diff s.end_
  · rw [ensureSpace, if_pos hover]
    exact h.ensureSpaceFallback_filled hblocks hover hfilled
  · rw [ensureSpace, if_neg hover]
    exact hfilled

/-- The last thing the loop does is to store a byte. -/
theorem writeRawLoop_tight (fuel : ℕ) (h : Holds s ptr out)
    (hfuel : data.length + 1 < fuel + min 1 (s.getSize ptr)) (hfilled : Filled size s.stream)
    (hdata : data ≠ []) : Filled size (writeRawLoop buffers fuel data ptr s).2.stream ∧
      Tight size (writeRawLoop buffers fuel data ptr s).2.stream (out ++ data) := by
  induction fuel generalizing s ptr out data with
  | zero => omega
  | succ fuel ih =>
    rw [writeRawLoop]
    simp only
    by_cases hmore : s.getSize ptr < data.length
    · rw [if_pos hmore]
      have htake : (data.take (s.getSize ptr)).length = s.getSize ptr := by simp; omega
      have hstore := h.store_holds (le_of_eq htake)
      have hstored := h.store_filled (le_of_eq htake) hfilled
      rw [htake] at hstore
      have hover : 0 ≤ (ptr.add (s.getSize ptr)).diff
          (s.store ptr (data.take (s.getSize ptr))).end_ := by
        rw [store_end, h.diff_add, getSize, Ptr.diff_comm ptr]
        omega
      obtain ⟨hholds, hspace⟩ := hstore.ensureSpaceFallback_holds hblocks.succeeds hover
      have hrest : (data.drop (s.getSize ptr)).length = data.length - s.getSize ptr := length_drop
      have hne : data.drop (s.getSize ptr) ≠ [] := by
        apply ne_nil_of_length_pos
        omega
      have hall := ih hholds (show _ + 1 < _ by rw [hrest]; omega)
        (hstore.ensureSpaceFallback_filled hblocks hover hstored) hne
      rwa [append_assoc, take_append_drop] at hall
    · rw [if_neg hmore]
      refine ⟨h.store_filled (by omega) hfilled, ?_⟩
      rw [Tight, calls_store]
      exact h.tight_append hfilled hdata

/-- **`WriteRaw`** takes no block in vain. -/
theorem Holds.writeRaw_tight (h : Holds s ptr out) (hfilled : Filled size s.stream)
    (htight : Tight size s.stream out) (data : List UInt8) :
    Filled size (s.writeRaw buffers data ptr).2.stream ∧
      Tight size (s.writeRaw buffers data ptr).2.stream (out ++ data) := by
  by_cases hfits : s.end_.diff ptr < data.length
  · rw [writeRaw, if_pos hfits]
    by_cases hdata : data = []
    · subst hdata
      rw [writeRawFallback, writeRawLoop, append_nil]
      simp only [length_nil, not_lt_zero, if_false]
      refine ⟨h.store_filled (Nat.zero_le _) hfilled, ?_⟩
      rw [Tight, calls_store]
      exact htight
    · exact writeRawLoop_tight hblocks (data.length + 2) h (by omega) hfilled hdata
  · rw [writeRaw, if_neg hfits]
    refine ⟨h.store_filled (by rw [getSize]; omega) hfilled, ?_⟩
    rw [Tight, calls_store]
    by_cases hdata : data = []
    · rw [hdata, append_nil]
      exact htight
    · exact h.tight_append hfilled hdata

theorem flushLoop_tight (fuel : ℕ) (h : Holds s ptr out) (hfilled : Filled size s.stream)
    (htight : Tight size s.stream out) : Filled size (flushLoop buffers fuel ptr s).2.stream ∧
      Tight size (flushLoop buffers fuel ptr s).2.stream out := by
  induction fuel generalizing s ptr with
  | zero => exact ⟨hfilled, htight⟩
  | succ fuel ih =>
    rw [flushLoop]
    by_cases hmore : s.bufferEnd ≠ .null ∧ 0 < ptr.diff s.end_
    · have hover : 0 ≤ ptr.diff s.end_ := le_of_lt hmore.2
      have hnext := (h.next_holds hblocks.succeeds hover).1
      obtain ⟨hfilled', hcalls⟩ := h.next_filled hblocks hover hfilled
      rw [if_pos hmore]
      simp only [hnext.ready.noError, Bool.false_eq_true, if_false]
      apply ih hnext hfilled'
      rcases hcalls with heq | hcalls
      · rwa [heq]
      · intro
        omega
    · rw [if_neg hmore]
      exact ⟨hfilled, htight⟩

/-- **`Flush`** takes no block in vain. -/
theorem Holds.flush_tight (h : Holds s ptr out) (hfilled : Filled size s.stream)
    (htight : Tight size s.stream out) :
    Filled size (s.flush buffers ptr).2.stream ∧ Tight size (s.flush buffers ptr).2.stream out := by
  have hloop := flushLoop_holds hblocks.succeeds ((ptr.diff s.end_).toNat + 1) h (by omega)
  obtain ⟨hfilled', htight'⟩ := flushLoop_tight hblocks ((ptr.diff s.end_).toNat + 1) h hfilled
    htight
  rw [flush]
  generalize flushLoop buffers ((ptr.diff s.end_).toNat + 1) ptr s = r at hloop hfilled' htight' ⊢
  obtain ⟨ptr, s⟩ := r
  obtain ⟨hloop, hover⟩ := hloop
  simp only at hloop hover hfilled' htight' ⊢
  rw [if_neg (by rw [hloop.ready.noError]; exact Bool.false_ne_true)]
  by_cases hnull : s.bufferEnd ≠ .null
  · rw [if_pos hnull]
    cases hloop with
    | direct hloop => exact absurd hloop.bufferEnd_eq hnull
    | @patched p e b _ hloop =>
      have hle : p ≤ e := by
        have := hover hnull
        simp only [hloop.end_eq, Ptr.diff, Ptr.offset] at this
        omega
      have hptr : (Ptr.diff (.patch p) (.patch 0)).toNat = p := by simp [Ptr.diff, Ptr.offset]
      have hbuffer := hloop.buffer_length
      have hend := hloop.end_le
      have hlength := hloop.length_eq
      have hfilledlen := hfilled'.length_eq
      simp only [kSlopBytes] at hend
      rw [hptr, hloop.fill hle]
      refine ⟨⟨?_, hfilled'.last_le⟩, htight'⟩
      simp only [length_append, length_take, length_drop, hbuffer]
      omega
  · rw [if_neg hnull]
    exact ⟨hfilled', htight'⟩

/-- **`Trim`** leaves as many blocks as the bytes written need. -/
theorem Holds.trim_calls (h : Holds s ptr out) (hfilled : Filled size s.stream)
    (htight : Tight size s.stream out) : out.length ≤ (s.trim buffers ptr).2.stream.calls * size ∧
      Tight size (s.trim buffers ptr).2.stream out := by
  have hflush := h.flush_flushed hblocks.succeeds
  obtain ⟨hfilled', htight'⟩ := h.flush_tight hblocks hfilled htight
  have hlength := hflush.length_eq
  rw [hfilled'.length_eq] at hlength
  rw [trim, h.ready.noError, if_neg Bool.false_ne_true]
  simp only
  have hcalls : (if (s.flush buffers ptr).1 ≠ 0 then
      (s.flush buffers ptr).2.stream.backUp (s.flush buffers ptr).1
      else (s.flush buffers ptr).2.stream).calls = (s.flush buffers ptr).2.stream.calls := by
    split <;> rfl
  rw [Tight, hcalls]
  exact ⟨by omega, htight'⟩

end

end EpsCopyOutputStream

end Protoc.Io
