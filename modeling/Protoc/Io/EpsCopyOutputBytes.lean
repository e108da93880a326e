import Protoc.Io.EpsCopyOutput

/-!
# No byte is lost or invented

What was written and not yet handed over stands in two places: in the stream's memory, and
behind it in the patch buffer.  Every function that moves between the buffers keeps the
two together the bytes written.
-/

namespace Protoc.Io

open Protoc.Lib
open List ZeroCopyOutputStream

namespace EpsCopyOutputStream

/-- No error, and the patch buffer has its size. -/
structure Ready (s : EpsCopyOutputStream) : Prop where
  buffer_length : s.buffer.length = 32
  noError : s.hadError = false

/-- The position is in the stream's last buffer, which ends 16 bytes behind `end_`. -/
structure Direct (s : EpsCopyOutputStream) (p e : ℕ) (out : List UInt8) : Prop extends Ready s where
  end_eq : s.end_ = .stream e
  bufferEnd_eq : s.bufferEnd = .null
  length_eq : e + kSlopBytes = s.stream.bytes.length
  ptr_le : p ≤ e + kSlopBytes
  last_large : kSlopBytes < s.stream.last
  last_le : e + kSlopBytes ≤ p + s.stream.last
  out_eq : out = s.stream.bytes.take p

/-- The position is in the patch buffer, whose first part goes to the end of the stream's
memory, from `b` on. -/
structure Patched (s : EpsCopyOutputStream) (p e b : ℕ) (out : List UInt8) : Prop
    extends Ready s where
  end_eq : s.end_ = .patch e
  bufferEnd_eq : s.bufferEnd = .stream b ∨ s.bufferEnd = .patch 0 ∧ e = 0
  length_eq : b + e = s.stream.bytes.length
  end_le : e ≤ kSlopBytes
  ptr_le : p ≤ e + kSlopBytes
  last_le : e ≤ s.stream.last
  out_eq : out = s.stream.bytes.take b ++ s.buffer.take p

/-- The bytes written up to a pointer. -/
inductive Holds (s : EpsCopyOutputStream) : Ptr → List UInt8 → Prop
  | direct {p e : ℕ} {out : List UInt8} (h : Direct s p e out) : Holds s (.stream p) out
  | patched {p e b : ℕ} {out : List UInt8} (h : Patched s p e b out) : Holds s (.patch p) out

variable {s : EpsCopyOutputStream} {ptr : Ptr} {out data : List UInt8} {buffers : Buffers}

theorem Holds.ready (h : Holds s ptr out) : s.Ready := by
  cases h with
  | direct h => exact h.toReady
  | patched h => exact h.toReady

theorem Holds.byteCount_eq (h : Holds s ptr out) : s.byteCount ptr = out.length := by
  cases h with
  | @direct p e _ h =>
    have hlength := h.length_eq
    have hptr := h.ptr_le
    simp only [byteCount, ZeroCopyOutputStream.byteCount, h.end_eq, h.bufferEnd_eq, h.out_eq,
      Ptr.diff, Ptr.offset, ne_eq, not_true_eq_false, if_false, length_take, ← hlength]
    omega
  | @patched p e b _ h =>
    have hnull : s.bufferEnd ≠ .null := by
      rcases h.bufferEnd_eq with heq | ⟨heq, -⟩ <;> simp [heq]
    have hlength := h.length_eq
    have hbuffer := h.buffer_length
    have hptr := h.ptr_le
    have hend := h.end_le
    simp only [kSlopBytes] at hptr hend
    simp only [byteCount, ZeroCopyOutputStream.byteCount, h.end_eq, h.out_eq, if_pos hnull,
      Ptr.diff, Ptr.offset, length_append, length_take, ← hlength, hbuffer]
    omega

theorem take_blit_self {bytes : List UInt8} {p : ℕ} (h : p ≤ bytes.length) :
    (Ring.blit bytes p data).take (p + data.length) = bytes.take p ++ data := by
  rw [Ring.take_blit h le_rfl, take_length]

/-- What fits before the end of the slop region may be written. -/
theorem Holds.store_holds (h : Holds s ptr out) (hfits : data.length ≤ s.getSize ptr) :
    Holds (s.store ptr data) (ptr.add data.length) (out ++ data) := by
  cases h with
  | @direct p e _ h =>
    have hfits : p + data.length ≤ e + kSlopBytes := by
      simp only [getSize, h.end_eq, Ptr.diff, Ptr.offset] at hfits
      have := h.ptr_le
      omega
    have hlength : p + data.length ≤ s.stream.bytes.length := h.length_eq ▸ hfits
    apply Holds.direct (e := e)
    exact {
      buffer_length := h.buffer_length
      noError := h.noError
      end_eq := h.end_eq
      bufferEnd_eq := h.bufferEnd_eq
      length_eq := by rw [h.length_eq]; exact (Ring.length_blit hlength).symm
      ptr_le := hfits
      last_large := h.last_large
      last_le := le_trans h.last_le (by simp only [store]; omega)
      out_eq := by
        rw [h.out_eq]
        exact (take_blit_self (by omega)).symm }
  | @patched p e b _ h =>
    have hfits : p + data.length ≤ e + kSlopBytes := by
      simp only [getSize, h.end_eq, Ptr.diff, Ptr.offset] at hfits
      have := h.ptr_le
      omega
    have hend := h.end_le
    have hbuffer := h.buffer_length
    have hlength : p + data.length ≤ s.buffer.length := by
      simp only [kSlopBytes] at hfits hend
      omega
    apply Holds.patched (e := e) (b := b)
    exact {
      buffer_length := by rw [← hbuffer]; exact Ring.length_blit hlength
      noError := h.noError
      end_eq := h.end_eq
      bufferEnd_eq := h.bufferEnd_eq
      length_eq := h.length_eq
      end_le := h.end_le
      ptr_le := hfits
      last_le := h.last_le
      out_eq := by
        rw [h.out_eq, append_assoc]
        exact congrArg _ (take_blit_self (by omega)).symm }

theorem Patched.fill {p e b n : ℕ} (h : Patched s p e b out) (hn : n ≤ e) :
    s.memcpy s.bufferEnd (.patch 0) n = { s with
      stream.bytes := s.stream.bytes.take b ++ s.buffer.take n ++ s.stream.bytes.drop (b + n) } := by
  have hbuffer := h.buffer_length
  have hend := h.end_le
  simp only [kSlopBytes] at hend
  rcases h.bufferEnd_eq with heq | ⟨heq, rfl⟩
  · have htake : (s.buffer.take n).length = n := by simp; omega
    simp [memcpy, store, load, heq, Ring.blit, htake]
  · obtain rfl : n = 0 := by omega
    simp [memcpy, store, load, heq, Ring.blit]

variable {p e b : ℕ}

theorem Patched.slop_length (h : Patched s p e b out) {slop : List UInt8}
    (hslop : slop = (s.buffer.drop e).take kSlopBytes) : slop.length = kSlopBytes := by
  have hbuffer := h.buffer_length
  have hend := h.end_le
  simp only [hslop, kSlopBytes, length_take, length_drop] at hend ⊢
  omega

theorem Ready.length_slop (h : s.Ready) {slop : List UInt8} (hslop : slop.length = kSlopBytes) :
    (Ring.blit s.buffer 0 slop).length = 32 := by
  rw [← h.buffer_length]
  apply Ring.length_blit
  rw [hslop, h.buffer_length, kSlopBytes]
  omega

variable {bytes slop : List UInt8}

theorem take_slop {o : ℕ} (ho : o ≤ slop.length) : (Ring.blit bytes 0 slop).take o = slop.take o := by
  rw [← zero_add o, Ring.take_blit (Nat.zero_le _) ho, take_zero, nil_append, zero_add]

theorem Direct.next_eq {p e : ℕ} (h : Direct s p e out) : s.next buffers = (.patch 0, { s with
      buffer := Ring.blit s.buffer 0 ((s.stream.bytes.drop e).take kSlopBytes)
      bufferEnd := .stream e
      end_ := .patch kSlopBytes }) := by
  simp [next, h.bufferEnd_eq, h.end_eq, memcpy, store, load]

theorem Direct.carry {e o : ℕ} (h : Direct s (e + o) e out) : Patched { s with
      buffer := Ring.blit s.buffer 0 ((s.stream.bytes.drop e).take kSlopBytes)
      bufferEnd := .stream e
      end_ := .patch kSlopBytes } o kSlopBytes e out := by
  have ho : o ≤ kSlopBytes := by have := h.ptr_le; omega
  have hslop : ((s.stream.bytes.drop e).take kSlopBytes).length = kSlopBytes := by
    simp [← h.length_eq]
  exact {
    buffer_length := h.length_slop hslop
    noError := h.noError
    end_eq := rfl
    bufferEnd_eq := .inl rfl
    length_eq := h.length_eq
    end_le := le_rfl
    ptr_le := by omega
    last_le := le_of_lt h.last_large
    out_eq := by
      rw [take_slop (by omega), h.out_eq, take_add, take_take, min_eq_left ho] }

theorem Patched.bufferEnd_ne_null (h : Patched s p e b out) : s.bufferEnd ≠ .null := by
  rcases h.bufferEnd_eq with heq | ⟨heq, -⟩ <;> simp [heq]

theorem Patched.fill_all (h : Patched s p e b out) :
    s.memcpy s.bufferEnd (.patch 0) (s.end_.diff (.patch 0)).toNat =
      { s with stream.bytes := s.stream.bytes.take b ++ s.buffer.take e } := by
  have hfirst : (s.end_.diff (.patch 0)).toNat = e := by
    simp [h.end_eq, Ptr.diff, Ptr.offset]
  rw [hfirst, h.fill le_rfl, h.length_eq, drop_length, append_nil]

theorem Patched.next_of_none (h : Patched s p e b out)
    (hstream : nextNonEmpty buffers
      { s.stream with bytes := s.stream.bytes.take b ++ s.buffer.take e } = none) :
    s.next buffers = (.patch 0, { s with
      stream.bytes := s.stream.bytes.take b ++ s.buffer.take e
      hadError := true
      end_ := .patch kSlopBytes }) := by
  rw [next, if_pos h.bufferEnd_ne_null, h.fill_all]
  simp only [hstream]
  rfl

theorem Patched.next_of_some {p e b calls : ℕ} (h : Patched s p e b out)
    (hstream : nextNonEmpty buffers
      { s.stream with bytes := s.stream.bytes.take b ++ s.buffer.take e } =
        some (data.length, ⟨s.stream.bytes.take b ++ s.buffer.take e ++ data, calls, data.length⟩)) :
    s.next buffers =
      let bytes := s.stream.bytes.take b ++ s.buffer.take e
      let slop := (s.buffer.drop e).take kSlopBytes
      if kSlopBytes < data.length then
        (.stream bytes.length, { s with
          stream := ⟨Ring.blit (bytes ++ data) bytes.length slop, calls, data.length⟩
          end_ := .stream (bytes.length + (data.length - kSlopBytes))
          bufferEnd := .null })
      else
        (.patch 0, { s with
          buffer := Ring.blit s.buffer 0 slop
          stream := ⟨bytes ++ data, calls, data.length⟩
          bufferEnd := .stream bytes.length
          end_ := .patch data.length }) := by
  rw [next, if_pos h.bufferEnd_ne_null, h.fill_all]
  simp only [hstream, h.end_eq]
  rfl

theorem Patched.carry_large {e o b : ℕ} (h : Patched s (e + o) e b out)
    (hbytes : bytes = s.stream.bytes.take b ++ s.buffer.take e)
    (hslop : slop = (s.buffer.drop e).take kSlopBytes) {calls : ℕ}
    (hlarge : kSlopBytes < data.length) :
    Direct { s with
      stream := ⟨Ring.blit (bytes ++ data) bytes.length slop, calls, data.length⟩
      end_ := .stream (bytes.length + (data.length - kSlopBytes))
      bufferEnd := .null } (bytes.length + o) (bytes.length + (data.length - kSlopBytes)) out := by
  have ho : o ≤ kSlopBytes := by have := h.ptr_le; omega
  have hlength : slop.length = kSlopBytes := h.slop_length hslop
  exact {
    buffer_length := h.buffer_length
    noError := h.noError
    end_eq := rfl
    bufferEnd_eq := rfl
    length_eq := by
      rw [Ring.length_blit (by simp; omega), length_append]
      omega
    ptr_le := by omega
    last_large := hlarge
    last_le := by
      simp only
      omega
    out_eq := by
      rw [Ring.take_blit (by simp) (by omega), take_left, h.out_eq, hbytes, hslop,
        take_take, min_eq_left ho, take_add, append_assoc] }

theorem Patched.carry_small {e o b : ℕ} (h : Patched s (e + o) e b out)
    (hbytes : bytes = s.stream.bytes.take b ++ s.buffer.take e)
    (hslop : slop = (s.buffer.drop e).take kSlopBytes) {calls : ℕ}
    (hsmall : ¬ kSlopBytes < data.length) :
    Patched { s with
      buffer := Ring.blit s.buffer 0 slop
      stream := ⟨bytes ++ data, calls, data.length⟩
      bufferEnd := .stream bytes.length
      end_ := .patch data.length } o data.length bytes.length out := by
  have ho : o ≤ kSlopBytes := by have := h.ptr_le; omega
  have hlength : slop.length = kSlopBytes := h.slop_length hslop
  exact {
    buffer_length := h.length_slop hlength
    noError := h.noError
    end_eq := rfl
    bufferEnd_eq := .inl rfl
    length_eq := (length_append ..).symm
    end_le := by omega
    ptr_le := by omega
    last_le := le_rfl
    out_eq := by
      rw [take_slop (by omega), take_left, h.out_eq, hbytes, hslop, take_take,
        min_eq_left ho, take_add, append_assoc] }

/-- An error; the position and `end_` are in the patch buffer, whether `Error` or `Trim` left
them there. -/
structure Failed (s : EpsCopyOutputStream) (p e : ℕ) : Prop where
  buffer_length : s.buffer.length = 32
  hadError : s.hadError = true
  end_eq : s.end_ = .patch e
  end_le : e ≤ kSlopBytes
  ptr_le : p ≤ e + kSlopBytes

/-- **`Next`** keeps the bytes written and makes the overrun less, or it is an error. -/
theorem Holds.next_cases (buffers : Buffers) (h : Holds s ptr out) (hover : 0 ≤ ptr.diff s.end_) :
    (s.next buffers).1 = .patch 0 ∧ Failed (s.next buffers).2 0 kSlopBytes ∨
      Holds (s.next buffers).2 ((s.next buffers).1.add (ptr.diff s.end_).toNat) out ∧
        ((s.next buffers).1.add (ptr.diff s.end_).toNat).diff (s.next buffers).2.end_ < ptr.diff s.end_ := by
  cases h with
  | @direct p e _ h =>
    obtain ⟨o, rfl⟩ : ∃ o, p = e + o := by
      simp only [h.end_eq, Ptr.diff, Ptr.offset] at hover
      exact ⟨p - e, by omega⟩
    have hdiff : (Ptr.stream (e + o)).diff s.end_ = o := by
      simp [h.end_eq, Ptr.diff, Ptr.offset]
    rw [h.next_eq, hdiff, Int.toNat_natCast, Ptr.add, zero_add]
    refine .inr ⟨.patched h.carry, ?_⟩
    simp only [Ptr.diff, Ptr.offset, kSlopBytes]
    omega
  | @patched p e b _ h =>
    obtain ⟨o, rfl⟩ : ∃ o, p = e + o := by
      simp only [h.end_eq, Ptr.diff, Ptr.offset] at hover
      exact ⟨p - e, by omega⟩
    have hdiff : (Ptr.patch (e + o)).diff s.end_ = o := by
      simp [h.end_eq, Ptr.diff, Ptr.offset]
    cases hstream : nextNonEmpty buffers
        { s.stream with bytes := s.stream.bytes.take b ++ s.buffer.take e } with
    | none =>
      rw [h.next_of_none hstream]
      exact .inl ⟨rfl, h.buffer_length, rfl, rfl, le_rfl, Nat.zero_le _⟩
    | some r =>
      obtain ⟨data, calls, hne, hsize, hafter⟩ :=
        nextNonEmpty_of_some hstream
      have hr : r = (data.length, ⟨s.stream.bytes.take b ++ s.buffer.take e ++ data, calls,
          data.length⟩) := Prod.ext hsize hafter
      have hpos : 0 < data.length := length_pos_of_ne_nil hne
      rw [h.next_of_some (hstream.trans (congrArg some hr)), hdiff, Int.toNat_natCast]
      by_cases hlarge : kSlopBytes < data.length
      · simp only [if_pos hlarge, Ptr.add]
        refine .inr ⟨.direct (h.carry_large rfl rfl hlarge), ?_⟩
        simp only [Ptr.diff, Ptr.offset]
        omega
      · simp only [if_neg hlarge, Ptr.add, zero_add]
        refine .inr ⟨.patched (h.carry_small rfl rfl hlarge), ?_⟩
        simp only [Ptr.diff, Ptr.offset]
        omega

theorem Holds.next_noError (hsucceeds : ∀ n, buffers.result n ≠ none) (h : Holds s ptr out) :
    (s.next buffers).2.hadError = false := by
  cases h with
  | direct h =>
    rw [h.next_eq]
    exact h.noError
  | @patched p e b _ h =>
    obtain ⟨data, calls, -, hstream⟩ := nextNonEmpty_eq_some hsucceeds
      { s.stream with bytes := s.stream.bytes.take b ++ s.buffer.take e }
    rw [h.next_of_some hstream]
    simp only
    split <;> exact h.noError

/-- **`Next`** keeps the bytes written and makes the overrun less. -/
theorem Holds.next_holds (hsucceeds : ∀ n, buffers.result n ≠ none) (h : Holds s ptr out)
    (hover : 0 ≤ ptr.diff s.end_) :
    Holds (s.next buffers).2 ((s.next buffers).1.add (ptr.diff s.end_).toNat) out ∧
      ((s.next buffers).1.add (ptr.diff s.end_).toNat).diff (s.next buffers).2.end_ < ptr.diff s.end_ := by
  rcases h.next_cases buffers hover with ⟨-, hfailed⟩ | hnext
  · have hnone := h.next_noError hsucceeds
    rw [hfailed.hadError] at hnone
    exact Bool.noConfusion hnone
  · exact hnext

/-! ## Ensuring space -/

theorem Ptr.diff_comm (p q : Ptr) : p.diff q = -q.diff p := by
  simp only [Ptr.diff]
  omega

theorem Holds.diff_add (h : Holds s ptr out) (n : ℕ) (q : Ptr) : (ptr.add n).diff q = ptr.diff q + n := by
  cases h <;> simp only [Ptr.diff, Ptr.add, Ptr.offset] <;> omega

@[simp] theorem store_end (p : Ptr) : (s.store p data).end_ = s.end_ := by
  cases p <;> rfl

section
variable (hsucceeds : ∀ n, buffers.result n ≠ none)
include hsucceeds

theorem ensureSpaceLoop_holds (fuel : ℕ)
    (h : Holds s ptr out) (hover : 0 ≤ ptr.diff s.end_) (hfuel : ptr.diff s.end_ < fuel) :
    Holds (ensureSpaceLoop buffers fuel ptr s).2 (ensureSpaceLoop buffers fuel ptr s).1 out ∧
      (ensureSpaceLoop buffers fuel ptr s).1.diff (ensureSpaceLoop buffers fuel ptr s).2.end_ < 0 := by
  induction fuel generalizing s ptr with
  | zero => omega
  | succ fuel ih =>
    obtain ⟨hnext, hless⟩ := h.next_holds hsucceeds hover
    rw [ensureSpaceLoop, h.ready.noError, if_neg Bool.false_ne_true]
    simp only
    generalize s.next buffers = r at hnext hless ⊢
    by_cases hagain : 0 ≤ (r.1.add (ptr.diff s.end_).toNat).diff r.2.end_
    · rw [if_pos hagain]
      exact ih hnext hagain (by omega)
    · rw [if_neg hagain]
      exact ⟨hnext, not_le.mp hagain⟩

/-- **`EnsureSpaceFallback`** ends before `end_`. -/
theorem Holds.ensureSpaceFallback_holds (h : Holds s ptr out) (hover : 0 ≤ ptr.diff s.end_) :
    Holds (s.ensureSpaceFallback buffers ptr).2 (s.ensureSpaceFallback buffers ptr).1 out ∧
      kSlopBytes < (s.ensureSpaceFallback buffers ptr).2.getSize (s.ensureSpaceFallback buffers ptr).1 := by
  obtain ⟨hholds, hbefore⟩ := ensureSpaceLoop_holds hsucceeds ((ptr.diff s.end_).toNat + 1) h
    hover (by omega)
  refine ⟨hholds, ?_⟩
  rw [getSize, Ptr.diff_comm, ensureSpaceFallback]
  omega

/-- **`EnsureSpace`** leaves room for 16 bytes. -/
theorem Holds.ensureSpace_holds (h : Holds s ptr out) :
    Holds (s.ensureSpace buffers ptr).2 (s.ensureSpace buffers ptr).1 out ∧
      kSlopBytes < (s.ensureSpace buffers ptr).2.getSize (s.ensureSpace buffers ptr).1 := by
  by_cases hover : 0 ≤ ptr.diff s.end_
  · rw [ensureSpace, if_pos hover]
    exact h.ensureSpaceFallback_holds hsucceeds hover
  · rw [ensureSpace, if_neg hover]
    refine ⟨h, ?_⟩
    simp only [getSize, Ptr.diff_comm s.end_]
    omega

end

/-! ## Writing raw bytes -/

theorem writeRawLoop_holds (hsucceeds : ∀ n, buffers.result n ≠ none) (fuel : ℕ)
    (h : Holds s ptr out) (hfuel : data.length + 1 < fuel + min 1 (s.getSize ptr)) :
    Holds (writeRawLoop buffers fuel data ptr s).2 (writeRawLoop buffers fuel data ptr s).1 (out ++ data) := by
  induction fuel generalizing s ptr out data with
  | zero => omega
  | succ fuel ih =>
    rw [writeRawLoop]
    simp only
    by_cases hmore : s.getSize ptr < data.length
    · rw [if_pos hmore]
      have htake : (data.take (s.getSize ptr)).length = s.getSize ptr := by simp; omega
      have hstore := h.store_holds (le_of_eq htake)
      rw [htake] at hstore
      have hover : 0 ≤ (ptr.add (s.getSize ptr)).diff
          (s.store ptr (data.take (s.getSize ptr))).end_ := by
        rw [store_end, h.diff_add, getSize, Ptr.diff_comm ptr]
        omega
      obtain ⟨hholds, hspace⟩ := hstore.ensureSpaceFallback_holds hsucceeds hover
      have hrest : (data.drop (s.getSize ptr)).length = data.length - s.getSize ptr :=
        length_drop
      have hall := ih hholds (show _ + 1 < _ by rw [hrest]; omega)
      rwa [append_assoc, take_append_drop] at hall
    · rw [if_neg hmore]
      exact h.store_holds (by omega)

/-- **`WriteRaw`** writes all the bytes. -/
theorem Holds.writeRaw_holds (hsucceeds : ∀ n, buffers.result n ≠ none) (h : Holds s ptr out)
    (data : List UInt8) :
    Holds (s.writeRaw buffers data ptr).2 (s.writeRaw buffers data ptr).1 (out ++ data) := by
  by_cases hfits : s.end_.diff ptr < data.length
  · rw [writeRaw, if_pos hfits]
    exact writeRawLoop_holds hsucceeds (data.length + 2) h (by omega)
  · rw [writeRaw, if_neg hfits]
    apply h.store_holds
    rw [getSize]
    omega

/-! ## Flushing -/

/-- The bytes written stand in the stream's memory, and `size` bytes from `data` on are left
of its last buffer. -/
structure Flushed (s : EpsCopyOutputStream) (data : Ptr) (size : ℕ) (out : List UInt8) : Prop
    extends Ready s where
  data_eq : data = .stream out.length ∨ data = .patch 0 ∧ size = 0
  length_eq : out.length + size = s.stream.bytes.length
  last_le : size ≤ s.stream.last
  out_eq : out = s.stream.bytes.take out.length

theorem flushLoop_holds (hsucceeds : ∀ n, buffers.result n ≠ none) (fuel : ℕ)
    (h : Holds s ptr out) (hfuel : ptr.diff s.end_ < fuel) :
    Holds (flushLoop buffers fuel ptr s).2 (flushLoop buffers fuel ptr s).1 out ∧
      ((flushLoop buffers fuel ptr s).2.bufferEnd ≠ .null →
        (flushLoop buffers fuel ptr s).1.diff (flushLoop buffers fuel ptr s).2.end_ ≤ 0) := by
  induction fuel generalizing s ptr with
  | zero => exact ⟨h, fun _ => by simp only [flushLoop]; omega⟩
  | succ fuel ih =>
    rw [flushLoop]
    by_cases hmore : s.bufferEnd ≠ .null ∧ 0 < ptr.diff s.end_
    · obtain ⟨hnext, hless⟩ := h.next_holds hsucceeds (by omega)
      rw [if_pos hmore]
      simp only [hnext.ready.noError, Bool.false_eq_true, if_false]
      exact ih hnext (by omega)
    · rw [if_neg hmore]
      refine ⟨h, fun hnull => ?_⟩
      simp only [not_and, not_lt] at hmore
      exact hmore hnull

/-- What `Flush` does after its loop. -/
def flushEnd (r : Ptr × EpsCopyOutputStream) : ℕ × EpsCopyOutputStream :=
  if r.2.hadError then (0, r.2)
  else if r.2.bufferEnd ≠ .null then
    let n := (r.1.diff (.patch 0)).toNat
    let s := r.2.memcpy r.2.bufferEnd (.patch 0) n
    ((s.end_.diff r.1).toNat, { s with bufferEnd := s.bufferEnd.add n })
  else (r.2.getSize r.1, { r.2 with bufferEnd := r.1 })

theorem flush_eq_flushEnd (s : EpsCopyOutputStream) (ptr : Ptr) :
    s.flush buffers ptr = flushEnd (flushLoop buffers ((ptr.diff s.end_).toNat + 1) ptr s) := rfl

/-- After the loop the bytes written are handed over. -/
theorem Holds.flushEnd_flushed (hloop : Holds s ptr out) (hover : s.bufferEnd ≠ .null → ptr.diff s.end_ ≤ 0) :
    Flushed (flushEnd (ptr, s)).2 (flushEnd (ptr, s)).2.bufferEnd (flushEnd (ptr, s)).1 out := by
  rw [flushEnd, if_neg (by rw [hloop.ready.noError]; exact Bool.false_ne_true)]
  cases hloop with
  | @direct p e _ hloop =>
    have hlength := hloop.length_eq
    have hptr := hloop.ptr_le
    have hlast := hloop.last_le
    have hout : out.length = p := by
      rw [hloop.out_eq, length_take]
      omega
    have hsize : s.getSize (.stream p) = e + kSlopBytes - p := by
      simp only [getSize, hloop.end_eq, Ptr.diff, Ptr.offset]
      omega
    rw [if_neg (not_not.mpr hloop.bufferEnd_eq), hsize]
    exact {
      buffer_length := hloop.buffer_length
      noError := hloop.noError
      data_eq := .inl (by rw [hout])
      length_eq := by
        simp only
        omega
      last_le := by
        simp only
        omega
      out_eq := by
        rw [hout]
        exact hloop.out_eq }
  | @patched p e b _ hloop =>
    have hnull : s.bufferEnd ≠ .null := by
      rcases hloop.bufferEnd_eq with heq | ⟨heq, -⟩ <;> simp [heq]
    have hle : p ≤ e := by
      have := hover hnull
      simp only [hloop.end_eq, Ptr.diff, Ptr.offset] at this
      omega
    have hbuffer := hloop.buffer_length
    have hlength := hloop.length_eq
    have hend := hloop.end_le
    have hlast := hloop.last_le
    have hptr : (Ptr.diff (.patch p) (.patch 0)).toNat = p := by simp [Ptr.diff, Ptr.offset]
    have hsize : (s.end_.diff (.patch p)).toNat = e - p := by
      simp only [hloop.end_eq, Ptr.diff, Ptr.offset]
      omega
    have hout : out.length = b + p := by
      simp only [kSlopBytes] at hend
      rw [hloop.out_eq, length_append, length_take, length_take]
      omega
    rw [if_pos hnull, hptr]
    simp only [hloop.fill hle, hsize]
    exact {
      buffer_length := hloop.buffer_length
      noError := hloop.noError
      data_eq := by
        rcases hloop.bufferEnd_eq with heq | ⟨heq, he⟩
        · exact .inl (by rw [heq, hout, Ptr.add])
        · exact .inr ⟨by rw [heq, Ptr.add, show p = 0 by omega], by omega⟩
      length_eq := by
        rw [hout, length_append, ← hloop.out_eq, hout, length_drop]
        omega
      last_le := by
        simp only
        omega
      out_eq := by
        simp only
        rw [← hloop.out_eq, take_left] }

/-- **`Flush`** hands over all the bytes written. -/
theorem Holds.flush_flushed (hsucceeds : ∀ n, buffers.result n ≠ none) (h : Holds s ptr out) :
    Flushed (s.flush buffers ptr).2 (s.flush buffers ptr).2.bufferEnd (s.flush buffers ptr).1 out := by
  obtain ⟨hloop, hover⟩ := flushLoop_holds hsucceeds ((ptr.diff s.end_).toNat + 1) h (by omega)
  rw [flush_eq_flushEnd]
  exact hloop.flushEnd_flushed hover

/-- **`SetInitialBuffer`** on what is left of the last buffer. -/
theorem Flushed.setInitialBuffer_holds {p : Ptr} {size : ℕ} (h : Flushed s p size out) :
    Holds (s.setInitialBuffer p size).2 (s.setInitialBuffer p size).1 out := by
  have hlength := h.length_eq
  have hlast := h.last_le
  rw [setInitialBuffer]
  by_cases hlarge : kSlopBytes < size
  · rw [if_pos hlarge]
    have hp : p = .stream out.length := by
      rcases h.data_eq with heq | ⟨-, hzero⟩
      · exact heq
      · omega
    simp only [hp, Ptr.add]
    apply Holds.direct
    exact {
      buffer_length := h.buffer_length
      noError := h.noError
      end_eq := rfl
      bufferEnd_eq := rfl
      length_eq := by
        simp only
        omega
      ptr_le := by omega
      last_large := by
        simp only
        omega
      last_le := by
        simp only
        omega
      out_eq := h.out_eq }
  · rw [if_neg hlarge]
    apply Holds.patched (e := size) (b := out.length)
    exact {
      buffer_length := h.buffer_length
      noError := h.noError
      end_eq := rfl
      bufferEnd_eq := h.data_eq
      length_eq := hlength
      end_le := by omega
      ptr_le := Nat.zero_le _
      last_le := hlast
      out_eq := by
        rw [take_zero, append_nil]
        exact h.out_eq }

/-- What `Trim` does after its flush. -/
def trimEnd (r : ℕ × EpsCopyOutputStream) : Ptr × EpsCopyOutputStream :=
  (.patch 0, { r.2 with
    stream := if r.1 ≠ 0 then r.2.stream.backUp r.1 else r.2.stream
    bufferEnd := .patch 0
    end_ := .patch 0 })

theorem Flushed.trimEnd_holds {p : Ptr} {size : ℕ} (hflush : Flushed s p size out) :
    (trimEnd (size, s)).2.stream.bytes = out ∧ Holds (trimEnd (size, s)).2 (trimEnd (size, s)).1 out := by
  have hlength := hflush.length_eq
  have hlast := hflush.last_le
  have hbytes : (trimEnd (size, s)).2.stream.bytes = out := by
    rw [trimEnd]
    by_cases hzero : size = 0
    · have hall : out.length = s.stream.bytes.length := by omega
      simp only [if_neg (not_not.mpr hzero)]
      rw [hflush.out_eq, hall, take_length]
    · simp only [if_pos hzero, backUp, min_eq_left hlast, ← hlength, Nat.add_sub_cancel]
      exact hflush.out_eq.symm
  refine ⟨hbytes, ?_⟩
  apply Holds.patched (e := 0) (b := out.length)
  exact {
    buffer_length := hflush.buffer_length
    noError := hflush.noError
    end_eq := rfl
    bufferEnd_eq := .inr ⟨rfl, rfl⟩
    length_eq := by
      rw [hbytes]
      omega
    end_le := Nat.zero_le _
    ptr_le := Nat.zero_le _
    last_le := Nat.zero_le _
    out_eq := by
      rw [hbytes, take_length, take_zero, append_nil] }

/-- **`Trim`** leaves exactly the bytes written. -/
theorem Holds.trim_holds (hsucceeds : ∀ n, buffers.result n ≠ none) (h : Holds s ptr out) :
    (s.trim buffers ptr).2.stream.bytes = out ∧ Holds (s.trim buffers ptr).2 (s.trim buffers ptr).1 out := by
  rw [trim, h.ready.noError, if_neg Bool.false_ne_true]
  exact (h.flush_flushed hsucceeds).trimEnd_holds

/-- **`FlushAndResetBuffer`** goes on behind the bytes written. -/
theorem Holds.flushAndResetBuffer_holds (hsucceeds : ∀ n, buffers.result n ≠ none) (h : Holds s ptr out) :
    Holds (s.flushAndResetBuffer buffers ptr).2 (s.flushAndResetBuffer buffers ptr).1 out := by
  have hflush := h.flush_flushed hsucceeds
  rw [flushAndResetBuffer, h.ready.noError, if_neg Bool.false_ne_true]
  simp only [hflush.noError, Bool.false_eq_true, if_false]
  exact hflush.setInitialBuffer_holds

end EpsCopyOutputStream

/-! ## The calls -/

theorem length_writeVarint64ToArray_le (value : UInt64) : (writeVarint64ToArray value).length ≤ 10 :=
  length_varintBytes_le (n := 9) (by have := value.toNat_lt; omega)

theorem length_writeVarint32ToArray_le (value : UInt32) : (writeVarint32ToArray value).length ≤ 10 :=
  length_varintBytes_le (n := 9) (by have := value.toNat_lt; omega)

namespace CodedOutputStream

open EpsCopyOutputStream

variable {buffers : Buffers} {c : CodedOutputStream} {out : List UInt8}

theorem ofStream_holds (buffers : Buffers) (stream : ZeroCopyOutputStream) {buffer : List UInt8}
    (hbuffer : buffer.length = 32) (doEagerRefresh : Bool) :
    Holds (ofStream buffers stream buffer doEagerRefresh).impl
      (ofStream buffers stream buffer doEagerRefresh).cur stream.bytes := by
  have hempty : ∀ stream' : ZeroCopyOutputStream, stream'.bytes = stream.bytes →
      Holds (.ofStream stream' buffer) (.patch 0) stream.bytes := by
    intro stream' hbytes
    apply Holds.patched (e := 0) (b := stream.bytes.length)
    exact {
      buffer_length := hbuffer
      noError := rfl
      end_eq := rfl
      bufferEnd_eq := .inr ⟨rfl, rfl⟩
      length_eq := congrArg _ hbytes.symm
      end_le := Nat.zero_le _
      ptr_le := Nat.zero_le _
      last_le := Nat.zero_le _
      out_eq := by simp [EpsCopyOutputStream.ofStream, hbytes] }
  cases doEagerRefresh with
  | false => exact hempty stream rfl
  | true =>
    simp only [ofStream, ZeroCopyOutputStream.next]
    cases hdata : buffers.result stream.calls with
    | none => exact hempty stream rfl
    | some data =>
      simp only [Option.map_some]
      by_cases hzero : data.length = 0
      · simp only [if_pos hzero]
        exact hempty _ (by simp [length_eq_zero_iff.mp hzero])
      · simp only [if_neg hzero]
        apply Flushed.setInitialBuffer_holds
        exact {
          buffer_length := hbuffer
          noError := rfl
          data_eq := .inl rfl
          length_eq := by simp
          last_le := le_rfl
          out_eq := by simp }

section
variable (hsucceeds : ∀ n, buffers.result n ≠ none)
include hsucceeds

theorem writeToArray_holds
    (h : Holds c.impl c.cur out) {bytes : List UInt8} (hbytes : bytes.length ≤ kSlopBytes) :
    Holds (c.writeToArray buffers bytes).impl (c.writeToArray buffers bytes).cur (out ++ bytes) := by
  obtain ⟨hholds, hspace⟩ := h.ensureSpace_holds hsucceeds
  exact hholds.store_holds (by omega)

/-- **A call** appends what its `ToArray` form writes. -/
theorem perform_holds (h : Holds c.impl c.cur out) (op : WriteOp) :
    Holds (c.perform buffers op).impl (c.perform buffers op).cur (out ++ op.toArray) := by
  cases op with
  | writeVarint32 value | writeTag value =>
    apply writeToArray_holds hsucceeds h
    exact le_trans (length_writeVarint32ToArray_le value) (by decide)
  | writeVarint64 value =>
    apply writeToArray_holds hsucceeds h
    exact le_trans (length_writeVarint64ToArray_le value) (by decide)
  | writeLittleEndian32 value =>
    apply writeToArray_holds hsucceeds h
    simp [writeLittleEndian32ToArray, kSlopBytes]
  | writeLittleEndian64 value =>
    apply writeToArray_holds hsucceeds h
    simp [writeLittleEndian64ToArray, kSlopBytes]
  | writeRaw data | writeString data => exact h.writeRaw_holds hsucceeds data
  | trim =>
    rw [WriteOp.toArray, append_nil]
    exact (h.trim_holds hsucceeds).2
  | hadError =>
    rw [WriteOp.toArray, append_nil]
    exact h.flushAndResetBuffer_holds hsucceeds

/-- **A sequence of calls.** -/
theorem performAll_holds (h : Holds c.impl c.cur out) (ops : List WriteOp) :
    Holds (c.performAll buffers ops).impl (c.performAll buffers ops).cur
      (out ++ ops.flatMap WriteOp.toArray) := by
  induction ops generalizing c out with
  | nil =>
    rw [flatMap_nil, append_nil]
    exact h
  | cons op ops ih =>
    rw [flatMap_cons, ← append_assoc]
    exact ih (perform_holds hsucceeds h op)

end

@[simp] theorem startCount_performAll (ops : List WriteOp) :
    (c.performAll buffers ops).startCount = c.startCount := by
  induction ops generalizing c with
  | nil => rfl
  | cons op ops ih =>
    have hop : (c.perform buffers op).startCount = c.startCount := by cases op <;> rfl
    exact ih.trans hop

@[simp] theorem startCount_ofStream (stream : ZeroCopyOutputStream) (buffer : List UInt8)
    (doEagerRefresh : Bool) :
    (ofStream buffers stream buffer doEagerRefresh).startCount = stream.byteCount := by
  cases doEagerRefresh with
  | false => rfl
  | true =>
    simp only [ofStream]
    cases stream.next buffers with
    | none => rfl
    | some r =>
      by_cases hzero : r.1 = 0
      · simp [hzero]
      · simp [hzero]

theorem byteCount_performAll (hsucceeds : ∀ n, buffers.result n ≠ none)
    (stream : ZeroCopyOutputStream) {buffer : List UInt8} (hbuffer : buffer.length = 32)
    (doEagerRefresh : Bool) (ops : List WriteOp) :
    ((ofStream buffers stream buffer doEagerRefresh).performAll buffers ops).byteCount =
      toInt32 (ops.flatMap WriteOp.toArray).length := by
  have h := performAll_holds hsucceeds (ofStream_holds buffers stream hbuffer doEagerRefresh) ops
  rw [byteCount, h.byteCount_eq, startCount_performAll, startCount_ofStream,
    ZeroCopyOutputStream.byteCount, length_append]
  congr 1
  omega

/-- **No byte is lost or invented.**  Over every stream that never fails, with buffers of
any sizes, and for every sequence of calls: a final `Trim` leaves the stream holding what it
held before and the array encodings of the calls in order.  `ByteCount` is the length of the
concatenation as an `int`, so the length itself below 2^31. -/
theorem bytes_written (buffers : Buffers) (hsucceeds : ∀ n, buffers.result n ≠ none)
    (stream : ZeroCopyOutputStream) (buffer : List UInt8) (hbuffer : buffer.length = 32)
    (doEagerRefresh : Bool) (ops : List WriteOp) :
    let c := (ofStream buffers stream buffer doEagerRefresh).performAll buffers ops
    let written := ops.flatMap WriteOp.toArray
    (c.trim buffers).impl.stream.bytes = stream.bytes ++ written ∧
      c.byteCount = toInt32 written.length ∧
      (written.length < 2 ^ 31 → c.byteCount = written.length) := by
  intro c written
  have hcount : c.byteCount = toInt32 written.length :=
    byteCount_performAll hsucceeds stream hbuffer doEagerRefresh ops
  have hholds := performAll_holds hsucceeds (ofStream_holds buffers stream hbuffer
    doEagerRefresh) ops
  refine ⟨(hholds.trim_holds hsucceeds).1, hcount, ?_⟩
  intro hlength
  rw [hcount, toInt32]
  omega

/-- Buffers of 0, 3 and 20 bytes in turn. -/
def mixedBuffers : Buffers where
  result n := some (replicate (if n % 3 = 0 then 0 else if n % 3 = 1 then 3 else 20) 0)
  eventually n := by
    by_cases hzero : n % 3 = 0
    · exact ⟨1, by simp [show (n + 1) % 3 = 1 by omega]⟩
    · exact ⟨0, by by_cases hone : n % 3 = 1 <;> simp [hzero, hone]⟩

theorem mixedBuffers_succeeds (n : ℕ) : mixedBuffers.result n ≠ none := by
  simp [mixedBuffers]

theorem bytes_written_mixedBuffers :
    let c := (ofStream mixedBuffers ⟨[], 0, 0⟩ (replicate 32 0) true).performAll
      mixedBuffers [.writeVarint32 300, .hadError, .writeLittleEndian64 7, .trim, .writeTag 8]
    (c.trim mixedBuffers).impl.stream.bytes = [0xAC, 0x02, 7, 0, 0, 0, 0, 0, 0, 0, 8] ∧
      c.byteCount = 11 := by
  have hwritten : [WriteOp.writeVarint32 300, .hadError, .writeLittleEndian64 7, .trim,
      .writeTag 8].flatMap WriteOp.toArray = [0xAC, 0x02, 7, 0, 0, 0, 0, 0, 0, 0, 8] := by
    simp [WriteOp.toArray, writeVarint32ToArray, writeLittleEndian64ToArray, writeTagToArray,
      varintBytes, leBytes]
    decide
  have h := bytes_written mixedBuffers (fun n => by simp [mixedBuffers]) ⟨[], 0, 0⟩
    (replicate 32 0) (length_replicate ..) true
    [.writeVarint32 300, .hadError, .writeLittleEndian64 7, .trim, .writeTag 8]
  rw [hwritten] at h
  exact ⟨h.1, h.2.1⟩

/-- After 2^31 bytes `ByteCount` is not the number of bytes written. -/
theorem byteCount_wraps :
    ¬ ∀ (buffers : Buffers), (∀ n, buffers.result n ≠ none) → ∀ ops : List WriteOp,
      ((ofStream buffers ⟨[], 0, 0⟩ (replicate 32 0) true).performAll buffers ops).byteCount =
        (ops.flatMap WriteOp.toArray).length := by
  intro h
  obtain ⟨n, hn⟩ : ∃ n, n = 2 ^ 28 := ⟨_, rfl⟩
  have hlength : ((replicate n (WriteOp.writeLittleEndian64 0)).flatMap
      WriteOp.toArray).length = 2 ^ 31 := by
    simp [WriteOp.toArray, writeLittleEndian64ToArray]
    omega
  have hcount := h mixedBuffers (fun n => by simp [mixedBuffers])
    (replicate n (.writeLittleEndian64 0))
  rw [byteCount_performAll (fun n => by simp [mixedBuffers]) _ (by decide), hlength,
    toInt32] at hcount
  omega

end CodedOutputStream

end Protoc.Io
