import Protoc.Parse.EpsCopyInput

/-!
# The position in the data

A pointer into the current buffer stands for a position in the data, whichever buffer that
is.  Up to the limit and the end of the data, the bytes behind the pointer, those of the slop
region included, are the bytes of the data from that position on.  Behind them they may be
anything.
-/

namespace Protoc.Parse

open Protoc.Lib Protoc.Io
open List Int

def body (data : List UInt8) (lim : ℕ) : List UInt8 := data.take lim

namespace EpsCopyInputStream

/-- All the data, or all that the limit allows, lies before `E`. -/
def Ended (data : List UInt8) (lim : ℕ) (E : ℤ) : Prop :=
  E = data.length ∨ (lim : ℤ) ≤ E ∧ E ≤ data.length

/-- What is to come behind the current buffer, which ends at the position `E`, and behind
its slop region. -/
inductive Source (data : List UInt8) (lim : ℕ) (s : EpsCopyInputStream) (E : ℤ) : Prop
  | null (hnext : s.nextChunk = .null) (hended : Ended data lim E)
  | patch (hnext : s.nextChunk = .patch) (hstart : 0 ≤ E + kSlopBytes)
      (hend : E + kSlopBytes ≤ data.length)
      (hrest : s.zcis.remaining = data.drop (E + kSlopBytes).toNat)
      (hoverall : (lim : ℤ) ≤ E + kSlopBytes + s.overallLimit ∨ s.zcis.remaining = [])
  | chunk (hnext : s.nextChunk = .chunk) (hstart : 0 ≤ E)
      (hend : E + s.chunk.length ≤ data.length)
      (hsize : s.size = s.chunk.length) (hlarge : kSlopBytes < s.chunk.length)
      (hrest : s.chunk ++ s.zcis.remaining = data.drop E.toNat)
      (hoverall : (lim : ℤ) ≤ E + s.chunk.length + s.overallLimit ∨ s.zcis.remaining = [])

/-- The pointer stands at the position `pos`, and the current buffer ends at `E`. -/
structure Buffered (data : List UInt8) (lim : ℕ) (s : EpsCopyInputStream) (E : ℤ) (pos : ℕ)
    (ptr : Ptr) : Prop where
  buffer_length : s.buffer.length = 32
  array_eq : ptr.array = s.bufferEnd.array
  pos_eq : (pos : ℤ) = E + ptr.diff s.bufferEnd
  ptr_nonneg : 0 ≤ ptr.offset
  end_nonneg : 0 ≤ s.bufferEnd.offset
  ptr_le : ptr.diff s.bufferEnd ≤ kSlopBytes
  memory_le : s.bufferEnd.offset + kSlopBytes ≤ (s.memory ptr.array).length
  window : Agree (s.load ptr (kSlopBytes - ptr.diff s.bufferEnd)) ((body data lim).drop pos)
  source : Source data lim s E

/-- The pointer stands at the position `pos`, and the limits are those of the data. -/
structure Cursor (data : List UInt8) (lim : ℕ) (s : EpsCopyInputStream) (E : ℤ) (pos : ℕ)
    (ptr : Ptr) : Prop extends Buffered data lim s E pos ptr where
  limit_eq : s.limit = lim - E
  limitEnd_eq : s.limitEnd = s.bufferEnd.add (min 0 s.limit)

variable {data : List UInt8} {lim : ℕ} {s : EpsCopyInputStream} {E : ℤ} {pos : ℕ} {ptr : Ptr}

theorem Source.le_length (h : Source data lim s E) : E ≤ data.length := by
  cases h with
  | null hnext hended => rcases hended with heq | ⟨-, hle⟩ <;> omega
  | patch hnext hstart hend =>
    simp only [kSlopBytes] at hend
    omega
  | chunk hnext hstart hend => omega

theorem Source.slop_le (h : Source data lim s E) (hnext : s.nextChunk ≠ .null) :
    E + kSlopBytes ≤ data.length := by
  cases h with
  | null hnull => exact absurd hnull hnext
  | patch hpatch hstart hend => exact hend
  | chunk hchunk hstart hend hsize hlarge =>
    simp only [kSlopBytes] at hlarge ⊢
    omega

theorem Source.ended (h : Source data lim s E) (hnext : s.nextChunk = .null) : Ended data lim E := by
  cases h with
  | null hnull hended => exact hended
  | patch hpatch => rw [hnext] at hpatch; cases hpatch
  | chunk hchunk => rw [hnext] at hchunk; cases hchunk

/-! ## The bytes behind the pointer -/

theorem length_load {n : ℤ} (hptr : 0 ≤ ptr.offset)
    (h : ptr.offset + n ≤ (s.memory ptr.array).length) : (s.load ptr n).length = n.toNat := by
  simp only [load, bytes, length_take, length_drop]
  omega

theorem Buffered.length_window (h : Buffered data lim s E pos ptr) :
    (s.load ptr (kSlopBytes - ptr.diff s.bufferEnd)).length = (kSlopBytes - ptr.diff s.bufferEnd).toNat := by
  have hmemory := h.memory_le
  apply length_load h.ptr_nonneg
  simp only [Ptr.diff]
  omega

variable {n : ℕ}

/-- The pointer may be moved on up to the end of the slop region. -/
theorem Buffered.advance (h : Buffered data lim s E pos ptr) (hn : ptr.diff s.bufferEnd + n ≤ kSlopBytes) :
    Buffered data lim s E (pos + n) (ptr.add n) := by
  have hpos := h.pos_eq
  have hptr := h.ptr_nonneg
  have hdiff : (ptr.add n).diff s.bufferEnd = ptr.diff s.bufferEnd + n := by
    simp only [Ptr.diff, Ptr.add]
    omega
  exact {
    buffer_length := h.buffer_length
    array_eq := h.array_eq
    pos_eq := by
      rw [hdiff]
      omega
    ptr_nonneg := by
      simp only [Ptr.add]
      omega
    end_nonneg := h.end_nonneg
    ptr_le := by
      rw [hdiff]
      exact hn
    memory_le := h.memory_le
    window := by
      have hdrop := h.window.drop n
      rw [drop_drop] at hdrop
      have hload : s.load (ptr.add n) (kSlopBytes - (ptr.add n).diff s.bufferEnd) =
          (s.load ptr (kSlopBytes - ptr.diff s.bufferEnd)).drop n := by
        rw [hdiff]
        simp only [load, bytes, Ptr.add, drop_take, drop_drop]
        congr 1
        · omega
        · congr 1
          omega
      rw [hload]
      exact hdrop
    source := h.source }

theorem Cursor.advance (h : Cursor data lim s E pos ptr)
    (hn : ptr.diff s.bufferEnd + n ≤ kSlopBytes) : Cursor data lim s E (pos + n) (ptr.add n) :=
  { h.toBuffered.advance hn with
    limit_eq := h.limit_eq
    limitEnd_eq := h.limitEnd_eq }

/-- The result of a decoder at a position of the bytes before the limit, and at the
pointer. -/
theorem Buffered.decode {α : Type} {D : Decoder UInt8 α} (hD : D.Local n)
    (h : Buffered data lim s E pos ptr) (hn : ptr.diff s.bufferEnd + n ≤ kSlopBytes) :
    (∀ {len a}, D ((body data lim).drop pos) = some (len, a) →
      D (s.bytes ptr) = some (len, a) ∧ ptr.diff s.bufferEnd + len ≤ kSlopBytes ∧
        pos + len ≤ (body data lim).length) ∧
    (∀ {len a}, D ((body data lim).drop pos) = none → D (s.bytes ptr) = some (len, a) →
      ptr.diff s.bufferEnd + len ≤ kSlopBytes ∧ (body data lim).length < pos + len) := by
  have hlength := h.length_window
  have htake : D (s.load ptr (kSlopBytes - ptr.diff s.bufferEnd)) = D (s.bytes ptr) :=
    hD.take_eq (by omega) _
  constructor
  · intro len a hsome
    obtain ⟨hpos, hle, hlen, -⟩ := hD hsome
    rw [length_drop] at hlen
    refine ⟨?_, by omega, by omega⟩
    rw [← htake]
    exact hD.of_agree h.window (by omega) hsome
  · intro len a hnone hsome
    obtain ⟨-, hle, -, -⟩ := hD hsome
    rw [← htake] at hsome
    have hover := hD.overrun h.window hnone hsome
    rw [length_drop] at hover
    exact ⟨by omega, by omega⟩

/-! ## From buffer to buffer -/

theorem Ended.drop_body (h : Ended data lim E) (hn : E ≤ n) : (body data lim).drop n = [] := by
  apply drop_eq_nil_of_le
  rw [body, length_take]
  rcases h with heq | ⟨hle, -⟩ <;> omega

theorem drop_body (n : ℕ) : (body data lim).drop n = (data.drop n).take (lim - n) := by
  rw [body, drop_take]

variable {o : ℕ}

theorem Buffered.slop_window (h : Buffered data lim s E pos ptr) (ho : ptr.diff s.bufferEnd = o) :
    (s.load s.bufferEnd kSlopBytes).length = kSlopBytes ∧
      Agree ((s.load s.bufferEnd kSlopBytes).drop o) ((body data lim).drop pos) := by
  have hmemory := h.memory_le
  rw [h.array_eq] at hmemory
  constructor
  · rw [length_load h.end_nonneg hmemory, toNat_natCast]
  · have hend := h.end_nonneg
    have hload : s.load ptr (kSlopBytes - ptr.diff s.bufferEnd) =
        (s.load s.bufferEnd kSlopBytes).drop o := by
      simp only [Ptr.diff] at ho ⊢
      simp only [load, bytes, h.array_eq, drop_take, drop_drop]
      congr 1
      · omega
      · congr 1
        omega
    rw [← hload]
    exact h.window

/-- A pointer into the patch buffer, whose first part is the slop region carried over. -/
theorem patch_buffered {slop more : List UInt8} {k o : ℕ} (hbuffer : s.buffer = slop ++ more)
    (hslop : slop.length = kSlopBytes) (hmore : more.length = kSlopBytes)
    (hend : s.bufferEnd = ⟨.patch, k⟩) (hk : k ≤ kSlopBytes) (ho : o ≤ kSlopBytes)
    (hpos : (pos : ℤ) = E + o) (hstart : 0 ≤ E + kSlopBytes)
    (hwindow : Agree (slop.drop o) ((body data lim).drop pos))
    (hnew : Agree (more.take k) ((body data lim).drop (E + kSlopBytes).toNat))
    (hsource : Source data lim s (E + k)) : Buffered data lim s (E + k) pos ⟨.patch, o⟩ where
  buffer_length := by rw [hbuffer, length_append, hslop, hmore, kSlopBytes]
  array_eq := by rw [hend]
  pos_eq := by
    rw [hend]
    simp only [Ptr.diff]
    omega
  ptr_nonneg := natCast_nonneg o
  end_nonneg := by
    rw [hend]
    exact natCast_nonneg k
  ptr_le := by
    rw [hend]
    simp only [Ptr.diff]
    omega
  memory_le := by
    rw [hend]
    simp only [memory, hbuffer, length_append, hslop, hmore]
    omega
  window := by
    have hload : s.load ⟨.patch, o⟩ (kSlopBytes - Ptr.diff ⟨.patch, o⟩ s.bufferEnd) =
        slop.drop o ++ more.take k := by
      have hdrop : (slop ++ more).drop o = slop.drop o ++ more :=
        drop_append_of_le_length (by omega)
      have hcount : (kSlopBytes - ((o : ℤ) - k)).toNat = (slop.drop o).length + k := by
        rw [length_drop]
        omega
      simp only [load, bytes, memory, hend, Ptr.diff, hbuffer, toNat_natCast, hdrop, hcount,
        take_length_add_append]
    rw [hload]
    apply hwindow.append
    rw [drop_drop, length_drop, hslop]
    have hat : pos + (kSlopBytes - o) = (E + kSlopBytes).toNat := by omega
    rw [hat]
    exact hnew
  source := hsource

theorem endOfStream_buffered {slop more : List UInt8} (hbuffer : s.buffer = slop ++ more)
    (hslop : slop.length = kSlopBytes) (hmore : more.length = kSlopBytes) (ho : o ≤ kSlopBytes)
    (hpos : (pos : ℤ) = E + o) (hstart : 0 ≤ E + kSlopBytes)
    (hwindow : Agree (slop.drop o) ((body data lim).drop pos))
    (hended : Ended data lim (E + kSlopBytes)) :
    let r := s.endOfStream
    Buffered data lim r.2 (E + r.2.bufferEnd.diff r.1) pos (r.1.add o) ∧
      0 < r.2.bufferEnd.diff r.1 := by
  simp only [endOfStream, Ptr.diff, Ptr.add, Int.zero_add, Int.sub_zero]
  constructor
  · apply patch_buffered (s := s.endOfStream.2) (k := kSlopBytes) hbuffer hslop hmore rfl
      le_rfl ho hpos hstart hwindow
    · rw [hended.drop_body (by omega)]
      exact agree_nil _
    · exact .null rfl hended
  · simp [kSlopBytes]

theorem limit_nextChunkFound (chunk : List UInt8) : (s.nextChunkFound chunk).2.limit = s.limit := by
  by_cases hlarge : kSlopBytes < chunk.length <;> simp [nextChunkFound, hlarge]

theorem lastTagMinus1_nextChunkFound (chunk : List UInt8) :
    (s.nextChunkFound chunk).2.lastTagMinus1 = s.lastTagMinus1 := by
  by_cases hlarge : kSlopBytes < chunk.length <;> simp [nextChunkFound, hlarge]

/-- The patch buffer with the start of a new chunk. -/
theorem nextChunkFound_buffered {slop more chunk : List UInt8}
    (hbuffer : s.buffer = slop ++ more) (hslop : slop.length = kSlopBytes)
    (hmore : more.length = kSlopBytes) (ho : o ≤ kSlopBytes) (hpos : (pos : ℤ) = E + o)
    (hstart : 0 ≤ E + kSlopBytes) (hwindow : Agree (slop.drop o) ((body data lim).drop pos))
    (hchunk : chunk ≠ [])
    (hrest : chunk ++ s.zcis.remaining = data.drop (E + kSlopBytes).toNat)
    (hoverall : (lim : ℤ) ≤ E + kSlopBytes + s.overallLimit) :
    let r := s.nextChunkFound chunk
    Buffered data lim r.2 (E + r.2.bufferEnd.diff r.1) pos (r.1.add o) ∧
      0 < r.2.bufferEnd.diff r.1 := by
  have hpositive : 0 < chunk.length := length_pos_of_ne_nil hchunk
  have hlength := congrArg List.length hrest
  rw [length_append, length_drop] at hlength
  have hagree : Agree chunk ((body data lim).drop (E + kSlopBytes).toNat) := by
    rw [drop_body, ← hrest]
    exact (agree_append _ _).take_right _
  intro r
  by_cases hlarge : kSlopBytes < chunk.length
  · have hr : r = (⟨.patch, 0⟩, { s with
        size := chunk.length
        overallLimit := s.overallLimit - chunk.length
        buffer := slop ++ chunk.take kSlopBytes
        chunk := chunk
        nextChunk := .chunk
        bufferEnd := ⟨.patch, kSlopBytes⟩ }) := by
      have hblit : Ring.blit s.buffer kSlopBytes (chunk.take kSlopBytes) =
          slop ++ chunk.take kSlopBytes := by
        rw [Ring.blit, hbuffer, ← hslop, take_left, drop_eq_nil_of_le, append_nil]
        simp only [length_append, length_take]
        omega
      simp only [r, nextChunkFound, if_pos hlarge, hblit]
    simp only [hr, Ptr.diff, Ptr.add, Int.zero_add, Int.sub_zero]
    constructor
    · apply patch_buffered (k := kSlopBytes) rfl hslop ?_ rfl le_rfl ho hpos hstart hwindow
      · rw [take_take, Nat.min_self]
        exact hagree.take _
      · apply Source.chunk rfl hstart
        · simp only
          omega
        · rfl
        · exact hlarge
        · exact hrest
        · apply Or.inl
          simp only
          omega
      · rw [length_take]
        omega
    · simp [kSlopBytes]
  · have hr : r = (⟨.patch, 0⟩, { s with
        size := chunk.length
        overallLimit := s.overallLimit - chunk.length
        buffer := slop ++ (chunk ++ more.drop chunk.length)
        nextChunk := .patch
        bufferEnd := ⟨.patch, chunk.length⟩ }) := by
      have hblit : Ring.blit s.buffer kSlopBytes chunk =
          slop ++ (chunk ++ more.drop chunk.length) := by
        rw [Ring.blit, hbuffer, ← hslop, take_left, drop_length_add_append, append_assoc]
      simp only [r, nextChunkFound, if_neg hlarge, hblit]
    simp only [hr, Ptr.diff, Ptr.add, Int.zero_add, Int.sub_zero]
    constructor
    · apply patch_buffered (k := chunk.length) rfl hslop ?_ rfl (by omega) ho hpos hstart hwindow
      · rw [take_left]
        exact hagree
      · apply Source.patch rfl
        · omega
        · omega
        · have hdrop := congrArg (List.drop chunk.length) hrest
          rw [drop_left, drop_drop] at hdrop
          simp only
          rw [hdrop]
          congr 1
          omega
        · apply Or.inl
          simp only
          omega
      · simp only [length_append, length_drop]
        omega
    · omega

/-- The chunk that is read in place. -/
theorem Buffered.nextChunk_buffered (h : Buffered data lim s E pos ptr)
    (ho : ptr.diff s.bufferEnd = o) (hnext : s.nextChunk = .chunk) :
    Buffered data lim { s with bufferEnd := ⟨.chunk, s.size - kSlopBytes⟩, nextChunk := .patch }
      (E + (s.size - kSlopBytes)) pos ⟨.chunk, o⟩ := by
  have hpos := h.pos_eq
  have hle := h.ptr_le
  cases h.source with
  | null hnull => rw [hnext] at hnull; cases hnull
  | patch hpatch => rw [hnext] at hpatch; cases hpatch
  | chunk _ hstart hend hsize hlarge hrest hoverall =>
    have hat : E.toNat + o = pos := by omega
    exact {
      buffer_length := h.buffer_length
      array_eq := rfl
      pos_eq := by
        simp only [Ptr.diff]
        omega
      ptr_nonneg := natCast_nonneg o
      end_nonneg := by
        simp only [hsize]
        omega
      ptr_le := by
        simp only [Ptr.diff]
        omega
      memory_le := by
        simp only [memory, hsize]
        omega
      window := by
        have hagree : Agree s.chunk (data.drop E.toNat) := by
          rw [← hrest]
          exact agree_append _ _
        have hdrop := hagree.drop o
        rw [drop_drop, hat] at hdrop
        rw [drop_body]
        exact (hdrop.take_right _).take _
      source := by
        apply Source.patch rfl
        · omega
        · omega
        · have hdrop := congrArg (List.drop s.chunk.length) hrest
          rw [drop_left, drop_drop] at hdrop
          simp only
          rw [hdrop]
          congr 1
          omega
        · rcases hoverall with hle | hnil
          · apply Or.inl
            simp only
            omega
          · exact .inr hnil }

variable {depth : ℤ}

/-- **`NextBuffer`** keeps the position, and the end of the buffer moves on. -/
theorem Buffered.nextBuffer_spec (h : Buffered data lim s E pos ptr)
    (hover : 0 ≤ ptr.diff s.bufferEnd) (overrun : ℤ) (hdepth : depth < 0) :
    (s.nextBuffer overrun depth = none ∧ Ended data lim E) ∨ ∃ p s', s.nextBuffer overrun depth = some (p, s') ∧
        Buffered data lim s' (E + s'.bufferEnd.diff p) pos (p.add (ptr.diff s.bufferEnd)) ∧
        0 < s'.bufferEnd.diff p ∧ s'.limit = s.limit ∧ s'.lastTagMinus1 = s.lastTagMinus1 := by
  obtain ⟨o, ho⟩ := eq_ofNat_of_zero_le hover
  have hle := h.ptr_le
  rw [ho] at hle
  have hpos := h.pos_eq
  rw [ho] at hpos
  obtain ⟨hslop, hwindow⟩ := h.slop_window ho
  rw [ho]
  cases hnext : s.nextChunk with
  | null => exact .inl ⟨by rw [nextBuffer, hnext], h.source.ended hnext⟩
  | chunk =>
    have hsize : 0 < s.size - kSlopBytes := by
      cases h.source with
      | null hnull => rw [hnext] at hnull; cases hnull
      | patch hpatch => rw [hnext] at hpatch; cases hpatch
      | chunk _ _ _ hsize hlarge => omega
    have hstep : s.nextBuffer overrun depth = some (⟨.chunk, 0⟩,
        { s with bufferEnd := ⟨.chunk, s.size - kSlopBytes⟩, nextChunk := .patch }) := by
      simp only [nextBuffer, hnext]
    refine .inr ⟨_, _, hstep, ?_, ?_, rfl, rfl⟩
    · simp only [Ptr.diff, Ptr.add, Int.zero_add, Int.sub_zero]
      exact h.nextChunk_buffered ho hnext
    · simp only [Ptr.diff, Int.sub_zero]
      exact hsize
  | patch =>
    cases h.source with
    | null hnull => rw [hnext] at hnull; cases hnull
    | chunk hchunk => rw [hnext] at hchunk; cases hchunk
    | patch _ hstart hend hrest hoverall =>
      have hbuffer : Ring.blit s.buffer 0 (s.load s.bufferEnd kSlopBytes) =
          s.load s.bufferEnd kSlopBytes ++ s.buffer.drop kSlopBytes := by
        rw [Ring.blit, take_zero, nil_append, zero_add, hslop]
      have hmore : (s.buffer.drop kSlopBytes).length = kSlopBytes := by
        rw [length_drop, h.buffer_length, kSlopBytes]
      have hover : o ≤ kSlopBytes := by omega
      apply Or.inr
      simp only [nextBuffer, hnext, hbuffer]
      by_cases hmany : (0 : ℤ) < s.overallLimit
      · rw [if_pos ⟨hmany, .inl hdepth⟩]
        have hfound := s.zcis.nextNonEmpty_spec
        generalize s.zcis.nextNonEmpty = r at hfound ⊢
        obtain ⟨found, zcis⟩ := r
        rcases hfound with ⟨hnone, hnil, -⟩ | ⟨chunk, hsome, hne, hchunks, -⟩
        · obtain rfl : found = none := hnone
          have hended : Ended data lim (E + kSlopBytes) := by
            have hlength := congrArg List.length (hnil ▸ hrest)
            rw [length_nil, length_drop] at hlength
            apply Or.inl
            omega
          obtain ⟨hbuffered, hmoves⟩ := endOfStream_buffered
            (s := { s with
              buffer := s.load s.bufferEnd kSlopBytes ++ s.buffer.drop kSlopBytes
              zcis
              overallLimit := 0 })
            rfl hslop hmore hover hpos hstart hwindow hended
          exact ⟨_, _, rfl, hbuffered, hmoves, rfl, rfl⟩
        · obtain rfl : found = some chunk := hsome
          have hlimit : (lim : ℤ) ≤ E + kSlopBytes + s.overallLimit := by
            rcases hoverall with hlimit | hnil
            · exact hlimit
            · rw [hnil] at hchunks
              exact absurd (List.append_eq_nil_iff.mp hchunks.symm).1 hne
          obtain ⟨hbuffered, hmoves⟩ := nextChunkFound_buffered
            (s := { s with
              buffer := s.load s.bufferEnd kSlopBytes ++ s.buffer.drop kSlopBytes
              zcis })
            rfl hslop hmore hover hpos hstart hwindow hne (hchunks ▸ hrest) hlimit
          exact ⟨_, _, rfl, hbuffered, hmoves, limit_nextChunkFound _, lastTagMinus1_nextChunkFound _⟩
      · rw [if_neg (by simp [hmany])]
        have hended : Ended data lim (E + kSlopBytes) := by
          rcases hoverall with hlimit | hnil
          · exact .inr ⟨by omega, hend⟩
          · have hlength := congrArg List.length (hnil ▸ hrest)
            rw [length_nil, length_drop] at hlength
            apply Or.inl
            omega
        obtain ⟨hbuffered, hmoves⟩ := endOfStream_buffered
          (s := { s with
            buffer := s.load s.bufferEnd kSlopBytes ++ s.buffer.drop kSlopBytes })
          rfl hslop hmore hover hpos hstart hwindow hended
        exact ⟨_, _, rfl, hbuffered, hmoves, rfl, rfl⟩

theorem Buffered.with_limits (h : Buffered data lim s E pos ptr) (limitEnd : Ptr) (limit : ℤ)
    (lastTagMinus1 : BitVec 32) : Buffered data lim { s with limitEnd, limit, lastTagMinus1 } E pos ptr where
  buffer_length := h.buffer_length
  array_eq := h.array_eq
  pos_eq := h.pos_eq
  ptr_nonneg := h.ptr_nonneg
  end_nonneg := h.end_nonneg
  ptr_le := h.ptr_le
  memory_le := by
    have hmemory := h.memory_le
    cases ptr with
    | mk array offset => cases array <;> exact hmemory
  window := by
    have hwindow := h.window
    cases ptr with
    | mk array offset => cases array <;> exact hwindow
  source := by
    cases h.source with
    | null hnext hended => exact .null hnext hended
    | patch hnext hstart hend hrest hoverall => exact .patch hnext hstart hend hrest hoverall
    | chunk hnext hstart hend hsize hlarge hrest hoverall =>
      exact .chunk hnext hstart hend hsize hlarge hrest hoverall

theorem Cursor.with_lastTag (h : Cursor data lim s E pos ptr) (lastTagMinus1 : BitVec 32) :
    Cursor data lim { s with lastTagMinus1 } E pos ptr :=
  { h.with_limits s.limitEnd s.limit lastTagMinus1 with
    limit_eq := h.limit_eq
    limitEnd_eq := h.limitEnd_eq }

/-- **`Next`** keeps the position, and the end of the buffer moves on. -/
theorem Cursor.next_spec (h : Cursor data lim s E pos ptr) (hover : 0 ≤ ptr.diff s.bufferEnd) :
    (s.next = (none, s.next.2) ∧ Ended data lim E) ∨ ∃ p s' E', s.next = (some p, s') ∧ E < E' ∧
        Cursor data lim s' E' pos (p.add (ptr.diff s.bufferEnd)) ∧ s'.lastTagMinus1 = s.lastTagMinus1 := by
  rw [next]
  rcases h.nextBuffer_spec hover 0 (show (-1 : ℤ) < 0 by decide) with
    ⟨hnone, hended⟩ | ⟨p, s', hsome, hbuffered, hmoves, hlimit, hlast⟩
  · apply Or.inl
    simp only [hnone]
    exact ⟨trivial, hended⟩
  · apply Or.inr
    simp only [hsome]
    refine ⟨p, _, E + s'.bufferEnd.diff p, rfl, by omega, ?_, hlast⟩
    exact {
      hbuffered.with_limits (s'.bufferEnd.add (min 0 (s'.limit - s'.bufferEnd.diff p)))
        (s'.limit - s'.bufferEnd.diff p) s'.lastTagMinus1 with
      limit_eq := by
        have hlim := h.limit_eq
        simp only [setLimitEnd]
        omega
      limitEnd_eq := rfl }

/-- What the end test finds at a position. -/
inductive DoneAt (data : List UInt8) (lim : ℕ) (s : EpsCopyInputStream) (pos : ℕ)
    (r : Option Ptr × Bool × EpsCopyInputStream) : Prop
  | more {p : Ptr} {s' : EpsCopyInputStream} {E' : ℤ} (hr : r = (some p, false, s'))
      (hcursor : Cursor data lim s' E' pos p) (hroom : p.diff s'.bufferEnd < 0)
      (hpos : pos < (body data lim).length) (hlast : s'.lastTagMinus1 = s.lastTagMinus1)
  | done {p : Ptr} {s' : EpsCopyInputStream} {E' : ℤ} (hr : r = (some p, true, s'))
      (hcursor : Cursor data lim s' E' pos p) (hpos : pos = (body data lim).length)
      (hlast : s'.lastTagMinus1 = if lim ≤ data.length then s.lastTagMinus1 else 1)
  | past (hr : r.1 = none) (hpos : (body data lim).length < pos)

/-- The loop of `DoneFallback` goes on to the position's buffer or to the end of the data. -/
theorem doneFallbackLoop_spec (hdepth : depth < 0) (fuel : ℕ)
    (h : Buffered data lim s E pos ptr) (hlimit : s.limit = lim - E) (hpos : pos < lim)
    {overrun : ℤ} (hoverrun : overrun = ptr.diff s.bufferEnd) (hover : 0 ≤ overrun)
    (hfuel : overrun < fuel) : DoneAt data lim s pos (doneFallbackLoop depth fuel overrun s) := by
  induction fuel generalizing s E ptr overrun with
  | zero => omega
  | succ fuel ih =>
    have hat := h.pos_eq
    have hlength : (body data lim).length = min lim data.length := length_take
    rw [doneFallbackLoop]
    rcases h.nextBuffer_spec (hoverrun ▸ hover) overrun hdepth with
      ⟨hnone, hended⟩ | ⟨p, s', hsome, hbuffered, hmoves, hlimit', hlast⟩
    · have hend : E = data.length := by
        rcases hended with heq | ⟨hle, -⟩
        · exact heq
        · omega
      simp only [hnone]
      by_cases hzero : overrun = 0
      · rw [if_neg (not_not.mpr hzero)]
        have hptr : ptr = s.bufferEnd := by
          have harray := h.array_eq
          simp only [Ptr.diff] at hoverrun
          cases ptr
          cases hbufferEnd : s.bufferEnd
          simp only [hbufferEnd] at harray hoverrun
          simp only [Ptr.mk.injEq]
          exact ⟨harray, by omega⟩
        refine @DoneAt.done _ _ _ _ _ _ _ E rfl ?_ (by omega) ?_
        · exact {
            (hptr ▸ h).with_limits s.bufferEnd s.limit 1 with
            limit_eq := hlimit
            limitEnd_eq := by
              have hmin : min 0 s.limit = 0 := by omega
              simp only [setEndOfStream, hmin, Ptr.add, Int.add_zero] }
        · rw [if_neg (by omega)]
          rfl
      · rw [if_pos hzero]
        exact .past rfl (by omega)
    · simp only [hsome]
      have hwith := hbuffered.with_limits s'.limitEnd (s'.limit - s'.bufferEnd.diff p)
        s'.lastTagMinus1
      have hat' := hwith.pos_eq
      rw [← hoverrun] at hwith hat'
      simp only at hat'
      by_cases hagain : 0 ≤ (p.add overrun).diff s'.bufferEnd
      · rw [if_pos hagain]
        have hless : (p.add overrun).diff s'.bufferEnd < fuel := by
          simp only [Ptr.diff, Ptr.add] at hmoves ⊢
          omega
        have hdone := ih hwith (by simp only; omega) rfl hagain hless
        cases hdone with
        | more hr hcursor hroom hbefore hlast' =>
          exact .more hr hcursor hroom hbefore (hlast'.trans hlast)
        | done hr hcursor hend hlast' =>
          refine .done hr hcursor hend (hlast'.trans ?_)
          simp only [hlast]
        | past hr hafter => exact .past hr hafter
      · rw [if_neg hagain]
        have hle := hwith.source.le_length
        refine @DoneAt.more _ _ _ _ _ _ _ (E + s'.bufferEnd.diff p) rfl ?_ (not_le.mp hagain)
          (by omega) hlast
        exact {
          hwith.with_limits (s'.bufferEnd.add (min 0 (s'.limit - s'.bufferEnd.diff p)))
            (s'.limit - s'.bufferEnd.diff p) s'.lastTagMinus1 with
          limit_eq := by
            simp only [setLimitEnd]
            omega
          limitEnd_eq := rfl }

/-- **`DoneWithCheck`** compares the position with the limit and the end of the data. -/
theorem Cursor.done_spec (h : Cursor data lim s E pos ptr) (hdepth : depth < 0) :
    DoneAt data lim s pos (s.doneWithCheck ptr depth) := by
  have hat := h.pos_eq
  have hlimit := h.limit_eq
  have hle := h.source.le_length
  have hptr := h.ptr_le
  have hlength : (body data lim).length = min lim data.length := length_take
  have hdiff : ptr.diff s.limitEnd = ptr.diff s.bufferEnd - min 0 s.limit := by
    rw [h.limitEnd_eq]
    simp only [Ptr.diff, Ptr.add]
    omega
  rw [doneWithCheck]
  by_cases hbefore : ptr.diff s.limitEnd < 0
  · rw [if_pos hbefore]
    exact .more rfl h (by omega) (by omega) rfl
  · rw [if_neg hbefore]
    simp only
    by_cases hequal : ptr.diff s.bufferEnd = s.limit
    · rw [if_pos hequal]
      by_cases hpast : 0 < ptr.diff s.bufferEnd ∧ s.nextChunk = .null
      · rw [if_pos hpast]
        apply DoneAt.past rfl
        rcases h.source.ended hpast.2 with heq | ⟨hended, -⟩ <;> omega
      · rw [if_neg hpast]
        have hend : lim ≤ data.length := by
          by_cases hnext : s.nextChunk = .null
          · have hnot : ¬ 0 < ptr.diff s.bufferEnd := fun hpos => hpast ⟨hpos, hnext⟩
            omega
          · have hslop := h.source.slop_le hnext
            omega
        exact .done rfl h (by omega) (by rw [if_pos hend])
    · rw [if_neg hequal, doneFallback]
      by_cases hexceeds : s.limit < ptr.diff s.bufferEnd
      · rw [if_pos hexceeds]
        exact .past rfl (by omega)
      · rw [if_neg hexceeds]
        exact doneFallbackLoop_spec hdepth _ h.toBuffered hlimit (by omega) rfl (by omega) (by omega)

/-! ## The start -/

/-- The first chunk, or the array, read in place. -/
theorem inPlace_cursor (hlarge : kSlopBytes < s.chunk.length) (hbuffer : s.buffer.length = 32)
    (hend : s.bufferEnd = ⟨.chunk, s.chunk.length - kSlopBytes⟩) (hnext : s.nextChunk = .patch)
    (hdata : data = s.chunk ++ s.zcis.remaining)
    (hoverall : (lim : ℤ) ≤ s.chunk.length + s.overallLimit ∨ s.zcis.remaining = [])
    (hlimit : s.limit = lim - (s.chunk.length - kSlopBytes)) (hpositive : 0 ≤ s.limit)
    (hlimitEnd : s.limitEnd = s.bufferEnd) : Cursor data lim s (s.chunk.length - kSlopBytes) 0 ⟨.chunk, 0⟩ where
  buffer_length := hbuffer
  array_eq := by rw [hend]
  pos_eq := by
    rw [hend]
    simp only [Ptr.diff]
    omega
  ptr_nonneg := Int.le_refl 0
  end_nonneg := by
    rw [hend]
    simp only
    omega
  ptr_le := by
    rw [hend]
    simp only [Ptr.diff]
    omega
  memory_le := by
    rw [hend]
    simp only [memory]
    omega
  window := by
    rw [drop_zero, body]
    apply Agree.take
    rw [hdata]
    exact (agree_append _ _).take_right _
  source := by
    have hlength : data.length = s.chunk.length + s.zcis.remaining.length := by
      rw [hdata, length_append]
    apply Source.patch hnext
    · omega
    · omega
    · have hall : ((s.chunk.length : ℤ) - kSlopBytes + kSlopBytes).toNat = s.chunk.length := by omega
      rw [hall, hdata, drop_left]
    · rcases hoverall with hle | hnil
      · exact .inl (by omega)
      · exact .inr hnil
  limit_eq := hlimit
  limitEnd_eq := by
    have hmin : min 0 s.limit = 0 := by omega
    rw [hlimitEnd, hmin]
    simp only [Ptr.add, Int.add_zero]

/-- **`InitFrom` of a flat array.**  The limit is the array's end. -/
theorem initFromFlat_cursor (flat : List UInt8) :
    (∃ E, Cursor flat flat.length (initFromFlat flat).2 E 0 (initFromFlat flat).1) ∧
      (initFromFlat flat).2.lastTagMinus1 = 0 := by
  rw [initFromFlat]
  by_cases hlarge : kSlopBytes < flat.length
  · simp only [if_pos hlarge]
    refine ⟨⟨_, inPlace_cursor hlarge rfl rfl rfl ?_ (.inr rfl) ?_ ?_ rfl⟩, rfl⟩
    · exact (append_nil flat).symm
    · simp only
      omega
    · exact natCast_nonneg _
  · simp only [if_neg hlarge]
    have hbuffer : Ring.blit (start ⟨[], 0⟩).buffer 0 flat =
        flat ++ (start ⟨[], 0⟩).buffer.drop flat.length := by
      rw [Ring.blit, take_zero, nil_append, zero_add]
    have hlength : (Ring.blit (start ⟨[], 0⟩).buffer 0 flat).length = 32 := by
      rw [Ring.length_blit]
      · rfl
      · have hstart : (start ⟨[], 0⟩).buffer.length = 32 := rfl
        simp only [kSlopBytes] at hlarge
        omega
    refine ⟨⟨flat.length, ?_⟩, rfl⟩
    exact {
      buffer_length := hlength
      array_eq := rfl
      pos_eq := by
        simp only [Ptr.diff]
        omega
      ptr_nonneg := Int.le_refl 0
      end_nonneg := natCast_nonneg _
      ptr_le := by
        simp only [Ptr.diff]
        omega
      memory_le := by
        simp only [memory, hlength, kSlopBytes] at hlarge ⊢
        omega
      window := by
        rw [drop_zero, body, take_length]
        simp only [load, bytes, memory, hbuffer]
        exact (agree_append _ _).symm.take _
      source := .null rfl (.inl rfl)
      limit_eq := by
        simp only
        omega
      limitEnd_eq := by simp [Ptr.add] }

/-- The limit over a stream: `INT_MAX`, counted from the start of the slop region when the
first chunk is copied to that region's end. -/
def streamLimit : List (List UInt8) → ℕ
  | [] => INT_MAX
  | first :: _ => if kSlopBytes < first.length then INT_MAX else INT_MAX - kSlopBytes + first.length

/-- The first chunk, of at most 16 bytes, at the end of the patch buffer. -/
theorem copied_cursor {first : List UInt8} (hsmall : first.length ≤ kSlopBytes)
    (hbuffer : s.buffer = s.buffer.take (2 * kSlopBytes - first.length) ++ first)
    (hlength : s.buffer.length = 32) (hend : s.bufferEnd = ⟨.patch, kSlopBytes⟩)
    (hnext : s.nextChunk = .patch) (hdata : data = first ++ s.zcis.remaining)
    (hoverall : (lim : ℤ) ≤ first.length + s.overallLimit)
    (hlimit : s.limit = lim - (first.length - kSlopBytes)) (hpositive : 0 ≤ s.limit)
    (hlimitEnd : s.limitEnd = s.bufferEnd) :
    Cursor data lim s (first.length - kSlopBytes) 0 ⟨.patch, 2 * kSlopBytes - first.length⟩ where
  buffer_length := hlength
  array_eq := by rw [hend]
  pos_eq := by
    rw [hend]
    simp only [Ptr.diff]
    omega
  ptr_nonneg := by
    simp only
    omega
  end_nonneg := by
    rw [hend]
    exact natCast_nonneg _
  ptr_le := by
    rw [hend]
    simp only [Ptr.diff]
    omega
  memory_le := by
    rw [hend]
    simp only [memory, hlength, kSlopBytes]
    omega
  window := by
    have hdrop : s.buffer.drop (2 * kSlopBytes - first.length) = first := by
      conv_lhs => rw [hbuffer]
      apply drop_left'
      simp only [length_take, hlength, kSlopBytes] at hsmall ⊢
      omega
    have hat : (2 * (kSlopBytes : ℤ) - first.length).toNat = 2 * kSlopBytes - first.length := by omega
    rw [drop_zero, body]
    simp only [load, bytes, memory, hat, hdrop]
    apply Agree.take
    rw [hdata]
    exact (agree_append _ _).take_right _
  source := by
    have hlength : data.length = first.length + s.zcis.remaining.length := by
      rw [hdata, length_append]
    apply Source.patch hnext
    · omega
    · omega
    · have hall : ((first.length : ℤ) - kSlopBytes + kSlopBytes).toNat = first.length := by omega
      rw [hall, hdata, drop_left]
    · exact .inl (by omega)
  limit_eq := hlimit
  limitEnd_eq := by
    have hmin : min 0 s.limit = 0 := by omega
    rw [hlimitEnd, hmin]
    simp only [Ptr.add, Int.add_zero]

/-- **`InitFrom` of a stream**, whose chunks have an `int` as their size. -/
theorem initFrom_cursor {chunks : List (List UInt8)} (hsize : ∀ chunk ∈ chunks, chunk.length ≤ INT_MAX) :
    (∃ E, Cursor chunks.flatten (streamLimit chunks) (initFrom ⟨chunks, 0⟩).2 E 0
      (initFrom ⟨chunks, 0⟩).1) ∧ (initFrom ⟨chunks, 0⟩).2.lastTagMinus1 = 0 := by
  simp only [initFrom, ZeroCopyInputStream.next]
  cases chunks with
  | nil =>
    refine ⟨⟨0, ?_⟩, rfl⟩
    exact {
      buffer_length := rfl
      array_eq := rfl
      pos_eq := rfl
      ptr_nonneg := Int.le_refl 0
      end_nonneg := Int.le_refl 0
      ptr_le := by decide
      memory_le := by decide
      window := by
        simp only [body, flatten_nil, take_nil, drop_nil]
        exact agree_nil _
      source := .null rfl (.inl rfl)
      limit_eq := rfl
      limitEnd_eq := rfl }
  | cons first rest =>
    by_cases hlarge : kSlopBytes < first.length
    · have hlim : streamLimit (first :: rest) = INT_MAX := if_pos hlarge
      simp only [if_pos hlarge]
      rw [hlim]
      have hfirst : first.length ≤ INT_MAX := hsize first mem_cons_self
      refine ⟨⟨_, inPlace_cursor hlarge rfl rfl rfl rfl (.inl ?_) rfl ?_ rfl⟩, rfl⟩
      · simp only [start]
        omega
      · simp only [start]
        omega
    · have hlim : streamLimit (first :: rest) = INT_MAX - kSlopBytes + first.length := if_neg hlarge
      have hroom : 2 * kSlopBytes - first.length + first.length = 32 := by
        simp only [kSlopBytes] at hlarge ⊢
        omega
      have hlength : ∀ zcis, (start zcis).buffer.length = 32 := fun _ => rfl
      simp only [if_neg hlarge]
      rw [hlim]
      refine ⟨⟨_, copied_cursor (not_lt.mp hlarge) ?_ ?_ rfl rfl rfl ?_ ?_ ?_ rfl⟩, rfl⟩
      · simp only [Ring.blit, hroom]
        rw [drop_eq_nil_of_le (le_of_eq (hlength _)), append_nil,
          take_left' (by rw [length_take, hlength]; omega)]
      · rw [Ring.length_blit (by rw [hlength]; omega), hlength]
      · simp only [start, INT_MAX, kSlopBytes]
        omega
      · simp only [start, INT_MAX, kSlopBytes]
        omega
      · exact natCast_nonneg _

end EpsCopyInputStream

end Protoc.Parse
