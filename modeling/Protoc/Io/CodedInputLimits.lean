import Protoc.Io.CodedInputCalls

/-!
# The limits of a coded input stream

In every state that calls lead to, the position lies before the smallest limit in force, and
the buffer ends at that limit or before it.  So what can be read are the bytes from the
position to the limit, whatever the chunks.
-/

namespace Protoc.Io

open Protoc.Lib CodedInputStream
open List

/-- The bytes of the data from the position to the smallest limit in force. -/
def readable (data : List UInt8) (s : CodedInputStream) : List UInt8 :=
  (data.drop s.currentPosition).take (s.closestLimit - s.currentPosition)

/-- The stream stands at its position in the data, before the limits; `top` bounds the limits,
and over a flat array lies within it; `last` is the count at the end of the stream. -/
structure Placed (data : List UInt8) (top last : ℕ) (s : CodedInputStream) : Prop where
  buffer_le : s.buffer.length ≤ s.totalBytesRead
  within : s.totalBytesRead ≤ s.closestLimit + s.buffer.length
  read_le : s.totalBytesRead ≤ INT_MAX
  limit_le_top : s.currentLimit ≤ top
  top_le : top ≤ INT_MAX
  total_le : s.totalBytesLimit ≤ INT_MAX
  overflow : s.overflowBytes = 0 ∨ s.totalBytesRead = INT_MAX
  chunk_le : s.buffer.length + s.overflowBytes ≤ INT_MAX
  rest : ∃ lost : List UInt8, lost.length = s.overflowBytes ∧
    data.drop (s.totalBytesRead - s.buffer.length) = s.buffer ++ lost ++ s.behind
  chunks : ∀ input, s.input = some input → ∀ chunk ∈ input.chunks, chunk.length ≤ INT_MAX
  count : ∀ input, s.input = some input → input.byteCount + input.remaining.length = last
  flat : s.input = none → top ≤ s.totalBytesRead
  length_le_last : data.length ≤ last

/-- The buffer ends at the smallest limit, too. -/
structure Stands (data : List UInt8) (top last : ℕ) (s : CodedInputStream) : Prop
    extends Placed data top last s where
  after : s.bufferSizeAfterLimit = s.totalBytesRead - s.closestLimit

/-- `NextNonEmpty` keeps the sum of what was handed out and what is left, and hands out one of the
chunks. -/
theorem ZeroCopyInputStream.nextNonEmpty_total (input : ZeroCopyInputStream) :
    input.nextNonEmpty.2.byteCount + input.nextNonEmpty.2.remaining.length =
        input.byteCount + input.remaining.length ∧
      (∀ chunk ∈ input.nextNonEmpty.2.chunks, chunk ∈ input.chunks) ∧
      ∀ chunk, input.nextNonEmpty.1 = some chunk → chunk ∈ input.chunks := by
  obtain ⟨chunks, byteCount⟩ := input
  simp only [nextNonEmpty, remaining]
  induction chunks with
  | nil => simp [nextNonEmptyOf]
  | cons data chunks ih =>
    obtain ⟨hsum, hmem, hfound⟩ := ih
    rw [nextNonEmptyOf]
    split
    · next hdata =>
      refine ⟨?_, fun chunk h => .tail _ (hmem chunk h), fun chunk h => .tail _ (hfound chunk h)⟩
      rw [hsum, flatten_cons, length_append, hdata, zero_add]
    · refine ⟨?_, fun chunk h => .tail _ h, fun chunk h => ?_⟩
      · simp only [flatten_cons, length_append]
        omega
      · cases h
        exact .head _

variable {data bytes : List UInt8} {top last : ℕ} {s t : CodedInputStream}

theorem Placed.recompute (h : Placed data top last s) : Stands data top last s.recomputeBufferLimits := by
  rw [recomputeBufferLimits_eq]
  exact ⟨⟨h.buffer_le, h.within, h.read_le, h.limit_le_top, h.top_le, h.total_le, h.overflow,
    h.chunk_le, h.rest, h.chunks, h.count, h.flat, h.length_le_last⟩, rfl⟩

namespace Stands

section
variable (h : Stands data top last s)
include h

theorem sizes : s.bufferSizeAfterLimit ≤ s.buffer.length ∧
      s.currentPosition = s.totalBytesRead - s.buffer.length ∧ s.currentPosition ≤ s.closestLimit ∧
      s.currentPosition + s.bufferSize = min s.totalBytesRead s.closestLimit := by
  have hafter := h.after
  have hbuffer := h.buffer_le
  have hwithin := h.within
  rw [CodedInputStream.currentPosition, bufferSize]
  omega

theorem closest_le : s.closestLimit ≤ INT_MAX := by
  have htop := h.limit_le_top
  have hmax := h.top_le
  rw [closestLimit]
  omega

theorem drop_position : ∃ lost : List UInt8, lost.length = s.overflowBytes ∧
      data.drop s.currentPosition = s.buffer ++ lost ++ s.behind := by
  rw [h.sizes.2.1]
  exact h.rest

theorem length_visible : s.visible.length = s.bufferSize := by
  have hafter := h.sizes.1
  rw [visible, length_take, bufferSize]
  omega

end

variable {n : ℕ}

section
variable (h : Stands data top last s)
include h

theorem take_readable (hn : n ≤ s.bufferSize) :
    (readable data s).take n = s.buffer.take n := by
  obtain ⟨hafter, hposition, -, hsize⟩ := h.sizes
  obtain ⟨lost, -, hrest⟩ := h.drop_position
  rw [readable, take_take, min_eq_left (by omega), hrest, append_assoc,
    take_append_of_le_length (by omega)]

theorem visible_first : s.visible <+: readable data s := by
  rw [visible, ← h.take_readable le_rfl]
  exact take_prefix _ _

/-! ### One step of a read -/

theorem advance (hn : n ≤ s.bufferSize) : Stands data top last (s.advance n) := by
  obtain ⟨hafter, -, -, hsize⟩ := h.sizes
  obtain ⟨lost, hlost, hrest⟩ := h.rest
  have hbuffer := h.buffer_le
  have hwithin := h.within
  have hchunk := h.chunk_le
  have hle : n ≤ s.buffer.length := le_trans hn (Nat.sub_le _ _)
  have hlimit := h.after
  rw [bufferSize] at hn
  refine ⟨⟨?_, ?_, h.read_le, h.limit_le_top, h.top_le, h.total_le, h.overflow, ?_, ?_,
    h.chunks, h.count, h.flat, h.length_le_last⟩, h.after⟩
  · simp only [CodedInputStream.advance, length_drop]
    omega
  · simp only [CodedInputStream.advance, closestLimit, length_drop] at hwithin hlimit ⊢
    omega
  · simp only [CodedInputStream.advance, length_drop]
    omega
  · refine ⟨lost, hlost, ?_⟩
    simp only [CodedInputStream.advance, length_drop]
    rw [show s.totalBytesRead - (s.buffer.length - n) =
      s.totalBytesRead - s.buffer.length + n by omega, ← drop_drop, hrest,
      append_assoc, drop_append_of_le_length hle, append_assoc]
    rfl

theorem position_advance (hn : n ≤ s.bufferSize) :
    (s.advance n).currentPosition = s.currentPosition + n := by
  have hbuffer := h.buffer_le
  rw [bufferSize] at hn
  simp only [CodedInputStream.currentPosition, bufferSize, CodedInputStream.advance, length_drop]
  omega

theorem readable_advance (hn : n ≤ s.bufferSize) :
    readable data s = s.buffer.take n ++ readable data (s.advance n) := by
  obtain ⟨-, -, -, hsize⟩ := h.sizes
  have hdrop : (readable data s).drop n = readable data (s.advance n) := by
    rw [readable, readable, h.position_advance hn, drop_take, drop_drop, Nat.sub_add_eq]
    rfl
  rw [← h.take_readable hn, ← hdrop, take_append_drop]

end

/-! ### Refills -/

/-- A chunk in place of an empty buffer. -/
theorem setBuffer (h : Placed data top last s) (hempty : s.buffer = []) (hoverflow : s.overflowBytes = 0)
    {input : ZeroCopyInputStream} {chunk : List UInt8}
    (hrest : data.drop s.totalBytesRead = chunk ++ input.remaining)
    (hchunk : chunk.length ≤ INT_MAX) (hchunks : ∀ chunk ∈ input.chunks, chunk.length ≤ INT_MAX)
    (hcount : input.byteCount + input.remaining.length = last) :
    Stands data top last ({ s with input := some input }.setBuffer chunk) := by
  have hread := h.read_le
  have hwithin := h.within
  have hsome : ∀ input', some input = some input' → input = input' := fun _ => Option.some.inj
  rw [hempty, length_nil] at hwithin
  rw [CodedInputStream.setBuffer]
  split
  · next hfits =>
    refine Placed.recompute ⟨?_, ?_, hfits, h.limit_le_top, h.top_le, h.total_le, .inl hoverflow,
      ?_, ⟨[], ?_, ?_⟩, ?_, ?_, by simp, h.length_le_last⟩
    · exact Nat.le_add_left _ _
    · simp only [closestLimit] at hwithin ⊢
      omega
    · simpa [hoverflow] using hchunk
    · exact hoverflow.symm
    · simpa [Nat.add_sub_cancel, behind] using hrest
    · intro input' hinput
      exact hsome input' hinput ▸ hchunks
    · intro input' hinput
      exact hsome input' hinput ▸ hcount
  · next hlong =>
    have hvisible : chunk.length - (s.totalBytesRead + chunk.length - INT_MAX) =
        INT_MAX - s.totalBytesRead := by
      dsimp only at hlong
      omega
    have hlength : (chunk.take (INT_MAX - s.totalBytesRead)).length =
        INT_MAX - s.totalBytesRead := by
      rw [length_take]
      omega
    dsimp only
    rw [hvisible]
    refine Placed.recompute ⟨?_, ?_, le_rfl, h.limit_le_top, h.top_le, h.total_le, .inr rfl,
      ?_, ⟨chunk.drop (INT_MAX - s.totalBytesRead), ?_, ?_⟩, ?_, ?_, by simp, h.length_le_last⟩
    · dsimp only
      omega
    · simp only [closestLimit, hlength] at hwithin ⊢
      omega
    · dsimp only
      omega
    · dsimp only
      rw [length_drop]
      omega
    · dsimp only
      rw [hlength, show INT_MAX - (INT_MAX - s.totalBytesRead) = s.totalBytesRead by omega, hrest,
        take_append_drop]
      rfl
    · intro input' hinput
      exact hsome input' hinput ▸ hchunks
    · intro input' hinput
      exact hsome input' hinput ▸ hcount

theorem setBuffer_fields (s : CodedInputStream) (hread : s.totalBytesRead ≤ INT_MAX) (chunk : List UInt8) :
    (s.setBuffer chunk).totalBytesRead - (s.setBuffer chunk).buffer.length = s.totalBytesRead ∧
      (s.setBuffer chunk).currentLimit = s.currentLimit ∧
      (s.setBuffer chunk).totalBytesLimit = s.totalBytesLimit := by
  rw [CodedInputStream.setBuffer]
  split
  · rw [recomputeBufferLimits_eq]
    exact ⟨Nat.add_sub_cancel .., rfl, rfl⟩
  · rw [recomputeBufferLimits_eq]
    refine ⟨?_, rfl, rfl⟩
    simp only [length_take]
    omega

/-- `Refresh` takes nothing; when it fails there is nothing to read. -/
theorem refresh (h : Stands data top last s) (hempty : s.bufferSize = 0) :
    Stands data top last s.refresh.2 ∧ s.refresh.2.currentPosition = s.currentPosition ∧
      s.refresh.2.currentLimit = s.currentLimit ∧ s.refresh.2.totalBytesLimit = s.totalBytesLimit ∧
      (s.refresh.1 = false → readable data s = []) := by
  obtain ⟨-, hposition, hle, hsize⟩ := h.sizes
  have hread := h.read_le
  have hclosest := h.closest_le
  have hnothing : s.closestLimit ≤ s.totalBytesRead → readable data s = [] := by
    intro hstop
    rw [readable, show s.closestLimit - s.currentPosition = 0 by omega, take_zero]
  have hlimit : s.closestLimit ≤ s.currentLimit := Nat.min_le_left _ _
  have hafter := h.after
  by_cases hhit : 0 < s.bufferSizeAfterLimit ∨ 0 < s.overflowBytes ∨
      s.totalBytesRead = s.currentLimit
  · rw [CodedInputStream.refresh, if_pos hhit]
    refine ⟨h, rfl, rfl, rfl, fun _ => hnothing ?_⟩
    have hoverflow := h.overflow
    omega
  · have hbuffer : s.buffer = [] := by
      apply length_eq_zero_iff.mp
      rw [bufferSize] at hempty
      omega
    have hoverflow : s.overflowBytes = 0 := by omega
    obtain ⟨lost, hlost, hrest⟩ := h.rest
    obtain rfl : lost = [] := length_eq_zero_iff.mp (hlost.trans hoverflow)
    rw [hbuffer, length_nil, Nat.sub_zero, append_nil, nil_append] at hrest
    rw [hbuffer, length_nil, Nat.sub_zero] at hposition
    rw [CodedInputStream.refresh, if_neg hhit]
    cases hinput : s.input with
    | none =>
      -- a flat array ends at its limit
      have hflat := h.flat hinput
      have htop := h.limit_le_top
      omega
    | some input =>
      have hbehind : s.behind = input.remaining := by
        rw [behind, hinput]
        rfl
      obtain ⟨hsum, hchunks, hfound⟩ := input.nextNonEmpty_total
      have hcount := h.count input hinput
      have hall := h.chunks input hinput
      have hnext := input.nextNonEmpty_spec
      simp only
      generalize input.nextNonEmpty = next at hnext hsum hchunks hfound ⊢
      obtain ⟨found, input'⟩ := next
      dsimp only at hsum hchunks hfound
      rcases hnext with ⟨rfl, hnone, hleft⟩ | ⟨chunk, rfl, -, hmore, -⟩
      · rw [hbehind, hnone] at hrest
        refine ⟨⟨⟨Nat.zero_le _, ?_, hread, h.limit_le_top, h.top_le, h.total_le, h.overflow, ?_,
          ⟨[], hlost, ?_⟩, ?_, ?_, by simp, h.length_le_last⟩, h.after⟩, ?_, rfl, rfl, fun _ => ?_⟩
        · have hwithin := h.within
          rw [hbuffer] at hwithin
          exact hwithin
        · simp [hoverflow]
        · simpa [behind, hleft] using hrest
        · intro input'' heq chunk hmem
          cases heq
          exact hall chunk (hchunks chunk hmem)
        · intro input'' heq
          cases heq
          omega
        · simp [CodedInputStream.currentPosition, bufferSize, hbuffer]
        · rw [readable, hposition, hrest, take_nil]
      · rw [hbehind, hmore] at hrest
        have hset := setBuffer h.toPlaced hbuffer hoverflow hrest (hall chunk (hfound chunk rfl))
          (fun chunk hmem => hall chunk (hchunks chunk hmem)) (by dsimp only; omega)
        obtain ⟨hkept, hcurrent, htotal⟩ :=
          setBuffer_fields { s with input := some input' } hread chunk
        refine ⟨hset, ?_, hcurrent, htotal, by simp⟩
        rw [hset.sizes.2.1, hkept, hposition]

end Stands

/-! ## Reads -/

theorem readable_congr (hposition : t.currentPosition = s.currentPosition)
    (hcurrent : t.currentLimit = s.currentLimit) (htotal : t.totalBytesLimit = s.totalBytesLimit) :
    readable data t = readable data s := by
  rw [readable, readable, hposition, closestLimit, closestLimit, hcurrent, htotal]

theorem Stands.flags (h : Stands data top last s) (lastTag : ℕ) (legitimateMessageEnd : Bool) :
    Stands data top last { s with lastTag, legitimateMessageEnd } :=
  ⟨⟨h.buffer_le, h.within, h.read_le, h.limit_le_top, h.top_le, h.total_le, h.overflow, h.chunk_le,
    h.rest, h.chunks, h.count, h.flat, h.length_le_last⟩, h.after⟩

/-- **What a read takes comes first among the readable bytes**, and the rest stays. -/
theorem Reads.stands (reads : Reads s bytes t) (h : Stands data top last s) :
    Stands data top last t ∧ t.currentLimit = s.currentLimit ∧ t.totalBytesLimit = s.totalBytesLimit ∧
      t.currentPosition = s.currentPosition + bytes.length ∧ readable data s = bytes ++ readable data t := by
  induction reads with
  | done => exact ⟨h, rfl, rfl, rfl, rfl⟩
  | @advance s t bytes n hn _ ih =>
    obtain ⟨ht, hcurrent, htotal, hposition, hreadable⟩ := ih (h.advance hn)
    have hlength : (s.buffer.take n).length = n := by
      rw [length_take, min_eq_left (le_trans hn (Nat.sub_le _ _))]
    refine ⟨ht, hcurrent, htotal, ?_, ?_⟩
    · rw [hposition, h.position_advance hn, length_append, hlength, add_assoc]
    · rw [h.readable_advance hn, hreadable, append_assoc]
  | refresh hempty _ ih =>
    obtain ⟨hnext, hposition, hcurrent, htotal, -⟩ := h.refresh hempty
    obtain ⟨ht, hcurrent', htotal', hposition', hreadable⟩ := ih hnext
    refine ⟨ht, hcurrent'.trans hcurrent, htotal'.trans htotal, ?_, ?_⟩
    · rw [hposition', hposition]
    · rw [← readable_congr hposition hcurrent htotal, hreadable]
  | flags lastTag legitimateMessageEnd _ ih => exact ih (h.flags lastTag legitimateMessageEnd)

theorem Stops.readable_eq (h : Stops s bytes) (hs : Stands data top last s) : readable data s = bytes := by
  obtain ⟨t, hreads, hempty, hstop⟩ := h
  obtain ⟨ht, -, -, -, hreadable⟩ := hreads.stands hs
  rw [hreadable, (ht.refresh hempty).2.2.2.2 hstop, append_nil]

/-- **The readable bytes are what `ReadRaw` copies**, as many as are asked for, and all of them
before it fails. -/
theorem readRaw_readable (h : Stands data top last s) (size : ℕ) :
    (s.readRaw size).1 = decide (size ≤ (readable data s).length) ∧
      (s.readRaw size).2.1 = (readable data s).take size := by
  rw [readRaw]
  obtain ⟨hreads, hend⟩ := copyLoop_reads s size
  generalize s.copyLoop size = result at hreads hend
  rcases hend with ⟨hok, hlen⟩ | ⟨hok, hlen, hstop⟩
  · obtain ⟨-, -, -, -, hreadable⟩ := hreads.stands h
    rw [hok, hreadable, ← hlen, take_left, length_append]
    exact ⟨(decide_eq_true (Nat.le_add_right _ _)).symm, rfl⟩
  · rw [hok, hstop.readable_eq h, take_of_length_le hlen.le]
    exact ⟨(decide_eq_false (not_le.mpr hlen)).symm, rfl⟩

/-! ## Skips -/

theorem ZeroCopyInputStream.skip_total (input : ZeroCopyInputStream) (count : ℕ) :
    (input.skip count).2.remaining = input.remaining.drop count ∧
      (input.skip count).2.byteCount + (input.skip count).2.remaining.length =
        input.byteCount + input.remaining.length := by
  by_cases hle : count ≤ input.remaining.length
  · have hremaining := remaining_skip hle
    refine ⟨hremaining, ?_⟩
    rw [hremaining, length_drop, ZeroCopyInputStream.skip, if_pos hle]
    dsimp only
    omega
  · rw [ZeroCopyInputStream.skip, if_neg hle, drop_eq_nil_of_le (by omega)]
    exact ⟨rfl, rfl⟩

theorem ZeroCopyInputStream.skip_chunks {input : ZeroCopyInputStream} {bound : ℕ}
    (h : ∀ chunk ∈ input.chunks, chunk.length ≤ bound) (count : ℕ) :
    ∀ chunk ∈ (input.skip count).2.chunks, chunk.length ≤ bound := by
  rw [ZeroCopyInputStream.skip]
  split
  · obtain ⟨chunks, byteCount⟩ := input
    dsimp only at h ⊢
    clear * - h
    induction chunks generalizing count with
    | nil => simp [skipChunks]
    | cons data chunks ih =>
      rw [forall_mem_cons] at h
      rw [skipChunks]
      split
      · rw [forall_mem_cons, length_drop]
        exact ⟨le_trans (Nat.sub_le _ _) h.1, h.2⟩
      · exact ih _ h.2
  · simp

/-- `ByteCount` at the end of the stream. -/
def CodedInputStream.endCount (s : CodedInputStream) : ℕ :=
  s.input.elim 0 fun input => input.byteCount + input.remaining.length

/-- `Skip` meets no limit, and asks for more bytes than the stream has. -/
def CodedInputStream.RunsOff (s : CodedInputStream) (count : ℤ) : Prop :=
  s.bufferSizeAfterLimit = 0 ∧ s.bufferSize < count ∧
    count - s.bufferSize ≤ s.closestLimit - s.totalBytesRead ∧ s.behind.length < count - s.bufferSize

instance (s : CodedInputStream) (count : ℤ) : Decidable (s.RunsOff count) :=
  inferInstanceAs (Decidable (_ ∧ _))

namespace Stands

section
variable (h : Stands data top last s)
include h

theorem drop_read : ∃ lost : List UInt8, lost.length = s.overflowBytes ∧
      data.drop s.totalBytesRead = lost ++ s.behind := by
  obtain ⟨lost, hlost, hrest⟩ := h.rest
  have hdrop := congrArg (List.drop s.buffer.length) hrest
  rw [drop_drop, append_assoc, drop_left, Nat.sub_add_cancel h.buffer_le] at hdrop
  exact ⟨lost, hlost, hdrop⟩

theorem before_limit (hlt : s.totalBytesRead < s.closestLimit) :
    s.overflowBytes = 0 ∧ data.drop s.totalBytesRead = s.behind ∧
      ∃ input, s.input = some input ∧ s.behind = input.remaining := by
  have hclosest := h.closest_le
  have hoverflow : s.overflowBytes = 0 := by
    have hcut := h.overflow
    omega
  refine ⟨hoverflow, ?_, ?_⟩
  · obtain ⟨lost, hlost, hrest⟩ := h.drop_read
    obtain rfl : lost = [] := length_eq_zero_iff.mp (hlost.trans hoverflow)
    exact hrest
  · cases hinput : s.input with
    | none =>
      have hflat := h.flat hinput
      have htop := h.limit_le_top
      have hcurrent : s.closestLimit ≤ s.currentLimit := Nat.min_le_left _ _
      omega
    | some input => exact ⟨input, rfl, by rw [behind, hinput]; rfl⟩

theorem dropBuffer (hafter : s.bufferSizeAfterLimit = 0) : Stands data top last { s with buffer := [] } := by
  have hread := h.after
  have hchunk := h.chunk_le
  refine ⟨⟨Nat.zero_le _, ?_, h.read_le, h.limit_le_top, h.top_le, h.total_le, h.overflow, ?_,
    h.drop_read, h.chunks, h.count, h.flat, h.length_le_last⟩, h.after⟩
  · simp only [closestLimit, length_nil] at hread ⊢
    omega
  · simp only [length_nil]
    omega

theorem skipped (hafter : s.bufferSizeAfterLimit = 0)
    (hlt : s.totalBytesRead < s.closestLimit) {totalBytesRead count : ℕ}
    {input : ZeroCopyInputStream} (hinput : s.input = some input) (hle : totalBytesRead ≤ s.closestLimit)
    (hrest : data.drop totalBytesRead = input.remaining.drop count) : Stands data top last { s with
      buffer := [], totalBytesRead, input := some (input.skip count).2 } := by
  obtain ⟨hremaining, htotal⟩ := input.skip_total count
  have hclosest := h.closest_le
  have hoverflow := (h.before_limit hlt).1
  have hsome : ∀ input', some (input.skip count).2 = some input' → (input.skip count).2 = input' :=
    fun _ => Option.some.inj
  refine ⟨⟨Nat.zero_le _, hle, by dsimp only; omega, h.limit_le_top, h.top_le, h.total_le,
    .inl hoverflow, ?_, ⟨[], hoverflow.symm, hrest.trans hremaining.symm⟩, ?_, ?_, by simp, h.length_le_last⟩, ?_⟩
  · simp [hoverflow]
  · intro input' heq
    exact hsome input' heq ▸ ZeroCopyInputStream.skip_chunks (h.chunks input hinput) count
  · intro input' heq
    rw [← hsome input' heq, htotal]
    exact h.count input hinput
  · exact hafter.trans (Nat.sub_eq_zero_of_le hle).symm

theorem position_of_nil (hbuffer : s.buffer = []) : s.currentPosition = s.totalBytesRead := by
  rw [h.sizes.2.1, hbuffer, length_nil, Nat.sub_zero]

end

end Stands

/-- What a skip must keep; the position moves back only where the stream ends before it. -/
structure Skips (data : List UInt8) (top last : ℕ) (s : CodedInputStream) (count : ℤ) (t : CodedInputStream) :
    Prop where
  stands : Stands data top last t
  currentLimit : t.currentLimit = s.currentLimit
  totalBytesLimit : t.totalBytesLimit = s.totalBytesLimit
  position : s.currentPosition ≤ t.currentPosition ∨
    s.RunsOff count ∧ s.endCount < s.totalBytesRead ∧ data.length ≤ t.currentPosition

theorem skips_advance (h : Stands data top last s) (count : ℤ) {n : ℕ} (hn : n ≤ s.bufferSize) :
    Skips data top last s count (s.advance n) := by
  refine ⟨h.advance hn, rfl, rfl, .inl ?_⟩
  rw [h.position_advance hn]
  exact Nat.le_add_right _ _

/-- Past the end of the buffer. -/
theorem skips_skipFallback (h : Stands data top last s) {count : ℕ} (hcount : s.bufferSize < count)
    (hfits : s.RunsOff count → s.endCount ≤ s.closestLimit) :
    Skips data top last s count (s.skipFallback count s.bufferSize).2 := by
  obtain ⟨hle, hposition, -, hsize⟩ := h.sizes
  rw [skipFallback]
  by_cases hhit : 0 < s.bufferSizeAfterLimit
  · rw [if_pos hhit]
    exact skips_advance h count le_rfl
  rw [if_neg hhit]
  have hafter : s.bufferSizeAfterLimit = 0 := Nat.eq_zero_of_not_pos hhit
  have hread : s.totalBytesRead ≤ s.closestLimit := by
    have hstop := h.after
    omega
  have hbefore : s.currentPosition ≤ s.totalBytesRead := by omega
  dsimp only
  split
  · split
    · next hpositive =>
      -- up to the limit
      have hlt : s.totalBytesRead < s.closestLimit := by
        have : (0 : ℤ) < s.closestLimit - s.totalBytesRead := hpositive
        omega
      obtain ⟨-, hrest, input, hinput, hbehind⟩ := h.before_limit hlt
      have hto : ((s.closestLimit : ℤ) - s.totalBytesRead).toNat =
          s.closestLimit - s.totalBytesRead := by omega
      have hskipped : Stands data top last { s with
          buffer := [], totalBytesRead := s.closestLimit
          input := some (input.skip (s.closestLimit - s.totalBytesRead)).2 } := by
        apply h.skipped hafter hlt hinput le_rfl
        rw [← hbehind, ← hrest, drop_drop, Nat.add_sub_cancel' hread]
      change Skips data top last s count { s with
        buffer := [], totalBytesRead := s.closestLimit
        input := s.input.map fun input =>
          (input.skip ((s.closestLimit : ℤ) - s.totalBytesRead).toNat).2 }
      rw [hinput, Option.map_some, hto]
      refine ⟨hskipped, rfl, rfl, .inl ?_⟩
      rw [hskipped.position_of_nil rfl]
      exact le_trans hbefore hread
    · -- at the limit
      have hdropped := h.dropBuffer hafter
      refine ⟨hdropped, rfl, rfl, .inl ?_⟩
      rw [hdropped.position_of_nil rfl]
      exact hbefore
  · next hwithin =>
    have hlimit : ((count - s.bufferSize : ℕ) : ℤ) ≤ s.closestLimit - s.totalBytesRead :=
      not_lt.mp hwithin
    have hlt : s.totalBytesRead < s.closestLimit := by omega
    obtain ⟨-, hrest, input, hinput, hbehind⟩ := h.before_limit hlt
    have hfst := input.skip_fst (count - s.bufferSize)
    have hend : s.endCount = input.byteCount + input.remaining.length := by
      rw [endCount, hinput]
      rfl
    rw [hinput]
    dsimp only
    split
    · next input' hskip =>
      -- off the end of the stream
      obtain rfl : input' = (input.skip (count - s.bufferSize)).2 := by rw [hskip]
      rw [hskip] at hfst
      have hfew : input.remaining.length < count - s.bufferSize := by
        have := of_decide_eq_false hfst.symm
        omega
      have hruns : s.RunsOff count := ⟨hafter, by omega, by omega, by rw [hbehind]; omega⟩
      obtain ⟨hremaining, htotal⟩ := input.skip_total (count - s.bufferSize)
      rw [drop_eq_nil_of_le hfew.le] at hremaining
      rw [hremaining, length_nil, add_zero, ← hend] at htotal
      have hlength : data.length ≤ s.endCount := by
        rw [hend, h.count input hinput]
        exact h.length_le_last
      have hskipped : Stands data top last { s with
          buffer := [], totalBytesRead := s.endCount
          input := some (input.skip (count - s.bufferSize)).2 } := by
        apply h.skipped hafter hlt hinput (hfits hruns)
        rw [drop_eq_nil_of_le hlength, drop_eq_nil_of_le hfew.le]
      dsimp only
      rw [htotal]
      refine ⟨hskipped, rfl, rfl, ?_⟩
      rw [hskipped.position_of_nil rfl]
      dsimp only
      by_cases hback : s.endCount < s.totalBytesRead
      · exact .inr ⟨hruns, hback, hlength⟩
      · exact .inl (by omega)
    · next input' hskip =>
      obtain rfl : input' = (input.skip (count - s.bufferSize)).2 := by rw [hskip]
      have hskipped : Stands data top last { s with
          buffer := [], totalBytesRead := s.totalBytesRead + (count - s.bufferSize)
          input := some (input.skip (count - s.bufferSize)).2 } := by
        apply h.skipped hafter hlt hinput (by omega)
        rw [← hbehind, ← hrest, drop_drop]
      refine ⟨hskipped, rfl, rfl, .inl ?_⟩
      rw [hskipped.position_of_nil rfl]
      dsimp only
      omega

theorem skip_stands (h : Stands data top last s) (count : ℤ)
    (hfits : s.RunsOff count → s.endCount ≤ s.closestLimit) : Skips data top last s count (s.skip count).2 := by
  rw [skip]
  by_cases hneg : count < 0
  · rw [if_pos hneg]
    exact ⟨h, rfl, rfl, .inl le_rfl⟩
  rw [if_neg hneg]
  by_cases hshort : count ≤ s.bufferSize
  · rw [if_pos hshort]
    exact skips_advance h count (by omega)
  · rw [if_neg hshort]
    obtain ⟨n, rfl⟩ := Int.eq_ofNat_of_zero_le (not_lt.mp hneg)
    exact skips_skipFallback h (by omega) hfits

/-! ## Limits -/

theorem Stands.withLimits (h : Stands data top last s) (currentLimit totalBytesLimit : ℕ)
    (hcurrent : s.currentPosition ≤ currentLimit) (htotal : s.currentPosition ≤ totalBytesLimit)
    (htop : currentLimit ≤ top) (hmax : totalBytesLimit ≤ INT_MAX) :
    Placed data top last { s with currentLimit, totalBytesLimit } := by
  have hposition := h.sizes.2.1
  refine ⟨h.buffer_le, ?_, h.read_le, htop, h.top_le, hmax, h.overflow, h.chunk_le, h.rest, h.chunks,
    h.count, h.flat, h.length_le_last⟩
  simp only [closestLimit]
  omega

theorem position_recompute (h : Placed data top last s) :
    s.recomputeBufferLimits.currentPosition = s.totalBytesRead - s.buffer.length := by
  rw [h.recompute.sizes.2.1, recomputeBufferLimits_eq]

theorem pushLimit_stands (h : Stands data top last s) (byteLimit : ℤ) :
    (s.pushLimit byteLimit).1 = s.currentLimit ∧ Stands data top last (s.pushLimit byteLimit).2 ∧
      (s.pushLimit byteLimit).2.currentPosition = s.currentPosition ∧
      (s.pushLimit byteLimit).2.currentLimit ≤ s.currentLimit ∧
      (s.pushLimit byteLimit).2.totalBytesLimit = s.totalBytesLimit := by
  have hposition := h.sizes.2.1
  rw [pushLimit]
  split
  · next htaken =>
    obtain ⟨hnonneg, -, hcloser⟩ := htaken
    have hclosest := h.sizes.2.2.1
    have htotal : s.closestLimit ≤ s.totalBytesLimit := Nat.min_le_right _ _
    have hlower : (s.currentPosition + byteLimit).toNat ≤ s.currentLimit := by omega
    have hplaced := h.withLimits (s.currentPosition + byteLimit).toNat
      s.totalBytesLimit (by omega) (by omega)
      (le_trans hlower h.limit_le_top) h.total_le
    refine ⟨rfl, hplaced.recompute, ?_, ?_, ?_⟩
    · dsimp only
      rw [position_recompute hplaced, hposition]
    · rw [recomputeBufferLimits_eq]
      exact hlower
    · rw [recomputeBufferLimits_eq]
  · exact ⟨rfl, h, rfl, le_rfl, rfl⟩

theorem popLimit_stands (h : Stands data top last s) {limit : ℕ} (hlimit : s.currentLimit ≤ limit)
    (htop : limit ≤ top) :
    Stands data top last (s.popLimit limit) ∧ (s.popLimit limit).currentPosition = s.currentPosition ∧
      (s.popLimit limit).currentLimit = limit ∧ (s.popLimit limit).totalBytesLimit = s.totalBytesLimit := by
  have hclosest := h.sizes.2.2.1
  rw [closestLimit] at hclosest
  have hplaced := h.withLimits limit s.totalBytesLimit (by omega) (by omega) htop h.total_le
  have hstands := hplaced.recompute.flags s.lastTag false
  have hposition : (s.popLimit limit).currentPosition = s.currentPosition := by
    rw [h.sizes.2.1, ← position_recompute hplaced]
    rfl
  rw [popLimit, recomputeBufferLimits_eq] at hposition ⊢
  rw [recomputeBufferLimits_eq] at hstands
  exact ⟨hstands, hposition, rfl, rfl⟩

theorem setTotalBytesLimit_stands (h : Stands data top last s) {totalBytesLimit : ℤ}
    (hmax : totalBytesLimit ≤ INT_MAX) : Stands data top last (s.setTotalBytesLimit totalBytesLimit) ∧
      (s.setTotalBytesLimit totalBytesLimit).currentPosition = s.currentPosition ∧
      (s.setTotalBytesLimit totalBytesLimit).currentLimit = s.currentLimit := by
  have hclosest := h.sizes.2.2.1
  have hmaxclosest := h.closest_le
  have hcurrent : s.closestLimit ≤ s.currentLimit := Nat.min_le_left _ _
  have hplaced := h.withLimits s.currentLimit
    (max s.currentPosition totalBytesLimit.toNat) (by omega) (Nat.le_max_left _ _) h.limit_le_top (by omega)
  refine ⟨hplaced.recompute, ?_, ?_⟩
  · rw [setTotalBytesLimit, position_recompute hplaced, h.sizes.2.1]
  · rw [setTotalBytesLimit, recomputeBufferLimits_eq]

end Protoc.Io
