import Mathlib.Algebra.Group.Nat.Defs
import Mathlib.Data.List.Basic
import Mathlib.Data.Nat.Find

/-!
# Zero-copy streams

An input stream hands out its chunks.  An output stream hands out buffers to be written into.  Their sizes and what they hold at first
are the stream's own choice; a call of `Next` may fail, and it may return an empty
buffer, but not for ever.

The memory of all the buffers handed out, one after the other, is one list of bytes; the
end that is backed up over is taken off again.
-/

namespace Protoc.Io

/-! ## A zero-copy input stream -/

/-- `INT_MAX`. -/
def INT_MAX : ℕ := 2 ^ 31 - 1

/-- The chunks that `Next` will return, and `ByteCount`. -/
structure ZeroCopyInputStream where
  chunks : List (List UInt8)
  byteCount : ℕ
  deriving DecidableEq

namespace ZeroCopyInputStream

def remaining (input : ZeroCopyInputStream) : List UInt8 := input.chunks.flatten

/-- `Next`. -/
def next (input : ZeroCopyInputStream) : Option (List UInt8) × ZeroCopyInputStream :=
  match input.chunks with
  | [] => (none, input)
  | data :: chunks => (some data, ⟨chunks, input.byteCount + data.length⟩)

/-- The chunks after `count` bytes of them. -/
def skipChunks : ℕ → List (List UInt8) → List (List UInt8)
  | _, [] => []
  | count, data :: chunks =>
    if count < data.length then data.drop count :: chunks
    else skipChunks (count - data.length) chunks

/-- `Skip`; past the end it goes to the end and fails. -/
def skip (input : ZeroCopyInputStream) (count : ℕ) : Bool × ZeroCopyInputStream :=
  if count ≤ input.remaining.length then
    (true, ⟨skipChunks count input.chunks, input.byteCount + count⟩)
  else (false, ⟨[], input.byteCount + input.remaining.length⟩)

/-- `NextNonEmpty`, on the chunks. -/
def nextNonEmptyOf : List (List UInt8) → ℕ → Option (List UInt8) × ZeroCopyInputStream
  | [], byteCount => (none, ⟨[], byteCount⟩)
  | data :: chunks, byteCount =>
    if data.length = 0 then nextNonEmptyOf chunks byteCount
    else (some data, ⟨chunks, byteCount + data.length⟩)

/-- `NextNonEmpty`: `Next` until it fails or the chunk is not empty. -/
def nextNonEmpty (input : ZeroCopyInputStream) : Option (List UInt8) × ZeroCopyInputStream :=
  nextNonEmptyOf input.chunks input.byteCount

theorem flatten_skipChunks (count : ℕ) (chunks : List (List UInt8)) :
    (skipChunks count chunks).flatten = chunks.flatten.drop count := by
  induction chunks generalizing count with
  | nil => simp [skipChunks]
  | cons data chunks ih =>
    simp only [skipChunks, List.flatten_cons, List.drop_append]
    split
    · next h => simp [show count - data.length = 0 by omega]
    · next h => simp [ih, List.drop_eq_nil_of_le (not_lt.mp h)]

theorem skip_fst (input : ZeroCopyInputStream) (count : ℕ) :
    (input.skip count).1 = decide (count ≤ input.remaining.length) := by
  simp only [skip]
  split <;> simp_all

theorem remaining_skip {input : ZeroCopyInputStream} {count : ℕ} (h : count ≤ input.remaining.length) :
    (input.skip count).2.remaining = input.remaining.drop count := by
  rw [skip, if_pos h]
  exact flatten_skipChunks count input.chunks

theorem nextNonEmpty_spec (input : ZeroCopyInputStream) :
    (input.nextNonEmpty.1 = none ∧ input.remaining = [] ∧ input.nextNonEmpty.2.remaining = []) ∨
      ∃ data, input.nextNonEmpty.1 = some data ∧ data ≠ [] ∧
        input.remaining = data ++ input.nextNonEmpty.2.remaining ∧
        input.nextNonEmpty.2.chunks.length < input.chunks.length := by
  obtain ⟨chunks, byteCount⟩ := input
  simp only [nextNonEmpty, remaining]
  induction chunks with
  | nil => exact .inl ⟨rfl, rfl, rfl⟩
  | cons data chunks ih =>
    simp only [nextNonEmptyOf]
    by_cases hdata : data.length = 0
    · have hnil : data = [] := List.length_eq_zero_iff.mp hdata
      rw [if_pos hdata]
      rcases ih with ⟨hnone, hrest, hleft⟩ | ⟨d, hsome, hne, hrest, hlt⟩
      · exact .inl ⟨hnone, by simp [hnil, hrest], hleft⟩
      · exact .inr ⟨d, hsome, hne, by simp [hnil, hrest], by simp only [List.length_cons]; omega⟩
    · rw [if_neg hdata]
      refine .inr ⟨data, rfl, ?_, by simp, by simp⟩
      intro hnil
      simp [hnil] at hdata

end ZeroCopyInputStream

end Protoc.Io

namespace Protoc.Io

/-! ## A zero-copy output stream -/

/-- The buffers that the calls of `Next` return, with what they hold at first; none where
the call fails.  Calling repeatedly yields a buffer that is not empty, or fails. -/
structure Buffers where
  result : ℕ → Option (List UInt8)
  eventually : ∀ n, ∃ m, result (n + m) ≠ some []

/-- The memory handed out so far, how often `Next` was called, and how far the stream may
be backed up: over the last buffer, once. -/
structure ZeroCopyOutputStream where
  bytes : List UInt8
  calls : ℕ
  last : ℕ
  deriving DecidableEq

namespace ZeroCopyOutputStream

/-- `ByteCount`. -/
def byteCount (stream : ZeroCopyOutputStream) : ℕ := stream.bytes.length

/-- `Next`: the size of the new buffer, at the end of the memory. -/
def next (buffers : Buffers) (stream : ZeroCopyOutputStream) : Option (ℕ × ZeroCopyOutputStream) :=
  (buffers.result stream.calls).map fun data =>
    (data.length, ⟨stream.bytes ++ data, stream.calls + 1, data.length⟩)

/-- At most `fuel` calls of `Next`, until one fails or the buffer is not empty. -/
def nextNonEmptyLoop (buffers : Buffers) :
    ℕ → ZeroCopyOutputStream → Option (ℕ × ZeroCopyOutputStream)
  | 0, _ => none
  | fuel + 1, stream =>
    match stream.next buffers with
    | none => none
    | some (size, stream) =>
      if size = 0 then nextNonEmptyLoop buffers fuel stream else some (size, stream)

/-- `Next` until it fails or the buffer is not empty. -/
def nextNonEmpty (buffers : Buffers) (stream : ZeroCopyOutputStream) : Option (ℕ × ZeroCopyOutputStream) :=
  nextNonEmptyLoop buffers (Nat.find (buffers.eventually stream.calls) + 1) stream

/-- `BackUp`, which takes back the last buffer at most. -/
def backUp (stream : ZeroCopyOutputStream) (count : ℕ) : ZeroCopyOutputStream :=
  { stream with
    bytes := stream.bytes.take (stream.bytes.length - min count stream.last)
    last := 0 }

variable {buffers : Buffers}

theorem nextNonEmptyLoop_eq_some (hsucceeds : ∀ n, buffers.result n ≠ none) (k : ℕ)
    (stream : ZeroCopyOutputStream) (hk : buffers.result (stream.calls + k) ≠ some []) :
    ∃ data calls, data ≠ [] ∧ nextNonEmptyLoop buffers (k + 1) stream =
      some (data.length, ⟨stream.bytes ++ data, calls, data.length⟩) := by
  induction k generalizing stream with
  | zero =>
    rw [nextNonEmptyLoop, next]
    cases hdata : buffers.result stream.calls with
    | none => exact absurd hdata (hsucceeds _)
    | some data =>
      have hne : data ≠ [] := by
        rintro rfl
        exact hk hdata
      refine ⟨data, stream.calls + 1, hne, ?_⟩
      simp [List.length_eq_zero_iff, hne]
  | succ k ih =>
    rw [nextNonEmptyLoop, next]
    cases hdata : buffers.result stream.calls with
    | none => exact absurd hdata (hsucceeds _)
    | some data =>
      by_cases hne : data = []
      · have hk' : buffers.result (stream.calls + 1 + k) ≠ some [] := by
          rw [add_assoc, add_comm 1 k]
          exact hk
        obtain ⟨data', calls, hdata', hloop⟩ := ih ⟨stream.bytes, stream.calls + 1, 0⟩ hk'
        refine ⟨data', calls, hdata', ?_⟩
        simpa [hne] using hloop
      · refine ⟨data, stream.calls + 1, hne, ?_⟩
        simp [List.length_eq_zero_iff, hne]

theorem nextNonEmpty_eq_some (hsucceeds : ∀ n, buffers.result n ≠ none) (stream : ZeroCopyOutputStream) :
    ∃ data calls, data ≠ [] ∧
      stream.nextNonEmpty buffers = some (data.length, ⟨stream.bytes ++ data, calls, data.length⟩) :=
  nextNonEmptyLoop_eq_some hsucceeds _ stream (Nat.find_spec (buffers.eventually stream.calls))

theorem nextNonEmptyLoop_of_some (fuel : ℕ) {stream stream' : ZeroCopyOutputStream} {size : ℕ}
    (h : nextNonEmptyLoop buffers fuel stream = some (size, stream')) :
    ∃ data calls, data ≠ [] ∧ size = data.length ∧ stream' = ⟨stream.bytes ++ data, calls, data.length⟩ := by
  induction fuel generalizing stream with
  | zero => exact absurd h.symm (Option.some_ne_none _)
  | succ fuel ih =>
    rw [nextNonEmptyLoop, next] at h
    cases hdata : buffers.result stream.calls with
    | none => simp [hdata] at h
    | some data =>
      simp only [hdata, Option.map_some] at h
      by_cases hempty : data = []
      · simp only [hempty, List.length_nil, if_true, List.append_nil] at h
        have hrest := ih h
        exact hrest
      · rw [if_neg (mt List.length_eq_zero_iff.mp hempty)] at h
        cases h
        exact ⟨data, _, hempty, rfl, rfl⟩

theorem nextNonEmpty_of_some {stream stream' : ZeroCopyOutputStream} {size : ℕ}
    (h : stream.nextNonEmpty buffers = some (size, stream')) : ∃ data calls, data ≠ [] ∧ size = data.length ∧
      stream' = ⟨stream.bytes ++ data, calls, data.length⟩ :=
  nextNonEmptyLoop_of_some _ h

end ZeroCopyOutputStream

end Protoc.Io
