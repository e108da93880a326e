import Protoc.Io.ZeroCopyStream

/-!
# Output through a copying stream

`CopyingOutputStreamAdaptor` hands out its one block, and writes it when it is asked for
the next one, when it is flushed and when it goes.  What is below it, a file descriptor or
an ostream, takes as many of the bytes as it likes, or fails.

The results of the calls below do not depend on the bytes written, so a write is given by
their number, and the adaptor counts the bytes that were accepted.
-/

namespace Protoc.Io

/-- The outcome of `Write`: its result, how many bytes were accepted, and what is below
afterwards. -/
structure Written (σ : Type) where
  succeeded : Bool
  accepted : ℕ
  sink : σ
  deriving DecidableEq

/-- `CopyingOutputStream`.  A write succeeds when every byte was accepted. -/
structure CopyingOutputStream (σ : Type) where
  write : ℕ → σ → Written σ
  accepted_le : ∀ size sink, (write size sink).accepted ≤ size
  succeeded_iff : ∀ size sink, 0 < size →
    ((write size sink).succeeded = true ↔ (write size sink).accepted = size)

/-! ## A file descriptor -/

/-- What a call of `write` does. -/
inductive WriteResult
  /-- It takes so many bytes, or all there are. -/
  | accepted (bytes : ℕ)
  /-- It fails with `EINTR`. -/
  | interrupted
  /-- It fails with another error. -/
  | failed
  deriving DecidableEq

/-- A file descriptor, by the results of the calls of `write`.  They are not interrupted for
ever. -/
structure FileDescriptor where
  result : ℕ → WriteResult
  eventually : ∀ n, ∃ m, result (n + m) ≠ .interrupted

namespace FileDescriptor

/-- `write` until it is not interrupted: the bytes taken, none where it fails, and the
number of calls so far. -/
def write (fd : FileDescriptor) (size calls : ℕ) : ℕ × ℕ :=
  let calls := calls + Nat.find (fd.eventually calls)
  match fd.result calls with
  | .accepted bytes => (min bytes size, calls + 1)
  | .interrupted => (0, calls + 1)
  | .failed => (0, calls + 1)

/-- The loop of `Write`, at most `fuel` times. -/
def writeLoop (fd : FileDescriptor) (size : ℕ) : ℕ → ℕ → ℕ → Written ℕ
  | 0, totalWritten, calls => ⟨true, totalWritten, calls⟩
  | fuel + 1, totalWritten, calls =>
    if totalWritten < size then
      let r := fd.write (size - totalWritten) calls
      if r.1 = 0 then ⟨false, totalWritten, r.2⟩
      else writeLoop fd size fuel (totalWritten + r.1) r.2
    else ⟨true, totalWritten, calls⟩

theorem write_le (fd : FileDescriptor) (size calls : ℕ) : (fd.write size calls).1 ≤ size := by
  rw [write]
  cases fd.result (calls + Nat.find (fd.eventually calls)) with
  | accepted bytes => exact Nat.min_le_right _ _
  | interrupted | failed => exact Nat.zero_le _

theorem writeLoop_spec (fd : FileDescriptor) {size : ℕ} (fuel totalWritten calls : ℕ)
    (hle : totalWritten ≤ size) (hfuel : size ≤ totalWritten + fuel) :
    (fd.writeLoop size fuel totalWritten calls).accepted ≤ size ∧
      ((fd.writeLoop size fuel totalWritten calls).succeeded = true ↔
        (fd.writeLoop size fuel totalWritten calls).accepted = size) := by
  induction fuel generalizing totalWritten calls with
  | zero => exact ⟨hle, by simp only [writeLoop, true_iff]; omega⟩
  | succ fuel ih =>
    rw [writeLoop]
    by_cases hmore : totalWritten < size
    · have hwrite := fd.write_le (size - totalWritten) calls
      rw [if_pos hmore]
      by_cases hzero : (fd.write (size - totalWritten) calls).1 = 0
      · simp only [if_pos hzero, Bool.false_eq_true, false_iff]
        exact ⟨hle, ne_of_lt hmore⟩
      · simp only [if_neg hzero]
        exact ih _ _ (by omega) (by omega)
    · rw [if_neg hmore]
      exact ⟨hle, by simp only [true_iff]; omega⟩

/-- `CopyingFileOutputStream`: what is below is the number of calls so far. -/
def copyingFileOutputStream (fd : FileDescriptor) : CopyingOutputStream ℕ where
  write size calls := fd.writeLoop size size 0 calls
  accepted_le size calls := (fd.writeLoop_spec size 0 calls (Nat.zero_le _) (Nat.le_add_left _ _)).1
  succeeded_iff size calls _ :=
    (fd.writeLoop_spec size 0 calls (Nat.zero_le _) (Nat.le_add_left _ _)).2

end FileDescriptor

/-! ## An ostream -/

/-- An ostream, by how many bytes its buffer would take in each call. -/
structure Ostream where
  result : ℕ → ℕ

/-- The number of calls so far, and whether the stream is good. -/
structure Ostream.State where
  calls : ℕ
  good : Bool
  deriving DecidableEq

namespace Ostream

/-- `write`: nothing unless the stream is good, which it is not any more when its buffer
does not take every byte. -/
def write (output : Ostream) (size : ℕ) (state : State) : Written State :=
  if state.good then
    let good := decide (size ≤ output.result state.calls)
    ⟨good, min (output.result state.calls) size, ⟨state.calls + 1, good⟩⟩
  else ⟨false, 0, state⟩

/-- `CopyingOstreamOutputStream`, whose result is `good()`. -/
def copyingOstreamOutputStream (output : Ostream) : CopyingOutputStream State where
  write := output.write
  accepted_le size state := by
    by_cases hgood : state.good
    · rw [write, if_pos hgood]
      exact Nat.min_le_right _ _
    · rw [write, if_neg hgood]
      exact Nat.zero_le _
  succeeded_iff size state hsize := by
    by_cases hgood : state.good
    · simp only [write, if_pos hgood, decide_eq_true_iff]
      omega
    · simp only [write, if_neg hgood, Bool.false_eq_true, false_iff]
      omega

theorem good_write (output : Ostream) (size : ℕ) (state : State) :
    (output.write size state).sink.good = (output.write size state).succeeded := by
  by_cases hgood : state.good
  · simp [write, hgood]
  · simp [write, hgood]

end Ostream

/-! ## The adaptor -/

/-- `kDefaultBlockSize`. -/
def kDefaultBlockSize : ℕ := 8192

/-- `CopyingOutputStreamAdaptor`, and how many bytes the calls of `Write` accepted. -/
structure CopyingOutputStreamAdaptor (σ : Type) where
  copyingStream : σ
  failed : Bool
  position : ℕ
  bufferUsed : ℕ
  accepted : ℕ
  deriving DecidableEq

namespace CopyingOutputStreamAdaptor

variable {σ : Type}

def ofStream (sink : σ) : CopyingOutputStreamAdaptor σ := ⟨sink, false, 0, 0, 0⟩

/-- `ByteCount`. -/
def byteCount (a : CopyingOutputStreamAdaptor σ) : ℕ := a.position + a.bufferUsed

/-- `BackUp`. -/
def backUp (a : CopyingOutputStreamAdaptor σ) (count : ℕ) : CopyingOutputStreamAdaptor σ :=
  { a with bufferUsed := a.bufferUsed - count }

section
variable (copying : CopyingOutputStream σ)

/-- `WriteBuffer`. -/
def writeBuffer (a : CopyingOutputStreamAdaptor σ) : Bool × CopyingOutputStreamAdaptor σ :=
  if a.failed then (false, a)
  else if a.bufferUsed = 0 then (true, a)
  else
    let r := copying.write a.bufferUsed a.copyingStream
    let a := { a with copyingStream := r.sink, accepted := a.accepted + r.accepted }
    if r.succeeded then (true, { a with position := a.position + a.bufferUsed, bufferUsed := 0 })
    else (false, { a with failed := true, bufferUsed := 0 })

/-- `Flush`. -/
def flush (a : CopyingOutputStreamAdaptor σ) : Bool × CopyingOutputStreamAdaptor σ :=
  a.writeBuffer copying

/-- `Next`: the size of the buffer handed out. -/
def next (a : CopyingOutputStreamAdaptor σ) : Option ℕ × CopyingOutputStreamAdaptor σ :=
  let r := if a.bufferUsed = kDefaultBlockSize then a.writeBuffer copying else (true, a)
  if r.1 then
    (some (kDefaultBlockSize - r.2.bufferUsed), { r.2 with bufferUsed := kDefaultBlockSize })
  else (none, r.2)

/-- The destructors of the stream around the adaptor, which flushes, and of the adaptor. -/
def destroy (a : CopyingOutputStreamAdaptor σ) : CopyingOutputStreamAdaptor σ :=
  ((a.flush copying).2.writeBuffer copying).2

/-- The adaptor after `n` calls of `Next`. -/
def adaptorAfter (sink : σ) : ℕ → CopyingOutputStreamAdaptor σ
  | 0 => ofStream sink
  | n + 1 => ((adaptorAfter sink n).next copying).2

end

variable (copying : CopyingOutputStream σ)

theorem writeBuffer_bufferUsed (a : CopyingOutputStreamAdaptor σ) :
    (a.writeBuffer copying).2.bufferUsed = 0 ∨ a.writeBuffer copying = (false, a) := by
  rw [writeBuffer]
  by_cases hfailed : a.failed = true
  · rw [if_pos hfailed]
    exact .inr rfl
  · by_cases hzero : a.bufferUsed = 0
    · rw [if_neg hfailed, if_pos hzero]
      exact .inl hzero
    · rw [if_neg hfailed, if_neg hzero]
      simp only
      split <;> exact .inl rfl

theorem next_of_free {a : CopyingOutputStreamAdaptor σ} (hfree : a.bufferUsed = 0) :
    a.next copying = (some kDefaultBlockSize, { a with bufferUsed := kDefaultBlockSize }) := by
  have hne : a.bufferUsed ≠ kDefaultBlockSize := by
    rw [hfree]
    decide
  rw [next, if_neg hne]
  simp [hfree]

theorem next_of_full {a : CopyingOutputStreamAdaptor σ} (hfull : a.bufferUsed = kDefaultBlockSize) :
    a.next copying = if (a.writeBuffer copying).1 then
      (some kDefaultBlockSize, { (a.writeBuffer copying).2 with bufferUsed := kDefaultBlockSize })
    else (none, (a.writeBuffer copying).2) := by
  rw [next, if_pos hfull]
  by_cases hsucceeded : (a.writeBuffer copying).1 = true
  · rcases a.writeBuffer_bufferUsed copying with hfree | heq
    · simp [hsucceeded, hfree]
    · simp [heq] at hsucceeded
  · simp [hsucceeded]

theorem next_size (a : CopyingOutputStreamAdaptor σ)
    (hused : a.bufferUsed = 0 ∨ a.bufferUsed = kDefaultBlockSize) :
    ((a.next copying).1 = some kDefaultBlockSize ∨ (a.next copying).1 = none) ∧
      ((a.next copying).2.bufferUsed = 0 ∨ (a.next copying).2.bufferUsed = kDefaultBlockSize) := by
  rcases hused with hfree | hfull
  · rw [next_of_free copying hfree]
    exact ⟨.inl rfl, .inr rfl⟩
  · rw [next_of_full copying hfull]
    by_cases hsucceeded : (a.writeBuffer copying).1 = true
    · rw [if_pos hsucceeded]
      exact ⟨.inl rfl, .inr rfl⟩
    · rw [if_neg hsucceeded]
      refine ⟨.inr rfl, ?_⟩
      rcases a.writeBuffer_bufferUsed copying with hfree | heq
      · exact .inl hfree
      · rw [heq]
        exact .inr hfull

theorem bufferUsed_adaptorAfter (sink : σ) (n : ℕ) : (adaptorAfter copying sink n).bufferUsed = 0 ∨
      (adaptorAfter copying sink n).bufferUsed = kDefaultBlockSize := by
  induction n with
  | zero => exact .inl rfl
  | succ n ih => exact (next_size copying _ ih).2

/-- What the calls of `Next` return; `memory n` is what the block holds at the `n`-th. -/
def buffers (sink : σ) (memory : ℕ → ℕ → UInt8) : Buffers where
  result n := ((adaptorAfter copying sink n).next copying).1.map fun size =>
    (List.range size).map (memory n)
  eventually n := by
    refine ⟨0, ?_⟩
    rcases (next_size copying _ (bufferUsed_adaptorAfter copying sink n)).1 with
      hsome | hnone
    · simp [hsome, kDefaultBlockSize]
    · simp [hnone]

end CopyingOutputStreamAdaptor

end Protoc.Io
