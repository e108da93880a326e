import Protoc.Io.EpsCopyOutputBytes

/-!
# Coded output to a stream that may fail

A stream that may fail is compared with one that hands out the same buffers and never fails.
As long as the calls of `Next` are served the two runs are one; from the first call that is
not, the coded stream has an error and keeps it, while the other run goes on and needs that
call.
-/

namespace Protoc.Io

open Protoc.Lib

/-- The first `n` calls of `Next` return buffers. -/
def Served (buffers : Buffers) (n : ℕ) : Prop := ∀ j < n, buffers.result j ≠ none

/-- `whole` never fails, and hands out what `buffers` does.  No buffer is empty. -/
structure Completes (whole buffers : Buffers) : Prop where
  succeeds : ∀ n, whole.result n ≠ none
  nonempty : ∀ n, whole.result n ≠ some []
  result_eq : ∀ n, buffers.result n ≠ none → buffers.result n = whole.result n

theorem Served.mono {buffers : Buffers} {m n : ℕ} (h : Served buffers n) (hle : m ≤ n) :
    Served buffers m := fun j hj => h j (lt_of_lt_of_le hj hle)

theorem Served.succ {buffers : Buffers} {n : ℕ} (h : Served buffers n)
    (hn : buffers.result n ≠ none) : Served buffers (n + 1) := by
  intro j hj
  rcases Nat.lt_succ_iff_lt_or_eq.mp hj with hlt | rfl
  · exact h j hlt
  · exact hn

namespace ZeroCopyOutputStream

theorem nextNonEmpty_eq_next {buffers : Buffers} (hnonempty : ∀ n, buffers.result n ≠ some [])
    (stream : ZeroCopyOutputStream) : stream.nextNonEmpty buffers = stream.next buffers := by
  rw [nextNonEmpty, nextNonEmptyLoop]
  cases hdata : buffers.result stream.calls with
  | none => simp [next, hdata]
  | some data =>
    have hne : data ≠ [] := by
      rintro rfl
      exact hnonempty _ hdata
    simp [next, hdata, hne]

end ZeroCopyOutputStream

theorem Completes.nonempty' {whole buffers : Buffers} (h : Completes whole buffers) (n : ℕ) :
    buffers.result n ≠ some [] := by
  intro hempty
  apply h.nonempty n
  rw [← h.result_eq n (by rw [hempty]; exact Option.some_ne_none _), hempty]

namespace EpsCopyOutputStream

section
variable (s : EpsCopyOutputStream)
include s

@[simp] theorem hadError_store (p : Ptr) (data : List UInt8) : (s.store p data).hadError = s.hadError := by
  cases p <;> rfl

@[simp] theorem calls_store (p : Ptr) (data : List UInt8) : (s.store p data).stream.calls = s.stream.calls := by
  cases p <;> rfl

@[simp] theorem hadError_memcpy (dst src : Ptr) (n : ℕ) :
    (s.memcpy dst src n).hadError = s.hadError := hadError_store ..

@[simp] theorem calls_memcpy (dst src : Ptr) (n : ℕ) :
    (s.memcpy dst src n).stream.calls = s.stream.calls := calls_store ..

@[simp] theorem hadError_setInitialBuffer (data : Ptr) (size : ℕ) :
    (s.setInitialBuffer data size).2.hadError = s.hadError := by
  rw [setInitialBuffer]
  split <;> rfl

@[simp] theorem stream_setInitialBuffer (data : Ptr) (size : ℕ) :
    (s.setInitialBuffer data size).2.stream = s.stream := by
  rw [setInitialBuffer]
  split <;> rfl

end

variable {α β γ : Type} {whole buffers : Buffers}

/-- A result over the stream that may fail and the one over the stream that never does. -/
def Agrees (buffers : Buffers) (r r' : α × EpsCopyOutputStream) : Prop :=
  r = r' ∧ Served buffers r'.2.stream.calls ∨
    r.2.hadError = true ∧ ¬ Served buffers r'.2.stream.calls

/-- A function over the stream that may fail, and over the one that never does: the results
agree, an error is kept, and no call of `Next` is taken back. -/
structure Operation (buffers : Buffers) (f g : α × EpsCopyOutputStream → β × EpsCopyOutputStream) :
    Prop where
  agrees : ∀ r, Served buffers r.2.stream.calls → Agrees buffers (f r) (g r)
  keepsError : ∀ r, r.2.hadError = true → (f r).2.hadError = true
  calls_le : ∀ r, r.2.stream.calls ≤ (g r).2.stream.calls

namespace Operation

variable {f g : α × EpsCopyOutputStream → β × EpsCopyOutputStream}
  {f' g' : β × EpsCopyOutputStream → γ × EpsCopyOutputStream}

theorem agrees_agrees (h : Operation buffers f g) {r r' : α × EpsCopyOutputStream}
    (hr : Agrees buffers r r') : Agrees buffers (f r) (g r') := by
  rcases hr with ⟨rfl, hserved⟩ | ⟨herror, hunserved⟩
  · exact h.agrees r hserved
  · exact .inr ⟨h.keepsError r herror, fun hserved => hunserved (hserved.mono (h.calls_le r'))⟩

theorem comp (h' : Operation buffers f' g') (h : Operation buffers f g) :
    Operation buffers (f' ∘ f) (g' ∘ g) where
  agrees r hserved := h'.agrees_agrees (h.agrees r hserved)
  keepsError r herror := h'.keepsError _ (h.keepsError r herror)
  calls_le r := le_trans (h.calls_le r) (h'.calls_le _)

theorem of_eq (f : α × EpsCopyOutputStream → β × EpsCopyOutputStream)
    (hcalls : ∀ r, (f r).2.stream.calls = r.2.stream.calls)
    (herror : ∀ r, (f r).2.hadError = r.2.hadError) : Operation buffers f f where
  agrees r hserved := .inl ⟨rfl, by rwa [hcalls]⟩
  keepsError r hr := by rwa [herror]
  calls_le r := le_of_eq (hcalls r).symm

theorem ite {f' g' : α × EpsCopyOutputStream → β × EpsCopyOutputStream}
    (p : α × EpsCopyOutputStream → Prop) [DecidablePred p] (h : Operation buffers f g)
    (h' : Operation buffers f' g') :
    Operation buffers (fun r => if p r then f r else f' r)
      (fun r => if p r then g r else g' r) where
  agrees r hserved := by
    by_cases hp : p r
    · simp only [hp, if_true]
      exact h.agrees r hserved
    · simp only [hp, if_false]
      exact h'.agrees r hserved
  keepsError r herror := by
    by_cases hp : p r
    · simp only [hp, if_true]
      exact h.keepsError r herror
    · simp only [hp, if_false]
      exact h'.keepsError r herror
  calls_le r := by
    by_cases hp : p r
    · simp only [hp, if_true]
      exact h.calls_le r
    · simp only [hp, if_false]
      exact h'.calls_le r

theorem const (f : α × EpsCopyOutputStream → β) :
    Operation buffers (fun r => (f r, r.2)) (fun r => (f r, r.2)) :=
  .of_eq _ (fun _ => rfl) (fun _ => rfl)

theorem withParameter {ι : Type} {f g : ι → α × EpsCopyOutputStream → β × EpsCopyOutputStream}
    (h : ∀ i, Operation buffers (f i) (g i)) (i : α × EpsCopyOutputStream → ι) :
    Operation buffers (fun r => f (i r) r) (fun r => g (i r) r) where
  agrees r hserved := (h (i r)).agrees r hserved
  keepsError r herror := (h (i r)).keepsError r herror
  calls_le r := (h (i r)).calls_le r

end Operation

/-! ## The functions -/

theorem next_of_null (buffers whole : Buffers) (s : EpsCopyOutputStream) (hnull : s.bufferEnd = .null) :
    s.next buffers = s.next whole ∧ (s.next buffers).2.stream.calls = s.stream.calls ∧
      (s.next buffers).2.hadError = s.hadError := by
  rw [next, next, if_neg (not_not.mpr hnull), if_neg (not_not.mpr hnull)]
  simp

theorem next_of_none (hnonempty : ∀ n, buffers.result n ≠ some []) (s : EpsCopyOutputStream)
    (hnull : s.bufferEnd ≠ .null) (hnone : buffers.result s.stream.calls = none) :
    (s.next buffers).2.hadError = true := by
  rw [next, if_pos hnull]
  simp [ZeroCopyOutputStream.nextNonEmpty_eq_next hnonempty, ZeroCopyOutputStream.next, hnone, error]

theorem next_of_some (hnonempty : ∀ n, buffers.result n ≠ some []) (s : EpsCopyOutputStream)
    (hnull : s.bufferEnd ≠ .null) (hsome : buffers.result s.stream.calls ≠ none) :
    (s.next buffers).2.stream.calls = s.stream.calls + 1 ∧ (s.next buffers).2.hadError = s.hadError := by
  obtain ⟨data, hdata⟩ := Option.ne_none_iff_exists'.mp hsome
  rw [next, if_pos hnull]
  simp only [ZeroCopyOutputStream.nextNonEmpty_eq_next hnonempty, ZeroCopyOutputStream.next,
    calls_memcpy, hdata, Option.map_some]
  split <;> simp

theorem next_congr (hcompletes : Completes whole buffers) (s : EpsCopyOutputStream)
    (hsome : buffers.result s.stream.calls ≠ none) : s.next buffers = s.next whole := by
  rw [next, next]
  simp only [ZeroCopyOutputStream.nextNonEmpty_eq_next hcompletes.nonempty',
    ZeroCopyOutputStream.nextNonEmpty_eq_next hcompletes.nonempty, ZeroCopyOutputStream.next,
    calls_memcpy, hcompletes.result_eq _ hsome]

/-- `Next` with the position carried over. -/
def nextStep (buffers : Buffers) (r : Ptr × EpsCopyOutputStream) : Ptr × EpsCopyOutputStream :=
  ((r.2.next buffers).1.add (r.1.diff r.2.end_).toNat, (r.2.next buffers).2)

/-- **`Next`**. -/
theorem nextStep_operation (hcompletes : Completes whole buffers) :
    Operation buffers (nextStep buffers) (nextStep whole) where
  agrees r hserved := by
    by_cases hnull : r.2.bufferEnd = .null
    · obtain ⟨heq, hcalls, -⟩ := next_of_null buffers whole r.2 hnull
      refine .inl ⟨by rw [nextStep, nextStep, heq], ?_⟩
      rw [nextStep, ← heq, hcalls]
      exact hserved
    · have hcalls := (r.2.next_of_some hcompletes.nonempty hnull (hcompletes.succeeds _)).1
      by_cases hnone : buffers.result r.2.stream.calls = none
      · refine .inr ⟨r.2.next_of_none hcompletes.nonempty' hnull hnone, ?_⟩
        rw [nextStep, hcalls]
        exact fun h => h _ (lt_add_one _) hnone
      · refine .inl ⟨by rw [nextStep, nextStep, next_congr hcompletes _ hnone], ?_⟩
        rw [nextStep, hcalls]
        exact hserved.succ hnone
  keepsError r herror := by
    by_cases hnull : r.2.bufferEnd = .null
    · rw [nextStep, (next_of_null buffers whole r.2 hnull).2.2]
      exact herror
    · by_cases hnone : buffers.result r.2.stream.calls = none
      · exact r.2.next_of_none hcompletes.nonempty' hnull hnone
      · rw [nextStep, (r.2.next_of_some hcompletes.nonempty' hnull hnone).2]
        exact herror
  calls_le r := by
    by_cases hnull : r.2.bufferEnd = .null
    · rw [nextStep, (next_of_null whole whole r.2 hnull).2.1]
    · rw [nextStep, (r.2.next_of_some hcompletes.nonempty hnull (hcompletes.succeeds _)).1]
      exact Nat.le_succ _

theorem store_operation (data : List UInt8) (n : ℕ) :
    Operation buffers (fun r : Ptr × EpsCopyOutputStream => (r.1.add n, r.2.store r.1 data))
      (fun r => (r.1.add n, r.2.store r.1 data)) :=
  .of_eq _ (fun r => calls_store r.2 r.1 data) (fun r => hadError_store r.2 r.1 data)

theorem flushEnd_operation : Operation buffers flushEnd flushEnd := by
  apply Operation.of_eq
  · intro r
    rw [flushEnd]
    split
    · rfl
    · split
      · exact calls_memcpy ..
      · rfl
  · intro r
    rw [flushEnd]
    split
    · rfl
    · split
      · exact hadError_memcpy ..
      · rfl

theorem trimEnd_operation : Operation buffers trimEnd trimEnd := by
  apply Operation.of_eq
  · intro r
    simp only [trimEnd]
    split <;> rfl
  · exact fun _ => rfl

theorem setInitialBuffer_operation (used : ℕ) (f : EpsCopyOutputStream → Ptr → α) :
    Operation buffers
      (fun r : ℕ × EpsCopyOutputStream =>
        let r' := r.2.setInitialBuffer (r.2.bufferEnd.add used) (r.1 - used)
        (f r.2 r'.1, r'.2))
      (fun r =>
        let r' := r.2.setInitialBuffer (r.2.bufferEnd.add used) (r.1 - used)
        (f r.2 r'.1, r'.2)) :=
  .of_eq _ (fun _ => by simp) (fun _ => by simp)

section
variable (hcompletes : Completes whole buffers)
include hcompletes

theorem ensureSpaceLoop_operation (fuel : ℕ) : Operation buffers (fun r => ensureSpaceLoop buffers fuel r.1 r.2)
      (fun r => ensureSpaceLoop whole fuel r.1 r.2) := by
  induction fuel with
  | zero => exact .of_eq _ (fun _ => rfl) (fun _ => rfl)
  | succ fuel ih =>
    exact (Operation.const fun _ => Ptr.patch 0).ite
      (fun r : Ptr × EpsCopyOutputStream => r.2.hadError = true)
      ((ih.ite (fun r : Ptr × EpsCopyOutputStream => 0 ≤ r.1.diff r.2.end_)
        (.const fun r => r.1)).comp (nextStep_operation hcompletes))

/-- **`EnsureSpaceFallback`**. -/
theorem ensureSpaceFallback_operation : Operation buffers (fun r => r.2.ensureSpaceFallback buffers r.1)
      (fun r => r.2.ensureSpaceFallback whole r.1) :=
  .withParameter (ensureSpaceLoop_operation hcompletes) fun r => (r.1.diff r.2.end_).toNat + 1

/-- **`EnsureSpace`**. -/
theorem ensureSpace_operation : Operation buffers (fun r => r.2.ensureSpace buffers r.1)
      (fun r => r.2.ensureSpace whole r.1) :=
  (ensureSpaceFallback_operation hcompletes).ite
    (fun r : Ptr × EpsCopyOutputStream => 0 ≤ r.1.diff r.2.end_)
    (.const fun r => r.1)

theorem writeRawLoop_operation (fuel : ℕ) (data : List UInt8) :
    Operation buffers (fun r => writeRawLoop buffers fuel data r.1 r.2)
      (fun r => writeRawLoop whole fuel data r.1 r.2) := by
  induction fuel generalizing data with
  | zero => exact .of_eq _ (fun _ => rfl) (fun _ => rfl)
  | succ fuel ih =>
    have hround : ∀ n, Operation buffers
        ((fun r => writeRawLoop buffers fuel (data.drop n) r.1 r.2) ∘
          (fun r => r.2.ensureSpaceFallback buffers r.1) ∘
            fun r => (r.1.add n, r.2.store r.1 (data.take n)))
        ((fun r => writeRawLoop whole fuel (data.drop n) r.1 r.2) ∘
          (fun r => r.2.ensureSpaceFallback whole r.1) ∘
            fun r => (r.1.add n, r.2.store r.1 (data.take n))) :=
      fun n => (ih (data.drop n)).comp
        ((ensureSpaceFallback_operation hcompletes).comp (store_operation (data.take n) n))
    exact (Operation.withParameter hround fun r => r.2.getSize r.1).ite
      (fun r : Ptr × EpsCopyOutputStream => r.2.getSize r.1 < data.length)
      (store_operation data data.length)

/-- **`WriteRaw`**. -/
theorem writeRaw_operation (data : List UInt8) : Operation buffers (fun r => r.2.writeRaw buffers data r.1)
      (fun r => r.2.writeRaw whole data r.1) :=
  (writeRawLoop_operation hcompletes (data.length + 2) data).ite
    (fun r : Ptr × EpsCopyOutputStream => r.2.end_.diff r.1 < data.length)
    (store_operation data data.length)

theorem flushLoop_operation (fuel : ℕ) : Operation buffers (fun r => flushLoop buffers fuel r.1 r.2)
      (fun r => flushLoop whole fuel r.1 r.2) := by
  induction fuel with
  | zero => exact .of_eq _ (fun _ => rfl) (fun _ => rfl)
  | succ fuel ih =>
    exact (((Operation.const fun r => r.1).ite
      (fun r : Ptr × EpsCopyOutputStream => r.2.hadError = true) ih).comp
        (nextStep_operation hcompletes)).ite
          (fun r : Ptr × EpsCopyOutputStream => r.2.bufferEnd ≠ .null ∧ 0 < r.1.diff r.2.end_)
          (.const fun r => r.1)

/-- **`Flush`**. -/
theorem flush_operation : Operation buffers (fun r => r.2.flush buffers r.1) (fun r => r.2.flush whole r.1) :=
  flushEnd_operation.comp
    (.withParameter (flushLoop_operation hcompletes) fun r => (r.1.diff r.2.end_).toNat + 1)

/-- **`Trim`**. -/
theorem trim_operation : Operation buffers (fun r => r.2.trim buffers r.1) (fun r => r.2.trim whole r.1) :=
  (Operation.const fun r => r.1).ite (fun r : Ptr × EpsCopyOutputStream => r.2.hadError = true)
    (trimEnd_operation.comp (flush_operation hcompletes))

/-- **`FlushAndResetBuffer`**. -/
theorem flushAndResetBuffer_operation : Operation buffers (fun r => r.2.flushAndResetBuffer buffers r.1)
      (fun r => r.2.flushAndResetBuffer whole r.1) := by
  have hset : Operation buffers
      (fun r : ℕ × EpsCopyOutputStream => r.2.setInitialBuffer r.2.bufferEnd r.1)
      (fun r => r.2.setInitialBuffer r.2.bufferEnd r.1) :=
    .of_eq _ (fun _ => by simp) (fun _ => by simp)
  exact (Operation.const fun _ => Ptr.patch 0).ite
    (fun r : Ptr × EpsCopyOutputStream => r.2.hadError = true)
    (((Operation.const fun _ => Ptr.patch 0).ite
      (fun r : ℕ × EpsCopyOutputStream => r.2.hadError = true) hset).comp
        (flush_operation hcompletes))

/-- **`GetDirectBufferForNBytesAndAdvance`**. -/
theorem getDirectBuffer_operation (size : ℕ) :
    Operation buffers (fun r => r.2.getDirectBufferForNBytesAndAdvance buffers size r.1)
      (fun r => r.2.getDirectBufferForNBytesAndAdvance whole size r.1) := by
  have hsame : Operation buffers
      (fun r : ℕ × EpsCopyOutputStream =>
        let r' := r.2.setInitialBuffer r.2.bufferEnd r.1
        (((none : Option Ptr), r'.1), r'.2))
      (fun r =>
        let r' := r.2.setInitialBuffer r.2.bufferEnd r.1
        ((none, r'.1), r'.2)) :=
    .of_eq _ (fun _ => by simp) (fun _ => by simp)
  exact (Operation.const fun _ => ((none : Option Ptr), Ptr.patch 0)).ite
    (fun r : Ptr × EpsCopyOutputStream => r.2.hadError = true)
    (((Operation.const fun _ => ((none : Option Ptr), Ptr.patch 0)).ite
      (fun r : ℕ × EpsCopyOutputStream => r.2.hadError = true)
      ((setInitialBuffer_operation size fun s ptr => (some s.bufferEnd, ptr)).ite
        (fun r : ℕ × EpsCopyOutputStream => size ≤ r.1) hsame)).comp (flush_operation hcompletes))

end

end EpsCopyOutputStream

end Protoc.Io
