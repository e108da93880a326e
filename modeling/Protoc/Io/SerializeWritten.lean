import Protoc.Io.SerializeBytes

/-!
# Success means written

A serialization leaves its last block in the adaptor.  Who writes it decides whether the
result tells of a failure: the two functions that check the flush, or the state of the
ostream after it, report it; those that leave it to the destructor do not.
-/

namespace Protoc.Io

open Protoc.Lib List Option

namespace CopyingOutputStreamAdaptor

variable {σ : Type} (copying : CopyingOutputStream σ) (sink : σ)

/-! ## Whole blocks -/

/-- What is below after `n` whole blocks, if every one was accepted. -/
def writeBlocks : ℕ → Option σ
  | 0 => some sink
  | n + 1 => (writeBlocks n).bind fun state =>
      if (copying.write kDefaultBlockSize state).succeeded then
        some (copying.write kDefaultBlockSize state).sink
      else none

variable {copying sink}

variable {state : σ}

theorem writeBuffer_of_succeeded {position used accepted : ℕ} (hused : 0 < used)
    (h : (copying.write used state).succeeded = true) :
    writeBuffer copying ⟨state, false, position, used, accepted⟩ =
      (true, ⟨(copying.write used state).sink, false, position + used, 0, accepted + used⟩) := by
  have haccepted := (copying.succeeded_iff used state hused).mp h
  simp [writeBuffer, Nat.ne_of_gt hused, h, haccepted]

theorem writeBuffer_of_failed {position used accepted : ℕ} (hused : 0 < used)
    (h : (copying.write used state).succeeded = false) :
    writeBuffer copying ⟨state, false, position, used, accepted⟩ =
      (false, ⟨(copying.write used state).sink, true, position, 0,
        accepted + (copying.write used state).accepted⟩) := by
  simp [writeBuffer, Nat.ne_of_gt hused, h]

theorem kDefaultBlockSize_pos : 0 < kDefaultBlockSize := by decide

theorem adaptorAfter_of_writeBlocks {n : ℕ} (h : writeBlocks copying sink n = some state) :
    adaptorAfter copying sink (n + 1) = ⟨state, false, n * kDefaultBlockSize, kDefaultBlockSize,
      n * kDefaultBlockSize⟩ := by
  induction n generalizing state with
  | zero =>
    obtain rfl : sink = state := some.inj h
    rw [adaptorAfter, adaptorAfter, next_of_free copying rfl, zero_mul]
    rfl
  | succ n ih =>
    obtain ⟨before, hbefore, hwrite⟩ := bind_eq_some_iff.mp h
    by_cases hsucceeded : (copying.write kDefaultBlockSize before).succeeded = true
    · rw [if_pos hsucceeded] at hwrite
      rw [adaptorAfter, ih hbefore, next_of_full copying rfl,
        writeBuffer_of_succeeded kDefaultBlockSize_pos hsucceeded, some.inj hwrite,
        Nat.add_mul, one_mul]
      rfl
    · simp [if_neg hsucceeded] at hwrite

theorem result_of_writeBlocks {n : ℕ} (h : writeBlocks copying sink n = some state) (memory : ℕ → ℕ → UInt8) :
    (buffers copying sink memory).result (n + 1) ≠ none ↔ writeBlocks copying sink (n + 1) ≠ none := by
  rw [writeBlocks, h, bind_some]
  simp only [buffers, adaptorAfter_of_writeBlocks h]
  rw [next_of_full copying rfl]
  by_cases hsucceeded : (copying.write kDefaultBlockSize state).succeeded = true
  · simp [writeBuffer_of_succeeded kDefaultBlockSize_pos hsucceeded, hsucceeded]
  · have hfailed := Bool.eq_false_iff.mpr hsucceeded
    simp [writeBuffer_of_failed kDefaultBlockSize_pos hfailed, hfailed]

theorem result_zero (memory : ℕ → ℕ → UInt8) : (buffers copying sink memory).result 0 ≠ none := by
  simp only [buffers, adaptorAfter]
  rw [next_of_free copying rfl]
  exact some_ne_none _

theorem served_iff (memory : ℕ → ℕ → UInt8) (n : ℕ) :
    Served (buffers copying sink memory) (n + 1) ↔ writeBlocks copying sink n ≠ none := by
  induction n with
  | zero =>
    refine ⟨fun _ => some_ne_none _, fun _ j hj => ?_⟩
    obtain rfl : j = 0 := by omega
    exact result_zero memory
  | succ n ih =>
    constructor
    · intro hserved
      obtain ⟨state, hstate⟩ := ne_none_iff_exists'.mp (ih.mp (hserved.mono (Nat.le_succ _)))
      exact (result_of_writeBlocks hstate memory).mp (hserved _ (lt_add_one _))
    · intro hblocks
      have hbefore : writeBlocks copying sink n ≠ none := by
        intro hnone
        rw [writeBlocks, hnone] at hblocks
        exact hblocks rfl
      obtain ⟨state, hstate⟩ := ne_none_iff_exists'.mp hbefore
      exact (ih.mpr hbefore).succ ((result_of_writeBlocks hstate memory).mpr hblocks)

/-- The same blocks, from a stream that never fails. -/
def wholeBuffers (copying : CopyingOutputStream σ) (sink : σ) (memory : ℕ → ℕ → UInt8) : Buffers where
  result n := some (((buffers copying sink memory).result n).getD (replicate kDefaultBlockSize 0))
  eventually n := by
    obtain ⟨m, hm⟩ := (buffers copying sink memory).eventually n
    refine ⟨m, ?_⟩
    cases hdata : (buffers copying sink memory).result (n + m) with
    | none =>
      rw [getD_none]
      intro hempty
      have hlength := congrArg List.length (some.inj hempty)
      rw [length_replicate] at hlength
      exact absurd hlength (by decide)
    | some data =>
      rw [hdata] at hm
      exact hm

theorem wholeBuffers_blocks (memory : ℕ → ℕ → UInt8) :
    Blocks (wholeBuffers copying sink memory) kDefaultBlockSize where
  succeeds n := some_ne_none _
  length_eq n data hdata := by
    simp only [wholeBuffers, some.injEq] at hdata
    rw [← hdata]
    simp only [buffers]
    rcases (next_size copying _ (bufferUsed_adaptorAfter copying sink n)).1 with hsome | hnone
    · simp [hsome]
    · simp [hnone]
  pos := kDefaultBlockSize_pos

theorem wholeBuffers_completes (memory : ℕ → ℕ → UInt8) :
    Completes (wholeBuffers copying sink memory) (buffers copying sink memory) where
  succeeds n := some_ne_none _
  nonempty := (wholeBuffers_blocks memory).nonempty
  result_eq n hsome := by
    obtain ⟨data, hdata⟩ := ne_none_iff_exists'.mp hsome
    simp [wholeBuffers, hdata]

/-! ## The last block -/

def blocksBefore (n : ℕ) : ℕ := (n - 1) / kDefaultBlockSize

def lastBlock (n : ℕ) : ℕ := n - blocksBefore n * kDefaultBlockSize

theorem blocksBefore_add_lastBlock (n : ℕ) : blocksBefore n * kDefaultBlockSize + lastBlock n = n := by
  simp only [lastBlock, blocksBefore, kDefaultBlockSize]
  omega

theorem lastBlock_pos {n : ℕ} (h : 0 < n) : 0 < lastBlock n := by
  simp only [lastBlock, blocksBefore, kDefaultBlockSize]
  omega

/-- The adaptor that holds the last block of `n` bytes. -/
def holding (state : σ) (n : ℕ) : CopyingOutputStreamAdaptor σ :=
  ⟨state, false, blocksBefore n * kDefaultBlockSize, lastBlock n, blocksBefore n * kDefaultBlockSize⟩

theorem backUp_adaptorAfter {n calls : ℕ} (hle : n ≤ calls * kDefaultBlockSize)
    (htight : 1 < calls → calls * kDefaultBlockSize < n + kDefaultBlockSize)
    {memory : ℕ → ℕ → UInt8} (hserved : Served (buffers copying sink memory) calls) :
    ∃ state, writeBlocks copying sink (blocksBefore n) = some state ∧ (adaptorAfter copying sink calls).backUp
        ((adaptorAfter copying sink calls).byteCount - n) = holding state n := by
  cases calls with
  | zero =>
    obtain rfl : n = 0 := by omega
    have hblocks : blocksBefore 0 = 0 := Nat.zero_div _
    refine ⟨sink, by rw [hblocks, writeBlocks], ?_⟩
    simp [adaptorAfter, ofStream, backUp, byteCount, holding, lastBlock, hblocks]
  | succ calls =>
    obtain ⟨state, hstate⟩ := ne_none_iff_exists'.mp ((served_iff memory calls).mp hserved)
    have hblocks : blocksBefore n = calls := by
      simp only [blocksBefore, kDefaultBlockSize] at hle htight ⊢
      omega
    have hlast : n - calls * kDefaultBlockSize ≤ kDefaultBlockSize ∧
        calls * kDefaultBlockSize ≤ n := by
      simp only [kDefaultBlockSize] at hle htight ⊢
      omega
    refine ⟨state, by rw [hblocks, hstate], ?_⟩
    rw [adaptorAfter_of_writeBlocks hstate]
    simp only [backUp, byteCount, holding, lastBlock, hblocks, mk.injEq, true_and, and_true]
    omega

/-- **A serialization** succeeds when the blocks before the last one are accepted.  The
adaptor then holds the last one. -/
theorem serialized_cases {memory : Uninitialized}
    {serialize : Buffers → List UInt8 → Bool × EpsCopyOutputStream} {encoding : List UInt8}
    (h : EpsCopyOutputStream.Serialized (buffers copying sink memory.block) kDefaultBlockSize
      encoding (serialize (buffers copying sink memory.block) memory.patch)) :
    (∃ state, writeBlocks copying sink (blocksBefore encoding.length) = some state ∧
      serialized copying sink memory serialize = ⟨true, holding state encoding.length, encoding⟩) ∨
    writeBlocks copying sink (blocksBefore encoding.length) = none ∧
      (serialized copying sink memory serialize).returned = false := by
  obtain ⟨calls, hle, htight, hcases⟩ := h
  rcases hcases with ⟨hserved, hreturned, herror, hcalls, hbytes⟩ | ⟨hserved, hreturned, -⟩
  · obtain ⟨state, hstate, hbackUp⟩ := backUp_adaptorAfter hle htight hserved
    refine .inl ⟨state, hstate, ?_⟩
    rw [serialized]
    simp only [under, herror, hreturned, hcalls, hbytes, ZeroCopyOutputStream.byteCount,
      Bool.false_eq_true, if_false, hbackUp]
  · refine .inr ⟨?_, hreturned⟩
    cases calls with
    | zero => exact absurd (fun j hj => absurd hj (Nat.not_lt_zero j)) hserved
    | succ calls =>
      have hblocks : blocksBefore encoding.length = calls := by
        simp only [blocksBefore, kDefaultBlockSize] at hle htight ⊢
        omega
      rw [hblocks]
      exact not_not.mp fun hsome => hserved ((served_iff memory.block calls).mpr hsome)

theorem writeBuffer_holding (copying : CopyingOutputStream σ) (state : σ) (n : ℕ) :
    ((writeBuffer copying (holding state n)).1 = true ∧
        (n = 0 ∨ (copying.write (lastBlock n) state).succeeded = true) ∧
        (writeBuffer copying (holding state n)).2.accepted = n) ∨
      (writeBuffer copying (holding state n)).1 = false ∧ 0 < n ∧
        (copying.write (lastBlock n) state).succeeded = false ∧
        (writeBuffer copying (holding state n)).2.accepted < n ∧
        (writeBuffer copying (holding state n)).2.copyingStream = (copying.write (lastBlock n) state).sink := by
  rcases Nat.eq_zero_or_pos n with rfl | hn
  · have hlast : lastBlock 0 = 0 := Nat.zero_sub _
    have hblocks : blocksBefore 0 = 0 := Nat.zero_div _
    exact .inl (by simp [writeBuffer, holding, hlast, hblocks])
  · have hlast := lastBlock_pos hn
    have hsum := blocksBefore_add_lastBlock n
    cases hsucceeded : (copying.write (lastBlock n) state).succeeded with
    | true =>
      rw [holding, writeBuffer_of_succeeded hlast hsucceeded]
      exact .inl ⟨rfl, .inr rfl, hsum⟩
    | false =>
      have hle := copying.accepted_le (lastBlock n) state
      have hne : (copying.write (lastBlock n) state).accepted ≠ lastBlock n := by
        intro heq
        have := (copying.succeeded_iff (lastBlock n) state hlast).mpr heq
        rw [hsucceeded] at this
        cases this
      rw [holding, writeBuffer_of_failed hlast hsucceeded]
      refine .inr ⟨rfl, hn, rfl, ?_, rfl⟩
      simp only
      omega

theorem writeBuffer_writeBuffer (a : CopyingOutputStreamAdaptor σ) :
    ((a.writeBuffer copying).2.writeBuffer copying).2 = (a.writeBuffer copying).2 := by
  rcases a.writeBuffer_bufferUsed copying with hfree | heq
  · generalize (a.writeBuffer copying).2 = b at hfree ⊢
    rw [writeBuffer]
    by_cases hfailed : b.failed = true
    · rw [if_pos hfailed]
    · rw [if_neg hfailed, if_pos hfree]
  · rw [heq, heq]

theorem destroy_eq (a : CopyingOutputStreamAdaptor σ) :
    a.destroy copying = (a.writeBuffer copying).2 := a.writeBuffer_writeBuffer

end CopyingOutputStreamAdaptor

open CopyingOutputStreamAdaptor

/-! ## The functions -/

/-- The function returns true only if every byte of the encoding was accepted below. -/
def SuccessMeansWritten {σ : Type} (outcome : SerializeOutcome σ) (encoding : List UInt8) : Prop :=
  outcome.returned = true → outcome.acceptedBytes = encoding

/-- The message is not too large for an `int`, the encoding has `n` bytes, the blocks before
its last one are accepted, and the write of the last one fails. -/
def LosesLastBlock {σ : Type} (copying : CopyingOutputStream σ) (sink : σ)
    (message : List MessageWrite) (n : ℕ) : Prop :=
  byteSizeLong message ≤ kIntMax ∧ 0 < n ∧
    ∃ state, writeBlocks copying sink (blocksBefore n) = some state ∧
      (copying.write (lastBlock n) state).succeeded = false

section
variable {σ : Type} {copying : CopyingOutputStream σ} {sink : σ} {message : List MessageWrite}
  {encoding : List UInt8}

/-- The outcome before the last flush: the adaptor holds the last block, or the result is
already false. -/
inductive Held (copying : CopyingOutputStream σ) (sink : σ) (message : List MessageWrite)
    (encoding : List UInt8) : SerializeOutcome σ → Prop
  | holding {state : σ} (hsize : byteSizeLong message ≤ kIntMax)
      (h : writeBlocks copying sink (blocksBefore encoding.length) = some state) :
      Held copying sink message encoding ⟨true, .holding state encoding.length, encoding⟩
  | failed {outcome : SerializeOutcome σ} (h : outcome.returned = false)
      (hreason : kIntMax < byteSizeLong message ∨
        writeBlocks copying sink (blocksBefore encoding.length) = none) :
      Held copying sink message encoding outcome

/-- Where the result is not checked after the last block. -/
theorem Held.destroy_iff {outcome : SerializeOutcome σ} (h : Held copying sink message encoding outcome) :
    SuccessMeansWritten (outcome.destroy copying) encoding ↔
      ¬ LosesLastBlock copying sink message encoding.length := by
  cases h with
  | failed h hreason =>
    have hkept : ¬ LosesLastBlock copying sink message encoding.length := by
      rintro ⟨hsize, -, state, hstate, -⟩
      rcases hreason with hlarge | hnone
      · omega
      · simp [hstate] at hnone
    simp [SuccessMeansWritten, SerializeOutcome.destroy, h, hkept]
  | @holding state hsize h =>
    have htake : ∀ n, encoding.take n = encoding ↔ encoding.length ≤ n := by
      intro n
      refine ⟨fun h => ?_, take_of_length_le⟩
      rw [← h, length_take]
      exact Nat.min_le_left _ _
    simp only [SuccessMeansWritten, SerializeOutcome.destroy, SerializeOutcome.acceptedBytes,
      destroy_eq, forall_const, htake]
    have hloses : LosesLastBlock copying sink message encoding.length ↔ 0 < encoding.length ∧
        (copying.write (lastBlock encoding.length) state).succeeded = false := by
      rw [LosesLastBlock, h]
      simp [hsize]
    rw [hloses]
    rcases writeBuffer_holding copying state encoding.length with
      ⟨-, hall, haccepted⟩ | ⟨-, hpos, hfailed, haccepted, -⟩
    · rw [haccepted]
      rcases hall with hzero | hsucceeded
      · simp [eq_nil_of_length_eq_zero hzero]
      · simp [hsucceeded]
    · simp only [hpos, hfailed, and_self, not_true_eq_false, iff_false]
      omega

theorem Held.andFlush_destroy {outcome : SerializeOutcome σ} (h : Held copying sink message encoding outcome) :
    SuccessMeansWritten ((outcome.andFlush copying).destroy copying) encoding := by
  cases h with
  | failed h hreason => simp [SuccessMeansWritten, SerializeOutcome.andFlush, SerializeOutcome.destroy, h]
  | @holding state hsize h =>
    simp only [SuccessMeansWritten, SerializeOutcome.andFlush, SerializeOutcome.destroy,
      SerializeOutcome.acceptedBytes, destroy_eq, if_true, flush, writeBuffer_writeBuffer]
    intro hreturned
    rcases writeBuffer_holding copying state encoding.length with
      ⟨-, -, haccepted⟩ | ⟨hfailed, -⟩
    · rw [haccepted, take_length]
    · simp [hfailed] at hreturned

end

theorem Held.destroy_andGood {output : Ostream} {state : Ostream.State}
    {message : List MessageWrite} {encoding : List UInt8} {outcome : SerializeOutcome Ostream.State}
    (h : Held output.copyingOstreamOutputStream state message encoding outcome) :
    SuccessMeansWritten (outcome.destroy output.copyingOstreamOutputStream).andGood encoding := by
  cases h with
  | failed h hreason => simp [SuccessMeansWritten, SerializeOutcome.andGood, SerializeOutcome.destroy, h]
  | @holding state hsize h =>
    simp only [SuccessMeansWritten, SerializeOutcome.andGood, SerializeOutcome.destroy,
      SerializeOutcome.acceptedBytes, destroy_eq, Bool.true_and]
    intro hgood
    rcases writeBuffer_holding output.copyingOstreamOutputStream state encoding.length with
      ⟨-, -, haccepted⟩ | ⟨-, -, hfailed, -, hstream⟩
    · rw [haccepted, take_length]
    · have hbad := output.good_write (lastBlock encoding.length) state
      rw [hstream] at hgood
      exact absurd (hgood.symm.trans (hbad.trans hfailed)) (by decide)

/-! ## The six functions -/

section
variable {σ : Type} {copying : CopyingOutputStream σ} {sink : σ} (memory : Uninitialized)
  (message : List MessageWrite)

theorem held_of_serialized
    (serialize : Buffers → List UInt8 → Bool × EpsCopyOutputStream) {encoding : List UInt8}
    (hsize : byteSizeLong message ≤ kIntMax)
    (h : EpsCopyOutputStream.Serialized (buffers copying sink memory.block) kDefaultBlockSize
      encoding (serialize (buffers copying sink memory.block) memory.patch)) :
    Held copying sink message encoding (serialized copying sink memory serialize) := by
  rcases serialized_cases h with ⟨state, hstate, heq⟩ | ⟨hnone, hreturned⟩
  · rw [heq]
    exact .holding hsize hstate
  · exact .failed hreturned (.inr hnone)

theorem serializePartial_held : Held copying sink message (encode message)
      (serialized copying sink memory fun buffers patch =>
        EpsCopyOutputStream.serializePartialToZeroCopyStream buffers patch message) := by
  by_cases hsize : byteSizeLong message ≤ kIntMax
  · exact held_of_serialized memory message _ hsize (EpsCopyOutputStream.serializePartial_spec
      (wholeBuffers_blocks memory.block) (wholeBuffers_completes memory.block) memory.patch.2 hsize)
  · refine .failed ?_ (.inl (not_le.mp hsize))
    simp [serialized, EpsCopyOutputStream.serializePartialToZeroCopyStream, not_le.mp hsize]

theorem serializeDelimited_held : Held copying sink message (encodeDelimited message)
      (serialized copying sink memory fun buffers patch =>
        CodedOutputStream.serializeDelimitedToZeroCopyStream buffers patch message) := by
  by_cases hsize : byteSizeLong message ≤ kIntMax
  · exact held_of_serialized memory message _ hsize (CodedOutputStream.serializeDelimited_spec
      (wholeBuffers_blocks memory.block) (wholeBuffers_completes memory.block)
      (result_zero memory.block) memory.patch.2 hsize)
  · refine .failed ?_ (.inl (not_le.mp hsize))
    rw [serialized, CodedOutputStream.serializeDelimitedToZeroCopyStream,
      CodedOutputStream.serializeDelimitedToCodedStream, if_pos (not_le.mp hsize)]

end

/-- **Success means written**, of four of the functions always.  The partial form over an
ostream and the delimited form over a file descriptor take their result before the destructor
writes the last block: of these it holds unless that write is the one that fails. -/
theorem successMeansWritten_iff (memory : Uninitialized) (message : List MessageWrite)
    (fd : FileDescriptor) (calls : ℕ) (output : Ostream) (state : Ostream.State) :
    SuccessMeansWritten (serializeToFileDescriptor memory message fd calls) (encode message) ∧
    SuccessMeansWritten (serializePartialToFileDescriptor memory message fd calls)
      (encode message) ∧
    SuccessMeansWritten (serializeToOstream memory message output state) (encode message) ∧
    (SuccessMeansWritten (serializePartialToOstream memory message output state) (encode message) ↔
      ¬ LosesLastBlock output.copyingOstreamOutputStream state message (encode message).length) ∧
    (SuccessMeansWritten (serializeDelimitedToFileDescriptor memory message fd calls)
        (encodeDelimited message) ↔
      ¬ LosesLastBlock fd.copyingFileOutputStream calls message (encodeDelimited message).length) ∧
    SuccessMeansWritten (serializeDelimitedToOstream memory message output state)
      (encodeDelimited message) :=
  ⟨(serializePartial_held memory message).andFlush_destroy,
    (serializePartial_held memory message).andFlush_destroy,
    (serializePartial_held memory message).destroy_andGood,
    (serializePartial_held memory message).destroy_iff,
    (serializeDelimited_held memory message).destroy_iff,
    (serializeDelimited_held memory message).destroy_andGood⟩

def fullDevice : FileDescriptor where
  result _ := .failed
  eventually _ := ⟨0, nofun⟩

def fullOstream : Ostream where
  result _ := 0

def zeroed : Uninitialized where
  patch := ⟨replicate 32 0, length_replicate ..⟩
  block _ _ := 0

/-- One byte is not written, and the result is true all the same. -/
theorem not_successMeansWritten_full :
    ¬ SuccessMeansWritten (serializePartialToOstream zeroed [.raw [8]] fullOstream ⟨0, true⟩)
        (encode [.raw [8]]) ∧
      ¬ SuccessMeansWritten (serializeDelimitedToFileDescriptor zeroed [] fullDevice 0)
        (encodeDelimited []) := by
  have hone : (encode [.raw [8]]).length = 1 := rfl
  have hsize : (encodeDelimited []).length = 1 := by
    simp [encodeDelimited, byteSizeLong, encode, writeVarint32ToArray, varintBytes]
  constructor
  · rw [serializePartialToOstream, (serializePartial_held zeroed _).destroy_iff, not_not, hone]
    exact ⟨by decide, by decide, ⟨0, true⟩, rfl, rfl⟩
  · rw [serializeDelimitedToFileDescriptor, (serializeDelimited_held zeroed _).destroy_iff, not_not, hsize]
    exact ⟨by decide, by decide, 0, rfl, rfl⟩

end Protoc.Io
