import Protoc.Io.EpsCopyOutputBlocks
import Protoc.Io.Serialize

/-!
# What a serialization leaves in the blocks

Over a stream of blocks that never fails, the steps of generated code leave the encoding in
the blocks, in no more blocks than it needs.  Over one that may fail, the two runs agree.
-/

namespace Protoc.Io

open Protoc.Lib
open List

namespace EpsCopyOutputStream

variable {whole buffers : Buffers} {size : ℕ} {r : Ptr × EpsCopyOutputStream}
  {out data : List UInt8}

/-- The bytes written up to the position, in as many blocks as they need. -/
structure Kept (size : ℕ) (r : Ptr × EpsCopyOutputStream) (out : List UInt8) : Prop where
  holds : Holds r.2 r.1 out
  filled : Filled size r.2.stream
  tight : Tight size r.2.stream out

/-! ## Storing -/

theorem Holds.getSize_store (h : Holds r.2 r.1 out) (data : List UInt8) :
    (storeAt data r).2.getSize (storeAt data r).1 = r.2.getSize r.1 - data.length := by
  simp only [storeAt, getSize, store_end]
  rw [Ptr.diff_comm, h.diff_add, Ptr.diff_comm r.1]
  omega

theorem Holds.storeAt_kept (h : Holds r.2 r.1 out) (hfilled : Filled size r.2.stream)
    (hfits : data.length ≤ r.2.getSize r.1) (hdata : data ≠ []) : Kept size (storeAt data r) (out ++ data) where
  holds := h.store_holds hfits
  filled := h.store_filled hfits hfilled
  tight := by
    rw [storeAt, Tight, calls_store]
    exact h.tight_append hfilled hdata

theorem Kept.storeAt_kept (h : Kept size r out) (data : List UInt8) (hfits : data.length ≤ r.2.getSize r.1) :
    Kept size (storeAt data r) (out ++ data) := by
  by_cases hdata : data = []
  · subst hdata
    refine ⟨h.holds.store_holds hfits, h.holds.store_filled hfits h.filled, ?_⟩
    rw [storeAt, Tight, calls_store, append_nil]
    exact h.tight
  · exact h.holds.storeAt_kept h.filled hfits hdata

/-! ## The head of a string -/

theorem exists_toNat_shiftLeft (num : UInt32) : ∃ a, (num <<< 3).toNat = 2 ^ 3 * a := by
  refine ⟨num.toNat % 2 ^ 29, ?_⟩
  have hshift : (3 : UInt32).toNat % 32 = 3 := by decide
  rw [UInt32.toNat_shiftLeft, Nat.shiftLeft_eq, hshift]
  omega

theorem toNat_lengthDelimitedTag (num : UInt32) : (lengthDelimitedTag num).toNat = (num <<< 3).toNat + 2 := by
  obtain ⟨a, ha⟩ := exists_toNat_shiftLeft num
  rw [lengthDelimitedTag, UInt32.toNat_or, ha]
  exact (Nat.two_pow_add_eq_or_of_lt (by decide) a).symm

theorem length_lengthDelimitedTag_le (num : UInt32) :
    (writeTagToArray (lengthDelimitedTag num)).length ≤ tagSize (num <<< 3) := by
  obtain ⟨a, ha⟩ := exists_toNat_shiftLeft num
  have htag := toNat_lengthDelimitedTag num
  have hlt := (lengthDelimitedTag num).toNat_lt
  have hlength : ∀ n, (lengthDelimitedTag num).toNat < 2 ^ (7 * (n + 1)) →
      (writeTagToArray (lengthDelimitedTag num)).length ≤ n + 1 :=
    fun n h => length_varintBytes_le h
  rw [tagSize]
  split
  · exact hlength 0 (by omega)
  · split
    · exact hlength 1 (by omega)
    · split
      · exact hlength 2 (by omega)
      · split
        · exact hlength 3 (by omega)
        · exact hlength 4 (by omega)

theorem tagSize_le (tag : UInt32) : tagSize tag ≤ 5 := by
  rw [tagSize]
  split_ifs <;> decide

theorem length_writeVarint32ToArray_le_five (value : UInt32) : (writeVarint32ToArray value).length ≤ 5 :=
  length_varintBytes_le (by have := value.toNat_lt; omega)

theorem length_writeLengthDelim_le (num : UInt32) (n : ℕ) : (writeLengthDelim num n).length ≤ kSlopBytes := by
  have htag := length_lengthDelimitedTag_le num
  have hle := tagSize_le (num <<< 3)
  have hsize := length_writeVarint32ToArray_le_five (.ofNat n)
  rw [writeLengthDelim, length_append, kSlopBytes]
  omega

theorem writeVarint32ToArray_ne_nil (value : UInt32) : writeVarint32ToArray value ≠ [] := by
  rw [writeVarint32ToArray, varintBytes]
  split <;> exact cons_ne_nil _ _

theorem writeVarint32ToArray_of_lt {n : ℕ} (h : n < 128) : writeVarint32ToArray (.ofNat n) = [.ofNat n] := by
  have hn : (UInt32.ofNat n).toNat = n := by
    rw [UInt32.toNat_ofNat']
    omega
  rw [writeVarint32ToArray, hn, varintBytes, if_pos (by omega)]

/-! ## The steps of a message -/

section
variable (hblocks : Blocks whole size)
include hblocks

section
variable (h : Kept size r out)
include h

theorem Kept.ensureSpace_storeAt_kept (hfits : data.length ≤ kSlopBytes) (hdata : data ≠ []) :
    Kept size (storeAt data (r.2.ensureSpace whole r.1)) (out ++ data) := by
  obtain ⟨hholds, hspace⟩ := h.holds.ensureSpace_holds hblocks.succeeds
  exact hholds.storeAt_kept (h.holds.ensureSpace_filled hblocks h.filled) (by omega) hdata

theorem Kept.writeRaw_kept (data : List UInt8) : Kept size (r.2.writeRaw whole data r.1) (out ++ data) := by
  obtain ⟨hfilled, htight⟩ := h.holds.writeRaw_tight hblocks h.filled h.tight data
  exact ⟨h.holds.writeRaw_holds hblocks.succeeds data, hfilled, htight⟩

theorem Kept.writeString_kept (num : UInt32) (str : List UInt8) :
    Kept size (writeString whole num str r) (out ++ (writeLengthDelim num str.length ++ str)) := by
  rw [writeString]
  split
  · have hne : writeLengthDelim num str.length ≠ [] :=
      append_ne_nil_of_right_ne_nil _ (writeVarint32ToArray_ne_nil _)
    have hhead := h.ensureSpace_storeAt_kept hblocks (length_writeLengthDelim_le num str.length) hne
    rw [← append_assoc]
    exact hhead.writeRaw_kept hblocks str
  · rename_i hshort
    simp only [not_or, not_le, not_lt] at hshort
    obtain ⟨hshort, hfits⟩ := hshort
    have htag := length_lengthDelimitedTag_le num
    have hspace : tagSize (num <<< 3) + 1 + str.length ≤ r.2.getSize r.1 := by
      rw [getSize, kSlopBytes]
      omega
    rw [writeLengthDelim, writeVarint32ToArray_of_lt hshort, ← append_assoc, ← append_assoc]
    have hfirst := h.storeAt_kept (writeTagToArray (lengthDelimitedTag num)) (by omega)
    have hfirstSize := h.holds.getSize_store (writeTagToArray (lengthDelimitedTag num))
    have hsecond := hfirst.storeAt_kept [.ofNat str.length] (by rw [length_singleton]; omega)
    have hsecondSize := hfirst.holds.getSize_store [.ofNat str.length]
    rw [length_singleton] at hsecondSize
    exact hsecond.storeAt_kept str (by omega)

/-- **A step of a message** appends its bytes. -/
theorem Kept.performWrite_kept (write : MessageWrite) :
    Kept size (performWrite whole r write) (out ++ write.encode) := by
  cases write with
  | scalar bytes => exact h.ensureSpace_storeAt_kept hblocks bytes.2.2 bytes.2.1
  | raw data => exact h.writeRaw_kept hblocks data
  | string num str => exact h.writeString_kept hblocks num str

/-- **The steps of a message** append its encoding. -/
theorem Kept.internalSerialize_kept (message : List MessageWrite) :
    Kept size (internalSerialize whole message r) (out ++ encode message) := by
  induction message generalizing r out with
  | nil =>
    rw [encode, flatMap_nil, append_nil]
    exact h
  | cons write message ih =>
    rw [encode, flatMap_cons, ← append_assoc]
    exact ih (h.performWrite_kept hblocks write)

end

end

theorem storeAt_operation (data : List UInt8) : Operation buffers (storeAt data) (storeAt data) :=
  store_operation data data.length

section
variable (hcompletes : Completes whole buffers)
include hcompletes

theorem writeString_operation (num : UInt32) (str : List UInt8) :
    Operation buffers (writeString buffers num str) (writeString whole num str) := by
  have houtline : Operation buffers (writeStringOutline buffers num str)
      (writeStringOutline whole num str) :=
    (writeRaw_operation hcompletes str).comp ((storeAt_operation _).comp
      (ensureSpace_operation hcompletes))
  have hinline : Operation buffers
      (storeAt str ∘ storeAt [.ofNat str.length] ∘ storeAt (writeTagToArray (lengthDelimitedTag num)))
      (storeAt str ∘ storeAt [.ofNat str.length] ∘
        storeAt (writeTagToArray (lengthDelimitedTag num))) :=
    (storeAt_operation str).comp ((storeAt_operation _).comp (storeAt_operation _))
  exact houtline.ite (fun r : Ptr × EpsCopyOutputStream =>
    128 ≤ str.length ∨ r.2.end_.diff r.1 + 16 - tagSize (num <<< 3) - 1 < str.length) hinline

/-- **A step of a message.** -/
theorem performWrite_operation (write : MessageWrite) :
    Operation buffers (fun r => performWrite buffers r write) (fun r => performWrite whole r write) := by
  cases write with
  | scalar bytes => exact (storeAt_operation _).comp (ensureSpace_operation hcompletes)
  | raw data => exact writeRaw_operation hcompletes data
  | string num str => exact writeString_operation hcompletes num str

/-- **The steps of a message.** -/
theorem internalSerialize_operation (message : List MessageWrite) :
    Operation buffers (internalSerialize buffers message) (internalSerialize whole message) := by
  induction message with
  | nil => exact .const fun r => r.1
  | cons write message ih => exact ih.comp (performWrite_operation hcompletes write)

end

/-! ## A serialization -/

/-- What a serialization leaves: it succeeds exactly when as many blocks are served as the
encoding needs, and then the blocks hold the encoding. -/
def Serialized (buffers : Buffers) (size : ℕ) (encoding : List UInt8) (r : Bool × EpsCopyOutputStream) : Prop :=
  ∃ calls, encoding.length ≤ calls * size ∧ (1 < calls → calls * size < encoding.length + size) ∧
    (Served buffers calls ∧ r.1 = true ∧ r.2.hadError = false ∧ r.2.stream.calls = calls ∧
        r.2.stream.bytes = encoding ∨
      ¬ Served buffers calls ∧ r.1 = false ∧ r.2.hadError = true)

/-- A run over the stream that may fail and one over the blocks, when the latter is at its
end. -/
theorem serialized_of_trim (hblocks : Blocks whole size) (hcompletes : Completes whole buffers)
    {r r' : Ptr × EpsCopyOutputStream} (hagrees : Agrees buffers r r') (h : Kept size r' out) :
    Serialized buffers size out (!(r.2.trim buffers r.1).2.hadError, (r.2.trim buffers r.1).2) := by
  obtain ⟨hle, htight⟩ := h.holds.trim_calls hblocks h.filled h.tight
  obtain ⟨hbytes, hholds⟩ := h.holds.trim_holds hblocks.succeeds
  refine ⟨(r'.2.trim whole r'.1).2.stream.calls, hle, htight, ?_⟩
  rcases (trim_operation hcompletes).agrees_agrees hagrees with ⟨heq, hserved⟩ | ⟨herror, hnot⟩
  · refine .inl ⟨hserved, ?_⟩
    rw [heq, hholds.ready.noError]
    exact ⟨rfl, rfl, rfl, hbytes⟩
  · refine .inr ⟨hnot, ?_, herror⟩
    rw [herror]
    rfl

/-- **`SerializePartialToZeroCopyStream`.** -/
theorem serializePartial_spec (hblocks : Blocks whole size) (hcompletes : Completes whole buffers)
    {patch : List UInt8} (hpatch : patch.length = 32) {message : List MessageWrite}
    (hsize : byteSizeLong message ≤ kIntMax) : Serialized buffers size (encode message)
      (serializePartialToZeroCopyStream buffers patch message) := by
  have hstart : Kept size (.patch 0, .ofStream ⟨[], 0, 0⟩ patch) [] := {
    holds := CodedOutputStream.ofStream_holds whole ⟨[], 0, 0⟩ hpatch false
    filled := ⟨(zero_mul _).symm, Nat.zero_le _⟩
    tight := fun h => absurd h (Nat.not_lt_zero _) }
  rw [serializePartialToZeroCopyStream]
  simp only [if_neg (not_lt.mpr hsize)]
  apply serialized_of_trim hblocks hcompletes
  · exact (internalSerialize_operation hcompletes message).agrees (.patch 0, .ofStream ⟨[], 0, 0⟩ patch)
      fun j hj => absurd hj (Nat.not_lt_zero _)
  · exact hstart.internalSerialize_kept hblocks message

/-! ## The direct buffer -/

theorem setInitialBuffer_store (s : EpsCopyOutputStream) (data : List UInt8) (p q : Ptr) (n : ℕ) :
    (s.setInitialBuffer p n).1 = ((s.store q data).setInitialBuffer p n).1 ∧
      (s.setInitialBuffer p n).2.store q data = ((s.store q data).setInitialBuffer p n).2 := by
  rw [setInitialBuffer, setInitialBuffer]
  split <;> cases q <;> exact ⟨rfl, rfl⟩

variable {s : EpsCopyOutputStream}

theorem Flushed.store_flushed {p : Ptr} {n : ℕ} (h : Flushed s p n out)
    (data : List UInt8) (hfits : data.length ≤ n) :
    Flushed (s.store p data) (p.add data.length) (n - data.length) (out ++ data) := by
  have hlength := h.length_eq
  rcases h.data_eq with rfl | ⟨rfl, rfl⟩
  · have hroom : out.length + data.length ≤ s.stream.bytes.length := by omega
    exact {
      buffer_length := h.buffer_length
      noError := h.noError
      data_eq := .inl (by rw [Ptr.add, length_append])
      length_eq := by
        simp only [store, Ring.length_blit hroom, length_append]
        omega
      last_le := le_trans (Nat.sub_le _ _) h.last_le
      out_eq := by
        simp only [store, length_append]
        rw [take_blit_self (by omega), ← h.out_eq] }
  · obtain rfl : data = [] := eq_nil_of_length_eq_zero (by omega)
    rw [append_nil]
    exact {
      buffer_length := by
        simp only [store]
        rw [Ring.length_blit (Nat.zero_le _), h.buffer_length]
      noError := h.noError
      data_eq := .inr ⟨rfl, rfl⟩
      length_eq := hlength
      last_le := h.last_le
      out_eq := h.out_eq }

theorem Flushed.store_filled {p : Ptr} {n : ℕ} (h : Flushed s p n out)
    (hfits : data.length ≤ n) (hfilled : Filled size s.stream) : Filled size (s.store p data).stream := by
  have hlength := h.length_eq
  rcases h.data_eq with rfl | ⟨rfl, -⟩
  · have hroom : out.length + data.length ≤ s.stream.bytes.length := by omega
    exact ⟨(Ring.length_blit hroom).trans hfilled.length_eq, hfilled.last_le⟩
  · exact hfilled

theorem Kept.flushAndResetBuffer_kept (hblocks : Blocks whole size) (h : Kept size r out) :
    Kept size (r.2.flushAndResetBuffer whole r.1) out := by
  obtain ⟨hfilled, htight⟩ := h.holds.flush_tight hblocks h.filled h.tight
  have hholds := h.holds.flushAndResetBuffer_holds hblocks.succeeds
  have hflush := h.holds.flush_flushed hblocks.succeeds
  have hstream : (r.2.flushAndResetBuffer whole r.1).2.stream = (r.2.flush whole r.1).2.stream := by
    rw [flushAndResetBuffer, h.holds.ready.noError, if_neg Bool.false_ne_true]
    simp only [hflush.noError, Bool.false_eq_true, if_false, stream_setInitialBuffer]
  exact ⟨hholds, by rwa [hstream], by rwa [hstream]⟩

/-- The end of `SerializeDelimitedToCodedStream`, behind the size: the message goes to the
direct buffer, or it is written step by step. -/
def writeDirectOrNot (buffers : Buffers) (message : List MessageWrite)
    (r : (Option Ptr × Ptr) × EpsCopyOutputStream) : Ptr × EpsCopyOutputStream :=
  match r.1.1 with
  | some buffer => (r.1.2, r.2.store buffer (encode message))
  | none =>
    let r := internalSerialize buffers message (r.1.2, r.2)
    r.2.flushAndResetBuffer buffers r.1

theorem writeDirectOrNot_operation (hcompletes : Completes whole buffers) (message : List MessageWrite) :
    Operation buffers (writeDirectOrNot buffers message) (writeDirectOrNot whole message) := by
  have hstore : ∀ buffer : Ptr, Operation buffers
      (fun r : (Option Ptr × Ptr) × EpsCopyOutputStream =>
        (r.1.2, r.2.store buffer (encode message)))
      (fun r => (r.1.2, r.2.store buffer (encode message))) :=
    fun buffer => .of_eq _ (fun r => calls_store r.2 buffer _) (fun r => hadError_store r.2 buffer _)
  have hwrite := (flushAndResetBuffer_operation hcompletes).comp
    ((internalSerialize_operation hcompletes message).comp
      (.const fun r : (Option Ptr × Ptr) × EpsCopyOutputStream => r.1.2))
  constructor
  · rintro ⟨⟨_ | buffer, ptr⟩, s⟩ hserved
    · exact hwrite.agrees ((none, ptr), s) hserved
    · exact (hstore buffer).agrees ((some buffer, ptr), s) hserved
  · rintro ⟨⟨_ | buffer, ptr⟩, s⟩ herror
    · exact hwrite.keepsError ((none, ptr), s) herror
    · exact (hstore buffer).keepsError ((some buffer, ptr), s) herror
  · rintro ⟨⟨_ | buffer, ptr⟩, s⟩
    · exact hwrite.calls_le ((none, ptr), s)
    · exact (hstore buffer).calls_le ((some buffer, ptr), s)

/-- **The message behind its size**, directly or not. -/
theorem Kept.writeDirectOrNot_kept (hblocks : Blocks whole size) (h : Kept size r out)
    (message : List MessageWrite) : Kept size (writeDirectOrNot whole message
        (r.2.getDirectBufferForNBytesAndAdvance whole (byteSizeLong message) r.1)) (out ++ encode message) := by
  have hflush := h.holds.flush_flushed hblocks.succeeds
  obtain ⟨hfilled, htight⟩ := h.holds.flush_tight hblocks h.filled h.tight
  rw [getDirectBufferForNBytesAndAdvance, h.holds.ready.noError, if_neg Bool.false_ne_true]
  generalize r.2.flush whole r.1 = f at hflush hfilled htight ⊢
  obtain ⟨n, s⟩ := f
  simp only at hflush hfilled htight ⊢
  rw [if_neg (by rw [hflush.noError]; exact Bool.false_ne_true)]
  by_cases hfits : byteSizeLong message ≤ n
  · rw [if_pos hfits]
    simp only [writeDirectOrNot]
    obtain ⟨hptr, hstate⟩ := setInitialBuffer_store s (encode message)
      (s.bufferEnd.add (byteSizeLong message)) s.bufferEnd (n - byteSizeLong message)
    have hstored := hflush.store_flushed (encode message) hfits
    rw [hptr, hstate]
    refine ⟨hstored.setInitialBuffer_holds, ?_, ?_⟩
    · rw [stream_setInitialBuffer]
      exact hflush.store_filled hfits hfilled
    · rw [Tight, stream_setInitialBuffer, calls_store, length_append]
      intro hcalls
      have := htight hcalls
      omega
  · rw [if_neg hfits]
    simp only [writeDirectOrNot]
    have hset : Kept size (s.setInitialBuffer s.bufferEnd n) out := {
      holds := hflush.setInitialBuffer_holds
      filled := by rwa [stream_setInitialBuffer]
      tight := by rwa [stream_setInitialBuffer] }
    exact (hset.internalSerialize_kept hblocks message).flushAndResetBuffer_kept hblocks

/-! ## The trim of the destructor -/

/-- `Trim` will not call `Next`. -/
def Settled (r : Ptr × EpsCopyOutputStream) : Prop :=
  r.2.hadError = true ∨ r.2.bufferEnd = .null ∨ r.1.diff r.2.end_ ≤ 0

theorem Settled.hadError_trim (h : Settled r) : (r.2.trim buffers r.1).2.hadError = r.2.hadError := by
  rw [trim]
  by_cases herror : r.2.hadError = true
  · rw [if_pos herror]
  · have hloop : ¬ (r.2.bufferEnd ≠ .null ∧ 0 < r.1.diff r.2.end_) := by
      rintro ⟨hnull, hover⟩
      rcases h with herror' | hnull' | hle
      · exact herror herror'
      · exact hnull hnull'
      · omega
    rw [if_neg herror, flush, flushLoop, if_neg hloop]
    simp only [if_neg herror]
    split <;> simp

theorem setInitialBuffer_settled (s : EpsCopyOutputStream) (p : Ptr) (n : ℕ) :
    Settled (s.setInitialBuffer p n) := by
  rw [setInitialBuffer]
  split
  · exact .inr (.inl rfl)
  · refine .inr (.inr ?_)
    simp only [Ptr.diff, Ptr.offset]
    omega

theorem flushAndResetBuffer_settled (s : EpsCopyOutputStream) (ptr : Ptr) :
    Settled (s.flushAndResetBuffer buffers ptr) := by
  rw [flushAndResetBuffer]
  by_cases herror : s.hadError = true
  · rw [if_pos herror]
    exact .inl herror
  · rw [if_neg herror]
    simp only
    by_cases herror' : (s.flush buffers ptr).2.hadError = true
    · rw [if_pos herror']
      exact .inl herror'
    · rw [if_neg herror']
      exact setInitialBuffer_settled _ _ _

theorem getDirectBuffer_settled {n : ℕ} {ptr buffer : Ptr}
    (h : (s.getDirectBufferForNBytesAndAdvance buffers n ptr).1.1 = some buffer) :
    (s.getDirectBufferForNBytesAndAdvance buffers n ptr).2.hadError = false ∧
      Settled ((s.getDirectBufferForNBytesAndAdvance buffers n ptr).1.2,
        (s.getDirectBufferForNBytesAndAdvance buffers n ptr).2) := by
  rw [getDirectBufferForNBytesAndAdvance] at h ⊢
  by_cases herror : s.hadError = true
  · simp [herror] at h
  · rw [if_neg herror] at h ⊢
    simp only at h ⊢
    by_cases herror' : (s.flush buffers ptr).2.hadError = true
    · simp [herror'] at h
    · rw [if_neg herror'] at h ⊢
      by_cases hfits : n ≤ (s.flush buffers ptr).1
      · rw [if_pos hfits]
        exact ⟨by simpa using herror', setInitialBuffer_settled _ _ _⟩
      · simp [hfits] at h

end EpsCopyOutputStream

namespace CodedOutputStream

open EpsCopyOutputStream

variable {whole buffers : Buffers} {size : ℕ}

/-- The size, and the message behind it. -/
def delimitedWrites (buffers : Buffers) (message : List MessageWrite)
    (r : Ptr × EpsCopyOutputStream) : Ptr × EpsCopyOutputStream :=
  let r := storeAt (writeVarint32ToArray (.ofNat (byteSizeLong message)))
    (r.2.ensureSpace buffers r.1)
  writeDirectOrNot buffers message
    (r.2.getDirectBufferForNBytesAndAdvance buffers (byteSizeLong message) r.1)

theorem delimitedWrites_settled (message : List MessageWrite) (r : Ptr × EpsCopyOutputStream) :
    Settled (delimitedWrites buffers message r) := by
  simp only [delimitedWrites]
  generalize storeAt (writeVarint32ToArray (.ofNat (byteSizeLong message)))
    (r.2.ensureSpace buffers r.1) = r'
  rw [writeDirectOrNot]
  cases hbuffer : (r'.2.getDirectBufferForNBytesAndAdvance buffers (byteSizeLong message)
      r'.1).1.1 with
  | none => exact flushAndResetBuffer_settled _ _
  | some buffer =>
    have h := (getDirectBuffer_settled hbuffer).2
    rcases buffer with _ | i | i <;> exact h

/-- **`SerializeDelimitedToCodedStream`** returns whether there was no error. -/
theorem serializeDelimitedToCodedStream_eq {message : List MessageWrite}
    (hsize : byteSizeLong message ≤ kIntMax) (c : CodedOutputStream) :
    serializeDelimitedToCodedStream buffers message c =
      (!(delimitedWrites buffers message (c.cur, c.impl)).2.hadError, { c with
          impl := (delimitedWrites buffers message (c.cur, c.impl)).2
          cur := (delimitedWrites buffers message (c.cur, c.impl)).1 }) := by
  rw [serializeDelimitedToCodedStream, if_neg (not_lt.mpr hsize)]
  simp only [delimitedWrites, writeToArray, storeAt, writeDirectOrNot]
  generalize (c.impl.ensureSpace buffers c.cur).2.store _ _ = s
  generalize Ptr.add _ _ = ptr
  cases hbuffer : (s.getDirectBufferForNBytesAndAdvance buffers (byteSizeLong message) ptr).1.1 with
  | none => rfl
  | some buffer =>
    simp only [hadError_store, (getDirectBuffer_settled hbuffer).1]
    rfl

theorem ofStream_congr (hcompletes : Completes whole buffers) (hfirst : buffers.result 0 ≠ none)
    (patch : List UInt8) : ofStream buffers ⟨[], 0, 0⟩ patch true = ofStream whole ⟨[], 0, 0⟩ patch true := by
  simp only [ofStream, ZeroCopyOutputStream.next, hcompletes.result_eq 0 hfirst]

theorem ofStream_kept (hblocks : Blocks whole size) {patch : List UInt8} (hpatch : patch.length = 32) :
    Kept size ((ofStream whole ⟨[], 0, 0⟩ patch true).cur, (ofStream whole ⟨[], 0, 0⟩ patch true).impl) [] ∧
      (ofStream whole ⟨[], 0, 0⟩ patch true).impl.stream.calls = 1 := by
  obtain ⟨data, hdata⟩ := Option.ne_none_iff_exists'.mp (hblocks.succeeds 0)
  have hlength := hblocks.length_eq 0 data hdata
  have hpos := hblocks.pos
  have hstream : (ofStream whole ⟨[], 0, 0⟩ patch true).impl.stream = ⟨data, 1, data.length⟩ := by
    have hne : data.length ≠ 0 := by omega
    simp [ofStream, ZeroCopyOutputStream.next, hdata, hne]
  have hholds := ofStream_holds whole ⟨[], 0, 0⟩ hpatch true
  refine ⟨⟨hholds, ?_, ?_⟩, by rw [hstream]⟩
  · rw [hstream]
    exact ⟨by simp only; omega, le_of_eq hlength⟩
  · intro hcalls
    rw [hstream] at hcalls
    exact absurd hcalls (lt_irrefl 1)

/-- **`SerializeDelimitedToZeroCopyStream`.** -/
theorem serializeDelimited_spec (hblocks : Blocks whole size)
    (hcompletes : Completes whole buffers) (hfirst : buffers.result 0 ≠ none)
    {patch : List UInt8} (hpatch : patch.length = 32) {message : List MessageWrite}
    (hsize : byteSizeLong message ≤ kIntMax) : Serialized buffers size (encodeDelimited message)
      (serializeDelimitedToZeroCopyStream buffers patch message) := by
  obtain ⟨hstart, hcalls⟩ := ofStream_kept hblocks hpatch
  rw [serializeDelimitedToZeroCopyStream, serializeDelimitedToCodedStream_eq hsize,
    ofStream_congr hcompletes hfirst]
  generalize ofStream whole ⟨[], 0, 0⟩ patch true = c at hstart hcalls ⊢
  have hserved : Served buffers c.impl.stream.calls := by
    intro j hj
    obtain rfl : j = 0 := by omega
    exact hfirst
  have hoperation : Operation buffers (delimitedWrites buffers message)
      (delimitedWrites whole message) :=
    (writeDirectOrNot_operation hcompletes message).comp
      ((getDirectBuffer_operation hcompletes (byteSizeLong message)).comp
        ((storeAt_operation _).comp (ensureSpace_operation hcompletes)))
  have hkept : Kept size (delimitedWrites whole message (c.cur, c.impl))
      (encodeDelimited message) := by
    have hprefixed := hstart.ensureSpace_storeAt_kept hblocks
      (le_trans (length_writeVarint32ToArray_le_five _) (by decide))
      (writeVarint32ToArray_ne_nil (.ofNat (byteSizeLong message)))
    exact hprefixed.writeDirectOrNot_kept hblocks message
  have h := serialized_of_trim hblocks hcompletes (hoperation.agrees (c.cur, c.impl) hserved) hkept
  rwa [(delimitedWrites_settled message (c.cur, c.impl)).hadError_trim] at h

end CodedOutputStream

end Protoc.Io
