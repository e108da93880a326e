import Protoc.Io.EpsCopyOutputBytes
import Protoc.Io.EpsCopyOutputChecked

/-!
# The coded output stream is safe on a stream that fails

Over a stream that may fail at any call of `Next`, the position is in the stream's last
buffer or in the patch buffer, no more than the slop region behind `end_`.  After an error it
is in the patch buffer, and `end_` stays where `Error` or `Trim` left it.  So every function
gets through its checks.
-/

namespace Protoc.Io

open Protoc.Lib
open Option List

namespace EpsCopyOutputStream

variable {s : EpsCopyOutputStream} {ptr : Ptr} {out data : List UInt8} {buffers : Buffers}

/-! ## The checks -/

variable {p q : Ptr}

theorem diffChecked_eq (h : p.sameArray q = true) : p.diffChecked q = some (p.diff q) := by
  rw [Ptr.diffChecked, if_pos h]

theorem sizeChecked_eq (h : p.sameArray q = true) (hle : 0 ≤ p.diff q) :
    p.sizeChecked q = some (p.diff q).toNat := by
  rw [Ptr.sizeChecked, if_pos ⟨h, hle⟩]

theorem storeChecked_eq (h : s.Inside ptr data.length) : s.storeChecked ptr data = some (s.store ptr data) := by
  rw [storeChecked, if_pos h]

theorem memcpyChecked_eq {dst src : Ptr} {n : ℕ} (hdst : s.Inside dst n) (hsrc : s.Inside src n) :
    s.memcpyChecked dst src n = some (s.memcpy dst src n) := by
  rw [memcpyChecked, if_pos ⟨hdst, hsrc⟩]

theorem guard_eq {p : Prop} [Decidable p] (h : p) : (guard p : Option Unit) = some () := if_pos h

theorem sameArray_add (n : ℕ) (h : p.sameArray q = true) : (p.add n).sameArray q = true := by
  cases p <;> cases q <;> simp_all [Ptr.sameArray, Ptr.add]

theorem sameArray_symm (h : p.sameArray q = true) : q.sameArray p = true := by
  cases p <;> cases q <;> simp_all [Ptr.sameArray]

theorem add_diff (n : ℕ) (h : p.sameArray q = true) : (p.add n).diff q = p.diff q + n := by
  cases p <;> cases q <;> simp_all [Ptr.sameArray, Ptr.diff, Ptr.add, Ptr.offset] <;> omega

theorem getSizeChecked_eq (h : ptr.sameArray s.end_ = true)
    (hle : ptr.diff s.end_ ≤ kSlopBytes) : s.getSizeChecked ptr = some (s.getSize ptr) := by
  have hsame := sameArray_add kSlopBytes (sameArray_symm h)
  have hdiff := add_diff kSlopBytes (sameArray_symm h)
  have hcomm := Ptr.diff_comm s.end_ ptr
  rw [getSizeChecked, sizeChecked_eq hsame (by omega), hdiff, getSize]

/-! ## Where the position is -/

/-- The position is where it should be, before an error or after one. -/
inductive Safe (s : EpsCopyOutputStream) : Ptr → Prop
  | live {ptr : Ptr} {out : List UInt8} (h : Holds s ptr out) : Safe s ptr
  | failed {p e : ℕ} (h : Failed s p e) : Safe s (.patch p)

theorem Holds.sameArray (h : Holds s ptr out) : ptr.sameArray s.end_ = true := by
  cases h with
  | direct h => rw [h.end_eq]; rfl
  | patched h => rw [h.end_eq]; rfl

theorem Holds.diff_le (h : Holds s ptr out) : ptr.diff s.end_ ≤ kSlopBytes := by
  cases h with
  | direct h =>
    have := h.ptr_le
    simp only [h.end_eq, Ptr.diff, Ptr.offset]
    omega
  | patched h =>
    have := h.ptr_le
    simp only [h.end_eq, Ptr.diff, Ptr.offset]
    omega

theorem Safe.sameArray (h : Safe s ptr) : ptr.sameArray s.end_ = true := by
  cases h with
  | live h => exact h.sameArray
  | failed h => rw [h.end_eq]; rfl

theorem Safe.diff_le (h : Safe s ptr) : ptr.diff s.end_ ≤ kSlopBytes := by
  cases h with
  | live h => exact h.diff_le
  | failed h =>
    have := h.ptr_le
    simp only [h.end_eq, Ptr.diff, Ptr.offset]
    omega

theorem Safe.inside (h : Safe s ptr) {n : ℕ} (hn : n ≤ s.getSize ptr) : s.Inside ptr n := by
  cases h with
  | live h =>
    cases h with
    | direct h =>
      have hlength := h.length_eq
      have hptr := h.ptr_le
      have hlast := h.last_le
      simp only [getSize, h.end_eq, Ptr.diff, Ptr.offset] at hn
      simp only [Inside, ZeroCopyOutputStream.byteCount]
      omega
    | patched h =>
      have hbuffer := h.buffer_length
      have hend := h.end_le
      have hptr := h.ptr_le
      simp only [getSize, h.end_eq, Ptr.diff, Ptr.offset] at hn
      simp only [kSlopBytes] at hend hn hptr
      simp only [Inside, hbuffer]
      omega
  | failed h =>
    have hbuffer := h.buffer_length
    have hend := h.end_le
    have hptr := h.ptr_le
    simp only [getSize, h.end_eq, Ptr.diff, Ptr.offset] at hn
    simp only [kSlopBytes] at hend hn hptr
    simp only [Inside, hbuffer]
    omega

theorem Failed.store {p e : ℕ} (h : Failed s p e) (hfits : p + data.length ≤ e + kSlopBytes) :
    Failed (s.store (.patch p) data) (p + data.length) e where
  buffer_length := by
    have hbuffer := h.buffer_length
    have hend := h.end_le
    rw [← hbuffer]
    apply Ring.length_blit
    simp only [kSlopBytes] at hfits hend
    omega
  hadError := h.hadError
  end_eq := h.end_eq
  end_le := h.end_le
  ptr_le := hfits

theorem Safe.store_safe (h : Safe s ptr) (hfits : data.length ≤ s.getSize ptr) :
    Safe (s.store ptr data) (ptr.add data.length) := by
  cases h with
  | live h => exact .live (h.store_holds hfits)
  | @failed p e h =>
    have hptr := h.ptr_le
    simp only [getSize, h.end_eq, Ptr.diff, Ptr.offset] at hfits
    exact .failed (h.store (by omega))

theorem Failed.restart {p e : ℕ} (h : Failed s p e) : Failed s 0 e where
  buffer_length := h.buffer_length
  hadError := h.hadError
  end_eq := h.end_eq
  end_le := h.end_le
  ptr_le := Nat.zero_le _

theorem Safe.failed_of_error (h : Safe s ptr) (herror : s.hadError = true) :
    ∃ p e, ptr = .patch p ∧ Failed s p e := by
  cases h with
  | live h =>
    have hnone := h.ready.noError
    rw [herror] at hnone
    exact Bool.noConfusion hnone
  | @failed p e h => exact ⟨p, e, rfl, h⟩

theorem Safe.holds_of_noError (h : Safe s ptr) (hnone : ¬ s.hadError = true) : ∃ out, Holds s ptr out := by
  cases h with
  | @live _ out h => exact ⟨out, h⟩
  | failed h => exact absurd h.hadError hnone

/-- A function gets through its checks, its result is safe, and an error stays. -/
structure Passes (s : EpsCopyOutputStream) (checked : Option (Ptr × EpsCopyOutputStream))
    (r : Ptr × EpsCopyOutputStream) : Prop where
  eq : checked = some r
  safe : Safe r.2 r.1
  keeps : s.hadError = true → r.2.hadError = true

/-! ## `Next` -/

theorem Direct.inside_slop {p e : ℕ} (h : Direct s p e out) : s.Inside (.stream e) kSlopBytes := by
  have hlength := h.length_eq
  have hlast := h.last_large
  simp only [Inside, ZeroCopyOutputStream.byteCount]
  omega

theorem Ready.inside_patch (h : s.Ready) {n : ℕ} (hn : n ≤ 32) : s.Inside (.patch 0) n := by
  simp only [Inside, h.buffer_length]
  omega

theorem Patched.inside_rest {p e b n : ℕ} (h : Patched s p e b out) (hn : n ≤ e) : s.Inside s.bufferEnd n := by
  have hlength := h.length_eq
  have hlast := h.last_le
  rcases h.bufferEnd_eq with heq | ⟨heq, rfl⟩
  · rw [heq]
    simp only [Inside, ZeroCopyOutputStream.byteCount]
    omega
  · rw [heq]
    exact h.inside_patch (by omega)

theorem Patched.inside_slop {p e b : ℕ} (h : Patched s p e b out) {stream : ZeroCopyOutputStream} :
    Inside { s with stream } s.end_ kSlopBytes := by
  have hbuffer := h.buffer_length
  have hend := h.end_le
  simp only [kSlopBytes] at hend
  simp only [Inside, h.end_eq, hbuffer, kSlopBytes]
  omega

/-- **`Next`** gets through its checks. -/
theorem Holds.nextChecked_eq (buffers : Buffers) (h : Holds s ptr out) :
    s.nextChecked buffers = some (s.next buffers) := by
  cases h with
  | @direct p e _ h =>
    have hcopy : s.memcpyChecked (.patch 0) s.end_ kSlopBytes =
        some (s.memcpy (.patch 0) s.end_ kSlopBytes) := by
      apply memcpyChecked_eq (h.inside_patch (by decide))
      rw [h.end_eq]
      exact h.inside_slop
    simp [nextChecked, next, h.noError, h.bufferEnd_eq, hcopy]
  | @patched p e b _ h =>
    have hend := h.end_le
    have hsize : s.end_.sizeChecked (.patch 0) = some e := by
      simp [Ptr.sizeChecked, h.end_eq, Ptr.sameArray, Ptr.diff, Ptr.offset]
    have htoNat : (s.end_.diff (.patch 0)).toNat = e := by
      simp [h.end_eq, Ptr.diff, Ptr.offset]
    have hcopy : s.memcpyChecked s.bufferEnd (.patch 0) e =
        some (s.memcpy s.bufferEnd (.patch 0) e) := by
      apply memcpyChecked_eq (h.inside_rest le_rfl) (h.inside_patch _)
      simp only [kSlopBytes] at hend
      omega
    have hfill := h.fill_all
    rw [htoNat] at hfill
    rw [nextChecked, next, if_pos h.bufferEnd_ne_null, if_pos h.bufferEnd_ne_null, htoNat]
    rw [guard_eq h.noError]
    simp only [hsize, hcopy, hfill, bind_eq_bind, bind_some]
    cases hstream : ZeroCopyOutputStream.nextNonEmpty buffers
        { s.stream with bytes := s.stream.bytes.take b ++ s.buffer.take e } with
    | none => rfl
    | some r =>
      obtain ⟨size, stream⟩ := r
      obtain ⟨data, calls, hne, rfl, rfl⟩ := ZeroCopyOutputStream.nextNonEmpty_of_some hstream
      by_cases hlarge : kSlopBytes < data.length
      · simp only [if_pos hlarge]
        rw [memcpyChecked_eq _ h.inside_slop]
        · rfl
        · simp only [Inside, ZeroCopyOutputStream.byteCount, length_append]
          omega
      · simp only [if_neg hlarge, guard_eq (length_pos_of_ne_nil hne), bind_some]
        rw [memcpyChecked_eq _ h.inside_slop]
        · rfl
        · have hbuffer := h.buffer_length
          simp only [Inside, hbuffer, kSlopBytes]
          omega

/-! ## Ensuring space -/

theorem Safe.slop_le_getSize (h : Safe s ptr) (hbefore : ptr.diff s.end_ < 0 ∨ ptr = .patch 0) :
    kSlopBytes ≤ s.getSize ptr := by
  rw [getSize]
  rcases hbefore with hbefore | rfl
  · rw [Ptr.diff_comm] at hbefore
    omega
  · have : 0 ≤ s.end_.diff (.patch 0) := by simp [Ptr.diff, Ptr.offset]
    omega

/-- What ensures space: the function passes, and it leaves room for the slop region. -/
structure Ensures (s : EpsCopyOutputStream) (checked : Option (Ptr × EpsCopyOutputStream))
    (r : Ptr × EpsCopyOutputStream) : Prop extends Passes s checked r where
  room : kSlopBytes ≤ r.2.getSize r.1

theorem Safe.restart (h : Safe s ptr) (herror : s.hadError = true) :
    Ensures s (some (.patch 0, s)) (.patch 0, s) := by
  obtain ⟨p, e, -, hfailed⟩ := h.failed_of_error herror
  have hsafe := Safe.failed hfailed.restart
  exact ⟨⟨rfl, hsafe, id⟩, hsafe.slop_le_getSize (.inr rfl)⟩

/-- The loop ends before `end_`, or at the start of the patch buffer. -/
theorem ensureSpaceLoop_ensures (fuel : ℕ) (h : Safe s ptr) (hover : 0 ≤ ptr.diff s.end_)
    (hfuel : ptr.diff s.end_ < fuel) :
    Ensures s (ensureSpaceLoopChecked buffers fuel ptr s) (ensureSpaceLoop buffers fuel ptr s) := by
  induction fuel generalizing s ptr with
  | zero => omega
  | succ fuel ih =>
    rw [ensureSpaceLoopChecked, ensureSpaceLoop]
    by_cases herror : s.hadError = true
    · rw [if_pos herror, if_pos herror]
      exact h.restart herror
    · obtain ⟨out, hholds⟩ := h.holds_of_noError herror
      have hle := hholds.diff_le
      have hchecked : s.nextChecked buffers = some (s.next buffers) := hholds.nextChecked_eq _
      rw [if_neg herror, if_neg herror, sizeChecked_eq h.sameArray hover]
      simp only [bind_eq_bind, bind_some, hchecked]
      rw [guard_eq (by omega)]
      simp only [bind_some]
      have hafter : Safe (s.next buffers).2 ((s.next buffers).1.add (ptr.diff s.end_).toNat) ∧
            ((s.next buffers).1.add (ptr.diff s.end_).toNat).diff (s.next buffers).2.end_ <
              fuel := by
        rcases hholds.next_cases buffers hover with ⟨hptr, hfailed⟩ | ⟨hnext, hless⟩
        · have hend := hfailed.end_eq
          rw [hptr, Ptr.add, zero_add]
          constructor
          · apply Safe.failed (e := kSlopBytes)
            exact { hfailed with ptr_le := by omega }
          · have hpos : 0 < kSlopBytes := by decide
            have hdiff : (Ptr.patch (ptr.diff s.end_).toNat).diff (.patch kSlopBytes) =
                (ptr.diff s.end_).toNat - (kSlopBytes : ℤ) := rfl
            rw [hend, hdiff]
            omega
        · exact ⟨.live hnext, by omega⟩
      generalize s.next buffers = r at hafter ⊢
      obtain ⟨hsafe, hless⟩ := hafter
      rw [diffChecked_eq hsafe.sameArray]
      simp only [bind_some]
      by_cases hagain : 0 ≤ (r.1.add (ptr.diff s.end_).toNat).diff r.2.end_
      · rw [if_pos hagain, if_pos hagain]
        have hrest := ih hsafe hagain hless
        exact ⟨⟨hrest.eq, hrest.safe, fun h => absurd h herror⟩, hrest.room⟩
      · rw [if_neg hagain, if_neg hagain]
        exact ⟨⟨rfl, hsafe, fun h => absurd h herror⟩,
          hsafe.slop_le_getSize (.inl (not_le.mp hagain))⟩

/-- **`EnsureSpaceFallback`**, from a position that is not before `end_`. -/
theorem Safe.ensureSpaceFallback_ensures (buffers : Buffers) (h : Safe s ptr) (hover : 0 ≤ ptr.diff s.end_) :
    Ensures s (s.ensureSpaceFallbackChecked buffers ptr) (s.ensureSpaceFallback buffers ptr) :=
  ensureSpaceLoop_ensures _ h hover (by omega)

/-- **`EnsureSpace`**. -/
theorem Safe.ensureSpace_ensures (buffers : Buffers) (h : Safe s ptr) :
    Ensures s (s.ensureSpaceChecked buffers ptr) (s.ensureSpace buffers ptr) := by
  rw [ensureSpaceChecked, ensureSpace, diffChecked_eq h.sameArray]
  simp only [bind_eq_bind, bind_some]
  by_cases hover : 0 ≤ ptr.diff s.end_
  · rw [if_pos hover, if_pos hover]
    exact h.ensureSpaceFallback_ensures buffers hover
  · rw [if_neg hover, if_neg hover]
    exact ⟨⟨rfl, h, id⟩, h.slop_le_getSize (.inl (not_le.mp hover))⟩

/-! ## Writing raw bytes -/

theorem hadError_store_eq (p : Ptr) : (s.store p data).hadError = s.hadError := by
  cases p <;> rfl

/-- The loop ends.  Only its first round may write none. -/
theorem writeRawLoop_passes (fuel : ℕ) (h : Safe s ptr)
    (hfuel : data.length + 1 < fuel + min 1 (s.getSize ptr)) :
    Passes s (writeRawLoopChecked buffers fuel data ptr s) (writeRawLoop buffers fuel data ptr s) := by
  induction fuel generalizing s ptr data with
  | zero => omega
  | succ fuel ih =>
    rw [writeRawLoopChecked, writeRawLoop, getSizeChecked_eq h.sameArray h.diff_le]
    simp only [bind_eq_bind, bind_some]
    by_cases hmore : s.getSize ptr < data.length
    · rw [if_pos hmore, if_pos hmore]
      have htake : (data.take (s.getSize ptr)).length = s.getSize ptr := by simp; omega
      have hdrop : (data.drop (s.getSize ptr)).length = data.length - s.getSize ptr :=
        length_drop
      have hsafe := h.store_safe (le_of_eq htake)
      rw [htake] at hsafe
      have hover : 0 ≤ (ptr.add (s.getSize ptr)).diff
          (s.store ptr (data.take (s.getSize ptr))).end_ := by
        rw [store_end, add_diff _ h.sameArray, getSize, Ptr.diff_comm ptr]
        omega
      have hspace := hsafe.ensureSpaceFallback_ensures buffers hover
      rw [storeChecked_eq (h.inside (le_of_eq htake))]
      simp only [bind_some]
      rw [hspace.eq]
      simp only [bind_some]
      have hroom := hspace.room
      have hrounds : (data.drop (s.getSize ptr)).length + 1 < fuel + min 1
          (((s.store ptr (data.take (s.getSize ptr))).ensureSpaceFallback buffers
            (ptr.add (s.getSize ptr))).2.getSize
              ((s.store ptr (data.take (s.getSize ptr))).ensureSpaceFallback buffers
                (ptr.add (s.getSize ptr))).1) := by
        rw [hdrop]
        simp only [kSlopBytes] at hroom
        omega
      have hrest := ih hspace.safe hrounds
      refine ⟨hrest.eq, hrest.safe, fun herror => hrest.keeps (hspace.keeps ?_)⟩
      rw [hadError_store_eq]
      exact herror
    · rw [if_neg hmore, if_neg hmore]
      have hle : data.length ≤ s.getSize ptr := not_lt.mp hmore
      rw [storeChecked_eq (h.inside hle)]
      refine ⟨rfl, h.store_safe hle, fun herror => ?_⟩
      rw [hadError_store_eq]
      exact herror

/-- **`WriteRaw`**. -/
theorem Safe.writeRaw_passes (buffers : Buffers) (h : Safe s ptr) (data : List UInt8) :
    Passes s (s.writeRawChecked buffers data ptr) (s.writeRaw buffers data ptr) := by
  rw [writeRawChecked, writeRaw, diffChecked_eq (sameArray_symm h.sameArray)]
  simp only [bind_eq_bind, bind_some]
  by_cases hfits : s.end_.diff ptr < data.length
  · rw [if_pos hfits, if_pos hfits]
    exact writeRawLoop_passes (data.length + 2) h (by omega)
  · rw [if_neg hfits, if_neg hfits]
    have hle : data.length ≤ s.getSize ptr := by
      rw [getSize]
      omega
    rw [storeChecked_eq (h.inside hle)]
    refine ⟨rfl, h.store_safe hle, fun herror => ?_⟩
    rw [hadError_store_eq]
    exact herror

/-! ## Flushing -/

/-- The loop ends with an error, with the position in the stream's buffer, or with no
overrun. -/
theorem flushLoop_passes (buffers : Buffers) (fuel : ℕ) (h : Holds s ptr out) (hfuel : ptr.diff s.end_ < fuel)
    (hpos : 0 < fuel) : flushLoopChecked buffers fuel ptr s = some (flushLoop buffers fuel ptr s) ∧
      ((∃ p e, Failed (flushLoop buffers fuel ptr s).2 p e) ∨
        Holds (flushLoop buffers fuel ptr s).2 (flushLoop buffers fuel ptr s).1 out ∧
          ((flushLoop buffers fuel ptr s).2.bufferEnd ≠ .null →
            (flushLoop buffers fuel ptr s).1.diff (flushLoop buffers fuel ptr s).2.end_ ≤ 0)) := by
  induction fuel generalizing s ptr with
  | zero => omega
  | succ fuel ih =>
    rw [flushLoopChecked, flushLoop]
    by_cases hnull : s.bufferEnd ≠ .null
    · rw [if_pos hnull, diffChecked_eq h.sameArray]
      simp only [bind_eq_bind, bind_some]
      by_cases hover : 0 < ptr.diff s.end_
      · have hle := h.diff_le
        have hchecked : s.nextChecked buffers = some (s.next buffers) := h.nextChecked_eq _
        rw [if_pos hover, if_pos ⟨hnull, hover⟩, sizeChecked_eq h.sameArray (le_of_lt hover)]
        simp only [bind_some, hchecked]
        rw [guard_eq ⟨h.ready.noError, by omega⟩]
        simp only [bind_some]
        rcases h.next_cases buffers (le_of_lt hover) with ⟨-, hfailed⟩ | ⟨hnext, hless⟩
        · rw [if_pos hfailed.hadError, if_pos hfailed.hadError]
          exact ⟨rfl, .inl ⟨_, _, hfailed⟩⟩
        · have hnone : ¬ (s.next buffers).2.hadError = true := by
            rw [hnext.ready.noError]
            exact Bool.false_ne_true
          rw [if_neg hnone, if_neg hnone]
          exact ih hnext (by omega) (by omega)
      · rw [if_neg hover, if_neg (mt And.right hover)]
        exact ⟨rfl, .inr ⟨h, fun _ => not_lt.mp hover⟩⟩
    · rw [if_neg hnull, if_neg (mt And.left hnull)]
      exact ⟨rfl, .inr ⟨h, fun h => absurd h hnull⟩⟩

/-- The result of a flush: an error, or what is left of the stream's last buffer. -/
def AfterFlush (r : ℕ × EpsCopyOutputStream) : Prop :=
  (r.1 = 0 ∧ ∃ p e, Failed r.2 p e) ∨ ∃ out, Flushed r.2 r.2.bufferEnd r.1 out

/-- **`Flush`**, before an error. -/
theorem Holds.flush_passes (buffers : Buffers) (h : Holds s ptr out) :
    s.flushChecked buffers ptr = some (s.flush buffers ptr) ∧ AfterFlush (s.flush buffers ptr) := by
  obtain ⟨hchecked, hafter⟩ := flushLoop_passes buffers
    ((ptr.diff s.end_).toNat + 1) h (by omega) (Nat.succ_pos _)
  rw [flushChecked, hchecked, flush_eq_flushEnd]
  simp only [bind_eq_bind, bind_some]
  generalize flushLoop buffers ((ptr.diff s.end_).toNat + 1) ptr s = r at hafter ⊢
  obtain ⟨ptr, s⟩ := r
  dsimp only at hafter ⊢
  rcases hafter with ⟨p, e, hfailed⟩ | ⟨hloop, hover⟩
  · rw [flushEnd, if_pos hfailed.hadError, if_pos hfailed.hadError]
    exact ⟨rfl, .inl ⟨rfl, p, e, hfailed⟩⟩
  · refine ⟨?_, .inr ⟨out, hloop.flushEnd_flushed hover⟩⟩
    have hnone : ¬ s.hadError = true := by
      rw [hloop.ready.noError]
      exact Bool.false_ne_true
    rw [flushEnd, if_neg hnone, if_neg hnone]
    cases hloop with
    | direct hdirect =>
      rw [if_neg (not_not.mpr hdirect.bufferEnd_eq), if_neg (not_not.mpr hdirect.bufferEnd_eq),
        getSizeChecked_eq (Holds.direct hdirect).sameArray (Holds.direct hdirect).diff_le]
      rfl
    | @patched p e b _ hpatched =>
      have hle : p ≤ e := by
        have hle := hover hpatched.bufferEnd_ne_null
        simp only [hpatched.end_eq, Ptr.diff, Ptr.offset] at hle
        omega
      have hend := hpatched.end_le
      have hsize : (Ptr.patch p).sizeChecked (.patch 0) =
          some ((Ptr.patch p).diff (.patch 0)).toNat := by
        apply sizeChecked_eq rfl
        simp [Ptr.diff, Ptr.offset]
      have htoNat : ((Ptr.patch p).diff (.patch 0)).toNat = p := by simp [Ptr.diff, Ptr.offset]
      have hcopy : s.memcpyChecked s.bufferEnd (.patch 0) p =
          some (s.memcpy s.bufferEnd (.patch 0) p) := by
        apply memcpyChecked_eq (hpatched.inside_rest hle) (hpatched.inside_patch _)
        simp only [kSlopBytes] at hend
        omega
      have hrest : s.end_.sizeChecked (.patch p) = some (s.end_.diff (.patch p)).toNat := by
        apply sizeChecked_eq
        · rw [hpatched.end_eq]
          rfl
        · simp only [hpatched.end_eq, Ptr.diff, Ptr.offset]
          omega
      have hkeep : (s.memcpy s.bufferEnd (.patch 0) p).end_ = s.end_ := store_end _
      rw [if_pos hpatched.bufferEnd_ne_null, if_pos hpatched.bufferEnd_ne_null, hsize, htoNat]
      simp only [bind_some, hcopy, hkeep, hrest]

theorem AfterFlush.flushed {r : ℕ × EpsCopyOutputStream} (h : AfterFlush r)
    (hnone : ¬ r.2.hadError = true) : ∃ out, Flushed r.2 r.2.bufferEnd r.1 out := by
  rcases h with ⟨-, p, e, hfailed⟩ | hflushed
  · exact absurd hfailed.hadError hnone
  · exact hflushed

theorem AfterFlush.safe_start {r : ℕ × EpsCopyOutputStream} (h : AfterFlush r)
    (herror : r.2.hadError = true) : Safe r.2 (.patch 0) := by
  rcases h with ⟨-, p, e, hfailed⟩ | ⟨out, hflushed⟩
  · exact .failed hfailed.restart
  · have hnone := hflushed.noError
    rw [herror] at hnone
    exact Bool.noConfusion hnone

theorem room_setInitialBuffer (data : Ptr) (size : ℕ) :
    kSlopBytes ≤ (s.setInitialBuffer data size).2.getSize (s.setInitialBuffer data size).1 := by
  rw [setInitialBuffer]
  split
  · cases data <;> simp only [getSize, Ptr.diff, Ptr.add, Ptr.offset] <;> omega
  · simp only [getSize, Ptr.diff, Ptr.offset]
    omega

/-- **`FlushAndResetBuffer`**. -/
theorem Safe.flushAndResetBuffer_ensures (buffers : Buffers) (h : Safe s ptr) :
    Ensures s (s.flushAndResetBufferChecked buffers ptr) (s.flushAndResetBuffer buffers ptr) := by
  rw [flushAndResetBufferChecked, flushAndResetBuffer]
  by_cases herror : s.hadError = true
  · rw [if_pos herror, if_pos herror]
    exact h.restart herror
  · obtain ⟨out, hholds⟩ := h.holds_of_noError herror
    obtain ⟨hchecked, hafter⟩ := hholds.flush_passes buffers
    rw [if_neg herror, if_neg herror, hchecked]
    simp only [bind_eq_bind, bind_some]
    generalize s.flush buffers ptr = r at hafter ⊢
    by_cases hfailed : r.2.hadError = true
    · rw [if_pos hfailed, if_pos hfailed]
      have hsafe := hafter.safe_start hfailed
      exact ⟨⟨rfl, hsafe, fun h => absurd h herror⟩, hsafe.slop_le_getSize (.inr rfl)⟩
    · rw [if_neg hfailed, if_neg hfailed]
      obtain ⟨out, hflushed⟩ := hafter.flushed hfailed
      exact ⟨⟨rfl, .live hflushed.setInitialBuffer_holds, fun h => absurd h herror⟩,
        room_setInitialBuffer _ _⟩

/-- **`Trim`** leaves the position at the start of the patch buffer, if there was no error
before. -/
theorem Safe.trim_passes (buffers : Buffers) (h : Safe s ptr) :
    Passes s (s.trimChecked buffers ptr) (s.trim buffers ptr) ∧
      (¬ s.hadError = true → (s.trim buffers ptr).1 = .patch 0) := by
  rw [trimChecked, trim]
  by_cases herror : s.hadError = true
  · rw [if_pos herror, if_pos herror]
    exact ⟨⟨rfl, h, id⟩, absurd herror⟩
  · obtain ⟨out, hholds⟩ := h.holds_of_noError herror
    obtain ⟨hchecked, hafter⟩ := hholds.flush_passes buffers
    rw [if_neg herror, if_neg herror, hchecked]
    simp only [bind_eq_bind, bind_some]
    generalize s.flush buffers ptr = r at hafter ⊢
    refine ⟨?_, by simp⟩
    rcases hafter with ⟨hzero, p, e, hfailed⟩ | ⟨out, hflushed⟩
    · rw [guard_eq (by rw [hzero]; exact Nat.zero_le _)]
      refine ⟨rfl, ?_, fun h => absurd h herror⟩
      exact .failed (e := 0) {
        buffer_length := hfailed.buffer_length
        hadError := hfailed.hadError
        end_eq := rfl
        end_le := Nat.zero_le _
        ptr_le := Nat.zero_le _ }
    · rw [guard_eq hflushed.last_le]
      exact ⟨rfl, .live hflushed.trimEnd_holds.2, fun h => absurd h herror⟩

/-! ## Skipping -/

theorem Flushed.advance {p : Ptr} {size count : ℕ} (h : Flushed s p size out) (hcount : count ≤ size) :
    Flushed s (p.add count) (size - count) (s.stream.bytes.take (out.length + count)) := by
  have hlength := h.length_eq
  have hlast := h.last_le
  have htake : (s.stream.bytes.take (out.length + count)).length = out.length + count := by
    rw [length_take]
    omega
  exact {
    buffer_length := h.buffer_length
    noError := h.noError
    data_eq := by
      rcases h.data_eq with heq | ⟨heq, hzero⟩
      · exact .inl (by rw [heq, htake, Ptr.add])
      · exact .inr ⟨by rw [heq, Ptr.add, show count = 0 by omega], by omega⟩
    length_eq := by
      rw [htake]
      omega
    last_le := by omega
    out_eq := by rw [htake] }

theorem Flushed.next {p : Ptr} {size calls : ℕ} (h : Flushed s p size out) (data : List UInt8) :
    Flushed { s with stream := ⟨s.stream.bytes ++ data, calls, data.length⟩ }
      (.stream s.stream.byteCount) data.length s.stream.bytes where
  buffer_length := h.buffer_length
  noError := h.noError
  data_eq := .inl rfl
  length_eq := (length_append ..).symm
  last_le := le_rfl
  out_eq := List.take_left.symm

theorem skipLoop_ensures (buffers : Buffers) (fuel : ℕ) {p : Ptr} {count size : ℕ} (h : Flushed s p size out)
    (hfuel : count + 1 < fuel + min 1 size) :
    skipLoopChecked buffers fuel count p size s = some (skipLoop buffers fuel count p size s) ∧
      Safe (skipLoop buffers fuel count p size s).2 (skipLoop buffers fuel count p size s).1.2 ∧
      kSlopBytes ≤ (skipLoop buffers fuel count p size s).2.getSize
        (skipLoop buffers fuel count p size s).1.2 := by
  induction fuel generalizing s p count size out with
  | zero => omega
  | succ fuel ih =>
    rw [skipLoopChecked, skipLoop]
    by_cases hmore : size < count
    · rw [if_pos hmore, if_pos hmore]
      cases hstream : s.stream.nextNonEmpty buffers with
      | none =>
        have hsafe : Safe s.error.2 (.patch 0) := by
          apply Safe.failed (e := kSlopBytes)
          exact ⟨h.buffer_length, rfl, rfl, le_rfl, Nat.zero_le _⟩
        exact ⟨rfl, hsafe, hsafe.slop_le_getSize (.inr rfl)⟩
      | some r =>
        obtain ⟨size', stream⟩ := r
        obtain ⟨data, calls, hne, rfl, rfl⟩ := ZeroCopyOutputStream.nextNonEmpty_of_some hstream
        have hpos : 0 < data.length := length_pos_of_ne_nil hne
        exact ih (h.next data) (by omega)
    · rw [if_neg hmore, if_neg hmore]
      exact ⟨rfl, .live (h.advance (not_lt.mp hmore)).setInitialBuffer_holds, room_setInitialBuffer _ _⟩

/-- **`Skip`**, of a number that is not negative. -/
theorem Safe.skip_ensures (buffers : Buffers) (h : Safe s ptr) {count : ℤ} (hcount : 0 ≤ count) :
    s.skipChecked buffers count ptr = some (s.skip buffers count ptr) ∧
      Ensures s (some ((s.skip buffers count ptr).1.2, (s.skip buffers count ptr).2))
        ((s.skip buffers count ptr).1.2, (s.skip buffers count ptr).2) := by
  rw [skipChecked, skip, if_neg (not_lt.mpr hcount), if_neg (not_lt.mpr hcount)]
  by_cases herror : s.hadError = true
  · rw [if_pos herror, if_pos herror]
    exact ⟨rfl, h.restart herror⟩
  · obtain ⟨out, hholds⟩ := h.holds_of_noError herror
    obtain ⟨hchecked, hafter⟩ := hholds.flush_passes buffers
    rw [if_neg herror, if_neg herror, hchecked]
    simp only [bind_eq_bind, bind_some]
    generalize s.flush buffers ptr = r at hafter ⊢
    by_cases hfailed : r.2.hadError = true
    · rw [if_pos hfailed, if_pos hfailed]
      have hsafe := hafter.safe_start hfailed
      exact ⟨rfl, ⟨rfl, hsafe, fun h => absurd h herror⟩, hsafe.slop_le_getSize (.inr rfl)⟩
    · rw [if_neg hfailed, if_neg hfailed]
      obtain ⟨out, hflushed⟩ := hafter.flushed hfailed
      obtain ⟨heq, hsafe, hroom⟩ := skipLoop_ensures buffers (count.toNat + 2) hflushed
        (show count.toNat + 1 < _ by omega)
      exact ⟨heq, ⟨rfl, hsafe, fun h => absurd h herror⟩, hroom⟩

end EpsCopyOutputStream

/-! ## The calls -/

/-- What `buffer_` holds at first. -/
abbrev PatchBuffer := { bytes : List UInt8 // bytes.length = 2 * kSlopBytes }

/-- Whether a call hands out a position to write at: `EnsureSpace` and `HadError` always do,
`Skip` where the number is not negative, and `Trim` where there was no error before. -/
def OutputCall.handsOut (c : CodedOutputStream) : OutputCall → Bool
  | .ensureSpace => true
  | .skip count => 0 ≤ count
  | .perform .trim => !c.impl.hadError
  | .perform .hadError => true
  | .perform _ => false

namespace CodedOutputStream

open EpsCopyOutputStream

variable {buffers : Buffers} {c : CodedOutputStream}

/-- A call gets through its checks to a safe state, keeps an error, and what it hands out has
room for the slop region. -/
structure Sound (buffers : Buffers) (c : CodedOutputStream) (call : OutputCall) : Prop where
  eq : c.callChecked buffers call = some (c.call buffers call)
  safe : Safe (c.call buffers call).impl (c.call buffers call).cur
  keeps : c.impl.hadError = true → (c.call buffers call).impl.hadError = true
  room : call.handsOut c = true →
    (c.call buffers call).impl.Inside (c.call buffers call).cur kSlopBytes

theorem writeToArray_sound (buffers : Buffers) (h : Safe c.impl c.cur) {bytes : List UInt8}
    (hbytes : bytes.length ≤ kSlopBytes) :
    c.writeToArrayChecked buffers bytes = some (c.writeToArray buffers bytes) ∧
      Safe (c.writeToArray buffers bytes).impl (c.writeToArray buffers bytes).cur ∧
      (c.impl.hadError = true → (c.writeToArray buffers bytes).impl.hadError = true) := by
  have hspace := h.ensureSpace_ensures buffers
  have hroom := hspace.room
  rw [writeToArrayChecked, hspace.eq, writeToArray]
  simp only [bind_eq_bind, bind_some]
  rw [storeChecked_eq (hspace.safe.inside (by omega))]
  refine ⟨rfl, hspace.safe.store_safe (by omega), fun herror => ?_⟩
  rw [hadError_store_eq]
  exact hspace.keeps herror

theorem writeRaw_sound (buffers : Buffers) (h : Safe c.impl c.cur) (data : IntSized) :
    (c.impl.writeRawChecked buffers data c.cur).map c.withResult = some (c.writeRaw buffers data) ∧
      Safe (c.writeRaw buffers data).impl (c.writeRaw buffers data).cur ∧
      (c.impl.hadError = true → (c.writeRaw buffers data).impl.hadError = true) := by
  have hpasses := h.writeRaw_passes buffers data.1
  rw [hpasses.eq]
  exact ⟨rfl, hpasses.safe, hpasses.keeps⟩

theorem perform_sound (buffers : Buffers) (h : Safe c.impl c.cur) (op : WriteOp) :
    Sound buffers c (.perform op) := by
  have hwrite : ∀ bytes : List UInt8, bytes.length ≤ 10 → bytes.length ≤ kSlopBytes := by
    intro bytes hbytes
    rw [kSlopBytes]
    omega
  cases op with
  | writeVarint32 value =>
    obtain ⟨heq, hsafe, hkeeps⟩ := writeToArray_sound buffers h
      (hwrite _ (length_writeVarint32ToArray_le value))
    exact ⟨heq, hsafe, hkeeps, Bool.noConfusion⟩
  | writeVarint64 value =>
    obtain ⟨heq, hsafe, hkeeps⟩ := writeToArray_sound buffers h
      (hwrite _ (length_writeVarint64ToArray_le value))
    exact ⟨heq, hsafe, hkeeps, Bool.noConfusion⟩
  | writeLittleEndian32 value =>
    obtain ⟨heq, hsafe, hkeeps⟩ := writeToArray_sound buffers h
      (hwrite (writeLittleEndian32ToArray value) (by simp [writeLittleEndian32ToArray]))
    exact ⟨heq, hsafe, hkeeps, Bool.noConfusion⟩
  | writeLittleEndian64 value =>
    obtain ⟨heq, hsafe, hkeeps⟩ := writeToArray_sound buffers h
      (hwrite (writeLittleEndian64ToArray value) (by simp [writeLittleEndian64ToArray]))
    exact ⟨heq, hsafe, hkeeps, Bool.noConfusion⟩
  | writeTag value =>
    obtain ⟨heq, hsafe, hkeeps⟩ := writeToArray_sound buffers h
      (hwrite _ (length_writeVarint32ToArray_le value))
    exact ⟨heq, hsafe, hkeeps, Bool.noConfusion⟩
  | writeRaw data =>
    obtain ⟨heq, hsafe, hkeeps⟩ := writeRaw_sound buffers h data
    exact ⟨heq, hsafe, hkeeps, Bool.noConfusion⟩
  | writeString str =>
    obtain ⟨heq, hsafe, hkeeps⟩ := writeRaw_sound buffers h str
    exact ⟨heq, hsafe, hkeeps, Bool.noConfusion⟩
  | trim =>
    obtain ⟨htrim, hstart⟩ := h.trim_passes buffers
    refine ⟨?_, htrim.safe, htrim.keeps, fun hout => ?_⟩
    · rw [callChecked, performChecked, htrim.eq]
      rfl
    · have hnone : ¬ c.impl.hadError = true := by
        simpa [OutputCall.handsOut] using hout
      exact htrim.safe.inside (htrim.safe.slop_le_getSize (.inr (hstart hnone)))
  | hadError =>
    have hflush := h.flushAndResetBuffer_ensures buffers
    refine ⟨?_, hflush.safe, hflush.keeps, fun _ => hflush.safe.inside hflush.room⟩
    rw [callChecked, performChecked, hflush.eq]
    rfl

/-- **Every call**. -/
theorem call_sound (buffers : Buffers) (h : Safe c.impl c.cur) (call : OutputCall) : Sound buffers c call := by
  cases call with
  | ensureSpace =>
    have hspace := h.ensureSpace_ensures buffers
    refine ⟨?_, hspace.safe, hspace.keeps, fun _ => hspace.safe.inside hspace.room⟩
    rw [callChecked, hspace.eq]
    rfl
  | skip count =>
    by_cases hcount : 0 ≤ count
    · obtain ⟨heq, hskip⟩ := h.skip_ensures buffers hcount
      refine ⟨?_, hskip.safe, hskip.keeps, fun _ => hskip.safe.inside hskip.room⟩
      rw [callChecked, heq]
      rfl
    · have hnegative : count < 0 := not_le.mp hcount
      have hcall : c.call buffers (.skip count) = c := by
        simp only [call, skip, EpsCopyOutputStream.skip, if_pos hnegative]
      refine ⟨?_, ?_, ?_, fun hout => absurd (of_decide_eq_true hout) hcount⟩
      · rw [hcall, callChecked, skipChecked, if_pos hnegative]
        rfl
      · rw [hcall]
        exact h
      · rw [hcall]
        exact id
  | perform op => exact perform_sound buffers h op

/-- **Every sequence of calls**. -/
theorem callAll_sound (buffers : Buffers) (calls : List OutputCall) (h : Safe c.impl c.cur) :
    c.callAllChecked buffers calls = some (c.callAll buffers calls) ∧
      Safe (c.callAll buffers calls).impl (c.callAll buffers calls).cur ∧
      (c.impl.hadError = true → (c.callAll buffers calls).impl.hadError = true) := by
  induction calls generalizing c with
  | nil => exact ⟨rfl, h, id⟩
  | cons call calls ih =>
    have hcall := call_sound buffers h call
    obtain ⟨heq, hsafe, hkeeps⟩ := ih hcall.safe
    refine ⟨?_, hsafe, fun herror => hkeeps (hcall.keeps herror)⟩
    rw [callAllChecked, hcall.eq]
    exact heq

/-- **The coded output stream stays safe.**  Over a stream that may fail at any call of `Next`,
every sequence of calls gets through the checks of every access.  An error is there for ever.
What `EnsureSpace`, `Skip` and `HadError` hand out, and `Trim` before an error, has room for
the slop region, and every other position is at most that far behind `end_` and in its buffer
still. -/
theorem stays_safe (buffers : Buffers) (stream : ZeroCopyOutputStream) (patch : PatchBuffer)
    (doEagerRefresh : Bool) (calls later : List OutputCall) :
    let start := ofStream buffers stream patch doEagerRefresh
    let c := start.callAll buffers calls
    start.callAllChecked buffers (calls ++ later) = some (c.callAll buffers later) ∧
      (c.impl.hadError = true → (c.callAll buffers later).impl.hadError = true) ∧
      (∀ call, call.handsOut c = true →
        (c.call buffers call).impl.Inside (c.call buffers call).cur kSlopBytes) ∧
      c.impl.Inside c.cur 0 ∧ c.cur.diff c.impl.end_ ≤ kSlopBytes := by
  intro start c
  have hstart : Safe start.impl start.cur :=
    .live (ofStream_holds buffers stream patch.2 doEagerRefresh)
  have hsafe : Safe c.impl c.cur := (callAll_sound buffers calls hstart).2.1
  have happend : start.callAll buffers (calls ++ later) = c.callAll buffers later :=
    foldl_append
  refine ⟨?_, (callAll_sound buffers later hsafe).2.2,
    fun call => (call_sound buffers hsafe call).room, hsafe.inside (Nat.zero_le _),
    hsafe.diff_le⟩
  rw [(callAll_sound buffers (calls ++ later) hstart).1, happend]

/-- A stream whose first call of `Next` fails. -/
def noBuffers : Buffers := ⟨fun _ => none, fun _ => ⟨0, (some_ne_none _).symm⟩⟩

def unwritable : CodedOutputStream := ofStream noBuffers ⟨[], 0, 0⟩ (replicate 32 0) false

theorem stays_safe_unwritable :
    ((unwritable.callAll noBuffers [.perform (.writeRaw ⟨replicate 40 1, by decide⟩)]).callAll
      noBuffers [.perform .trim, .skip 3, .perform (.writeTag 8)]).impl.hadError = true :=
  (stays_safe noBuffers ⟨[], 0, 0⟩ ⟨replicate 32 0, by decide⟩ false
    [.perform (.writeRaw ⟨replicate 40 1, by decide⟩)]
    [.perform .trim, .skip 3, .perform (.writeTag 8)]).2.1 (by decide)

/-- After an error `WriteRaw` may leave off at the end of the patch buffer. -/
theorem not_every_position_has_room :
    ¬ ∀ (buffers : Buffers) (stream : ZeroCopyOutputStream) (patch : PatchBuffer)
        (doEagerRefresh : Bool) (calls : List OutputCall) (call : OutputCall),
      let c := (ofStream buffers stream patch doEagerRefresh).callAll buffers calls
      c.impl.hadError = true →
        (c.call buffers call).impl.Inside (c.call buffers call).cur kSlopBytes := by
  intro h
  have hroom := h noBuffers ⟨[], 0, 0⟩ ⟨replicate 32 0, by decide⟩ false [.ensureSpace]
    (.perform (.writeRaw ⟨replicate 32 1, by decide⟩)) (by decide)
  exact absurd hroom (by decide)

end CodedOutputStream

end Protoc.Io
