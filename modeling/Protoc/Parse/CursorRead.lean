import Protoc.Parse.Cursor
import Protoc.Parse.Fields

/-!
# Reads that span buffers

A payload may go on over any number of buffers.  Where it lies within the data and before
the limit, reading it gives what its bytes mean as one string, and the pointer then stands
behind it.  Otherwise the read fails, or the pointer stands where the payload would end,
which the next end test finds to be too far.
-/

namespace Protoc.Parse

open Protoc.Lib Protoc.Io
open List Option Int

namespace EpsCopyInputStream

variable {data : List UInt8} {lim : ℕ} {s : EpsCopyInputStream} {E : ℤ} {pos : ℕ} {ptr : Ptr}

abbrev payloadBytes (data : List UInt8) (lim pos size : ℕ) : List UInt8 :=
  ((body data lim).drop pos).take size

/-- The result of reading a payload of `size` bytes whose value is `value`. -/
inductive ReadAt {α : Type} (data : List UInt8) (lim : ℕ) (s : EpsCopyInputStream)
    (pos size : ℕ) (value : List UInt8 → Option α) (r : Option (α × Ptr × EpsCopyInputStream)) :
    Prop
  | none (hr : r = none)
      (hvalue : pos + size ≤ (body data lim).length → value (payloadBytes data lim pos size) = none)
  | some {a : α} {p : Ptr} {s' : EpsCopyInputStream} {E' : ℤ} (hr : r = some (a, p, s'))
      (hcursor : Cursor data lim s' E' (pos + size) p)
      (hlast : s'.lastTagMinus1 = s.lastTagMinus1)
      (hvalue : pos + size ≤ (body data lim).length →
        value (payloadBytes data lim pos size) = some a)

theorem length_payloadBytes {size : ℕ} (h : pos + size ≤ (body data lim).length) :
    (payloadBytes data lim pos size).length = size := by
  rw [length_take, length_drop]
  omega

theorem drop_payloadBytes (pos size n : ℕ) :
    (payloadBytes data lim pos size).drop n = payloadBytes data lim (pos + n) (size - n) := by
  rw [drop_take, drop_drop]

theorem payloadBytes_add (pos m n : ℕ) : payloadBytes data lim pos (m + n) =
      payloadBytes data lim pos m ++ payloadBytes data lim (pos + m) n := by
  rw [payloadBytes, take_add, drop_drop]

theorem ReadAt.map {α : Type} {n size : ℕ} {value value' : List UInt8 → Option α} {f : α → α}
    {s' : EpsCopyInputStream} {r : Option (α × Ptr × EpsCopyInputStream)}
    (h : ReadAt data lim s' (pos + n) (size - n) value r) (hn : n ≤ size)
    (hlast : s'.lastTagMinus1 = s.lastTagMinus1)
    (hvalue : pos + size ≤ (body data lim).length → value' (payloadBytes data lim pos size) =
        (value (payloadBytes data lim (pos + n) (size - n))).map f) :
    ReadAt data lim s pos size value' (r.map fun r => (f r.1, r.2)) := by
  have hend : pos + n + (size - n) = pos + size := by omega
  cases h with
  | none hr hnone =>
    rw [hr]
    refine .none rfl fun hle => ?_
    rw [hvalue hle, hnone (hend ▸ hle)]
    rfl
  | some hr hcursor hlast' hsome =>
    rw [hr]
    refine .some rfl (hend ▸ hcursor) (hlast'.trans hlast) fun hle => ?_
    rw [hvalue hle, hsome (hend ▸ hle)]
    rfl

theorem Cursor.length_body_le (h : Cursor data lim s E pos ptr) (hlimit : s.limit ≤ kSlopBytes) :
    ((body data lim).length : ℤ) ≤ E + kSlopBytes := by
  have hlength : (body data lim).length = min lim data.length := length_take
  have hlim := h.limit_eq
  omega

theorem Ended.length_body_le (h : Ended data lim E) : ((body data lim).length : ℤ) ≤ E := by
  have hlength : (body data lim).length = min lim data.length := length_take
  rcases h with heq | ⟨hle, -⟩ <;> omega

theorem Cursor.load_eq (h : Cursor data lim s E pos ptr) {n : ℕ}
    (hn : ptr.diff s.bufferEnd + n ≤ kSlopBytes) (hend : pos + n ≤ (body data lim).length) :
    s.load ptr n = payloadBytes data lim pos n := by
  have hlength := h.length_window
  have htake := h.window.take_eq (k := n) (by omega) (by rw [length_drop]; omega)
  rw [payloadBytes, ← htake, load, load, take_take]
  congr 1
  omega

/-! ## Bytes -/

/-- The loop of `AppendSize`, for a payload that goes past the slop region. -/
theorem Cursor.appendSizeLoop_readAt (fuel : ℕ) (h : Cursor data lim s E pos ptr) {size : ℕ}
    (hmore : kSlopBytes - ptr.diff s.bufferEnd < size)
    (hfuel : size - (kSlopBytes - ptr.diff s.bufferEnd) ≤ fuel) :
    ReadAt data lim s pos size Option.some (appendSizeLoop fuel s ptr size) := by
  induction fuel generalizing s E pos ptr size with
  | zero => omega
  | succ fuel ih =>
    have hat := h.pos_eq
    have hle := h.ptr_le
    obtain ⟨count, hcount⟩ : ∃ count : ℕ, kSlopBytes - ptr.diff s.bufferEnd = count :=
      eq_ofNat_of_zero_le (by omega)
    have hchunk : (s.bufferEnd.add kSlopBytes).diff ptr = count := by
      simp only [Ptr.diff, Ptr.add] at hcount ⊢
      omega
    rw [appendSizeLoop]
    simp only [hchunk]
    by_cases hnull : s.nextChunk = .null
    · rw [if_pos hnull]
      have hended := (h.source.ended hnull).length_body_le
      exact .none rfl (by omega)
    · rw [if_neg hnull]
      by_cases hlimit : s.limit ≤ kSlopBytes
      · rw [if_pos hlimit]
        have hended := h.length_body_le hlimit
        exact .none rfl (by omega)
      · rw [if_neg hlimit]
        have hadvance := h.advance (n := count) (by omega)
        have hover : (ptr.add count).diff s.bufferEnd = kSlopBytes := by
          simp only [Ptr.diff, Ptr.add] at hcount ⊢
          omega
        rcases hadvance.next_spec (by omega) with
          ⟨hstep, hended⟩ | ⟨p, s', E', hsome, hmoves, hcursor, hlast⟩
        · have hend := hended.length_body_le
          rw [hstep]
          exact .none rfl (by omega)
        · rw [hover] at hcursor
          have hat' := hcursor.pos_eq
          have hsize : (size : ℤ) - count = (size - count : ℕ) := by omega
          have hchunk' : (s'.bufferEnd.add kSlopBytes).diff (p.add kSlopBytes) =
              kSlopBytes - (p.add kSlopBytes).diff s'.bufferEnd := by
            simp only [Ptr.diff, Ptr.add]
            omega
          have hvalue : pos + size ≤ (body data lim).length → payloadBytes data lim pos size =
                s.load ptr count ++ payloadBytes data lim (pos + count) (size - count) := by
            intro hend
            rw [h.load_eq (by omega) (by omega), ← payloadBytes_add]
            congr 1
            omega
          rw [hsome]
          simp only [hsize, hchunk']
          by_cases hagain : kSlopBytes - (p.add kSlopBytes).diff s'.bufferEnd < (size - count : ℕ)
          · rw [if_pos hagain]
            apply (ih hcursor hagain (by omega)).map (by omega) hlast
            intro hend
            rw [hvalue hend]
            rfl
          · rw [if_neg hagain]
            have hlast' := hcursor.advance (n := size - count) (by omega)
            have hend : pos + count + (size - count) = pos + size := by omega
            refine .some rfl (hend ▸ hlast') hlast fun hle => ?_
            rw [hvalue hle, hcursor.load_eq (by omega) (by omega)]

/-- **`AppendString`** appends the payload. -/
theorem Cursor.appendString_readAt (h : Cursor data lim s E pos ptr) (size : ℕ) :
    ReadAt data lim s pos size Option.some (s.appendString ptr size) := by
  have hroom : (s.bufferEnd.add kSlopBytes).diff ptr = kSlopBytes - ptr.diff s.bufferEnd := by
    simp only [Ptr.diff, Ptr.add]
    omega
  rw [appendString, hroom]
  by_cases hfits : (size : ℤ) ≤ kSlopBytes - ptr.diff s.bufferEnd
  · rw [if_pos hfits]
    refine .some rfl (h.advance (by omega)) rfl fun hle => ?_
    rw [h.load_eq (by omega) hle]
  · rw [if_neg hfits, appendSize, hroom]
    exact h.appendSizeLoop_readAt _ (by omega) (by omega)

/-- **`Skip`** passes over the payload. -/
theorem Cursor.skip_readAt (h : Cursor data lim s E pos ptr) (size : ℕ) :
    ReadAt data lim s pos size (fun _ => Option.some ()) ((s.skip ptr size).map fun r => ((), r)) := by
  have happend := h.appendString_readAt size
  have hskip : s.skip ptr size = (s.appendString ptr size).map fun r => r.2 := by
    rw [skip, appendString]
    split <;> rfl
  rw [hskip, Option.map_map]
  cases happend with
  | none hr hvalue =>
    rw [hr]
    exact .none rfl fun hle => absurd (hvalue hle) (by simp)
  | some hr hcursor hlast hvalue =>
    rw [hr]
    exact .some rfl hcursor hlast fun _ => rfl

/-! ## Packed fixed-width numbers -/

theorem Cursor.loadBlock_eq (h : Cursor data lim s E pos ptr) (width : ℕ) {num size : ℕ}
    (hnum : ptr.diff s.bufferEnd + num * width ≤ kSlopBytes) (hle : num * width ≤ size)
    (hend : pos + size ≤ (body data lim).length) :
    loadBlock width num (s.bytes ptr) = loadBlock width num (payloadBytes data lim pos size) := by
  apply loadBlock_congr
  have hload := h.load_eq (n := num * width) (by exact_mod_cast hnum) (by omega)
  rw [load, toNat_natCast] at hload
  rw [hload, payloadBytes, take_take, min_eq_left hle]

/-- The loop of `ReadPackedFixed`. -/
theorem Cursor.readPackedFixedLoop_readAt {width : ℕ} (hwidth : 0 < width)
    (hslop : width ≤ kSlopBytes) (fuel : ℕ) (h : Cursor data lim s E pos ptr) (size : ℕ)
    (hfuel : (size - (kSlopBytes - ptr.diff s.bufferEnd)).toNat < fuel) :
    ReadAt data lim s pos size (fixeds width) (readPackedFixedLoop width fuel s ptr size) := by
  induction fuel generalizing s E pos ptr size with
  | zero => omega
  | succ fuel ih =>
    have hat := h.pos_eq
    have hle := h.ptr_le
    obtain ⟨nbytes, hnbytes⟩ : ∃ nbytes : ℕ, kSlopBytes - ptr.diff s.bufferEnd = nbytes :=
      eq_ofNat_of_zero_le (by omega)
    have hroom : (s.bufferEnd.add kSlopBytes).diff ptr = nbytes := by
      simp only [Ptr.diff, Ptr.add] at hnbytes ⊢
      omega
    rw [readPackedFixedLoop]
    simp only [hroom]
    by_cases hmore : (nbytes : ℤ) < size
    · rw [if_pos hmore]
      by_cases hlimit : s.limit ≤ kSlopBytes
      · rw [if_pos hlimit]
        have hended := h.length_body_le hlimit
        exact .none rfl (by omega)
      · rw [if_neg hlimit]
        have hblock : (nbytes : ℤ) / width * width = (nbytes / width * width : ℕ) := by
          push_cast
          rfl
        have hnum : ((nbytes : ℤ) / width).toNat = nbytes / width := by
          rw [← natCast_ediv, toNat_natCast]
        have hblockLe : nbytes / width * width ≤ nbytes := Nat.div_mul_le_self _ _
        have hblockLt : nbytes < nbytes / width * width + width := Nat.lt_div_mul_add hwidth
        simp only [hblock, hnum]
        generalize hcount : nbytes / width * width = count at *
        have hadvance := h.advance (n := count) (by omega)
        have hover : (ptr.add count).diff s.bufferEnd = kSlopBytes - (nbytes - count) := by
          simp only [Ptr.diff, Ptr.add] at hnbytes ⊢
          omega
        rcases hadvance.next_spec (by omega) with
          ⟨hstep, hended⟩ | ⟨p, s', E', hsome, hmoves, hcursor, hlast⟩
        · have hend := hended.length_body_le
          rw [hstep]
          exact .none rfl (by omega)
        · rw [hover] at hcursor
          have hat' := hcursor.pos_eq
          have hsize : (size : ℤ) - count = (size - count : ℕ) := by omega
          rw [hsome]
          simp only [hsize]
          apply (ih hcursor _ (by omega)).map (by omega) hlast
          intro hend
          rw [h.loadBlock_eq width (by omega) (by omega) hend, ← drop_payloadBytes, ← hcount]
          apply fixeds_block hwidth
          rw [length_payloadBytes hend, hcount]
          omega
    · rw [if_neg hmore]
      have hblock : (size : ℤ) / width * width = (size / width * width : ℕ) := by
        push_cast
        rfl
      have hnum : ((size : ℤ) / width).toNat = size / width := by
        rw [← natCast_ediv, toNat_natCast]
      have hmod := Nat.div_add_mod' size width
      simp only [hblock, hnum]
      by_cases hzero : size % width = 0
      · have hall : size / width * width = size := by omega
        rw [if_neg (by rw [hall]; exact not_not.mpr rfl), hall]
        refine .some rfl (h.advance (by omega)) rfl fun hend => ?_
        rw [fixeds, length_payloadBytes hend, if_pos hzero,
          h.loadBlock_eq width (by rw [← natCast_mul]; omega) (by omega) hend]
      · rw [if_pos (by omega)]
        refine .none rfl fun hend => ?_
        rw [fixeds, length_payloadBytes hend, if_neg hzero]

/-- **`ReadPackedFixed`** reads the numbers of the payload. -/
theorem Cursor.readPackedFixed_readAt {width : ℕ} (hwidth : 0 < width) (hslop : width ≤ kSlopBytes)
    (h : Cursor data lim s E pos ptr) (size : ℕ) :
    ReadAt data lim s pos size (fixeds width) (s.readPackedFixed width ptr size) := by
  apply h.readPackedFixedLoop_readAt hwidth hslop
  simp only [Ptr.diff, Ptr.add]
  omega

/-! ## Packed varints -/

/-- A first run of the array loop at the pointer, up to the end of the buffer or of the
payload. -/
theorem Cursor.readPackedVarintArray_spec (h : Cursor data lim s E pos ptr) {left : ℤ} (size : ℕ)
    (hleft : left ≤ -ptr.diff s.bufferEnd) (hsize : left ≤ size) (hend : pos + size ≤ (body data lim).length) :
    (readPackedVarintArray (s.bytes ptr) left = none → varints (payloadBytes data lim pos size) = none) ∧
    ∀ added n, readPackedVarintArray (s.bytes ptr) left = some (added, n) →
      (n ≤ size → varints (payloadBytes data lim pos size) =
        (varints (payloadBytes data lim (pos + n) (size - n))).map fun more => added ++ more) ∧
      (size < n → varints (payloadBytes data lim pos size) = none) := by
  have hlength := h.length_window
  have hload : s.load ptr (kSlopBytes - ptr.diff s.bufferEnd) =
      (s.bytes ptr).take (kSlopBytes - ptr.diff s.bufferEnd).toNat := rfl
  have hagree := h.window.take_right size
  rw [hload] at hagree hlength
  rw [length_take] at hlength
  have hpayload := length_payloadBytes hend
  simp only [kSlopBytes] at *
  have hspec := readPackedVarintArrayLoop_varints (left.toNat + 1) _ _ hagree (by omega)
    (by omega) (hpayload.symm ▸ hsize) (by omega)
  simp only [hpayload, drop_payloadBytes] at hspec
  exact hspec

/-- The rest of the payload in the slop region, read from a copy. -/
theorem Cursor.readPackedVarintArray_copy (h : Cursor data lim s E pos ptr)
    {overrun : ℕ} (hover : ptr.diff s.bufferEnd = overrun) (left : ℤ) (size : ℕ)
    (hleft : left = size) (hfits : overrun + size ≤ kSlopBytes)
    (hend : pos + size ≤ (body data lim).length) :
    let buf := s.load s.bufferEnd kSlopBytes ++ replicate 10 0
    (readPackedVarintArray (buf.drop overrun) left = none →
      varints (payloadBytes data lim pos size) = none) ∧
    ∀ added n, readPackedVarintArray (buf.drop overrun) left = some (added, n) →
      (n = size → varints (payloadBytes data lim pos size) = some added) ∧
      (n ≠ size → varints (payloadBytes data lim pos size) = none) := by
  intro buf
  obtain ⟨hslop, hwindow⟩ := h.slop_window hover
  have hpayload := length_payloadBytes hend
  have hbuf : buf.drop overrun = (s.load s.bufferEnd kSlopBytes).drop overrun ++ replicate 10 0 :=
    drop_append_of_le_length (by omega)
  have hlength : (buf.drop overrun).length = 26 - overrun := by
    rw [hbuf, length_append, length_drop, length_replicate, hslop]
    simp only [kSlopBytes] at hfits ⊢
    omega
  have hagree : Agree ((buf.drop overrun).take (26 - overrun)) (payloadBytes data lim pos size) := by
    apply Agree.take
    rw [hbuf]
    apply (hwindow.take_right size).append
    rw [drop_eq_nil_of_le (by rw [hpayload, length_drop]; omega)]
    exact agree_nil _
  simp only [kSlopBytes] at hfits
  obtain ⟨hnone, hsome⟩ := readPackedVarintArrayLoop_varints (left.toNat + 1)
    (26 - overrun) left hagree (by omega) (by omega) (by omega) (by omega)
  refine ⟨hnone, fun added n hread => ?_⟩
  obtain ⟨hwithin, hpast⟩ := hsome added n hread
  obtain ⟨hstop, hgoOn⟩ := readPackedVarintArrayLoop_length hread
  rw [hpayload] at hwithin hpast
  constructor
  · intro hn
    rw [hwithin (by omega), drop_eq_nil_of_le (by omega), varints_nil, map_some, append_nil]
  · intro hn
    exact hpast (by omega)

/-- The loop of `ReadPackedVarint`. -/
theorem Cursor.readPackedVarintLoop_readAt (fuel : ℕ) (h : Cursor data lim s E pos ptr) (size : ℕ)
    (hfuel : (size + ptr.diff s.bufferEnd).toNat < fuel) :
    ReadAt data lim s pos size varints (readPackedVarintLoop fuel s ptr size) := by
  induction fuel generalizing s E pos ptr size with
  | zero => omega
  | succ fuel ih =>
    have hat := h.pos_eq
    have hle := h.ptr_le
    have hchunk : s.bufferEnd.diff ptr = -ptr.diff s.bufferEnd := by
      simp only [Ptr.diff]
      omega
    rw [readPackedVarintLoop]
    simp only [hchunk]
    by_cases hmore : -ptr.diff s.bufferEnd < size
    · rw [if_pos hmore]
      have hspec := fun hend => h.readPackedVarintArray_spec size le_rfl
        (by omega) hend
      cases hfirst : readPackedVarintArray (s.bytes ptr) (-ptr.diff s.bufferEnd) with
      | none => exact .none rfl fun hend => (hspec hend).1 hfirst
      | some r =>
        obtain ⟨added, n⟩ := r
        obtain ⟨hstop, hgoOn⟩ := readPackedVarintArrayLoop_length hfirst
        have hspec := fun hend => (hspec hend).2 added n hfirst
        have hdiff : (ptr.add n).diff s.bufferEnd = ptr.diff s.bufferEnd + n := by
          simp only [Ptr.diff, Ptr.add]
          omega
        have hover : ∃ overrun : ℕ, ptr.diff s.bufferEnd + n = overrun ∧ overrun ≤ kSlopBytes := by
          simp only [kSlopBytes] at hle ⊢
          exact ⟨(ptr.diff s.bufferEnd + n).toNat, by omega, by omega⟩
        obtain ⟨overrun, hover, hoverLe⟩ := hover
        have hadvance := h.advance (n := n) (by omega)
        clear hstop hgoOn
        simp only [hdiff, hover, toNat_natCast]
        by_cases hslop : (size : ℤ) - -ptr.diff s.bufferEnd ≤ kSlopBytes
        · rw [if_pos hslop]
          by_cases hn : n ≤ size
          · have hcopy := fun hend => hadvance.readPackedVarintArray_copy (hdiff.trans hover)
              (size - -ptr.diff s.bufferEnd - overrun) (size - n) (by omega) (by omega) hend
            cases hsecond : readPackedVarintArray
                ((s.load s.bufferEnd kSlopBytes ++ replicate 10 0).drop overrun)
                (size - -ptr.diff s.bufferEnd - overrun) with
            | none =>
              refine .none rfl fun hend => ?_
              rw [(hspec hend).1 hn, (hcopy (by omega)).1 hsecond, map_none]
            | some r =>
              obtain ⟨more, n'⟩ := r
              simp only
              by_cases hall : n' = size - n
              · rw [if_neg (by omega)]
                have hptr : s.bufferEnd.add (overrun + n') = ptr.add size := by
                  simp only [Ptr.add, Ptr.mk.injEq, Ptr.diff] at hover ⊢
                  exact ⟨h.array_eq.symm, by omega⟩
                rw [hptr]
                refine .some rfl (h.advance (by omega)) rfl fun hend => ?_
                rw [(hspec hend).1 hn, ((hcopy (by omega)).2 more n' hsecond).1 hall, map_some]
              · rw [if_pos (by omega)]
                refine .none rfl fun hend => ?_
                rw [(hspec hend).1 hn, ((hcopy (by omega)).2 more n' hsecond).2 hall, map_none]
          · have hempty : readPackedVarintArray
                ((s.load s.bufferEnd kSlopBytes ++ replicate 10 0).drop overrun)
                (size - -ptr.diff s.bufferEnd - overrun) = some ([], 0) := by
              rw [readPackedVarintArray, readPackedVarintArrayLoop, if_neg (by omega)]
            simp only [hempty]
            rw [if_pos (by omega)]
            exact .none rfl fun hend => (hspec hend).2 (by omega)
        · rw [if_neg hslop]
          by_cases hlimit : s.limit ≤ kSlopBytes
          · rw [if_pos hlimit]
            have hended := h.length_body_le hlimit
            exact .none rfl (by omega)
          · rw [if_neg hlimit]
            rcases hadvance.next_spec (by omega) with
              ⟨hstep, hended⟩ | ⟨p, s', E', hsome, hmoves, hcursor, hlast⟩
            · have hend := hended.length_body_le
              rw [hstep]
              exact .none rfl (by omega)
            · rw [hdiff, hover] at hcursor
              have hat' := hcursor.pos_eq
              have hsize : (size : ℤ) - (overrun + -ptr.diff s.bufferEnd) = (size - n : ℕ) := by
                omega
              rw [hsome]
              simp only [hsize]
              apply (ih hcursor _ (by omega)).map (by omega) hlast
              intro hend
              exact (hspec hend).1 (by omega)
    · rw [if_neg hmore]
      have hleft : (size : ℤ) ≤ -ptr.diff s.bufferEnd := by omega
      have hspec := fun hend => h.readPackedVarintArray_spec size hleft le_rfl hend
      cases hread : readPackedVarintArray (s.bytes ptr) size with
      | none => exact .none rfl fun hend => (hspec hend).1 hread
      | some r =>
        obtain ⟨added, n⟩ := r
        obtain ⟨hstop, hgoOn⟩ := readPackedVarintArrayLoop_length hread
        have hspec := fun hend => (hspec hend).2 added n hread
        simp only
        by_cases hall : (n : ℤ) = size
        · obtain rfl : n = size := by omega
          rw [if_pos hall]
          refine .some rfl (h.advance (by omega)) rfl fun hend => ?_
          rw [(hspec hend).1 le_rfl, Nat.sub_self, payloadBytes, take_zero, varints_nil, map_some, append_nil]
        · rw [if_neg hall]
          exact .none rfl fun hend => (hspec hend).2 (by omega)

end EpsCopyInputStream

end Protoc.Parse
