import Protoc.Parse.Fields

/-!
# The chunks fetched for a bounded parse

A parse of a stream with a limit ends with `BackUp`, which hands the bytes behind the message
back to the stream.  The input stream does not remember which chunks it has fetched, so what
it hands back is reckoned from the end of the buffer: it reaches from the pointer to the end
of the last chunk, wherever that chunk starts.

A chunk behind the first one is fetched when the pointer comes within 16 bytes of its start,
and only if it starts before the limit.
-/

namespace Protoc.Parse

open Protoc.Lib Protoc.Io List Int Option EpsCopyInputStream

/-- A sum or a difference as an `int`. -/
def wrapInt (n : ℤ) : ℤ := bmod n (2 ^ 32)

theorem wrapInt_of_le {n : ℤ} (hlow : -(2 ^ 31) ≤ n) (hhigh : n ≤ INT_MAX) : wrapInt n = n := by
  rw [wrapInt, bmod_def]
  simp only [INT_MAX] at hhigh
  push_cast at hhigh ⊢
  split_ifs <;> omega

theorem wrapInt_neg {n : ℤ} (hlow : INT_MAX < n) (hhigh : n < 2 ^ 32) : wrapInt n = n - 2 ^ 32 := by
  rw [wrapInt, bmod_def]
  simp only [INT_MAX] at hlow
  push_cast at hlow ⊢
  split_ifs <;> omega

namespace EpsCopyInputStream

/-- `InitFrom` of a stream, with what `overall_limit_` is before it. -/
def initFromOverall (overallLimit : ℤ) (zcis : ZeroCopyInputStream) : Ptr × EpsCopyInputStream :=
  let r := initFrom zcis
  match zcis.next with
  | (some data, _) => (r.1, { r.2 with overallLimit := overallLimit - data.length })
  | (none, _) => r

/-- `InitFrom` of a stream with a limit. -/
def initFromBounded (zcis : ZeroCopyInputStream) (limit : ℤ) : Ptr × EpsCopyInputStream :=
  if limit = -1 then initFrom zcis
  else
    let r := initFromOverall limit zcis
    (r.1, { r.2 with limit := wrapInt (limit - r.2.bufferEnd.diff r.1) }.setLimitEnd)

/-- The count that `BackUp` takes back. -/
def backUpCount (s : EpsCopyInputStream) (ptr : Ptr) : ℤ :=
  if s.nextChunk = .patch then wrapInt ((s.bufferEnd.add kSlopBytes).diff ptr)
  else wrapInt (s.size + s.bufferEnd.diff ptr)

end EpsCopyInputStream

/-- What a parse with a limit leaves. -/
structure BoundedParse where
  /-- The stream before `BackUp`. -/
  zcis : ZeroCopyInputStream
  /-- The count of `BackUp`; the stream's `BackUp` is called if it is positive. -/
  count : ℤ
  /-- What was read, if the parse ended at the limit. -/
  parsed : Option Parsed
  deriving DecidableEq

namespace BoundedParse

/-- The count that is passed to the stream's `BackUp`. -/
def passed (b : BoundedParse) : Option ℤ := if 0 < b.count then some b.count else none

/-- `ByteCount` of the stream after `BackUp`. -/
def byteCount (b : BoundedParse) : ℤ := b.zcis.byteCount - b.passed.getD 0

end BoundedParse

/-- `MergeFromImpl` of a stream with a limit; nothing when the parse fails, and `BackUp` is
not reached. -/
def mergeFromBounded (payload : BitVec 32 → Payload) (fuel : ℕ) (depth : Int32)
    (zcis : ZeroCopyInputStream) (limit : ℤ) (out : Parsed) : Option BoundedParse :=
  let r := initFromBounded zcis limit
  match wireFormatParser payload fuel r.1 (.ofInput r.2 depth) out with
  | none => none
  | some (ptr, ctx, out) => some ⟨ctx.input.zcis, ctx.input.backUpCount ptr,
      if ctx.input.endedAtLimit then some out else none⟩

/-! ## The chunks -/

/-- Where the chunk with the number `i` starts. -/
def chunkStart (chunks : List (List UInt8)) (i : ℕ) : ℕ := (chunks.take i).flatten.length

section
variable {chunks : List (List UInt8)}

@[simp] theorem chunkStart_zero : chunkStart chunks 0 = 0 := rfl

theorem chunkStart_succ {i : ℕ} (hi : i < chunks.length) :
    chunkStart chunks (i + 1) = chunkStart chunks i + chunks[i].length := by
  rw [chunkStart, take_succ_eq_append_getElem hi, flatten_append, length_append, chunkStart]
  simp

theorem chunkStart_length : chunkStart chunks chunks.length = chunks.flatten.length := by
  rw [chunkStart, take_length]

theorem chunkStart_mono {i j : ℕ} (h : i ≤ j) : chunkStart chunks i ≤ chunkStart chunks j := by
  obtain ⟨k, rfl⟩ := Nat.exists_eq_add_of_le h
  rw [chunkStart, chunkStart, take_add, flatten_append, length_append]
  exact Nat.le_add_right _ _

theorem chunkStart_le (i : ℕ) : chunkStart chunks i ≤ chunks.flatten.length := by
  rcases le_total i chunks.length with h | h
  · rw [← chunkStart_length]
    exact chunkStart_mono h
  · rw [chunkStart, take_of_length_le h]

end

/-- The stream when the first `n` chunks have been handed out. -/
def streamAfter (chunks : List (List UInt8)) (n : ℕ) : ZeroCopyInputStream :=
  ⟨chunks.drop n, chunkStart chunks n⟩

/-- `NextNonEmpty` hands out the next chunk that is not empty, or there is none. -/
theorem nextNonEmpty_streamAfter {chunks : List (List UInt8)} {n : ℕ} (hn : n ≤ chunks.length) :
    ((streamAfter chunks n).nextNonEmpty = (none, streamAfter chunks chunks.length) ∧
        chunkStart chunks chunks.length = chunkStart chunks n) ∨
      ∃ m data, (streamAfter chunks n).nextNonEmpty = (some data, streamAfter chunks (m + 1)) ∧
        n ≤ m ∧ m < chunks.length ∧ chunkStart chunks m = chunkStart chunks n ∧
        chunkStart chunks (m + 1) = chunkStart chunks n + data.length := by
  induction h : chunks.length - n generalizing n with
  | zero =>
    obtain rfl : n = chunks.length := by omega
    refine .inl ⟨?_, rfl⟩
    rw [streamAfter, drop_length]
    rfl
  | succ k ih =>
    have hlt : n < chunks.length := by omega
    have hstart := chunkStart_succ hlt
    have hdrop : streamAfter chunks n =
        ⟨chunks[n] :: chunks.drop (n + 1), chunkStart chunks n⟩ := by
      rw [streamAfter, drop_eq_getElem_cons hlt]
    rw [hdrop, ZeroCopyInputStream.nextNonEmpty, ZeroCopyInputStream.nextNonEmptyOf]
    by_cases hempty : chunks[n].length = 0
    · rw [if_pos hempty]
      have hsame : chunkStart chunks (n + 1) = chunkStart chunks n := by omega
      have hrest : ZeroCopyInputStream.nextNonEmptyOf (chunks.drop (n + 1)) (chunkStart chunks n) =
          (streamAfter chunks (n + 1)).nextNonEmpty := by
        rw [streamAfter, ZeroCopyInputStream.nextNonEmpty, hsame]
      rw [hrest]
      have hlater := @ih (n + 1) hlt (by omega)
      rcases hlater with ⟨hnone, hend⟩ | ⟨m, data, hsome, hle, hm, hat, hnext⟩
      · exact .inl ⟨hnone, hend.trans hsame⟩
      · exact .inr ⟨m, data, hsome, by omega, hm, hat.trans hsame, by omega⟩
    · rw [if_neg hempty]
      refine .inr ⟨n, chunks[n], ?_, Nat.le_refl n, hlt, rfl, hstart⟩
      rw [streamAfter, hstart]

/-! ## What has been fetched -/

/-- The end `E` of the current buffer, and the chunks fetched, of which there are `n`. -/
inductive Held (chunks : List (List UInt8)) (lim : ℕ) (s : EpsCopyInputStream) (n : ℕ)
    (E pos : ℤ) : Prop
  | null (hnext : s.nextChunk = .null) (hsize : s.size = 0) (hend : E = chunkStart chunks n)
      (hall : n = chunks.length ∨ lim ≤ chunkStart chunks n)
  | patch (hnext : s.nextChunk = .patch) (hend : E + kSlopBytes = chunkStart chunks n)
      (hoverall : s.overallLimit = lim - chunkStart chunks n)
      (hnear : (chunkStart chunks n : ℤ) ≤ pos + 32 ∨ (chunkStart chunks (n - 1) : ℤ) ≤ pos)
  | chunk (hnext : s.nextChunk = .chunk) (hstart : E = chunkStart chunks (n - 1))
      (hend : E + s.size = chunkStart chunks n) (hlarge : kSlopBytes < s.size)
      (hoverall : s.overallLimit = lim - chunkStart chunks n)

/-- The chunks fetched when the parse has come to the position `pos`: a chunk behind the first
one starts at most 16 bytes behind it, and before the limit. -/
structure Fetched (chunks : List (List UInt8)) (lim : ℕ) (s : EpsCopyInputStream) (n : ℕ)
    (E pos : ℤ) : Prop where
  le_length : n ≤ chunks.length
  zcis_eq : s.zcis = streamAfter chunks n
  last_start : n ≤ 1 ∨
    (chunkStart chunks (n - 1) : ℤ) ≤ pos + kSlopBytes ∧ chunkStart chunks (n - 1) < lim
  held : Held chunks lim s n E pos

/-- What has been fetched, with the pointer at the position `pos`. -/
structure FetchedAt (chunks : List (List UInt8)) (lim : ℕ) (s : EpsCopyInputStream) (n : ℕ)
    (pos : ℤ) (ptr : Ptr) : Prop where
  fetched : Fetched chunks lim s n (lim - s.limit) pos
  pos_eq : pos = lim - s.limit + ptr.diff s.bufferEnd
  ptr_le : ptr.diff s.bufferEnd ≤ kSlopBytes
  limitEnd_eq : s.limitEnd.diff s.bufferEnd = min 0 s.limit

variable {chunks : List (List UInt8)} {lim n : ℕ} {s s' : EpsCopyInputStream} {E pos : ℤ}
  {ptr : Ptr}

theorem Fetched.mono (h : Fetched chunks lim s n E pos) {pos' : ℤ} (hle : pos ≤ pos') :
    Fetched chunks lim s n E pos' where
  le_length := h.le_length
  zcis_eq := h.zcis_eq
  last_start := by
    have hlast := h.last_start
    omega
  held := by
    cases h.held with
    | null hnext hsize hend hall => exact .null hnext hsize hend hall
    | patch hnext hend hoverall hnear => exact .patch hnext hend hoverall (by omega)
    | chunk hnext hstart hend hlarge hoverall => exact .chunk hnext hstart hend hlarge hoverall

theorem Fetched.with_limits (h : Fetched chunks lim s n E pos) (limitEnd : Ptr) (limit : ℤ)
    (lastTagMinus1 : BitVec 32) : Fetched chunks lim { s with limitEnd, limit, lastTagMinus1 } n E pos where
  le_length := h.le_length
  zcis_eq := h.zcis_eq
  last_start := h.last_start
  held := by
    cases h.held with
    | null hnext hsize hend hall => exact .null hnext hsize hend hall
    | patch hnext hend hoverall hnear => exact .patch hnext hend hoverall hnear
    | chunk hnext hstart hend hlarge hoverall => exact .chunk hnext hstart hend hlarge hoverall

/-- The patch buffer with the start of a new chunk. -/
theorem nextChunkFound_fetched {m : ℕ} {data : List UInt8}
    (hzcis : s.zcis = streamAfter chunks (m + 1)) (hm : m < chunks.length)
    (hend : E + kSlopBytes = chunkStart chunks m)
    (hafter : chunkStart chunks (m + 1) = chunkStart chunks m + data.length)
    (hoverall : s.overallLimit = lim - chunkStart chunks m) (hmany : 0 < s.overallLimit)
    (hreached : E ≤ pos) :
    let r := s.nextChunkFound data
    Fetched chunks lim r.2 (m + 1) (E + r.2.bufferEnd.diff r.1) pos ∧ r.2.limit = s.limit ∧
      0 ≤ r.2.bufferEnd.diff r.1 := by
  have hlast : m + 1 ≤ 1 ∨ (chunkStart chunks (m + 1 - 1) : ℤ) ≤ pos + kSlopBytes ∧
      chunkStart chunks (m + 1 - 1) < lim := by
    rw [Nat.add_sub_cancel]
    omega
  intro r
  by_cases hlarge : kSlopBytes < data.length
  · have hr : r = (⟨.patch, 0⟩, { s with
        size := data.length
        overallLimit := s.overallLimit - data.length
        buffer := Ring.blit s.buffer kSlopBytes (data.take kSlopBytes)
        chunk := data
        nextChunk := .chunk
        bufferEnd := ⟨.patch, kSlopBytes⟩ }) := by
      simp only [r, nextChunkFound, if_pos hlarge]
    simp only [hr, Ptr.diff, Int.sub_zero]
    refine ⟨⟨hm, hzcis, hlast, .chunk rfl ?_ ?_ ?_ ?_⟩, trivial, natCast_nonneg _⟩
    · exact hend
    · simp only
      omega
    · exact Int.ofNat_lt.mpr hlarge
    · simp only
      omega
  · have hr : r = (⟨.patch, 0⟩, { s with
        size := data.length
        overallLimit := s.overallLimit - data.length
        buffer := Ring.blit s.buffer kSlopBytes data
        nextChunk := .patch
        bufferEnd := ⟨.patch, data.length⟩ }) := by
      simp only [r, nextChunkFound, if_neg hlarge]
    simp only [hr, Ptr.diff, Int.sub_zero]
    refine ⟨⟨hm, hzcis, hlast, .patch rfl ?_ ?_ ?_⟩, trivial, natCast_nonneg _⟩
    · omega
    · simp only
      omega
    · simp only [kSlopBytes] at hlarge hend ⊢
      omega

/-- **`NextBuffer`** fetches a chunk only if the position is within 16 bytes of its start. -/
theorem Fetched.nextBuffer (h : Fetched chunks lim s n E pos) (hreached : E ≤ pos)
    {overrun depth : ℤ} (hdepth : depth < 0) {p : Ptr} (hr : s.nextBuffer overrun depth = some (p, s')) :
    (∃ n', Fetched chunks lim s' n' (E + s'.bufferEnd.diff p) pos) ∧ s'.limit = s.limit ∧
      0 ≤ s'.bufferEnd.diff p := by
  rw [EpsCopyInputStream.nextBuffer] at hr
  cases h.held with
  | null hnext =>
    rw [hnext] at hr
    cases hr
  | chunk hnext hstart hend hlarge hoverall =>
    rw [hnext] at hr
    obtain ⟨rfl, rfl⟩ := Prod.mk.inj (some.inj hr)
    refine ⟨⟨n, h.le_length, h.zcis_eq, h.last_start, .patch rfl ?_ hoverall (.inr ?_)⟩, rfl, ?_⟩
    · simp only [Ptr.diff]
      omega
    · omega
    · simp only [Ptr.diff]
      omega
  | patch hnext hend hoverall hnear =>
    simp only [hnext] at hr
    -- the end of the stream, after `Next` has failed or without calling it
    have hstop : ∀ {t : EpsCopyInputStream} {m : ℕ}, n ≤ m → m ≤ chunks.length →
        t.zcis = streamAfter chunks m → chunkStart chunks m = chunkStart chunks n →
        (n < m → chunkStart chunks (m - 1) = chunkStart chunks n ∧ chunkStart chunks n < lim) →
        m = chunks.length ∨ lim ≤ chunkStart chunks m →
        Fetched chunks lim t.endOfStream.2 m
          (E + t.endOfStream.2.bufferEnd.diff t.endOfStream.1) pos := by
      intro t m hle hm hzcis hsame hlast hall
      refine ⟨hm, hzcis, ?_, .null rfl rfl ?_ hall⟩
      · rcases lt_or_ge n m with hlt | hge
        · obtain ⟨hat, hlim⟩ := hlast hlt
          exact .inr ⟨by omega, by omega⟩
        · obtain rfl : m = n := by omega
          exact h.last_start
      · simp only [endOfStream, Ptr.diff, Int.sub_zero]
        omega
    by_cases hmany : (0 : ℤ) < s.overallLimit
    · rw [if_pos ⟨hmany, .inl hdepth⟩, h.zcis_eq] at hr
      rcases nextNonEmpty_streamAfter h.le_length with
        ⟨hnone, hsame⟩ | ⟨m, data, hsome, hle, hm, hat, hafter⟩
      · rw [hnone] at hr
        cases hr
        refine ⟨⟨chunks.length, hstop h.le_length le_rfl rfl hsame ?_ (.inl rfl)⟩, rfl, natCast_nonneg _⟩
        intro hlt
        have hlow : chunkStart chunks n ≤ chunkStart chunks (chunks.length - 1) :=
          chunkStart_mono (by omega)
        have hhigh : chunkStart chunks (chunks.length - 1) ≤ chunkStart chunks chunks.length :=
          chunkStart_mono (Nat.sub_le _ _)
        omega
      · rw [hsome] at hr
        have hend' : E + kSlopBytes = chunkStart chunks m := hat ▸ hend
        have hoverall' : s.overallLimit = lim - chunkStart chunks m := hat ▸ hoverall
        obtain ⟨hfetched, hlimit, hmoves⟩ := nextChunkFound_fetched
          (s := { s with
            buffer := Ring.blit s.buffer 0 (s.load s.bufferEnd kSlopBytes)
            zcis := streamAfter chunks (m + 1) })
          rfl hm hend' (hat ▸ hafter) hoverall' hmany hreached
        obtain ⟨rfl, rfl⟩ := Prod.mk.inj (some.inj hr)
        exact ⟨⟨m + 1, hfetched⟩, hlimit, hmoves⟩
    · rw [if_neg (by simp [hmany])] at hr
      obtain ⟨rfl, rfl⟩ := Prod.mk.inj (some.inj hr)
      refine ⟨⟨n, hstop (Nat.le_refl n) h.le_length h.zcis_eq rfl (by omega) ?_⟩, rfl,
        natCast_nonneg _⟩
      omega

section
variable (h : FetchedAt chunks lim s n pos ptr)
include h

/-- **`Next`** keeps the position. -/
theorem FetchedAt.next (hover : 0 ≤ ptr.diff s.bufferEnd) {p : Ptr} (hr : s.next = (some p, s')) :
    ∃ n', FetchedAt chunks lim s' n' pos (p.add (ptr.diff s.bufferEnd)) := by
  have hpos := h.pos_eq
  rw [EpsCopyInputStream.next] at hr
  cases hbuffer : s.nextBuffer 0 (-1) with
  | none =>
    rw [hbuffer] at hr
    cases (Prod.mk.inj hr).1
  | some r =>
    obtain ⟨q, t⟩ := r
    obtain ⟨⟨n', hfetched⟩, hlimit, hmoves⟩ := h.fetched.nextBuffer (by omega) (by decide) hbuffer
    rw [hbuffer] at hr
    obtain ⟨hq, rfl⟩ := Prod.mk.inj hr
    obtain rfl := some.inj hq
    refine ⟨n', ?_, ?_, ?_, ?_⟩
    · have hend : (lim : ℤ) - (t.limit - t.bufferEnd.diff q) =
          lim - s.limit + t.bufferEnd.diff q := by omega
      simp only [setLimitEnd, hend]
      exact hfetched.with_limits _ _ t.lastTagMinus1
    · simp only [setLimitEnd, Ptr.diff, Ptr.add] at hpos hlimit ⊢
      omega
    · simp only [setLimitEnd, Ptr.diff, Ptr.add] at hmoves ⊢
      have hle := h.ptr_le
      simp only [Ptr.diff] at hle
      omega
    · simp only [setLimitEnd, Ptr.diff, Ptr.add]
      omega

theorem FetchedAt.advance {k : ℤ} (hk : 0 ≤ k) (hle : ptr.diff s.bufferEnd + k ≤ kSlopBytes) :
    FetchedAt chunks lim s n (pos + k) (ptr.add k) := by
  have hpos := h.pos_eq
  have hdiff : (ptr.add k).diff s.bufferEnd = ptr.diff s.bufferEnd + k := by
    simp only [Ptr.diff, Ptr.add]
    omega
  exact {
    fetched := h.fetched.mono (by omega)
    pos_eq := by omega
    ptr_le := by omega
    limitEnd_eq := h.limitEnd_eq }

theorem FetchedAt.with_lastTag (lastTagMinus1 : BitVec 32) :
    FetchedAt chunks lim { s with lastTagMinus1 } n pos ptr where
  fetched := h.fetched.with_limits s.limitEnd s.limit lastTagMinus1
  pos_eq := h.pos_eq
  ptr_le := h.ptr_le
  limitEnd_eq := h.limitEnd_eq

end

/-! ## The end test -/

theorem limitEnd_setLimitEnd :
    s.setLimitEnd.limitEnd.diff s.setLimitEnd.bufferEnd = min 0 s.setLimitEnd.limit := by
  simp only [setLimitEnd, Ptr.diff, Ptr.add]
  omega

/-- The loop of `DoneFallback`. -/
theorem doneFallbackLoop_fetched {depth : ℤ} (hdepth : depth < 0) (fuel : ℕ) {overrun : ℤ}
    (h : Fetched chunks lim s n (lim - s.limit) pos) (hpos : pos = lim - s.limit + overrun)
    (hlim : pos ≤ lim) (hover : 0 ≤ overrun) {p : Ptr} {stop : Bool}
    (hr : doneFallbackLoop depth fuel overrun s = (some p, stop, s')) :
    (∃ n', FetchedAt chunks lim s' n' pos p) ∧ (stop = false → p.diff s'.bufferEnd < 0) := by
  induction fuel generalizing s n overrun with
  | zero => cases (Prod.mk.inj hr).1
  | succ fuel ih =>
    rw [doneFallbackLoop] at hr
    cases hbuffer : s.nextBuffer overrun depth with
    | none =>
      simp only [hbuffer] at hr
      by_cases hzero : overrun = 0
      · rw [if_neg (not_not.mpr hzero)] at hr
        obtain ⟨hp, hrest⟩ := Prod.mk.inj hr
        cases hrest
        cases hp
        refine ⟨⟨n, ?_, ?_, ?_, ?_⟩, by simp⟩
        · exact h.with_limits s.bufferEnd s.limit 1
        · simp only [setEndOfStream, Ptr.diff]
          omega
        · simp [setEndOfStream, Ptr.diff]
        · simp only [setEndOfStream, Ptr.diff]
          omega
      · rw [if_pos hzero] at hr
        cases (Prod.mk.inj hr).1
    | some r =>
      obtain ⟨q, t⟩ := r
      obtain ⟨⟨n', hfetched⟩, hlimit, hmoves⟩ := h.nextBuffer (by omega) hdepth hbuffer
      have hend : (lim : ℤ) - s.limit + t.bufferEnd.diff q =
          lim - (t.limit - t.bufferEnd.diff q) := by omega
      rw [hend] at hfetched
      have hover' : (q.add overrun).diff t.bufferEnd = overrun - t.bufferEnd.diff q := by
        simp only [Ptr.diff, Ptr.add]
        omega
      simp only [hbuffer] at hr
      by_cases hagain : 0 ≤ (q.add overrun).diff t.bufferEnd
      · rw [if_pos hagain] at hr
        refine ih (hfetched.with_limits t.limitEnd (t.limit - t.bufferEnd.diff q)
          t.lastTagMinus1) ?_ hagain hr
        simp only
        omega
      · rw [if_neg hagain] at hr
        obtain ⟨hp, hrest⟩ := Prod.mk.inj hr
        cases hrest
        cases hp
        refine ⟨⟨n', ?_, ?_, ?_, limitEnd_setLimitEnd⟩, fun _ => not_le.mp hagain⟩
        · exact hfetched.with_limits _ (t.limit - t.bufferEnd.diff q) t.lastTagMinus1
        · simp only [setLimitEnd]
          omega
        · simp only [setLimitEnd]
          omega

variable {p : Ptr}

/-- **`DoneWithCheck`** keeps the position; where the parse goes on, the pointer is before the
end of the buffer. -/
theorem FetchedAt.done (h : FetchedAt chunks lim s n pos ptr) {depth : ℤ} (hdepth : depth < 0) {stop : Bool} (hr : s.doneWithCheck ptr depth = (some p, stop, s')) :
    (∃ n', FetchedAt chunks lim s' n' pos p) ∧ (stop = false → p.diff s'.bufferEnd < 0) := by
  have hpos := h.pos_eq
  have hlimitEnd := h.limitEnd_eq
  rw [doneWithCheck] at hr
  by_cases hbefore : ptr.diff s.limitEnd < 0
  · rw [if_pos hbefore] at hr
    obtain ⟨hp, hrest⟩ := Prod.mk.inj hr
    cases hrest
    cases hp
    refine ⟨⟨n, h⟩, fun _ => ?_⟩
    simp only [Ptr.diff] at hbefore hlimitEnd ⊢
    omega
  · rw [if_neg hbefore] at hr
    by_cases hequal : ptr.diff s.bufferEnd = s.limit
    · simp only [if_pos hequal] at hr
      obtain ⟨hp, hrest⟩ := Prod.mk.inj hr
      cases hrest
      split at hp
      · cases hp
      · cases hp
        exact ⟨⟨n, h⟩, by simp⟩
    · simp only [if_neg hequal, doneFallback] at hr
      split at hr
      · cases (Prod.mk.inj hr).1
      · next hwithin =>
        have hover : 0 ≤ ptr.diff s.bufferEnd := by
          simp only [Ptr.diff] at hbefore hlimitEnd hequal hwithin ⊢
          omega
        exact doneFallbackLoop_fetched hdepth _ h.fetched hpos (by omega) hover hr

/-! ## Reads that span buffers -/

variable {size : ℤ}

/-- The loop of `AppendSize`. -/
theorem appendSizeLoop_fetched (fuel : ℕ) (h : FetchedAt chunks lim s n pos ptr)
    (hmore : kSlopBytes - ptr.diff s.bufferEnd < size) {bytes : List UInt8}
    (hr : appendSizeLoop fuel s ptr size = some (bytes, p, s')) :
    ∃ n', FetchedAt chunks lim s' n' (pos + size) p := by
  induction fuel generalizing s n pos ptr size bytes with
  | zero => cases hr
  | succ fuel ih =>
    have hle := h.ptr_le
    obtain ⟨count, hcount⟩ : ∃ count : ℤ, count = kSlopBytes - ptr.diff s.bufferEnd := ⟨_, rfl⟩
    have hchunk : (s.bufferEnd.add kSlopBytes).diff ptr = count := by
      simp only [Ptr.diff, Ptr.add] at hcount ⊢
      omega
    rw [appendSizeLoop] at hr
    simp only [hchunk] at hr
    by_cases hnull : s.nextChunk = .null
    · simp [if_pos hnull] at hr
    · rw [if_neg hnull] at hr
      by_cases hlimit : s.limit ≤ kSlopBytes
      · simp [if_pos hlimit] at hr
      · rw [if_neg hlimit] at hr
        have hadvance := h.advance (show 0 ≤ count by omega) (by omega)
        have hover : (ptr.add count).diff s.bufferEnd = kSlopBytes := by
          simp only [Ptr.diff, Ptr.add] at hcount ⊢
          omega
        cases hnext : s.next with
        | mk found t =>
          cases found with
          | none =>
            simp [hnext] at hr
          | some q =>
            obtain ⟨n', hfetched⟩ := hadvance.next (by omega) hnext
            rw [hover] at hfetched
            have hroom : (t.bufferEnd.add kSlopBytes).diff (q.add kSlopBytes) =
                kSlopBytes - (q.add kSlopBytes).diff t.bufferEnd := by
              simp only [Ptr.diff, Ptr.add]
              omega
            have hend : pos + count + (size - count) = pos + size := by omega
            simp only [hnext, hroom] at hr
            by_cases hagain : kSlopBytes - (q.add kSlopBytes).diff t.bufferEnd < size - count
            · rw [if_pos hagain] at hr
              obtain ⟨⟨more, r⟩, hloop, heq⟩ := map_eq_some_iff.mp hr
              cases heq
              exact hend ▸ ih hfetched hagain hloop
            · rw [if_neg hagain] at hr
              obtain ⟨-, hrest⟩ := Prod.mk.inj (some.inj hr)
              cases hrest
              exact ⟨n', hend ▸ hfetched.advance (by omega) (by omega)⟩

/-- **`AppendString`** moves on by the size of the string. -/
theorem FetchedAt.appendString (h : FetchedAt chunks lim s n pos ptr) {size : ℕ}
    {bytes : List UInt8} (hr : s.appendString ptr size = some (bytes, p, s')) :
    ∃ n', FetchedAt chunks lim s' n' (pos + size) p := by
  have hroom : (s.bufferEnd.add kSlopBytes).diff ptr = kSlopBytes - ptr.diff s.bufferEnd := by
    simp only [Ptr.diff, Ptr.add]
    omega
  rw [EpsCopyInputStream.appendString, hroom] at hr
  by_cases hfits : (size : ℤ) ≤ kSlopBytes - ptr.diff s.bufferEnd
  · rw [if_pos hfits] at hr
    obtain ⟨-, hrest⟩ := Prod.mk.inj (some.inj hr)
    cases hrest
    exact ⟨n, h.advance (natCast_nonneg _) (by omega)⟩
  · rw [if_neg hfits] at hr
    exact appendSizeLoop_fetched _ h (by omega) hr

/-- **`Skip`** moves on like `AppendString`. -/
theorem FetchedAt.skip (h : FetchedAt chunks lim s n pos ptr) {size : ℕ}
    (hr : s.skip ptr size = some (p, s')) : ∃ n', FetchedAt chunks lim s' n' (pos + size) p := by
  have hskip : s.skip ptr size = (s.appendString ptr size).map fun r => r.2 := by
    rw [EpsCopyInputStream.skip, EpsCopyInputStream.appendString]
    split <;> rfl
  rw [hskip] at hr
  obtain ⟨⟨bytes, r⟩, happend, rfl⟩ := map_eq_some_iff.mp hr
  exact h.appendString happend

/-- The loop of `ReadPackedFixed`. -/
theorem readPackedFixedLoop_fetched {width : ℕ} (hwidth : 0 < width) (hslop : width ≤ kSlopBytes)
    (fuel : ℕ) (h : FetchedAt chunks lim s n pos ptr) (hsize : 0 ≤ size) {values : List ℕ}
    (hr : readPackedFixedLoop width fuel s ptr size = some (values, p, s')) :
    ∃ n', FetchedAt chunks lim s' n' (pos + size) p := by
  induction fuel generalizing s n pos ptr size values with
  | zero => cases hr
  | succ fuel ih =>
    have hle := h.ptr_le
    obtain ⟨nbytes, hnbytes⟩ : ∃ nbytes : ℤ, nbytes = kSlopBytes - ptr.diff s.bufferEnd := ⟨_, rfl⟩
    have hroom : (s.bufferEnd.add kSlopBytes).diff ptr = nbytes := by
      simp only [Ptr.diff, Ptr.add] at hnbytes ⊢
      omega
    rw [readPackedFixedLoop] at hr
    simp only [hroom] at hr
    have hpositive : (0 : ℤ) < width := Int.natCast_pos.mpr hwidth
    by_cases hmore : nbytes < size
    · rw [if_pos hmore] at hr
      by_cases hlimit : s.limit ≤ kSlopBytes
      · simp [if_pos hlimit] at hr
      · rw [if_neg hlimit] at hr
        have hmod := emod_nonneg nbytes (Int.ne_of_gt hpositive)
        have hmodLt := emod_lt_of_pos nbytes hpositive
        have hdiv := mul_ediv_add_emod nbytes width
        rw [Int.mul_comm] at hdiv
        generalize hcount : nbytes / width * width = count at hr hdiv
        have hnonneg : 0 ≤ nbytes / width * width :=
          Int.mul_nonneg (ediv_nonneg (by omega) (by omega)) (by omega)
        have hadvance := h.advance (show 0 ≤ count by omega) (by omega)
        have hover : (ptr.add count).diff s.bufferEnd = kSlopBytes - (nbytes - count) := by
          simp only [Ptr.diff, Ptr.add] at hnbytes ⊢
          omega
        cases hnext : s.next with
        | mk found t =>
          cases found with
          | none =>
            simp [hnext] at hr
          | some q =>
            obtain ⟨n', hfetched⟩ := hadvance.next (by omega) hnext
            rw [hover] at hfetched
            simp only [hnext] at hr
            obtain ⟨⟨more, r⟩, hloop, heq⟩ := map_eq_some_iff.mp hr
            cases heq
            have hend : pos + count + (size - count) = pos + size := by omega
            exact hend ▸ ih hfetched (by omega) hloop
    · rw [if_neg hmore] at hr
      by_cases hall : size ≠ size / width * width
      · simp [if_pos hall] at hr
      · rw [if_neg hall] at hr
        obtain ⟨-, hrest⟩ := Prod.mk.inj (some.inj hr)
        cases hrest
        have hblock := not_not.mp hall
        exact ⟨n, hblock ▸ h.advance (hblock ▸ hsize) (by omega)⟩

/-- The loop of `ReadPackedVarint`. -/
theorem readPackedVarintLoop_fetched (fuel : ℕ) (h : FetchedAt chunks lim s n pos ptr)
    {values : List (BitVec 64)} (hsize : 0 ≤ size)
    (hr : readPackedVarintLoop fuel s ptr size = some (values, p, s')) :
    ∃ n', FetchedAt chunks lim s' n' (pos + size) p := by
  induction fuel generalizing s n pos ptr size values with
  | zero => cases hr
  | succ fuel ih =>
    have hle := h.ptr_le
    have hchunk : s.bufferEnd.diff ptr = -ptr.diff s.bufferEnd := by
      simp only [Ptr.diff]
      omega
    rw [readPackedVarintLoop] at hr
    simp only [hchunk] at hr
    by_cases hmore : -ptr.diff s.bufferEnd < size
    · rw [if_pos hmore] at hr
      cases hfirst : readPackedVarintArray (s.bytes ptr) (-ptr.diff s.bufferEnd) with
      | none =>
        simp [hfirst] at hr
      | some r =>
        obtain ⟨added, k⟩ := r
        obtain ⟨hstop, hgoOn⟩ := readPackedVarintArrayLoop_length hfirst
        have hdiff : (ptr.add k).diff s.bufferEnd = ptr.diff s.bufferEnd + k := by
          simp only [Ptr.diff, Ptr.add]
          omega
        have hoverrun : 0 ≤ ptr.diff s.bufferEnd + k ∧ ptr.diff s.bufferEnd + k ≤ kSlopBytes := by
          simp only [kSlopBytes] at hle ⊢
          omega
        simp only [hfirst, hdiff] at hr
        generalize hover : ptr.diff s.bufferEnd + (k : ℤ) = overrun at hr hdiff hoverrun
        by_cases hslop : size - -ptr.diff s.bufferEnd ≤ kSlopBytes
        · rw [if_pos hslop] at hr
          split at hr
          · cases hr
          · next more j hsecond =>
            split at hr
            · cases hr
            · next hend =>
              obtain ⟨-, hrest⟩ := Prod.mk.inj (some.inj hr)
              cases hrest
              have hend := not_not.mp hend
              refine ⟨n, ?_⟩
              have hadvance := h.advance hsize (by omega)
              exact {
                fetched := hadvance.fetched
                pos_eq := by
                  have hpos := hadvance.pos_eq
                  simp only [Ptr.diff, Ptr.add] at hpos hend ⊢
                  omega
                ptr_le := by
                  simp only [Ptr.diff, Ptr.add] at hend hslop ⊢
                  omega
                limitEnd_eq := h.limitEnd_eq }
        · rw [if_neg hslop] at hr
          by_cases hlimit : s.limit ≤ kSlopBytes
          · simp [if_pos hlimit] at hr
          · rw [if_neg hlimit] at hr
            have hadvance := h.advance (natCast_nonneg k) (by omega)
            cases hnext : s.next with
            | mk found t =>
              cases found with
              | none =>
                simp [hnext] at hr
              | some q =>
                obtain ⟨n', hfetched⟩ := hadvance.next (by omega) hnext
                rw [hdiff] at hfetched
                simp only [hnext] at hr
                obtain ⟨⟨more, r⟩, hloop, heq⟩ := map_eq_some_iff.mp hr
                cases heq
                have hend : pos + k + (size - (overrun + -ptr.diff s.bufferEnd)) =
                    pos + size := by omega
                exact hend ▸ ih hfetched (by simp only [kSlopBytes] at *; omega) hloop
    · rw [if_neg hmore] at hr
      cases hread : readPackedVarintArray (s.bytes ptr) size with
      | none =>
        simp [hread] at hr
      | some r =>
        obtain ⟨added, k⟩ := r
        simp only [hread] at hr
        split at hr
        · next hall =>
          obtain ⟨-, hrest⟩ := Prod.mk.inj (some.inj hr)
          cases hrest
          exact ⟨n, hall ▸ h.advance (natCast_nonneg k) (by omega)⟩
        · cases hr

end Protoc.Parse
