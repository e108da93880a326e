import Protoc.Lib.Ring
import Mathlib.Data.Int.Notation

/-!
# The cache of the log and event components

`HiviewCache` is a ring of bytes with a write cursor and a fill count; the read cursor
is computed from the two.  Lengths and cursors are `uint16`.

`content` is what the cache holds, oldest byte first.  A write appends to it or is
refused, a read takes a prefix of it or is refused.
-/

namespace Protoc.Hiview

open Protoc.Lib.Ring

/-- Truncation to `uint16`. -/
def u16 (n : ℕ) : ℕ := n % 0x10000

theorem u16_of_lt {n : ℕ} (h : n < 0x10000) : u16 n = n := Nat.mod_eq_of_lt h

/-- `HiviewCache`, less its mutex and its type.  `buffer` is `none` for `NULL`. -/
structure HiviewCache where
  wCursor : ℕ
  usedSize : ℕ
  size : ℕ
  buffer : Option (List UInt8)
  deriving DecidableEq

namespace HiviewCache

def uninit : HiviewCache := ⟨0, 0, 0, none⟩

end HiviewCache

/-- `InitHiviewStaticCache`. -/
def initHiviewStaticCache (buffer : List UInt8) (size : ℕ) : HiviewCache :=
  ⟨0, 0, size, some buffer⟩

/-- `GetReadCursor`. -/
def getReadCursor (cache : HiviewCache) : ℕ :=
  match cache.buffer with
  | none => 0
  | some _ =>
    if cache.wCursor ≥ cache.usedSize then cache.wCursor - cache.usedSize
    else cache.size - (cache.usedSize - cache.wCursor)

/-- `WriteToCache` of all of `data`: the result, `-1` for a refusal, and the cache. -/
def writeToCache (cache : HiviewCache) (data : List UInt8) : ℤ × HiviewCache :=
  match cache.buffer with
  | none => (-1, cache)
  | some buffer =>
    let wLen := data.length
    if cache.size < wLen + cache.usedSize then (-1, cache)
    else if cache.wCursor + wLen > cache.size then
      let firstLen := cache.size - cache.wCursor
      let secondLen := wLen - firstLen
      (wLen, { cache with
          buffer := some (blit (blit buffer cache.wCursor (data.take firstLen)) 0
            (data.drop firstLen))
          wCursor := u16 secondLen
          usedSize := u16 (u16 (cache.usedSize + firstLen) + secondLen) })
    else
      (wLen, { cache with
          buffer := some (blit buffer cache.wCursor data)
          wCursor := u16 (cache.wCursor + wLen)
          usedSize := u16 (cache.usedSize + wLen) })

/-- The bytes both reading functions copy out. -/
def copyOut (cache : HiviewCache) (buffer : List UInt8) (rLen : ℕ) : List UInt8 :=
  let rCursor := getReadCursor cache
  if rCursor + rLen > cache.size then
    let firstLen := cache.size - rCursor
    (buffer.drop rCursor).take firstLen ++ buffer.take (rLen - firstLen)
  else (buffer.drop rCursor).take rLen

/-- `ReadFromCache`: the bytes read, or `none` for `-1`, and the cache. -/
def readFromCache (cache : HiviewCache) (rLen : ℕ) : Option (List UInt8) × HiviewCache :=
  match cache.buffer with
  | none => (none, cache)
  | some buffer =>
    if cache.usedSize < rLen then (none, cache)
    else (some (copyOut cache buffer rLen), { cache with usedSize := cache.usedSize - rLen })

/-- `DiscardCacheData`. -/
def discardCacheData (cache : HiviewCache) : HiviewCache :=
  { cache with wCursor := 0, usedSize := 0 }

/-! ## The cache as a queue -/

/-- The cursors lie inside the buffer; without a buffer there is no room. -/
structure HiviewCache.Wf (cache : HiviewCache) : Prop where
  size_lt : cache.size < 0x10000
  wCursor_le : cache.wCursor ≤ cache.size
  usedSize_le : cache.usedSize ≤ cache.size
  buffer_length : ∀ buffer, cache.buffer = some buffer → buffer.length = cache.size
  no_buffer : cache.buffer = none → cache.size = 0

def content (cache : HiviewCache) : List UInt8 :=
  match cache.buffer with
  | none => []
  | some buffer => window buffer (getReadCursor cache) cache.usedSize

namespace HiviewCache.Wf
variable {cache : HiviewCache}

theorem uninit : HiviewCache.uninit.Wf :=
  ⟨by simp [HiviewCache.uninit], by simp [HiviewCache.uninit], by simp [HiviewCache.uninit],
    by simp [HiviewCache.uninit], by simp [HiviewCache.uninit]⟩

theorem initHiviewStaticCache {buffer : List UInt8} {size : ℕ} (hsize : size < 0x10000)
    (h : buffer.length = size) : (initHiviewStaticCache buffer size).Wf :=
  ⟨hsize, Nat.zero_le _, Nat.zero_le _, by rintro _ ⟨⟩; exact h, by simp [Hiview.initHiviewStaticCache]⟩

theorem discardCacheData (h : cache.Wf) : (discardCacheData cache).Wf :=
  ⟨h.size_lt, Nat.zero_le _, Nat.zero_le _, h.buffer_length, h.no_buffer⟩

theorem getReadCursor_le (h : cache.Wf) : getReadCursor cache ≤ cache.size := by
  have := h.wCursor_le
  have := h.usedSize_le
  unfold getReadCursor
  split
  · omega
  · split <;> omega

theorem usedSize_eq (h : cache.Wf) : cache.usedSize = (content cache).length := by
  unfold content
  cases hb : cache.buffer with
  | none =>
    have := h.no_buffer hb
    have := h.usedSize_le
    simp only [List.length_nil]
    omega
  | some buffer => simp

end HiviewCache.Wf

variable {buffer : List UInt8}

theorem getReadCursor_of_buffer {cache : HiviewCache} (hb : cache.buffer = some buffer) :
    getReadCursor cache = if cache.wCursor ≥ cache.usedSize then cache.wCursor - cache.usedSize
      else cache.size - (cache.usedSize - cache.wCursor) := by
  simp only [getReadCursor, hb]

theorem HiviewCache.Wf.getReadCursor_add {cache : HiviewCache} (h : cache.Wf)
    (hb : cache.buffer = some buffer) : getReadCursor cache + cache.usedSize = cache.wCursor ∨
      getReadCursor cache + cache.usedSize = cache.wCursor + cache.size := by
  have hused := h.usedSize_le
  rw [getReadCursor_of_buffer hb]
  split_ifs <;> omega

/-- The size of the cache, and whether it has a buffer, do not change. -/
def SameShape (cache cache' : HiviewCache) : Prop :=
  cache'.size = cache.size ∧ (cache'.buffer = none ↔ cache.buffer = none)

theorem SameShape.refl (cache : HiviewCache) : SameShape cache cache := ⟨rfl, .rfl⟩

theorem SameShape.trans {cache cache' cache'' : HiviewCache} (h : SameShape cache cache')
    (h' : SameShape cache' cache'') : SameShape cache cache'' :=
  ⟨h'.1.trans h.1, h'.2.trans h.2⟩

theorem sameShape_writeToCache (cache : HiviewCache) (data : List UInt8) :
    SameShape cache (writeToCache cache data).2 := by
  unfold writeToCache
  cases hb : cache.buffer with
  | none => exact .refl cache
  | some buffer =>
    simp only
    split
    · exact .refl cache
    · split <;> simp [SameShape, hb]

theorem sameShape_readFromCache (cache : HiviewCache) (rLen : ℕ) :
    SameShape cache (readFromCache cache rLen).2 := by
  unfold readFromCache
  cases hb : cache.buffer with
  | none => exact .refl cache
  | some buffer =>
    simp only
    split
    · exact .refl cache
    · simp [SameShape, hb]

variable {data : List UInt8}

/-- What a write that fits leaves: the data written round the end from the write
cursor on, and the cursors moved on. -/
theorem writeToCache_of_fits {cache : HiviewCache} (h : cache.Wf) (hb : cache.buffer = some buffer)
    (hroom : cache.usedSize + data.length ≤ cache.size) :
    ∃ wCursor, wCursor ≤ cache.size ∧ (wCursor = cache.wCursor + data.length ∨
        wCursor + cache.size = cache.wCursor + data.length) ∧
      writeToCache cache data = ((data.length : ℤ), { cache with
          buffer := some (blitRound buffer cache.wCursor data)
          wCursor
          usedSize := cache.usedSize + data.length }) := by
  have hlen := h.buffer_length buffer hb
  have hsize := h.size_lt
  have hw := h.wCursor_le
  have hfits : ¬ cache.size < data.length + cache.usedSize := by omega
  unfold writeToCache blitRound
  simp only [hb, hfits, if_false, hlen]
  by_cases hover : cache.wCursor + data.length > cache.size
  · refine ⟨data.length - (cache.size - cache.wCursor), by omega, by omega, ?_⟩
    simp only [hover, if_true]
    rw [u16_of_lt (n := cache.usedSize + _) (by omega), u16_of_lt (by omega), u16_of_lt (by omega)]
    simp only [Prod.mk.injEq, HiviewCache.mk.injEq, true_and, and_true]
    omega
  · refine ⟨cache.wCursor + data.length, by omega, .inl rfl, ?_⟩
    simp only [hover, if_false]
    rw [u16_of_lt (by omega), u16_of_lt (by omega)]

/-- **Writing.**  A write that fits appends to the content. -/
theorem content_writeToCache {cache : HiviewCache} (h : cache.Wf) (hbuf : cache.buffer ≠ none)
    (hroom : (content cache).length + data.length ≤ cache.size) :
    (writeToCache cache data).1 = data.length ∧ (writeToCache cache data).2.Wf ∧
      content (writeToCache cache data).2 = content cache ++ data := by
  obtain ⟨buffer, hb⟩ := Option.ne_none_iff_exists'.mp hbuf
  rw [← h.usedSize_eq] at hroom
  obtain ⟨wCursor, hle, hmove, hwrite⟩ := writeToCache_of_fits h hb hroom
  have hlen := h.buffer_length buffer hb
  have hw := h.wCursor_le
  have hwpos : cache.wCursor ≤ buffer.length := by omega
  have hdata : data.length ≤ buffer.length := by omega
  have hl := length_blitRound hwpos hdata
  rw [hwrite]
  generalize hnext : (⟨wCursor, cache.usedSize + data.length, cache.size,
    some (blitRound buffer cache.wCursor data)⟩ : HiviewCache) = next
  have hwf : next.Wf := by
    subst hnext
    refine ⟨h.size_lt, hle, hroom, ?_, by simp⟩
    rintro _ ⟨⟩
    rw [hl, hlen]
  refine ⟨rfl, hwf, ?_⟩
  have hread := h.getReadCursor_add hb
  have hreadLe := h.getReadCursor_le
  have hread' := hwf.getReadCursor_add (by rw [← hnext])
  have hreadLe' := hwf.getReadCursor_le
  have hcontent : content next =
      window (blitRound buffer cache.wCursor data) (getReadCursor next) next.usedSize := by
    subst hnext
    rfl
  obtain ⟨hw', hused', hsize'⟩ : next.wCursor = wCursor ∧
      next.usedSize = cache.usedSize + data.length ∧ next.size = cache.size := by
    subst hnext
    exact ⟨rfl, rfl, rfl⟩
  rw [hw', hused', hsize'] at hread'
  rw [hsize'] at hreadLe'
  rw [hcontent, hused']
  simp only [content, hb]
  -- the old read cursor and the new one stand for the same cell
  have hstart : window (blitRound buffer cache.wCursor data) (getReadCursor next)
      (cache.usedSize + data.length) =
        window (blitRound buffer cache.wCursor data) (getReadCursor cache)
          (cache.usedSize + data.length) := by
    refine window_start fun i hi => ?_
    rw [hl, hlen]
    exact wrapAt_eq (by omega) (by omega) (by omega)
  have hwritten : window (blitRound buffer cache.wCursor data)
      (getReadCursor cache + cache.usedSize) data.length = data := by
    refine Eq.trans (window_start fun i hi => ?_) (window_blitRound_self hwpos hdata)
    rw [hl, hlen]
    exact wrapAt_eq (by omega) (by omega) (by omega)
  rw [hstart, window_add, hwritten]
  congr 1
  refine window_blitRound_of_disjoint hwpos hdata fun i hi j hj hcell => ?_
  rw [hlen] at hcell
  have hsame := eq_of_wrapAt_eq hcell
  omega

theorem writeToCache_refused {cache : HiviewCache} (h : cache.Wf)
    (hroom : cache.buffer = none ∨ cache.size < (content cache).length + data.length) :
    writeToCache cache data = (-1, cache) := by
  unfold writeToCache
  rw [← h.usedSize_eq] at hroom
  cases hb : cache.buffer with
  | none => rfl
  | some buffer =>
    have hroom : cache.size < data.length + cache.usedSize := by
      rcases hroom with hnone | hlt
      · simp [hb] at hnone
      · omega
    simp only [hroom, if_true]

theorem copyOut_eq {cache : HiviewCache} (h : cache.Wf)
    (hb : cache.buffer = some buffer) {rLen : ℕ} (hr : rLen ≤ cache.usedSize) :
    copyOut cache buffer rLen = window buffer (getReadCursor cache) rLen := by
  have hlen := h.buffer_length buffer hb
  have hle := h.getReadCursor_le
  have hused := h.usedSize_le
  simp only [copyOut, ← hlen] at *
  by_cases hover : getReadCursor cache + rLen > buffer.length
  · rw [if_pos hover, window_wrap hle (by omega) (by omega)]
  · rw [if_neg hover, window_eq_slice (by omega)]

/-- **Reading.**  A read of what is there takes it off the front of the content. -/
theorem content_readFromCache {cache : HiviewCache} (h : cache.Wf) (hbuf : cache.buffer ≠ none)
    (rLen : ℕ) (hr : rLen ≤ (content cache).length) :
    (readFromCache cache rLen).1 = some ((content cache).take rLen) ∧ (readFromCache cache rLen).2.Wf ∧
      content (readFromCache cache rLen).2 = (content cache).drop rLen := by
  obtain ⟨buffer, hb⟩ := Option.ne_none_iff_exists'.mp hbuf
  have hlen := h.buffer_length buffer hb
  have hw := h.wCursor_le
  have hused := h.usedSize_le
  rw [← h.usedSize_eq] at hr
  obtain ⟨n, hn⟩ : ∃ n, cache.usedSize = rLen + n := ⟨cache.usedSize - rLen, by omega⟩
  have hsub : cache.usedSize - rLen = n := by omega
  have hsplit : content cache = window buffer (getReadCursor cache) rLen ++
      window buffer (getReadCursor cache + rLen) n := by
    simp only [content, hb]
    rw [hn, window_add]
  have hread : readFromCache cache rLen =
      (some (window buffer (getReadCursor cache) rLen), { cache with usedSize := n }) := by
    have hfits : ¬ cache.usedSize < rLen := by omega
    unfold readFromCache
    simp only [hb, hfits, if_false, hsub]
    rw [copyOut_eq h hb hr]
  rw [hread, hsplit]
  have hwf : HiviewCache.Wf { cache with usedSize := n } :=
    ⟨h.size_lt, hw, by simp only; omega, h.buffer_length, h.no_buffer⟩
  refine ⟨by simp, hwf, ?_⟩
  have hreadCursor := h.getReadCursor_add hb
  have hreadCursor' := hwf.getReadCursor_add hb
  have hreadLe' := hwf.getReadCursor_le
  rw [List.drop_left' (by simp)]
  simp only [content, hb]
  simp only [hb] at hreadCursor' hreadLe'
  refine window_start fun i hi => ?_
  rw [hlen]
  exact wrapAt_eq (by omega) (by omega) (by omega)

theorem readFromCache_refused {cache : HiviewCache} (h : cache.Wf) (rLen : ℕ)
    (hr : (content cache).length < rLen) : readFromCache cache rLen = (none, cache) := by
  unfold readFromCache
  rw [← h.usedSize_eq] at hr
  cases hb : cache.buffer with
  | none => rfl
  | some buffer => simp only [hr, if_true]

end Protoc.Hiview
