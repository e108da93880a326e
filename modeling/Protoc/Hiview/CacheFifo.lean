import Protoc.Hiview.Cache
import Protoc.Lib.Run

/-!
# The cache refines a queue of bytes

Calls of `WriteToCache`, `ReadFromCache`, `PrereadFromCache` and `DiscardCacheData`, in any order, are answered as by a
list of at most `size` bytes.  The pointers of a call are not `NULL`.
-/

namespace Protoc.Hiview

open Protoc.Lib Protoc.Lib.Ring List

/-- `PrereadFromCache`: the bytes read, or `none` for `-1`, and the cache. -/
def prereadFromCache (cache : HiviewCache) (rLen : ℕ) : Option (List UInt8) × HiviewCache :=
  match cache.buffer with
  | none => (none, cache)
  | some buffer => if cache.usedSize < rLen then (none, cache) else (some (copyOut cache buffer rLen), cache)

/-- The place and the length of each part of a copy from a cursor on; a part without bytes is not copied. -/
def copyRanges (cursor len size : ℕ) : List (ℕ × ℕ) :=
  if cursor + len > size then
    let firstLen := size - cursor
    let secondLen := len - firstLen
    (if firstLen > 0 then [(cursor, firstLen)] else []) ++ if secondLen > 0 then [(0, secondLen)] else []
  else [(cursor, len)]

/-- The parts of the buffer that `WriteToCache` copies to. -/
def writeRanges (cache : HiviewCache) (wLen : ℕ) : List (ℕ × ℕ) :=
  match cache.buffer with
  | none => []
  | some _ => if cache.size < wLen + cache.usedSize then [] else copyRanges cache.wCursor wLen cache.size

/-- The parts of the buffer that both reading functions copy from. -/
def readRanges (cache : HiviewCache) (rLen : ℕ) : List (ℕ × ℕ) :=
  match cache.buffer with
  | none => []
  | some _ => if cache.usedSize < rLen then [] else copyRanges (getReadCursor cache) rLen cache.size

variable {cache : HiviewCache} {buffer : List UInt8} {size : ℕ} {stored : List UInt8}

/-! ## Calls -/

/-- A call on a cache. -/
inductive CacheCall
  | write (data : List UInt8)
  | read (rLen : ℕ)
  | preread (rLen : ℕ)
  | discard
  deriving DecidableEq

/-- What a call returns, and the bytes it copies to the caller. -/
structure CacheReply where
  result : ℤ
  data : List UInt8
  deriving DecidableEq

def CacheReply.ofRead (rLen : ℕ) : Option (List UInt8) → CacheReply
  | none => ⟨-1, []⟩
  | some data => ⟨rLen, data⟩

/-- A call on a cache; `DiscardCacheData` returns nothing. -/
def cacheCall (cache : HiviewCache) : CacheCall → CacheReply × HiviewCache
  | .write data => (⟨(writeToCache cache data).1, []⟩, (writeToCache cache data).2)
  | .read rLen => (.ofRead rLen (readFromCache cache rLen).1, (readFromCache cache rLen).2)
  | .preread rLen => (.ofRead rLen (prereadFromCache cache rLen).1, (prereadFromCache cache rLen).2)
  | .discard => (⟨0, []⟩, discardCacheData cache)

/-- The parts of the buffer that a call copies to or from. -/
def callRanges (cache : HiviewCache) : CacheCall → List (ℕ × ℕ)
  | .write data => writeRanges cache data.length
  | .read rLen => readRanges cache rLen
  | .preread rLen => readRanges cache rLen
  | .discard => []

/-- A call on a list of at most `size` bytes. -/
def ByteFifo.call (size : ℕ) (stored : List UInt8) : CacheCall → CacheReply × List UInt8
  | .write data =>
    if stored.length + data.length ≤ size then (⟨data.length, []⟩, stored ++ data) else (⟨-1, []⟩, stored)
  | .read rLen =>
    if rLen ≤ stored.length then (⟨rLen, stored.take rLen⟩, stored.drop rLen) else (⟨-1, []⟩, stored)
  | .preread rLen => if rLen ≤ stored.length then (⟨rLen, stored.take rLen⟩, stored) else (⟨-1, []⟩, stored)
  | .discard => (⟨0, []⟩, [])

/-- The cache stores the bytes. -/
structure Stores (size : ℕ) (cache : HiviewCache) (stored : List UInt8) : Prop where
  wf : cache.Wf
  buffer : cache.buffer ≠ none
  size_eq : cache.size = size
  content_eq : content cache = stored

/-- **Prereading** shows what a read would take, and leaves it there. -/
theorem prereadFromCache_eq (cache : HiviewCache) (rLen : ℕ) :
    prereadFromCache cache rLen = ((readFromCache cache rLen).1, cache) := by
  rw [prereadFromCache, readFromCache]
  cases cache.buffer with
  | none => rfl
  | some buffer =>
    simp only
    split_ifs <;> rfl

theorem cacheCall_refused {c : CacheCall} (h : (cacheCall cache c).1.result = -1) : (cacheCall cache c).2 = cache := by
  cases c with
  | write data =>
    simp only [cacheCall, writeToCache] at h ⊢
    cases hb : cache.buffer with
    | none => rfl
    | some buffer =>
      simp only [hb] at h ⊢
      split_ifs at h ⊢
      rfl
  | read rLen =>
    simp only [cacheCall, readFromCache] at h ⊢
    cases hb : cache.buffer with
    | none => rfl
    | some buffer =>
      simp only [hb] at h ⊢
      split_ifs at h ⊢
      · rfl
      · simp only [CacheReply.ofRead] at h
        omega
  | preread rLen => rw [cacheCall, prereadFromCache_eq]
  | discard => exact absurd h (by simp [cacheCall])

theorem le_of_mem_copyRanges {cursor len : ℕ} {r : ℕ × ℕ} (hcursor : cursor ≤ size) (hlen : len ≤ size)
    (hr : r ∈ copyRanges cursor len size) : r.1 + r.2 ≤ size := by
  rw [copyRanges] at hr
  by_cases hover : cursor + len > size
  · simp only [if_pos hover, mem_append] at hr
    rcases hr with hr | hr
    · split_ifs at hr
      · rw [List.mem_singleton.mp hr]
        exact Nat.le_of_eq (Nat.add_sub_cancel' hcursor)
      · exact absurd hr not_mem_nil
    · split_ifs at hr
      · rw [List.mem_singleton.mp hr]
        omega
      · exact absurd hr not_mem_nil
  · rw [if_neg hover, mem_singleton] at hr
    rw [hr]
    exact Nat.not_lt.mp hover

/-- **No part lies outside the buffer.** -/
theorem callRanges_le (h : cache.Wf) {c : CacheCall} {r : ℕ × ℕ} (hr : r ∈ callRanges cache c) :
    r.1 + r.2 ≤ cache.size := by
  have hused := h.usedSize_le
  have hread : ∀ rLen, r ∈ readRanges cache rLen → r.1 + r.2 ≤ cache.size := by
    intro rLen hr
    rw [readRanges] at hr
    split at hr
    · exact absurd hr not_mem_nil
    · split_ifs at hr with hfits
      · exact absurd hr not_mem_nil
      · exact le_of_mem_copyRanges h.getReadCursor_le (by omega) hr
  cases c with
  | write data =>
    rw [callRanges, writeRanges] at hr
    split at hr
    · exact absurd hr not_mem_nil
    · split_ifs at hr with hfits
      · exact absurd hr not_mem_nil
      · exact le_of_mem_copyRanges h.wCursor_le (by omega) hr
  | read rLen => exact hread rLen hr
  | preread rLen => exact hread rLen hr
  | discard => exact absurd hr not_mem_nil

/-! ## Runs -/

theorem Stores.read (h : Stores size cache stored) {rLen : ℕ} (hr : rLen ≤ stored.length) :
    (readFromCache cache rLen).1 = some (stored.take rLen) ∧
      Stores size (readFromCache cache rLen).2 (stored.drop rLen) := by
  obtain ⟨hwf, hbuffer, hsize, rfl⟩ := h
  obtain ⟨hdata, hwf', hcontent⟩ := content_readFromCache hwf hbuffer rLen hr
  have hshape := sameShape_readFromCache cache rLen
  exact ⟨hdata, hwf', fun hnone => hbuffer (hshape.2.mp hnone), hshape.1.trans hsize, hcontent⟩

theorem Stores.write (h : Stores size cache stored) {data : List UInt8} (hdata : stored.length + data.length ≤ size) :
    (writeToCache cache data).1 = data.length ∧ Stores size (writeToCache cache data).2 (stored ++ data) := by
  obtain ⟨hwf, hbuffer, rfl, rfl⟩ := h
  obtain ⟨hresult, hwf', hcontent⟩ := content_writeToCache hwf hbuffer hdata
  have hshape := sameShape_writeToCache cache data
  exact ⟨hresult, hwf', fun hnone => hbuffer (hshape.2.mp hnone), hshape.1, hcontent⟩

theorem Stores.discard (h : Stores size cache stored) : Stores size (discardCacheData cache) [] := by
  refine ⟨h.wf.discardCacheData, h.buffer, h.size_eq, ?_⟩
  rw [content]
  split <;> rfl

/-- The cache and the list of what it stores answer alike. -/
theorem cache_simulates (size : ℕ) :
    Simulates cacheCall (ByteFifo.call size) (fun _ => True) (Stores size) where
  answer {cache stored c} h _ := by
    cases c with
    | write data =>
      simp only [cacheCall, ByteFifo.call]
      split_ifs with hfits
      · rw [(h.write hfits).1]
      · rw [writeToCache_refused h.wf (.inr (by rw [h.content_eq, h.size_eq]; omega))]
    | read rLen =>
      simp only [cacheCall, ByteFifo.call]
      split_ifs with hfits
      · rw [(h.read hfits).1, CacheReply.ofRead]
      · rw [readFromCache_refused h.wf rLen (by rw [h.content_eq]; omega), CacheReply.ofRead]
    | preread rLen =>
      simp only [cacheCall, ByteFifo.call, prereadFromCache_eq]
      split_ifs with hfits
      · rw [(h.read hfits).1, CacheReply.ofRead]
      · rw [readFromCache_refused h.wf rLen (by rw [h.content_eq]; omega), CacheReply.ofRead]
    | discard => rfl
  next {cache stored c} h _ := by
    cases c with
    | write data =>
      simp only [cacheCall, ByteFifo.call]
      split_ifs with hfits
      · exact (h.write hfits).2
      · rw [writeToCache_refused h.wf (.inr (by rw [h.content_eq, h.size_eq]; omega))]
        exact h
    | read rLen =>
      simp only [cacheCall, ByteFifo.call]
      split_ifs with hfits
      · exact (h.read hfits).2
      · rw [readFromCache_refused h.wf rLen (by rw [h.content_eq]; omega)]
        exact h
    | preread rLen =>
      simp only [cacheCall, ByteFifo.call, prereadFromCache_eq]
      split_ifs <;> exact h
    | discard => exact h.discard

theorem stores_init (hsize : size < 0x10000) (hlength : buffer.length = size) :
    Stores size (initHiviewStaticCache buffer size) [] :=
  ⟨.initHiviewStaticCache hsize hlength, Option.some_ne_none _, rfl, rfl⟩

/-- **The cache is a queue of bytes**: calls are answered as by a list of at most `size` bytes, a refused call changes
nothing, prereading shows what a read would take and changes nothing, and no copy leaves the buffer. -/
theorem cache_refines_fifo (hsize : size < 0x10000) (hlength : buffer.length = size) (calls : List CacheCall) :
    answers cacheCall (initHiviewStaticCache buffer size) calls = answers (ByteFifo.call size) [] calls ∧
      ∀ c, ((cacheCall (afterCalls cacheCall (initHiviewStaticCache buffer size) calls) c).1.result = -1 →
          (cacheCall (afterCalls cacheCall (initHiviewStaticCache buffer size) calls) c).2 =
            afterCalls cacheCall (initHiviewStaticCache buffer size) calls) ∧
        (∀ rLen, prereadFromCache (afterCalls cacheCall (initHiviewStaticCache buffer size) calls) rLen =
          ((readFromCache (afterCalls cacheCall (initHiviewStaticCache buffer size) calls) rLen).1,
            afterCalls cacheCall (initHiviewStaticCache buffer size) calls)) ∧
          ∀ r ∈ callRanges (afterCalls cacheCall (initHiviewStaticCache buffer size) calls) c, r.1 + r.2 ≤ size := by
  have hstores := stores_init hsize hlength
  have hlegal : ∀ c ∈ calls, True := fun _ _ => trivial
  have hafter := (cache_simulates size).afterCalls hstores hlegal
  refine ⟨(cache_simulates size).answers_agree hstores hlegal, fun c => ⟨cacheCall_refused, prereadFromCache_eq _, ?_⟩⟩
  intro r hr
  exact hafter.size_eq ▸ callRanges_le hafter.wf hr

/-- Four bytes, of which the last two go round the end of the buffer. -/
theorem cache_refines_fifo_round : answers cacheCall (initHiviewStaticCache [0, 0, 0, 0] 4)
        [.write [1, 2, 3], .read 2, .write [4, 5], .preread 2, .read 3, .read 1] =
      [⟨3, []⟩, ⟨2, [1, 2]⟩, ⟨2, []⟩, ⟨2, [3, 4]⟩, ⟨3, [3, 4, 5]⟩, ⟨-1, []⟩] :=
  (cache_refines_fifo (by decide) rfl _).1.trans (by decide)

end Protoc.Hiview
