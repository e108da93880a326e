import Protoc.Hiview.OutputLog

/-!
# One flush of the binary log

`OutputLog2BinFile` takes a buffer as large as the cache is full, reads record after
record into it and hands the buffer to `WriteToFile`.  It goes on while
`outputSize > len + sizeof(HiLogCommon)`, so a last record that is a header alone is left
in the cache.  A last record with values is read.
-/

namespace Protoc.Hiview

open Protoc.Lib
open List Option

/-! ## The stores of the reader -/

/-- `data` at `tmpBuffer + len`, `none` when it does not fit. -/
def storeWithin (outputSize : ℕ) (tmpBuffer data : List UInt8) : Option (List UInt8) :=
  if tmpBuffer.length + data.length ≤ outputSize then some (tmpBuffer ++ data) else none

theorem storeWithin_of_le {outputSize : ℕ} {tmpBuffer data : List UInt8}
    (h : tmpBuffer.length + data.length ≤ outputSize) :
    storeWithin outputSize tmpBuffer data = some (tmpBuffer ++ data) := if_pos h

theorem storeWithin_eq_some {outputSize : ℕ} {tmpBuffer data stored : List UInt8}
    (h : storeWithin outputSize tmpBuffer data = some stored) : stored = tmpBuffer ++ data := by
  unfold storeWithin at h
  split at h
  · exact (some.inj h).symm
  · cases h

/-- The loop of `OutputLog2BinFile` with its stores checked. -/
def binLoopChecked (b : Build) (outputSize : ℕ) :
    ℕ → HiviewCache → List UInt8 → Option (HiviewCache × List UInt8 × Bool)
  | 0, _, _ => none
  | fuel + 1, cache, tmpBuffer =>
    if cache.usedSize ≥ b.sizeofHiLogCommon ∧
        outputSize > tmpBuffer.length + b.sizeofHiLogCommon then
      match readFromCache cache b.sizeofHiLogCommon with
      | (none, cache) => binLoopChecked b outputSize fuel cache tmpBuffer
      | (some commonContent, cache) =>
        (storeWithin outputSize tmpBuffer commonContent).bind fun tmpBuffer =>
          if commonContent.head? ≠ some LOG_INFO_HEAD then
            some (discardCacheData cache, tmpBuffer, true)
          else
            let valueLen := valueNumber commonContent * b.sizeofUintptr
            if valueLen > 0 then
              match readFromCache cache valueLen with
              | (none, cache) => binLoopChecked b outputSize fuel cache tmpBuffer
              | (some values, cache) => (storeWithin outputSize tmpBuffer values).bind
                  (binLoopChecked b outputSize fuel cache)
            else binLoopChecked b outputSize fuel cache tmpBuffer
    else some (cache, tmpBuffer, false)

/-- `OutputLog2BinFile` with its stores checked. -/
def outputLog2BinFileChecked (b : Build) (s : LogState) (malloc : Bool) : Option LogState :=
  let outputSize := s.g_logCache.usedSize
  if outputSize < b.sizeofHiLogCommon then some s
  else if !malloc then some s
  else
    (binLoopChecked b outputSize (outputSize + 1) s.g_logCache []).map
      fun (cache, tmpBuffer, discarded) =>
        s.flushed ⟨cache, if tmpBuffer.length > 0 then [tmpBuffer] else [], discarded⟩

/-- A checked loop that ends has done what the loop does. -/
theorem binLoop_of_checked (b : Build) (outputSize fuel : ℕ) (cache : HiviewCache)
    (tmpBuffer : List UInt8) {out : HiviewCache × List UInt8 × Bool}
    (h : binLoopChecked b outputSize fuel cache tmpBuffer = some out) :
    binLoop b outputSize fuel cache tmpBuffer = some out := by
  induction fuel generalizing cache tmpBuffer with
  | zero => simp [binLoopChecked] at h
  | succ fuel ih =>
    rw [binLoopChecked] at h
    rw [binLoop]
    by_cases hgo : cache.usedSize ≥ b.sizeofHiLogCommon ∧
        outputSize > tmpBuffer.length + b.sizeofHiLogCommon
    · rw [if_pos hgo] at h ⊢
      rcases hread : readFromCache cache b.sizeofHiLogCommon with ⟨_ | commonContent, cache₁⟩
      · simp only [hread] at h ⊢
        exact ih _ _ h
      · simp only [hread] at h ⊢
        obtain ⟨stored, hstored, h⟩ := bind_eq_some_iff.mp h
        obtain rfl := storeWithin_eq_some hstored
        by_cases hhead : commonContent.head? ≠ some LOG_INFO_HEAD
        · rw [if_pos hhead] at h ⊢
          exact h
        · rw [if_neg hhead] at h ⊢
          by_cases hpos : valueNumber commonContent * b.sizeofUintptr > 0
          · rw [if_pos hpos] at h ⊢
            rcases hread₂ : readFromCache cache₁ (valueNumber commonContent * b.sizeofUintptr)
              with ⟨_ | values, cache₂⟩
            · simp only [hread₂] at h ⊢
              exact ih _ _ h
            · simp only [hread₂] at h ⊢
              obtain ⟨stored, hstored, h⟩ := bind_eq_some_iff.mp h
              obtain rfl := storeWithin_eq_some hstored
              exact ih _ _ h
          · rw [if_neg hpos] at h ⊢
            exact ih _ _ h
    · rw [if_neg hgo] at h ⊢
      exact h

variable {b : Build}

theorem outputLog2BinFile_of_checked {s s' : LogState} {malloc : Bool}
    (h : outputLog2BinFileChecked b s malloc = some s') : outputLog2BinFile b s malloc = some s' := by
  unfold outputLog2BinFileChecked at h
  unfold outputLog2BinFile
  simp only at h ⊢
  split at h
  · rename_i hsmall
    rw [if_pos hsmall]
    exact h
  · rename_i hsmall
    rw [if_neg hsmall]
    split at h
    · rename_i hmalloc
      rw [if_pos hmalloc]
      exact h
    · rename_i hmalloc
      rw [if_neg hmalloc]
      obtain ⟨out, hloop, rfl⟩ := map_eq_some_iff.mp h
      rw [binLoop_of_checked b _ _ _ _ hloop]
      rfl

/-! ## What the loop leaves -/

/-- What the loop leaves of the records: a last one that is no longer than a header. -/
def leftBehind (b : Build) : List (List UInt8) → List (List UInt8)
  | [] => []
  | [last] => if b.sizeofHiLogCommon < last.length then [] else [last]
  | _ :: record :: records => leftBehind b (record :: records)

variable {record : List UInt8}

theorem IsRecord.length_ge (h : IsRecord b record) : b.sizeofHiLogCommon ≤ record.length := by
  obtain ⟨commonContent, values, rfl, hlen, -, -⟩ := h
  simp only [length_append]
  omega

theorem leftBehind_eq_nil_iff (b : Build) (records : List (List UInt8)) : leftBehind b records = [] ↔
      ∀ last, records.getLast? = some last → b.sizeofHiLogCommon < last.length := by
  induction records with
  | nil => simp [leftBehind]
  | cons record records ih =>
    cases records with
    | nil =>
      simp only [leftBehind, List.getLast?_singleton, some.injEq, forall_eq']
      split
      · simp [*]
      · simp [*]
    | cons next records => simpa only [leftBehind, List.getLast?_cons_cons] using ih

theorem leftBehind_subset (b : Build) (records : List (List UInt8)) :
    ∀ record ∈ leftBehind b records, record ∈ records := by
  induction records with
  | nil => simp [leftBehind]
  | cons record records ih =>
    cases records with
    | nil =>
      unfold leftBehind
      split
      · simp
      · simp
    | cons next records => exact fun r hr => .tail _ (ih r hr)

variable {records : List (List UInt8)}

theorem flatten_eq_nil_iff
    (h : ∀ record ∈ records, IsRecord b record) : records.flatten = [] ↔ records = [] := by
  refine ⟨fun hflat => length_eq_zero_iff.mp ?_, fun h => by rw [h, flatten_nil]⟩
  have := length_le_of_records h
  rw [hflat, length_nil] at this
  omega

theorem leftBehind_eq_self (h : ∀ r ∈ record :: records, IsRecord b r)
    (hle : ¬ b.sizeofHiLogCommon < (record :: records).flatten.length) :
    leftBehind b (record :: records) = record :: records := by
  cases records with
  | nil => exact if_neg (by simpa using hle)
  | cons next records =>
    have hlen := (h record (.head _)).length_ge
    have hnext := (h next (.tail _ (.head _))).length_ge
    have hpos := sizeofHiLogCommon_pos b
    simp only [flatten_cons, length_append] at hle
    omega

theorem leftBehind_cons_of_lt (h : b.sizeofHiLogCommon < (record :: records).flatten.length) :
    leftBehind b (record :: records) = leftBehind b records := by
  cases records with
  | nil =>
    have h : b.sizeofHiLogCommon < record.length := by simpa using h
    simp only [leftBehind, if_pos h]
  | cons next records => rfl

/-- **One flush.**  While the buffer and the cache together hold `outputSize` bytes, the
checked loop ends, stores every record but what is left behind, in order, and stays
within the buffer. -/
theorem binLoopChecked_spec (b : Build) (outputSize : ℕ) (records : List (List UInt8))
    (hrecords : ∀ record ∈ records, IsRecord b record) (fuel : ℕ) (hfuel : records.length < fuel)
    (cache : HiviewCache) (hwf : cache.Wf) (hcontent : content cache = records.flatten)
    (tmpBuffer : List UInt8) (hsize : tmpBuffer.length + records.flatten.length = outputSize) :
    ∃ cache' stored, binLoopChecked b outputSize fuel cache tmpBuffer =
        some (cache', tmpBuffer ++ stored, false) ∧ stored ++ (leftBehind b records).flatten = records.flatten ∧
      content cache' = (leftBehind b records).flatten := by
  induction records generalizing fuel cache tmpBuffer with
  | nil =>
    obtain ⟨fuel, rfl⟩ : ∃ n, fuel = n + 1 := ⟨fuel - 1, by simp at hfuel; omega⟩
    have hstop : ¬ (cache.usedSize ≥ b.sizeofHiLogCommon ∧
        outputSize > tmpBuffer.length + b.sizeofHiLogCommon) := by
      simp only [flatten_nil, length_nil] at hsize
      omega
    refine ⟨cache, [], ?_, rfl, hcontent⟩
    rw [binLoopChecked, if_neg hstop, append_nil]
  | cons record records ih =>
    obtain ⟨fuel, rfl⟩ : ∃ n, fuel = n + 1 := ⟨fuel - 1, by omega⟩
    have hfuel : records.length < fuel := by simpa using hfuel
    have hused : cache.usedSize = (record :: records).flatten.length := by
      rw [hwf.usedSize_eq, hcontent]
    by_cases hmore : b.sizeofHiLogCommon < (record :: records).flatten.length
    · -- the record is read: it fits since the rest of the cache does
      have hgo : cache.usedSize ≥ b.sizeofHiLogCommon ∧
          outputSize > tmpBuffer.length + b.sizeofHiLogCommon := by omega
      rw [leftBehind_cons_of_lt hmore]
      have ih := ih (fun r hr => hrecords r (.tail _ hr)) fuel hfuel
      obtain ⟨commonContent, values, rfl, hlen, hhead, hvalues⟩ := hrecords record (.head _)
      simp only [flatten_cons, length_append] at hsize
      obtain ⟨c₁, hread, hwf₁, -, hrest⟩ := readFromCache_header hwf hlen (by simpa using hcontent)
      have hstore : storeWithin outputSize tmpBuffer commonContent =
          some (tmpBuffer ++ commonContent) := storeWithin_of_le (by omega)
      rw [binLoopChecked, if_pos hgo, hread]
      simp only [hstore, bind_some, hhead, ne_eq, not_true_eq_false, if_false]
      rw [← hvalues]
      by_cases hpos : values.length > 0
      · obtain ⟨c₂, hread₂, hwf₂, -, hrest₂⟩ := readFromCache_values hwf₁ hpos hrest
        have hstore₂ : storeWithin outputSize (tmpBuffer ++ commonContent) values =
            some (tmpBuffer ++ commonContent ++ values) :=
          storeWithin_of_le (by simp only [length_append]; omega)
        obtain ⟨c₃, stored, hloop, hstored, hunread⟩ :=
          ih c₂ hwf₂ hrest₂ (tmpBuffer ++ commonContent ++ values)
            (by simp only [length_append]; omega)
        refine ⟨c₃, commonContent ++ values ++ stored, ?_, ?_, hunread⟩
        · simp only [hpos, if_true, hread₂, hstore₂, bind_some, append_assoc]
          simpa only [append_assoc] using hloop
        · rw [append_assoc, hstored, flatten_cons]
      · obtain rfl : values = [] := length_eq_zero_iff.mp (by omega)
        obtain ⟨c₃, stored, hloop, hstored, hunread⟩ :=
          ih c₁ hwf₁ (by simpa using hrest) (tmpBuffer ++ commonContent)
            (by simp only [length_append, length_nil] at hsize ⊢; omega)
        refine ⟨c₃, commonContent ++ stored, ?_, ?_, hunread⟩
        · simp only [hpos, if_false]
          simpa only [append_assoc] using hloop
        · rw [append_assoc, hstored, flatten_cons, append_nil]
    · -- the buffer has room for no more than a header: the loop stops
      have hstop : ¬ (cache.usedSize ≥ b.sizeofHiLogCommon ∧
          outputSize > tmpBuffer.length + b.sizeofHiLogCommon) := by omega
      rw [leftBehind_eq_self hrecords hmore]
      refine ⟨cache, [], ?_, rfl, hcontent⟩
      rw [binLoopChecked, if_neg hstop, append_nil]

/-- What one call leaves: the last record when it is a header alone, everything when it
gets no buffer. -/
def leftByCall (b : Build) (malloc : Bool) (records : List (List UInt8)) : List (List UInt8) :=
  if malloc then leftBehind b records else records

theorem records_eq_nil_of_small (h : ∀ record ∈ records, IsRecord b record)
    (hsmall : records.flatten.length < b.sizeofHiLogCommon) : records = [] := by
  cases records with
  | nil => rfl
  | cons record records =>
    have hlen := (h record (.head _)).length_ge
    simp only [flatten_cons, length_append] at hsmall
    omega

/-- **One call of `OutputLog2BinFile`** ends within its buffer, and of the records it
hands on all but what it leaves. -/
theorem outputLog2BinFileChecked_spec {s : LogState}
    (hwf : s.g_logCache.Wf) (hrecords : ∀ record ∈ records, IsRecord b record)
    (hcontent : content s.g_logCache = records.flatten) (malloc : Bool) :
    ∃ s', outputLog2BinFileChecked b s malloc = some s' ∧
      content s'.g_logCache = (leftByCall b malloc records).flatten ∧
      s'.output.flatten ++ (leftByCall b malloc records).flatten = s.output.flatten ++ records.flatten := by
  unfold outputLog2BinFileChecked
  simp only
  by_cases hsmall : s.g_logCache.usedSize < b.sizeofHiLogCommon
  · rw [if_pos hsmall]
    rw [hwf.usedSize_eq, hcontent] at hsmall
    obtain rfl := records_eq_nil_of_small hrecords hsmall
    refine ⟨s, rfl, ?_, ?_⟩
    · cases malloc <;> exact hcontent
    · cases malloc <;> rfl
  rw [if_neg hsmall]
  cases malloc with
  | false => exact ⟨s, rfl, hcontent, rfl⟩
  | true =>
    have hused : s.g_logCache.usedSize = records.flatten.length := by
      rw [hwf.usedSize_eq, hcontent]
    have hfuel := length_le_of_records hrecords
    obtain ⟨cache, stored, hloop, hstored, hleft⟩ :=
      binLoopChecked_spec b s.g_logCache.usedSize records hrecords
        (s.g_logCache.usedSize + 1) (by omega) s.g_logCache hwf hcontent [] (by simp [hused])
    rw [nil_append] at hloop
    simp only [Bool.not_true, Bool.false_eq_true, if_false, hloop, map_some]
    refine ⟨_, rfl, hleft, ?_⟩
    have hout : (if stored.length > 0 then [stored] else []).flatten = stored := by
      cases stored with
      | nil => rfl
      | cons x xs => simp
    simp only [LogState.flushed, flatten_append, hout, leftByCall, if_true, append_assoc, hstored]

/-! ## When the flush is complete -/

/-- One call empties the cache, hands the bytes of all records on in order and stores
nothing past the end of its buffer. -/
def FlushesAll (b : Build) (s : LogState) (malloc : Bool) (records : List (List UInt8)) : Prop :=
  ∃ s', outputLog2BinFile b s malloc = some s' ∧ outputLog2BinFileChecked b s malloc = some s' ∧
    content s'.g_logCache = [] ∧ s'.output.flatten = s.output.flatten ++ records.flatten

theorem flushesAll_iff_leftByCall {s : LogState}
    (hwf : s.g_logCache.Wf) (hrecords : ∀ record ∈ records, IsRecord b record)
    (hcontent : content s.g_logCache = records.flatten) (malloc : Bool) :
    FlushesAll b s malloc records ↔ leftByCall b malloc records = [] := by
  obtain ⟨s', hcall, hleft, hout⟩ := outputLog2BinFileChecked_spec hwf hrecords hcontent malloc
  have hsub : ∀ record ∈ leftByCall b malloc records, IsRecord b record := by
    intro record hr
    cases malloc with
    | false => exact hrecords record hr
    | true => exact hrecords record (leftBehind_subset b records record hr)
  constructor
  · rintro ⟨t, -, hcall', hempty, -⟩
    cases hcall.symm.trans hcall'
    exact (flatten_eq_nil_iff hsub).mp (hleft.symm.trans hempty)
  · intro hnil
    rw [hnil, flatten_nil] at hleft hout
    exact ⟨s', outputLog2BinFile_of_checked hcall, hcall, hleft, by simpa using hout⟩

/-- Logging to the binary file, every module at every level. -/
def binConfig : HiviewConfig := ⟨3, true, 1, true, 0xFFFF⟩

/-- The cache set up and one line logged with `argsNum` values. -/
def logOne (argsNum : ℤ) : List Action :=
  [.initCoreLogOutput, .hiLogPrintf plainCall 3 4 argsNum 0x100 0 id]

def loggedRecord (argsNum : ℕ) : List UInt8 :=
  contentBytes smallBuild ⟨3, 4, argsNum, 2, 5, 0x100⟩ (List.range argsNum)

theorem isRecord_loggedRecord {argsNum : ℕ} (h : argsNum < 16) : IsRecord smallBuild (loggedRecord argsNum) :=
  isRecord_contentBytes smallBuild _ _ length_range h

end Protoc.Hiview
