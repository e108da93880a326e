import Protoc.Lib.Words
import Protoc.Lib.Run
import Protoc.Hiview.Cache

/-!
# Log records in the cache

`HiLogPrintf` and `HILOG_HashPrintf` build a record, a `HiLogCommon` header followed by
`valueNumber` machine words, and `OutputLog` writes it to `g_logCache`.  Three handlers
read the cache: `OutputLogRealtime` and `OutputLog2TextFile` record by record,
`OutputLog2BinFile` into a buffer.  Each finds the end of a record from the header it
has just read.  A header without `LOG_INFO_HEAD` makes the reader discard the cache.

The model is the build with the cache and the print limit (neither
`DISABLE_HILOG_CACHE` nor `DISABLE_HILOG_LITE_PRINT_LIMIT`).  What does not touch the
cache, formatting, the UART, the file and the messages to the service, is left out: a
step returns the bytes it hands on.
-/

namespace Protoc.Hiview

open Protoc.Lib
open List

/-- `LOG_INFO_HEAD`. -/
def LOG_INFO_HEAD : UInt8 := 0xEC
/-- `LOG_MULTI_PARA_MAX`, the most words of a record. -/
def LOG_MULTI_PARA_MAX : ℕ := 6
/-- `HILOG_MODULE_MAX`. -/
def HILOG_MODULE_MAX : ℕ := 64
/-- `HILOG_COMPILE_LEVEL`. -/
def HILOG_COMPILE_LEVEL : ℕ := 1
/-- `MS_PER_SECOND`. -/
def MS_PER_SECOND : ℕ := 1000

/-- `HiviewOutputOption`, after `GETOPTION`. -/
def OUTPUT_OPTION_DEBUG : ℕ := 0
def OUTPUT_OPTION_FLOW : ℕ := 1
def OUTPUT_OPTION_TEXT_FILE : ℕ := 2

/-- `GETOPTION`. -/
def GETOPTION (opt : ℕ) : ℕ := opt % 8

/-- What a build fixes: the size of a machine word and `LOG_STATIC_CACHE_SIZE`. -/
structure Build where
  sizeofUintptr : ℕ
  sizeofUintptr_le : sizeofUintptr ≤ 8
  LOG_STATIC_CACHE_SIZE : ℕ
  cacheSize_lt : LOG_STATIC_CACHE_SIZE < 0x10000

/-- `sizeof(HiLogCommon)`: the packed fields, `fmt` last. -/
def Build.sizeofHiLogCommon (b : Build) : ℕ := 8 + b.sizeofUintptr

/-- `HiLogCommon`, less its constant head. -/
structure HiLogCommon where
  module : UInt8
  level : ℕ
  valueNumber : ℕ
  task : ℕ
  time : ℕ
  fmt : ℕ
  deriving DecidableEq

/-- The bytes of a header.  `level` and `valueNumber` share a byte. -/
def HiLogCommon.bytes (b : Build) (c : HiLogCommon) : List UInt8 :=
  [LOG_INFO_HEAD, c.module, UInt8.ofNat (c.level % 16 + 16 * (c.valueNumber % 16)),
    UInt8.ofNat c.task] ++ leBytes 4 c.time ++ leBytes b.sizeofUintptr c.fmt

/-- The bytes of a `HiLogContent` up to its last value. -/
def contentBytes (b : Build) (c : HiLogCommon) (values : List ℕ) : List UInt8 :=
  c.bytes b ++ (values.map (leBytes b.sizeofUintptr)).flatten

/-- `valueNumber` of a header in memory. -/
def valueNumber (commonContent : List UInt8) : ℕ := (commonContent.getD 2 0).toNat / 16

/-- The fields of `g_hiviewConfig` that the log component reads. -/
structure HiviewConfig where
  outputOption : ℕ
  hiviewInited : Bool
  level : ℕ
  logSwitch : Bool
  logOutputModule : ℕ
  deriving DecidableEq

/-- The log component: its cache, the configuration, the bytes the readers handed on,
and whether one of them has discarded the cache. -/
structure LogState where
  g_logCache : HiviewCache
  g_hiviewConfig : HiviewConfig
  output : List (List UInt8)
  discarded : Bool
  deriving DecidableEq

def init (config : HiviewConfig) : LogState := ⟨.uninit, config, [], false⟩

/-! ## Writing a record -/

/-- What a call meets: whether the module has a name, the task and the clock, whether
`g_hilogOutputProc` takes the record, and what `LogIsLimited` says. -/
structure CallEnv where
  named : Bool
  taskId : ℕ
  currentTime : ℕ
  hooked : Bool
  isLogLimited : Bool
  deriving DecidableEq

/-- `CheckParameters`. -/
def checkParameters (config : HiviewConfig) (named : Bool) (module : UInt8) (level : ℕ) : Bool :=
  !(decide (level < config.level) || decide (level < HILOG_COMPILE_LEVEL) ||
    decide (module.toNat ≥ HILOG_MODULE_MAX) || !named)

/-- `OutputLog`. -/
def outputLog (s : LogState) (env : CallEnv) (data : List UInt8) : LogState :=
  if env.hooked then s
  else if env.isLogLimited then s
  else if GETOPTION s.g_hiviewConfig.outputOption = OUTPUT_OPTION_DEBUG then s
  else if !s.g_hiviewConfig.hiviewInited then
    { s with g_logCache := (writeToCache s.g_logCache data).2 }
  else
    let (written, cache) := writeToCache s.g_logCache data
    -- the write is tried again after a message has been sent
    if written ≠ data.length then { s with g_logCache := (writeToCache cache data).2 }
    else { s with g_logCache := cache }

/-- The part the two printing functions share once `argsNum` is known. -/
def printRecord (b : Build) (s : LogState) (env : CallEnv) (module : UInt8) (level flags : ℕ)
    (argsNum fmt : ℕ) (args : ℕ → ℕ) : LogState :=
  if s.g_hiviewConfig.logSwitch = false || !checkParameters s.g_hiviewConfig env.named module level
      || !s.g_hiviewConfig.logOutputModule.testBit module.toNat then s
  else
    let common : HiLogCommon :=
      ⟨module, level ||| flags, argsNum, env.taskId, env.currentTime / MS_PER_SECOND, fmt⟩
    outputLog s env (contentBytes b common ((List.range argsNum).map args))

/-- `argsNum` from `nums - FUN_ARG_S`. -/
def validArgsNum (argsNum : ℤ) : Bool := decide (0 ≤ argsNum ∧ argsNum ≤ LOG_MULTI_PARA_MAX)

/-- `HiLogPrintf`.  `argsNum` is `nums - FUN_ARG_S`, `newFmt` the format used when that is
out of range. -/
def hiLogPrintf (b : Build) (s : LogState) (env : CallEnv) (module : UInt8) (level : ℕ)
    (argsNum : ℤ) (fmt newFmt : ℕ) (args : ℕ → ℕ) : LogState :=
  if validArgsNum argsNum then printRecord b s env module level 0 argsNum.toNat fmt args
  else printRecord b s env module level 0 0 newFmt args

/-- `HILOG_HashPrintf`. -/
def hilogHashPrintf (b : Build) (s : LogState) (env : CallEnv) (module : UInt8) (level : ℕ)
    (argsNum : ℤ) (hash : ℕ) (args : ℕ → ℕ) : LogState :=
  printRecord b s env module level 0x8 (if validArgsNum argsNum then argsNum.toNat else 0) hash args

/-! ## Reading records -/

/-- What a reader leaves: the cache, what it handed on, and whether it discarded. -/
structure Flush where
  cache : HiviewCache
  output : List (List UInt8)
  discarded : Bool
  deriving DecidableEq

def Flush.cons (record : List UInt8) (out : Flush) : Flush :=
  { out with output := record :: out.output }

/-- The loop of `OutputLogRealtime` and `OutputLog2TextFile`, which hands each record on
to `LogContentFmt`; `none` when the fuel runs out. -/
def formatLoop (b : Build) : ℕ → HiviewCache → Option Flush
  | 0, _ => none
  | fuel + 1, cache =>
    match readFromCache cache b.sizeofHiLogCommon with
    | (none, cache) => some ⟨cache, [], false⟩
    | (some commonContent, cache) =>
      if commonContent.head? ≠ some LOG_INFO_HEAD then
        some ⟨discardCacheData cache, [], true⟩
      else
        let len := valueNumber commonContent * b.sizeofUintptr
        if len > 0 then
          match readFromCache cache len with
          | (none, cache) => formatLoop b fuel cache
          | (some values, cache) => (formatLoop b fuel cache).map (.cons (commonContent ++ values))
        else (formatLoop b fuel cache).map (.cons commonContent)

/-- The loop of `OutputLog2BinFile`: `tmpBuffer` holds `len` bytes.  `none` when the fuel
runs out. -/
def binLoop (b : Build) (outputSize : ℕ) :
    ℕ → HiviewCache → List UInt8 → Option (HiviewCache × List UInt8 × Bool)
  | 0, _, _ => none
  | fuel + 1, cache, tmpBuffer =>
    if cache.usedSize ≥ b.sizeofHiLogCommon ∧
        outputSize > tmpBuffer.length + b.sizeofHiLogCommon then
      match readFromCache cache b.sizeofHiLogCommon with
      | (none, cache) => binLoop b outputSize fuel cache tmpBuffer
      | (some commonContent, cache) =>
        let tmpBuffer := tmpBuffer ++ commonContent
        if commonContent.head? ≠ some LOG_INFO_HEAD then
          some (discardCacheData cache, tmpBuffer, true)
        else
          let valueLen := valueNumber commonContent * b.sizeofUintptr
          if valueLen > 0 then
            match readFromCache cache valueLen with
            | (none, cache) => binLoop b outputSize fuel cache tmpBuffer
            | (some values, cache) => binLoop b outputSize fuel cache (tmpBuffer ++ values)
          else binLoop b outputSize fuel cache tmpBuffer
    else some (cache, tmpBuffer, false)

def LogState.flushed (s : LogState) (out : Flush) : LogState :=
  { s with g_logCache := out.cache, output := s.output ++ out.output
           discarded := s.discarded || out.discarded }

/-- `OutputLogRealtime`. -/
def outputLogRealtime (b : Build) (s : LogState) : Option LogState :=
  if GETOPTION s.g_hiviewConfig.outputOption ≠ OUTPUT_OPTION_FLOW then some s
  else (formatLoop b (s.g_logCache.usedSize + 1) s.g_logCache).map s.flushed

/-- `OutputLog2TextFile`. -/
def outputLog2TextFile (b : Build) (s : LogState) : Option LogState :=
  if GETOPTION s.g_hiviewConfig.outputOption ≠ OUTPUT_OPTION_TEXT_FILE then some s
  else if s.g_logCache.usedSize < b.sizeofHiLogCommon then some s
  else (formatLoop b (s.g_logCache.usedSize + 1) s.g_logCache).map s.flushed

/-- `OutputLog2BinFile`; `malloc` says whether it gets its buffer. -/
def outputLog2BinFile (b : Build) (s : LogState) (malloc : Bool) : Option LogState :=
  let outputSize := s.g_logCache.usedSize
  if outputSize < b.sizeofHiLogCommon then some s
  else if !malloc then some s
  else
    (binLoop b outputSize (outputSize + 1) s.g_logCache []).map fun (cache, tmpBuffer, discarded) =>
      s.flushed ⟨cache, if tmpBuffer.length > 0 then [tmpBuffer] else [], discarded⟩

/-- The steps of the component, taken one at a time. -/
inductive Action
  /-- `InitCoreLogOutput`. -/
  | initCoreLogOutput
  /-- Somebody changes the configuration. -/
  | setConfig (config : HiviewConfig)
  /-- `HiLogPrintf`. -/
  | hiLogPrintf (env : CallEnv) (module : UInt8) (level : ℕ) (argsNum : ℤ) (fmt newFmt : ℕ)
      (args : ℕ → ℕ)
  /-- `HILOG_HashPrintf`. -/
  | hilogHashPrintf (env : CallEnv) (module : UInt8) (level : ℕ) (argsNum : ℤ) (hash : ℕ)
      (args : ℕ → ℕ)
  /-- `OutputLogRealtime`. -/
  | outputLogRealtime
  /-- `OutputLog2TextFile`. -/
  | outputLog2TextFile
  /-- `OutputLog2BinFile`. -/
  | outputLog2BinFile (malloc : Bool)

/-- One step; `none` would be a reader that does not come to an end. -/
def step (b : Build) (s : LogState) : Action → Option LogState
  | .initCoreLogOutput =>
    let g_logCacheBuffer := match s.g_logCache.buffer with
      | some buffer => buffer
      | none => replicate b.LOG_STATIC_CACHE_SIZE 0
    some { s with
      g_logCache := initHiviewStaticCache g_logCacheBuffer b.LOG_STATIC_CACHE_SIZE }
  | .setConfig config => some { s with g_hiviewConfig := config }
  | .hiLogPrintf env module level argsNum fmt newFmt args =>
    some (hiLogPrintf b s env module level argsNum fmt newFmt args)
  | .hilogHashPrintf env module level argsNum hash args =>
    some (hilogHashPrintf b s env module level argsNum hash args)
  | .outputLogRealtime => outputLogRealtime b s
  | .outputLog2TextFile => outputLog2TextFile b s
  | .outputLog2BinFile malloc => outputLog2BinFile b s malloc

/-! ## Whole records -/

/-- A whole record: a header with its head byte and as many words as it announces. -/
def IsRecord (b : Build) (record : List UInt8) : Prop :=
  ∃ commonContent values, record = commonContent ++ values ∧
    commonContent.length = b.sizeofHiLogCommon ∧ commonContent.head? = some LOG_INFO_HEAD ∧
    values.length = valueNumber commonContent * b.sizeofUintptr

def Framed (b : Build) (bytes : List UInt8) : Prop :=
  ∃ records : List (List UInt8), (∀ record ∈ records, IsRecord b record) ∧ bytes = records.flatten

theorem framed_nil (b : Build) : Framed b [] := ⟨[], by simp, rfl⟩

variable {b : Build}

theorem Framed.append {bytes record : List UInt8} (h : Framed b bytes)
    (hr : IsRecord b record) : Framed b (bytes ++ record) := by
  obtain ⟨records, hall, rfl⟩ := h
  refine ⟨records ++ [record], fun r hr' => ?_, by simp⟩
  rcases mem_append.mp hr' with h | h
  · exact hall r h
  · obtain rfl := mem_singleton.mp h
    exact hr

@[simp] theorem length_bytes (b : Build) (c : HiLogCommon) : (c.bytes b).length = b.sizeofHiLogCommon := by
  simp [HiLogCommon.bytes, Build.sizeofHiLogCommon]
  omega

@[simp] theorem head_bytes (b : Build) (c : HiLogCommon) :
    (c.bytes b).head? = some LOG_INFO_HEAD := rfl

theorem valueNumber_bytes (b : Build) (c : HiLogCommon) (h : c.valueNumber < 16) :
    valueNumber (c.bytes b) = c.valueNumber := by
  simp [valueNumber, HiLogCommon.bytes]
  omega

theorem length_values (b : Build) (values : List ℕ) :
    ((values.map (leBytes b.sizeofUintptr)).flatten).length = values.length * b.sizeofUintptr := by
  induction values with
  | nil => simp
  | cons v values ih =>
    simp only [map_cons, flatten_cons, length_append, length_leBytes, ih, length_cons, Nat.succ_mul]
    omega

theorem isRecord_contentBytes (b : Build) (c : HiLogCommon) (values : List ℕ)
    (h : values.length = c.valueNumber) (hlt : c.valueNumber < 16) : IsRecord b (contentBytes b c values) :=
  ⟨c.bytes b, _, rfl, length_bytes b c, head_bytes b c, by
    rw [length_values, h, valueNumber_bytes b c hlt]⟩

theorem sizeofHiLogCommon_pos (b : Build) : 0 < b.sizeofHiLogCommon := by
  unfold Build.sizeofHiLogCommon
  omega

theorem length_le_of_records {records : List (List UInt8)}
    (h : ∀ record ∈ records, IsRecord b record) : records.length ≤ records.flatten.length := by
  induction records with
  | nil => simp
  | cons record records ih =>
    have ih := ih fun r hr => h r (.tail _ hr)
    obtain ⟨commonContent, values, rfl, hlen, -, -⟩ := h record (.head _)
    have := sizeofHiLogCommon_pos b
    simp only [length_cons, flatten_cons, length_append]
    omega

/-! ## The readers consume whole records -/

variable {cache : HiviewCache}

theorem buffer_ne_none_of_content (h : content cache ≠ []) : cache.buffer ≠ none := by
  intro hb
  simp [content, hb] at h

theorem readFromCache_header (hwf : cache.Wf)
    {commonContent values rest : List UInt8} (hlen : commonContent.length = b.sizeofHiLogCommon)
    (hcontent : content cache = commonContent ++ values ++ rest) :
    ∃ cache', readFromCache cache b.sizeofHiLogCommon = (some commonContent, cache') ∧
      cache'.Wf ∧ SameShape cache cache' ∧ content cache' = values ++ rest := by
  have hpos := sizeofHiLogCommon_pos b
  have hne : content cache ≠ [] := by
    intro h
    have := congrArg List.length (hcontent.symm.trans h)
    simp only [length_append, length_nil] at this
    omega
  obtain ⟨hread, hwf', hrest⟩ := content_readFromCache hwf (buffer_ne_none_of_content hne)
    b.sizeofHiLogCommon (by rw [hcontent]; simp only [length_append]; omega)
  refine ⟨(readFromCache cache b.sizeofHiLogCommon).2, Prod.ext ?_ rfl, hwf', sameShape_readFromCache .., ?_⟩
  · rw [hread, hcontent, append_assoc, take_left' hlen]
  · rw [hrest, hcontent, append_assoc, drop_left' hlen]

theorem readFromCache_values (hwf : cache.Wf) {values rest : List UInt8}
    (hpos : 0 < values.length) (hcontent : content cache = values ++ rest) :
    ∃ cache', readFromCache cache values.length = (some values, cache') ∧
      cache'.Wf ∧ SameShape cache cache' ∧ content cache' = rest := by
  have hne : content cache ≠ [] := by
    intro h
    have := congrArg List.length (hcontent.symm.trans h)
    simp only [length_append, length_nil] at this
    omega
  obtain ⟨hread, hwf', hrest⟩ := content_readFromCache hwf (buffer_ne_none_of_content hne)
    values.length (by rw [hcontent]; simp)
  refine ⟨(readFromCache cache values.length).2, Prod.ext ?_ rfl, hwf', sameShape_readFromCache .., ?_⟩
  · rw [hread, hcontent, take_left' rfl]
  · rw [hrest, hcontent, drop_left' rfl]

/-- **The formatting readers** come to an end, hand on the records in order and leave
the cache empty. -/
theorem formatLoop_spec (b : Build) (records : List (List UInt8))
    (hrecords : ∀ record ∈ records, IsRecord b record) (fuel : ℕ) (hfuel : records.length < fuel)
    (cache : HiviewCache) (hwf : cache.Wf) (hcontent : content cache = records.flatten) :
    ∃ cache', formatLoop b fuel cache = some ⟨cache', records, false⟩ ∧ cache'.Wf ∧
      SameShape cache cache' ∧ content cache' = [] := by
  induction records generalizing fuel cache with
  | nil =>
    obtain ⟨fuel, rfl⟩ : ∃ n, fuel = n + 1 := ⟨fuel - 1, by simp at hfuel; omega⟩
    have hread := readFromCache_refused hwf b.sizeofHiLogCommon
      (by rw [hcontent]; simpa using sizeofHiLogCommon_pos b)
    exact ⟨cache, by simp only [formatLoop, hread], hwf, .refl cache, by simpa using hcontent⟩
  | cons record records ih =>
    obtain ⟨fuel, rfl⟩ : ∃ n, fuel = n + 1 := ⟨fuel - 1, by omega⟩
    have hfuel : records.length < fuel := by simpa using hfuel
    have ih := ih (fun r hr => hrecords r (.tail _ hr)) fuel hfuel
    obtain ⟨commonContent, values, rfl, hlen, hhead, hvalues⟩ := hrecords record (.head _)
    obtain ⟨c₁, hread, hwf₁, hshape₁, hrest⟩ := readFromCache_header hwf hlen
      (by simpa using hcontent)
    simp only [formatLoop, hread, hhead, ne_eq, not_true_eq_false, if_false]
    rw [← hvalues]
    by_cases hpos : values.length > 0
    · obtain ⟨c₂, hread₂, hwf₂, hshape₂, hrest₂⟩ := readFromCache_values hwf₁ hpos hrest
      obtain ⟨c₃, hloop, hwf₃, hshape₃, hempty⟩ := ih c₂ hwf₂ hrest₂
      refine ⟨c₃, ?_, hwf₃, (hshape₁.trans hshape₂).trans hshape₃, hempty⟩
      simp only [hpos, if_true, hread₂, hloop, Option.map_some, Flush.cons]
    · obtain rfl : values = [] := length_eq_zero_iff.mp (by omega)
      obtain ⟨c₃, hloop, hwf₃, hshape₃, hempty⟩ := ih c₁ hwf₁ (by simpa using hrest)
      refine ⟨c₃, ?_, hwf₃, hshape₁.trans hshape₃, hempty⟩
      simp only [hpos, if_false, hloop, Option.map_some, Flush.cons, append_nil]

/-- **The binary reader** comes to an end and leaves whole records: it stops between
two of them. -/
theorem binLoop_spec (b : Build) (outputSize : ℕ) (records : List (List UInt8))
    (hrecords : ∀ record ∈ records, IsRecord b record) (fuel : ℕ) (hfuel : records.length < fuel)
    (cache : HiviewCache) (hwf : cache.Wf) (hcontent : content cache = records.flatten)
    (tmpBuffer : List UInt8) : ∃ cache' read unread, binLoop b outputSize fuel cache tmpBuffer =
        some (cache', tmpBuffer ++ read.flatten, false) ∧
      records = read ++ unread ∧ cache'.Wf ∧ SameShape cache cache' ∧ content cache' = unread.flatten := by
  induction records generalizing fuel cache tmpBuffer with
  | nil =>
    obtain ⟨fuel, rfl⟩ : ∃ n, fuel = n + 1 := ⟨fuel - 1, by simp at hfuel; omega⟩
    refine ⟨cache, [], [], ?_, rfl, hwf, .refl cache, hcontent⟩
    have hstop : ¬ cache.usedSize ≥ b.sizeofHiLogCommon := by
      rw [hwf.usedSize_eq, hcontent]
      have := sizeofHiLogCommon_pos b
      simp only [flatten_nil, length_nil]
      omega
    simp [binLoop, hstop]
  | cons record records ih =>
    obtain ⟨fuel, rfl⟩ : ∃ n, fuel = n + 1 := ⟨fuel - 1, by omega⟩
    have hfuel : records.length < fuel := by simpa using hfuel
    have ih := ih (fun r hr => hrecords r (.tail _ hr)) fuel hfuel
    obtain ⟨commonContent, values, rfl, hlen, hhead, hvalues⟩ := hrecords record (.head _)
    by_cases hgo : cache.usedSize ≥ b.sizeofHiLogCommon ∧
        outputSize > tmpBuffer.length + b.sizeofHiLogCommon
    · obtain ⟨c₁, hread, hwf₁, hshape₁, hrest⟩ := readFromCache_header hwf hlen
        (by simpa using hcontent)
      simp only [binLoop, hgo, and_self, if_true, hread, hhead, ne_eq, not_true_eq_false, if_false]
      rw [← hvalues]
      by_cases hpos : values.length > 0
      · obtain ⟨c₂, hread₂, hwf₂, hshape₂, hrest₂⟩ := readFromCache_values hwf₁ hpos hrest
        obtain ⟨c₃, read, unread, hloop, rfl, hwf₃, hshape₃, hunread⟩ :=
          ih c₂ hwf₂ hrest₂ (tmpBuffer ++ commonContent ++ values)
        refine ⟨c₃, (commonContent ++ values) :: read, unread, ?_, rfl, hwf₃,
          (hshape₁.trans hshape₂).trans hshape₃, hunread⟩
        simp only [hpos, if_true, hread₂]
        rw [hloop]
        simp
      · obtain rfl : values = [] := length_eq_zero_iff.mp (by omega)
        obtain ⟨c₃, read, unread, hloop, rfl, hwf₃, hshape₃, hunread⟩ :=
          ih c₁ hwf₁ (by simpa using hrest) (tmpBuffer ++ commonContent)
        refine ⟨c₃, (commonContent ++ []) :: read, unread, ?_, rfl, hwf₃, hshape₁.trans hshape₃, hunread⟩
        simp only [hpos, if_false]
        rw [hloop]
        simp
    · exact ⟨cache, [], _, by simp [binLoop, hgo], rfl, hwf, .refl cache, hcontent⟩

/-! ## The invariant -/

/-- The cache is well formed and framed, and nobody has discarded it. -/
structure Inv (b : Build) (s : LogState) : Prop where
  wf : s.g_logCache.Wf
  size : s.g_logCache.buffer ≠ none → s.g_logCache.size = b.LOG_STATIC_CACHE_SIZE
  framed : Framed b (content s.g_logCache)
  kept : s.discarded = false

theorem inv_init (b : Build) (config : HiviewConfig) : Inv b (init config) :=
  ⟨.uninit, by simp [init, HiviewCache.uninit], framed_nil b, rfl⟩

theorem size_of_sameShape {cache cache' : HiviewCache} (h : SameShape cache cache')
    (hsize : cache.buffer ≠ none → cache.size = b.LOG_STATIC_CACHE_SIZE) :
    cache'.buffer ≠ none → cache'.size = b.LOG_STATIC_CACHE_SIZE := fun hb =>
  h.1.trans (hsize fun hnone => hb (h.2.mpr hnone))

variable {s : LogState}

theorem inv_write (hi : Inv b s) {record : List UInt8} (hr : IsRecord b record) :
    Inv b { s with g_logCache := (writeToCache s.g_logCache record).2 } := by
  have hsize := size_of_sameShape (sameShape_writeToCache s.g_logCache record) hi.size
  by_cases hfits : s.g_logCache.buffer = none ∨
      s.g_logCache.size < (content s.g_logCache).length + record.length
  · have hwrite := writeToCache_refused hi.wf hfits
    refine ⟨?_, hsize, ?_, hi.kept⟩
    · rw [hwrite]
      exact hi.wf
    · rw [hwrite]
      exact hi.framed
  · rw [not_or, not_lt] at hfits
    obtain ⟨-, hwf, hcontent⟩ := content_writeToCache hi.wf hfits.1 hfits.2
    exact ⟨hwf, hsize, by rw [hcontent]; exact hi.framed.append hr, hi.kept⟩

theorem inv_outputLog (hi : Inv b s) (env : CallEnv)
    {record : List UInt8} (hr : IsRecord b record) : Inv b (outputLog s env record) := by
  have hwrite := inv_write hi hr
  unfold outputLog
  split
  · exact hi
  split
  · exact hi
  split
  · exact hi
  split
  · exact hwrite
  simp only
  split
  · exact inv_write hwrite hr
  · exact hwrite

theorem inv_printRecord (hi : Inv b s) (env : CallEnv) (module : UInt8)
    (level flags : ℕ) {argsNum : ℕ} (hargs : argsNum ≤ LOG_MULTI_PARA_MAX) (fmt : ℕ)
    (args : ℕ → ℕ) : Inv b (printRecord b s env module level flags argsNum fmt args) := by
  unfold printRecord
  split
  · exact hi
  · refine inv_outputLog hi env (isRecord_contentBytes b _ _ (by simp) ?_)
    simp only [LOG_MULTI_PARA_MAX] at hargs
    simp only
    omega

theorem toNat_le_of_valid {argsNum : ℤ} (h : validArgsNum argsNum = true) :
    argsNum.toNat ≤ LOG_MULTI_PARA_MAX := by
  have := of_decide_eq_true h
  simp only [LOG_MULTI_PARA_MAX] at *
  omega

theorem inv_flushed (hi : Inv b s)
    {output : List (List UInt8)} (hwf : cache.Wf) (hshape : SameShape s.g_logCache cache)
    (hframed : Framed b (content cache)) : Inv b (s.flushed ⟨cache, output, false⟩) :=
  ⟨hwf, size_of_sameShape hshape hi.size, hframed, by simp [LogState.flushed, hi.kept]⟩

theorem inv_formatLoop (hi : Inv b s) :
    ∃ s', (formatLoop b (s.g_logCache.usedSize + 1) s.g_logCache).map s.flushed = some s' ∧ Inv b s' := by
  obtain ⟨records, hrecords, hcontent⟩ := hi.framed
  have hfuel := length_le_of_records hrecords
  rw [← hcontent, ← hi.wf.usedSize_eq] at hfuel
  obtain ⟨cache, hloop, hwf, hshape, hempty⟩ := formatLoop_spec b records hrecords
    (s.g_logCache.usedSize + 1) (by omega) s.g_logCache hi.wf hcontent
  rw [hloop]
  exact ⟨_, rfl, inv_flushed hi hwf hshape (hempty ▸ framed_nil b)⟩

theorem inv_binLoop (hi : Inv b s) : ∃ s', outputLog2BinFile b s true = some s' ∧ Inv b s' := by
  unfold outputLog2BinFile
  simp only [Bool.not_true, Bool.false_eq_true, if_false]
  split
  · exact ⟨s, rfl, hi⟩
  · obtain ⟨records, hrecords, hcontent⟩ := hi.framed
    have hfuel := length_le_of_records hrecords
    rw [← hcontent, ← hi.wf.usedSize_eq] at hfuel
    obtain ⟨cache, read, unread, hloop, rfl, hwf, hshape, hunread⟩ :=
      binLoop_spec b s.g_logCache.usedSize records hrecords (s.g_logCache.usedSize + 1) (by omega)
        s.g_logCache hi.wf hcontent []
    rw [hloop]
    refine ⟨_, rfl, inv_flushed hi hwf hshape ⟨unread, fun r hr => ?_, hunread⟩⟩
    exact hrecords r (mem_append_right _ hr)

/-- Every step has a result and keeps the invariant. -/
theorem inv_step_exists (b : Build) (s : LogState) (a : Action) (hi : Inv b s) :
    ∃ s', step b s a = some s' ∧ Inv b s' := by
  cases a with
  | initCoreLogOutput =>
    refine ⟨_, rfl, ?_, fun _ => rfl, by simpa [content, initHiviewStaticCache] using framed_nil b,
      hi.kept⟩
    refine .initHiviewStaticCache b.cacheSize_lt ?_
    cases hb : s.g_logCache.buffer with
    | none => simp
    | some buffer => rw [hi.wf.buffer_length buffer hb, hi.size (by simp [hb])]
  | setConfig config => exact ⟨_, rfl, hi.wf, hi.size, hi.framed, hi.kept⟩
  | hiLogPrintf env module level argsNum fmt newFmt args =>
    refine ⟨_, rfl, ?_⟩
    unfold hiLogPrintf
    split
    · exact inv_printRecord hi _ _ _ _ (toNat_le_of_valid ‹_›) _ _
    · exact inv_printRecord hi _ _ _ _ (Nat.zero_le _) _ _
  | hilogHashPrintf env module level argsNum hash args =>
    refine ⟨_, rfl, ?_⟩
    unfold hilogHashPrintf
    split
    · exact inv_printRecord hi _ _ _ _ (toNat_le_of_valid ‹_›) _ _
    · exact inv_printRecord hi _ _ _ _ (Nat.zero_le _) _ _
  | outputLogRealtime =>
    simp only [step, outputLogRealtime]
    split
    · exact ⟨s, rfl, hi⟩
    · exact inv_formatLoop hi
  | outputLog2TextFile =>
    simp only [step, outputLog2TextFile]
    split
    · exact ⟨s, rfl, hi⟩
    split
    · exact ⟨s, rfl, hi⟩
    · exact inv_formatLoop hi
  | outputLog2BinFile malloc =>
    cases malloc with
    | true => exact inv_binLoop hi
    | false =>
      simp only [step, outputLog2BinFile, Bool.not_false, if_true]
      split
      · exact ⟨s, rfl, hi⟩
      · exact ⟨s, rfl, hi⟩

theorem inv_step (b : Build) (s : LogState) (a : Action) (s' : LogState) (hi : Inv b s)
    (h : step b s a = some s') : Inv b s' := by
  obtain ⟨t, ht, hinv⟩ := inv_step_exists b s a hi
  cases ht.symm.trans h
  exact hinv

/-! ## Log cache framing -/

/-- **Log cache framing.**  In every reachable state the unread content of the cache is
a concatenation of whole records, no reader has met a header without its head byte and
discarded the cache, and every call comes to an end. -/
theorem log_cache_framed {b : Build} {config : HiviewConfig} {as : List Action} {s : LogState}
    (run : Runs (step b) AnyStep (init config) as s) :
    Framed b (content s.g_logCache) ∧ s.discarded = false ∧ ∀ a, (step b s a).isSome := by
  have hi := run.invariant_of_step (inv_step b) (inv_init b config)
  refine ⟨hi.framed, hi.kept, fun a => ?_⟩
  obtain ⟨s', h, -⟩ := inv_step_exists b s a hi
  simp [h]

/-- A small build: words of four bytes and a cache of forty. -/
def smallBuild : Build := ⟨4, by decide, 40, by decide⟩

def flowConfig : HiviewConfig := ⟨1, true, 1, true, 0xFFFF⟩

def plainCall : CallEnv := ⟨true, 2, 5000, false, false⟩

/-- Two records of which the second no longer fits, then a flush and the second again. -/
def writeFlushWrite : List Action := [.initCoreLogOutput, .hiLogPrintf plainCall 3 4 3 0x100 0 id,
    .hiLogPrintf plainCall 3 4 2 0x200 0 id, .outputLogRealtime,
    .hiLogPrintf plainCall 3 4 2 0x200 0 id]

/-- The cache after `writeFlushWrite` holds the second record, round its end. -/
theorem log_cache_framed_writeFlushWrite :
    ∃ s, Runs (step smallBuild) AnyStep (init flowConfig) writeFlushWrite s ∧
      Framed smallBuild (content s.g_logCache) ∧ s.output.length = 1 ∧
      (content s.g_logCache).length = 20 := by
  obtain ⟨s, hs, hlen, hout⟩ : ∃ s, exec (step smallBuild) (init flowConfig) writeFlushWrite =
      some s ∧ (content s.g_logCache).length = 20 ∧ s.output.length = 1 := by
    decide
  have run := runs_of_exec hs
  exact ⟨s, run, (log_cache_framed run).1, hout, hlen⟩

end Protoc.Hiview
