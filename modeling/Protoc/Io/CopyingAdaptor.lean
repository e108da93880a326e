import Mathlib.Data.List.Infix
import Protoc.Io.CopyingOutput
import Protoc.Lib.Run

/-!
# The bytes behind a copying adaptor

`CopyingOutputStreamAdaptor` with the bytes of its block.  `WriteBuffer` hands the block to `Write`
and remembers a failure; `WriteAliasedRaw` hands a long run of bytes to `Write` directly, and does
not.

What is below is any function of the bytes, so that the results of its calls may come in any
sequence.  `Recorder` stands between it and the adaptor and keeps what went through.
-/

namespace Protoc.Io

open Protoc.Lib
open List Option

/-! ## The adaptor -/

/-- `CopyingOutputStreamAdaptor`; the length of `buffer` is `buffer_used_`. -/
@[ext] structure CopyingAdaptor (σ : Type) where
  copyingStream : σ
  failed : Bool
  position : ℕ
  bufferSize : ℕ
  buffer : List UInt8
  bufferSize_pos : 0 < bufferSize
  buffer_le : buffer.length ≤ bufferSize

namespace CopyingAdaptor
variable {σ : Type}

/-- The constructor. -/
def ofStream (copyingStream : σ) (blockSize : ℤ) : CopyingAdaptor σ where
  copyingStream
  failed := false
  position := 0
  bufferSize := if 0 < blockSize then blockSize.toNat else kDefaultBlockSize
  buffer := []
  bufferSize_pos := by
    split
    · omega
    · decide
  buffer_le := Nat.zero_le _

/-- `ByteCount`. -/
def byteCount (a : CopyingAdaptor σ) : ℕ := a.position + a.buffer.length

def free (a : CopyingAdaptor σ) : ℕ := a.bufferSize - a.buffer.length

/-- Bytes of the caller behind those in the block. -/
def append (a : CopyingAdaptor σ) (bytes : List UInt8) (h : bytes.length ≤ a.free) : CopyingAdaptor σ :=
  { a with
    buffer := a.buffer ++ bytes
    buffer_le := by
      have hle := a.buffer_le
      rw [free] at h
      rw [length_append]
      omega }

def fill (memory : ℕ → UInt8) (a : CopyingAdaptor σ) : CopyingAdaptor σ :=
  a.append ((List.range a.free).map memory) (by simp)

/-- `BackUp`; `none` where a check fails. -/
def backUp (a : CopyingAdaptor σ) (count : ℤ) : Option (CopyingAdaptor σ) :=
  if 0 ≤ count ∧ a.buffer.length = a.bufferSize ∧ count ≤ a.buffer.length then
    some { a with
      buffer := a.buffer.take (a.buffer.length - count.toNat)
      buffer_le := (length_take_le' _ _).trans a.buffer_le }
  else none

section
variable (write : List UInt8 → σ → Bool × σ)

/-- `WriteBuffer`. -/
def writeBuffer (a : CopyingAdaptor σ) : Bool × CopyingAdaptor σ :=
  if a.failed then (false, a)
  else if a.buffer = [] then (true, a)
  else
    let r := write a.buffer a.copyingStream
    if r.1 then
      (true, { a with
        copyingStream := r.2
        position := a.position + a.buffer.length
        buffer := []
        buffer_le := Nat.zero_le _ })
    else
      (false, { a with copyingStream := r.2, failed := true, buffer := [], buffer_le := Nat.zero_le _ })

/-- `Flush`. -/
def flush (a : CopyingAdaptor σ) : Bool × CopyingAdaptor σ := a.writeBuffer write

/-- `Next`: the size of the buffer handed out; `memory` is what the caller puts into it. -/
def next (memory : ℕ → UInt8) (a : CopyingAdaptor σ) : Option ℕ × CopyingAdaptor σ :=
  let r := if a.buffer.length = a.bufferSize then a.writeBuffer write else (true, a)
  if r.1 then
    (some r.2.free, r.2.fill memory)
  else (none, r.2)

theorem buffer_of_writeBuffer {a : CopyingAdaptor σ} (h : (a.writeBuffer write).1 = true) :
    (a.writeBuffer write).2.buffer = [] := by
  rw [writeBuffer] at h ⊢
  split
  · next hfailed => simp [hfailed] at h
  · split
    · assumption
    · dsimp only
      split <;> rfl

theorem bufferSize_writeBuffer (a : CopyingAdaptor σ) : (a.writeBuffer write).2.bufferSize = a.bufferSize := by
  rw [writeBuffer]
  split
  · rfl
  · split
    · rfl
    · dsimp only
      split <;> rfl

variable {memory : ℕ → UInt8}

theorem pos_of_next {a : CopyingAdaptor σ} {size : ℕ} (h : (a.next write memory).1 = some size) : 0 < size := by
  have hle := a.buffer_le
  rw [next] at h
  by_cases hfull : a.buffer.length = a.bufferSize
  · rw [if_pos hfull] at h
    by_cases hok : (a.writeBuffer write).1 = true
    · rw [if_pos hok] at h
      cases h
      have hpos := (a.writeBuffer write).2.bufferSize_pos
      rw [free, buffer_of_writeBuffer write hok]
      exact hpos
    · rw [if_neg hok] at h
      cases h
  · rw [if_neg hfull, if_pos rfl] at h
    cases h
    exact Nat.sub_pos_of_lt (Nat.lt_of_le_of_ne hle hfull)

/-- The loop of `WriteAliasedRaw`, which copies the bytes to one block after the other. -/
def copyLoop (a : CopyingAdaptor σ) (data : List UInt8) : Option (Bool × CopyingAdaptor σ) :=
  match _h : a.next write (data.getD · 0) with
  | (none, a') => some (false, a')
  | (some outSize, a') =>
    if data.length ≤ outSize then
      (a'.backUp (outSize - data.length : ℕ)).map fun a' => (true, a')
    else copyLoop a' (data.drop outSize)
termination_by data.length
decreasing_by
  have hpos := pos_of_next write (congrArg Prod.fst _h)
  rw [length_drop]
  omega

/-- `WriteAliasedRaw`. -/
def writeAliasedRaw (a : CopyingAdaptor σ) (data : List UInt8) : Option (Bool × CopyingAdaptor σ) :=
  if a.bufferSize ≤ data.length then
    let flushed := a.flush write
    if flushed.1 then
      let r := write data flushed.2.copyingStream
      if r.1 then
        some (true, { flushed.2 with
          copyingStream := r.2, position := flushed.2.position + data.length })
      else some (false, { flushed.2 with copyingStream := r.2 })
    else some (false, flushed.2)
  else a.copyLoop write data

/-! ### What the calls do -/

variable {a : CopyingAdaptor σ} {data : List UInt8}

theorem next_of_room (h : a.buffer.length ≠ a.bufferSize) :
    a.next write memory = (some a.free, a.fill memory) := by
  rw [next, if_neg h]
  rfl

theorem next_of_full (h : a.buffer.length = a.bufferSize) : a.next write memory =
      if (a.writeBuffer write).1 then
        (some (a.writeBuffer write).2.free, (a.writeBuffer write).2.fill memory)
      else (none, (a.writeBuffer write).2) := by
  rw [next, if_pos h]

theorem take_memory (data : List UInt8) (size : ℕ) :
    ((List.range size).map (data.getD · 0)).take data.length = data.take size := by
  apply ext_getElem
  · simp [Nat.min_comm]
  · intro i hi hi'
    simp only [length_take] at hi'
    simp [show i < data.length by omega]

theorem length_fill (a : CopyingAdaptor σ) (memory : ℕ → UInt8) :
    (a.fill memory).buffer.length = a.bufferSize := by
  have hle := a.buffer_le
  simp only [fill, append, length_append, length_map, length_range]
  rw [free]
  omega

theorem backUp_fill (h : data.length ≤ a.free) :
    (a.fill (data.getD · 0)).backUp (a.free - data.length : ℕ) = some (a.append data h) := by
  have hle := a.buffer_le
  have hlength := a.length_fill (data.getD · 0)
  have hfree : a.free = a.bufferSize - a.buffer.length := rfl
  rw [backUp, if_pos ⟨Int.natCast_nonneg _, hlength, by rw [hlength]; omega⟩]
  refine congrArg some (CopyingAdaptor.ext rfl rfl rfl rfl ?_)
  dsimp only [append]
  rw [hlength, Int.toNat_natCast]
  dsimp only [fill, append]
  rw [take_append, take_of_length_le (by omega),
    show a.bufferSize - (a.free - data.length) - a.buffer.length = data.length by omega,
    take_memory, take_of_length_le h]

theorem fill_eq_append (h : a.free ≤ data.length) :
    a.fill (data.getD · 0) = a.append (data.take a.free) (length_take_le _ _) := by
  refine CopyingAdaptor.ext rfl rfl rfl rfl ?_
  dsimp only [append]
  rw [← take_memory, take_of_length_le (by simpa using h)]
  rfl

theorem copyLoop_of_none {a' : CopyingAdaptor σ} (h : a.next write (data.getD · 0) = (none, a')) :
    a.copyLoop write data = some (false, a') := by
  rw [copyLoop]
  split
  · next heq =>
    obtain ⟨-, rfl⟩ := Prod.mk.inj (h.symm.trans heq)
    rfl
  · next heq =>
    rw [h] at heq
    cases heq

theorem copyLoop_of_some {outSize : ℕ} {a' : CopyingAdaptor σ}
    (h : a.next write (data.getD · 0) = (some outSize, a')) :
    a.copyLoop write data =
      if data.length ≤ outSize then (a'.backUp (outSize - data.length : ℕ)).map fun a' => (true, a')
      else a'.copyLoop write (data.drop outSize) := by
  rw [copyLoop]
  split
  · next heq =>
    rw [h] at heq
    cases heq
  · next heq =>
    obtain ⟨hsize, rfl⟩ := Prod.mk.inj (h.symm.trans heq)
    cases hsize
    rfl

theorem copyLoop_of_fits (hroom : a.buffer.length ≠ a.bufferSize) (hfits : data.length ≤ a.free) :
    a.copyLoop write data = some (true, a.append data hfits) := by
  rw [copyLoop_of_some write (next_of_room write hroom), if_pos hfits, backUp_fill hfits]
  rfl

theorem copyLoop_of_full (hfull : a.buffer.length = a.bufferSize) (hshort : data.length ≤ a.bufferSize) :
    ((a.writeBuffer write).1 = false → a.copyLoop write data = some (false, (a.writeBuffer write).2)) ∧
      ((a.writeBuffer write).1 = true →
        ∃ h, a.copyLoop write data = some (true, (a.writeBuffer write).2.append data h)) := by
  constructor
  · intro hfail
    apply copyLoop_of_none write
    rw [next_of_full write hfull, hfail]
    rfl
  · intro hok
    have hfree : (a.writeBuffer write).2.free = a.bufferSize := by
      rw [free, buffer_of_writeBuffer write hok, bufferSize_writeBuffer]
      rfl
    have hfits : data.length ≤ (a.writeBuffer write).2.free := hfree ▸ hshort
    refine ⟨hfits, ?_⟩
    have hnext : a.next write (data.getD · 0) = _ := next_of_full write hfull
    rw [if_pos hok] at hnext
    rw [copyLoop_of_some write hnext, if_pos hfits, backUp_fill hfits]
    rfl

theorem copyLoop_of_long (hlong : a.buffer.length = a.bufferSize ∨ a.free < data.length)
    (hshort : data.length ≤ a.bufferSize) :
    let filled := (a.append (data.take a.free) (length_take_le _ _)).writeBuffer write
    (filled.1 = false → a.copyLoop write data = some (false, filled.2)) ∧
      (filled.1 = true → ∃ h, a.copyLoop write data = some (true, filled.2.append (data.drop a.free) h)) := by
  by_cases hfull : a.buffer.length = a.bufferSize
  · have hfree : a.free = 0 := by rw [free, hfull, Nat.sub_self]
    have hsame : a.append (data.take a.free) (length_take_le _ _) = a := by
      refine CopyingAdaptor.ext rfl rfl rfl rfl ?_
      simp [append, hfree]
    have hdrop : data.drop a.free = data := by rw [hfree, drop_zero]
    simp only [hsame, hdrop]
    exact copyLoop_of_full write hfull hshort
  · have hlong := hlong.resolve_left hfull
    have hfilled := fill_eq_append hlong.le
    have hround : a.copyLoop write data =
        (a.append (data.take a.free) (length_take_le _ _)).copyLoop write (data.drop a.free) := by
      rw [copyLoop_of_some write (next_of_room write hfull), if_neg (not_le.mpr hlong), hfilled]
    rw [hround]
    apply copyLoop_of_full write
    · rw [← hfilled]
      exact a.length_fill _
    · rw [length_drop]
      exact (Nat.sub_le _ _).trans hshort

/-- `WriteBuffer` fails at once, or its own `Write` does. -/
def Blocked (a : CopyingAdaptor σ) : Prop :=
  a.failed = true ∨ a.buffer ≠ [] ∧ (write a.buffer a.copyingStream).1 = false

theorem writeBuffer_eq_false_iff (a : CopyingAdaptor σ) :
    (a.writeBuffer write).1 = false ↔ a.Blocked write := by
  rw [writeBuffer, Blocked]
  by_cases hfailed : a.failed = true
  · simp [hfailed]
  · by_cases hempty : a.buffer = []
    · simp [hfailed, hempty]
    · simp only [hfailed, hempty]
      cases (write a.buffer a.copyingStream).1 <;> simp [hempty]

end

end CopyingAdaptor

/-! ## A caller and what is below -/

/-- What is below, with the bytes of the calls of `Write` that succeeded, and whether one failed. -/
structure Recorder (σ : Type) where
  sink : σ
  written : List UInt8
  failed : Bool

/-- `Write`, recorded. -/
def record {σ : Type} (write : List UInt8 → σ → Bool × σ) (data : List UInt8) (r : Recorder σ) :
    Bool × Recorder σ :=
  let result := write data r.sink
  (result.1, ⟨result.2, if result.1 then r.written ++ data else r.written, r.failed || !result.1⟩)

/-- A call; `memory` is what the caller stores in the buffer that it gets. -/
inductive AdaptorCall
  | next (memory : ℕ → UInt8)
  | backUp (count : ℤ)
  | flush
  | writeAliasedRaw (data : List UInt8)

/-- The adaptor, the bytes that the caller committed, the size of the buffer that the last call
handed out, and whether a call succeeded after a `Write` had failed. -/
structure Session (σ : Type) where
  adaptor : CopyingAdaptor (Recorder σ)
  committed : List UInt8
  handedOut : ℕ
  late : Bool

namespace Session
variable {σ : Type}

def start (sink : σ) (blockSize : ℤ) : Session σ :=
  ⟨.ofStream ⟨sink, [], false⟩ blockSize, [], 0, false⟩

/-- A `Write` has failed. -/
def writeFailed (s : Session σ) : Bool := s.adaptor.copyingStream.failed

/-- The bytes passed to the calls of `Write` that succeeded. -/
def written (s : Session σ) : List UInt8 := s.adaptor.copyingStream.written

section
variable (write : List UInt8 → σ → Bool × σ)

/-- A call.  `BackUp` may only follow a `Next`, with no more bytes than that handed out. -/
def call (s : Session σ) : AdaptorCall → Option (Bool × Session σ)
  | .next memory =>
    let r := s.adaptor.next (record write) memory
    match r.1 with
    | some size =>
      some (true, { s with
        adaptor := r.2, committed := s.committed ++ (List.range size).map memory, handedOut := size })
    | none => some (false, { s with adaptor := r.2, handedOut := 0 })
  | .backUp count =>
    if count ≤ s.handedOut then
      (s.adaptor.backUp count).map fun adaptor =>
        (true, { s with
          adaptor, committed := s.committed.take (s.committed.length - count.toNat), handedOut := 0 })
    else none
  | .flush =>
    let r := s.adaptor.flush (record write)
    some (r.1, { s with adaptor := r.2, handedOut := 0 })
  | .writeAliasedRaw data => (s.adaptor.writeAliasedRaw (record write) data).map fun r =>
      (r.1, { s with
        adaptor := r.2, committed := if r.1 then s.committed ++ data else s.committed, handedOut := 0 })

/-- The machine of a caller; `late` is set by a call that succeeds after a `Write` has failed. -/
def step (s : Session σ) (c : AdaptorCall) : Option (Session σ) := (s.call write c).map fun r =>
    match c with
    | .backUp _ => r.2
    | _ => { r.2 with late := r.2.late || s.writeFailed && r.1 }

/-- **The contract**: what was written comes first among the committed bytes, the count is right
while no `Write` has failed, and errors are permanent. -/
def KeepsContract (s : Session σ) : Prop := s.written <+: s.committed ∧
    (s.writeFailed = false → s.adaptor.byteCount = s.committed.length) ∧ s.late = false

/-- The call fails: it gets to `WriteBuffer`, which remembers a failure or fails again, or its own
`Write` fails. -/
def ReportsError (a : CopyingAdaptor (Recorder σ)) : AdaptorCall → Prop
  | .next _ => a.buffer.length = a.bufferSize ∧ a.Blocked (record write)
  | .backUp _ => True
  | .flush => a.Blocked (record write)
  | .writeAliasedRaw data =>
    if a.bufferSize ≤ data.length then
      a.Blocked (record write) ∨
        (record write data (a.flush (record write)).2.copyingStream).1 = false
    else
      (a.buffer.length = a.bufferSize ∨ a.free < data.length) ∧ (a.failed = true ∨
          (record write (a.buffer ++ data.take a.free) a.copyingStream).1 = false)

/-- After a failed `Write`, the call finds it. -/
def FindsError (s : Session σ) (c : AdaptorCall) : Prop :=
  s.writeFailed = true → ReportsError write s.adaptor c

end

/-! ### The invariant -/

/-- The bytes below and in the block are the committed ones, as long as nothing failed. -/
structure Backed (committed : List UInt8) (a : CopyingAdaptor (Recorder σ)) : Prop where
  written_first : a.copyingStream.written <+: committed
  buffered : a.failed = false → committed = a.copyingStream.written ++ a.buffer
  counted : a.copyingStream.failed = false → a.position = a.copyingStream.written.length
  found : a.failed = true → a.copyingStream.failed = true

/-- What was written is not handed out any more. -/
structure Sound (s : Session σ) : Prop where
  backed : Backed s.committed s.adaptor
  settled : s.written <+: s.committed.take (s.committed.length - s.handedOut)

variable {write : List UInt8 → σ → Bool × σ} {committed data : List UInt8}
  {a b : CopyingAdaptor (Recorder σ)}

theorem Backed.of_written (h : Backed committed a) (hok : (a.writeBuffer (record write)).1 = true) :
    Backed committed (a.writeBuffer (record write)).2 ∧ (a.writeBuffer (record write)).2.failed = false := by
  rw [CopyingAdaptor.writeBuffer] at hok ⊢
  by_cases hfailed : a.failed = true
  · simp [hfailed] at hok
  · have hbuffered := h.buffered (Bool.eq_false_iff.mpr hfailed)
    rw [if_neg hfailed] at hok ⊢
    by_cases hempty : a.buffer = []
    · rw [if_pos hempty]
      exact ⟨h, Bool.eq_false_iff.mpr hfailed⟩
    · rw [if_neg hempty] at hok ⊢
      dsimp only at hok ⊢
      cases hwrite : (write a.buffer a.copyingStream.sink).1 with
      | false => simp [record, hwrite] at hok
      | true =>
        simp only [record, hwrite, if_true, Bool.not_true, Bool.or_false]
        refine ⟨⟨hbuffered ▸ prefix_refl _, fun _ => by rw [append_nil]; exact hbuffered, ?_,
          h.found⟩, Bool.eq_false_iff.mpr hfailed⟩
        intro hnone
        rw [length_append, h.counted hnone]

theorem Backed.of_failed (h : Backed committed a) (hstream : b.copyingStream = a.copyingStream)
    (hsame : b.failed = a.failed) (hfail : (b.writeBuffer (record write)).1 = false) :
    Backed committed (b.writeBuffer (record write)).2 ∧
      (b.writeBuffer (record write)).2.copyingStream.written = a.copyingStream.written := by
  rw [CopyingAdaptor.writeBuffer] at hfail ⊢
  by_cases hfailed : b.failed = true
  · have hfound := h.found (hsame ▸ hfailed)
    rw [if_pos hfailed]
    refine ⟨⟨hstream ▸ h.written_first, fun hnot => ?_, fun hnone => ?_, fun _ => hstream ▸ hfound⟩,
      by rw [hstream]⟩
    · simp [hfailed] at hnot
    · simp [hstream, hfound] at hnone
  · by_cases hempty : b.buffer = []
    · simp [hfailed, hempty] at hfail
    · rw [if_neg hfailed, if_neg hempty] at hfail ⊢
      dsimp only at hfail ⊢
      rw [hstream] at hfail ⊢
      cases hwrite : (write b.buffer a.copyingStream.sink).1 with
      | true => simp [record, hwrite] at hfail
      | false =>
        simp only [record, hwrite, Bool.false_eq_true, if_false, Bool.not_false, Bool.or_true]
        exact ⟨⟨h.written_first, fun hnot => (Bool.noConfusion hnot), fun hnot => Bool.noConfusion hnot,
          fun _ => rfl⟩, trivial⟩

theorem Backed.append (h : Backed committed a) (hdata : data.length ≤ a.free) :
    Backed (committed ++ data) (a.append data hdata) := by
  refine ⟨h.written_first.trans (prefix_append _ _), fun hnot => ?_, h.counted, h.found⟩
  dsimp only [CopyingAdaptor.append]
  rw [h.buffered hnot, append_assoc]

theorem Backed.backUp {a' : CopyingAdaptor (Recorder σ)} {count : ℤ} (h : Backed committed a)
    (hkept : a.copyingStream.written <+: committed.take (committed.length - count.toNat))
    (hbackUp : a.backUp count = some a') : Backed (committed.take (committed.length - count.toNat)) a' := by
  rw [CopyingAdaptor.backUp] at hbackUp
  split at hbackUp
  · next hchecks =>
    cases hbackUp
    refine ⟨hkept, fun hnot => ?_, h.counted, h.found⟩
    have hbuffered := h.buffered hnot
    have hfew : count.toNat ≤ a.buffer.length := by omega
    dsimp only
    rw [hbuffered, length_append, Nat.add_sub_assoc hfew, take_length_add_append]
  · cases hbackUp

/-- What a call does to a run, and whether it finds an error. -/
structure CallSpec (write : List UInt8 → σ → Bool × σ) (s : Session σ) (c : AdaptorCall) (ok : Bool)
    (s' : Session σ) : Prop where
  sound : Sound s'
  late : s'.late = s.late
  reports : (∀ count, c ≠ .backUp count) → (ok = false ↔ ReportsError write s.adaptor c)

theorem Sound.of_backed {s : Session σ} (h : Backed s.committed s.adaptor) (hnone : s.handedOut = 0) :
    Sound s := by
  refine ⟨h, ?_⟩
  rw [hnone, Nat.sub_zero, take_length]
  exact h.written_first

variable {s s' : Session σ}

variable {r : Bool × Session σ}

/-- `Next`. -/
theorem next_spec (h : Sound s) (memory : ℕ → UInt8)
    (hcall : s.call write (.next memory) = some r) : CallSpec write s (.next memory) r.1 r.2 := by
  have hfill : ∀ a : CopyingAdaptor (Recorder σ), Backed s.committed a → Sound { s with
        adaptor := a.fill memory, committed := s.committed ++ (List.range a.free).map memory,
        handedOut := a.free } := by
    intro a ha
    refine ⟨ha.append (by simp), ?_⟩
    dsimp only
    rw [length_append, length_map, length_range, Nat.add_sub_cancel, take_left]
    exact ha.written_first
  rw [Session.call] at hcall
  by_cases hfull : s.adaptor.buffer.length = s.adaptor.bufferSize
  · rw [CopyingAdaptor.next_of_full _ hfull] at hcall
    cases hwritten : (s.adaptor.writeBuffer (record write)).1 with
    | true =>
      rw [hwritten] at hcall
      cases hcall
      have hnot : ¬s.adaptor.Blocked (record write) := by
        rw [← CopyingAdaptor.writeBuffer_eq_false_iff, hwritten]
        exact Bool.false_ne_true.symm
      refine ⟨hfill _ (h.backed.of_written hwritten).1, rfl, fun _ => ?_⟩
      exact iff_of_false Bool.false_ne_true.symm fun hreports => hnot hreports.2
    | false =>
      rw [hwritten] at hcall
      cases hcall
      refine ⟨.of_backed (h.backed.of_failed rfl rfl hwritten).1 rfl, rfl, fun _ => ?_⟩
      exact iff_of_true rfl ⟨hfull, (CopyingAdaptor.writeBuffer_eq_false_iff _ _).mp hwritten⟩
  · rw [CopyingAdaptor.next_of_room _ hfull] at hcall
    cases hcall
    refine ⟨hfill _ h.backed, rfl, fun _ => ?_⟩
    exact iff_of_false Bool.false_ne_true.symm fun hreports => hfull hreports.1

theorem backUp_spec (h : Sound s) (count : ℤ)
    (hcall : s.call write (.backUp count) = some r) : CallSpec write s (.backUp count) r.1 r.2 := by
  rw [Session.call] at hcall
  split at hcall
  · next hlegal =>
    obtain ⟨a', hbackUp, rfl⟩ := map_eq_some_iff.mp hcall
    have hkept : s.written <+: s.committed.take (s.committed.length - count.toNat) := by
      apply h.settled.trans
      exact take_prefix_take_left (Nat.sub_le_sub_left (by omega) _)
    exact ⟨.of_backed (h.backed.backUp hkept hbackUp) rfl, rfl, fun hnot => absurd rfl (hnot count)⟩
  · cases hcall

theorem flush_spec (h : Sound s) (hcall : s.call write .flush = some r) : CallSpec write s .flush r.1 r.2 := by
  cases hcall
  refine ⟨.of_backed ?_ rfl, rfl, fun _ => CopyingAdaptor.writeBuffer_eq_false_iff _ _⟩
  cases hwritten : (s.adaptor.writeBuffer (record write)).1 with
  | true => exact (h.backed.of_written hwritten).1
  | false => exact (h.backed.of_failed rfl rfl hwritten).1

theorem Backed.direct (h : Backed committed a) (hnot : a.failed = false) (hempty : a.buffer = [])
    (hok : (record write data a.copyingStream).1 = true) : Backed (committed ++ data) { a with
      copyingStream := (record write data a.copyingStream).2, position := a.position + data.length } := by
  have hwrite : (write data a.copyingStream.sink).1 = true := hok
  have hbuffered := h.buffered hnot
  rw [hempty, append_nil] at hbuffered
  simp only [record, hwrite, if_true, Bool.not_true, Bool.or_false, ← hbuffered]
  refine ⟨prefix_refl _, fun _ => ?_, fun hnone => ?_, h.found⟩
  · dsimp only
    rw [hempty, append_nil]
  · dsimp only
    rw [h.counted hnone, ← hbuffered, length_append]

theorem Backed.direct_failed (h : Backed committed a) (hfail : (record write data a.copyingStream).1 = false) :
    Backed committed { a with copyingStream := (record write data a.copyingStream).2 } := by
  have hwrite : (write data a.copyingStream.sink).1 = false := hfail
  simp only [record, hwrite, Bool.false_eq_true, if_false, Bool.not_false, Bool.or_true]
  exact ⟨h.written_first, h.buffered, fun hnone => Bool.noConfusion hnone, fun _ => rfl⟩

theorem writeAliasedRaw_direct (h : Backed committed a) (hlong : a.bufferSize ≤ data.length)
    {r : Bool × CopyingAdaptor (Recorder σ)} (hwrite : a.writeAliasedRaw (record write) data = some r) :
    Backed (if r.1 then committed ++ data else committed) r.2 ∧
      (r.1 = false ↔ ReportsError write a (.writeAliasedRaw data)) := by
  rw [CopyingAdaptor.writeAliasedRaw, if_pos hlong] at hwrite
  rw [ReportsError, if_pos hlong, ← CopyingAdaptor.writeBuffer_eq_false_iff]
  rw [CopyingAdaptor.flush] at hwrite ⊢
  dsimp only at hwrite
  cases hflushed : (a.writeBuffer (record write)).1 with
  | false =>
    rw [hflushed] at hwrite
    cases hwrite
    exact ⟨(h.of_failed rfl rfl hflushed).1, iff_of_true rfl (.inl rfl)⟩
  | true =>
    obtain ⟨hbacked, hnot⟩ := h.of_written hflushed
    have hempty := CopyingAdaptor.buffer_of_writeBuffer _ hflushed
    rw [hflushed, if_pos rfl] at hwrite
    cases hdirect : (record write data (a.writeBuffer (record write)).2.copyingStream).1 with
    | false =>
      rw [hdirect] at hwrite
      cases hwrite
      exact ⟨hbacked.direct_failed hdirect, iff_of_true rfl (.inr rfl)⟩
    | true =>
      rw [hdirect] at hwrite
      cases hwrite
      refine ⟨hbacked.direct hnot hempty hdirect, ?_⟩
      simp

/-- `WriteAliasedRaw` of less than a block. -/
theorem writeAliasedRaw_copied (h : Backed committed a) (hshort : ¬a.bufferSize ≤ data.length)
    {r : Bool × CopyingAdaptor (Recorder σ)} (hwrite : a.writeAliasedRaw (record write) data = some r) :
    Backed (if r.1 then committed ++ data else committed) r.2 ∧
      (r.1 = false ↔ ReportsError write a (.writeAliasedRaw data)) := by
  rw [CopyingAdaptor.writeAliasedRaw, if_neg hshort] at hwrite
  rw [ReportsError, if_neg hshort]
  by_cases hlong : a.buffer.length = a.bufferSize ∨ a.free < data.length
  · obtain ⟨hfailed, hwritten⟩ := CopyingAdaptor.copyLoop_of_long (record write) hlong (by omega)
    have hne : a.buffer ++ data.take a.free ≠ [] := by
      apply ne_nil_of_length_pos
      rw [length_append, length_take, CopyingAdaptor.free]
      omega
    have hblocked := (CopyingAdaptor.writeBuffer_eq_false_iff (record write)
      (a.append (data.take a.free) (length_take_le _ _))).trans (or_congr_right (and_iff_right hne))
    cases hfilled : ((a.append (data.take a.free) (length_take_le _ _)).writeBuffer (record write)).1 with
    | false =>
      obtain rfl := some.inj ((hfailed hfilled).symm.trans hwrite)
      exact ⟨(h.of_failed (b := a.append (data.take a.free) (length_take_le _ _)) rfl rfl hfilled).1,
        iff_of_true rfl ⟨hlong, hblocked.mp hfilled⟩⟩
    | true =>
      obtain ⟨hfits, hdone⟩ := hwritten hfilled
      obtain rfl := some.inj (hdone.symm.trans hwrite)
      have hbacked := ((h.append (length_take_le a.free data)).of_written hfilled).1.append hfits
      rw [append_assoc, take_append_drop] at hbacked
      refine ⟨hbacked, iff_of_false Bool.false_ne_true.symm fun hreports => ?_⟩
      rw [hblocked.mpr hreports.2] at hfilled
      exact Bool.false_ne_true hfilled
  · obtain ⟨hroom, hfits⟩ := not_or.mp hlong
    have hdone := CopyingAdaptor.copyLoop_of_fits (record write) hroom (not_lt.mp hfits)
    obtain rfl := some.inj (hdone.symm.trans hwrite)
    exact ⟨h.append (not_lt.mp hfits), iff_of_false Bool.false_ne_true.symm fun hreports => hlong hreports.1⟩

theorem writeAliasedRaw_spec (h : Sound s) (data : List UInt8)
    (hcall : s.call write (.writeAliasedRaw data) = some r) :
    CallSpec write s (.writeAliasedRaw data) r.1 r.2 := by
  obtain ⟨result, hwrite, rfl⟩ := map_eq_some_iff.mp hcall
  by_cases hlong : s.adaptor.bufferSize ≤ data.length
  · obtain ⟨hbacked, hreports⟩ := writeAliasedRaw_direct h.backed hlong hwrite
    exact ⟨.of_backed hbacked rfl, rfl, fun _ => hreports⟩
  · obtain ⟨hbacked, hreports⟩ := writeAliasedRaw_copied h.backed hlong hwrite
    exact ⟨.of_backed hbacked rfl, rfl, fun _ => hreports⟩

/-- **A call.** -/
theorem call_spec (h : Sound s) (c : AdaptorCall)
    (hcall : s.call write c = some r) : CallSpec write s c r.1 r.2 := by
  cases c with
  | next memory => exact next_spec h memory hcall
  | backUp count => exact backUp_spec h count hcall
  | flush => exact flush_spec h hcall
  | writeAliasedRaw data => exact writeAliasedRaw_spec h data hcall

/-! ### Runs -/

theorem Sound.kept_iff (h : Sound s) : s.KeepsContract ↔ s.late = false := by
  refine ⟨fun hkeeps => hkeeps.2.2, fun hlate => ⟨h.backed.written_first, fun hnone => ?_, hlate⟩⟩
  have hnot : s.adaptor.failed = false := by
    by_contra hfailed
    rw [Bool.not_eq_false] at hfailed
    have hfound := h.backed.found hfailed
    simp [writeFailed, hfound] at hnone
  rw [CopyingAdaptor.byteCount, h.backed.counted hnone, h.backed.buffered hnot, length_append]

theorem CallSpec.marked {c : AdaptorCall} {ok : Bool} (h : CallSpec write s c ok s')
    (hc : ∀ count, c ≠ .backUp count) (hkeeps : s.KeepsContract) :
    Sound { s' with late := s'.late || s.writeFailed && ok } ∧
      (KeepsContract { s' with late := s'.late || s.writeFailed && ok } ↔ s.FindsError write c) := by
  have hsound : Sound { s' with late := s'.late || s.writeFailed && ok } := ⟨h.sound.backed, h.sound.settled⟩
  refine ⟨hsound, hsound.kept_iff.trans ?_⟩
  dsimp only
  rw [h.late, hkeeps.2.2, Bool.false_or, FindsError, ← h.reports hc]
  cases s.writeFailed <;> simp

/-- **One step** keeps the contract exactly where the call finds the error. -/
theorem step_spec (h : Sound s) {c : AdaptorCall} (hstep : s.step write c = some s')
    (hkeeps : s.KeepsContract) : Sound s' ∧ (s'.KeepsContract ↔ s.FindsError write c) := by
  obtain ⟨r, hcall, rfl⟩ := map_eq_some_iff.mp hstep
  have hspec := call_spec h c hcall
  cases c with
  | next memory | writeAliasedRaw data => exact hspec.marked (fun _ heq => AdaptorCall.noConfusion heq) hkeeps
  | flush => exact hspec.marked (fun _ heq => AdaptorCall.noConfusion heq) hkeeps
  | backUp count =>
    refine ⟨hspec.sound, hspec.sound.kept_iff.trans ?_⟩
    rw [hspec.late, hkeeps.2.2]
    exact iff_of_true rfl fun _ => trivial

/-- **The contract is kept along a run** exactly where every call after a failed `Write` finds the
error. -/
theorem keepsContract_throughout_iff {σ : Type} (write : List UInt8 → σ → Bool × σ) (sink : σ)
    (blockSize : ℤ) (calls : List AdaptorCall) :
    Throughout (step write) KeepsContract (start sink blockSize) calls ↔
      EachStep (step write) (FindsError write) (start sink blockSize) calls := by
  have hstart : Sound (start sink blockSize) :=
    ⟨⟨prefix_refl _, fun _ => rfl, fun _ => rfl, fun h => h⟩, prefix_refl _⟩
  exact throughout_iff_eachStep_of_invariant (fun s c s' hs hkeeps hstep => step_spec hs hstep hkeeps)
    hstart (hstart.kept_iff.mpr rfl) calls

/-- After a `Flush` whose `Write` failed, `Next` succeeds; and after a `WriteAliasedRaw` whose direct
`Write` failed, `Flush` succeeds. -/
theorem not_keepsContract_afterFailure :
    ¬Throughout (step fun _ (_ : Unit) => (false, ())) KeepsContract (start () 1)
        [.next fun _ => 0, .flush, .next fun _ => 0] ∧
      ¬Throughout (step fun _ (_ : Unit) => (false, ())) KeepsContract (start () 1)
        [.writeAliasedRaw [0], .flush] := by
  constructor
  · intro h
    obtain ⟨-, -, hlate⟩ := (((h.2 _ rfl).2 _ rfl).2 _ rfl).start
    exact absurd hlate (by decide)
  · intro h
    obtain ⟨-, -, hlate⟩ := ((h.2 _ rfl).2 _ rfl).start
    exact absurd hlate (by decide)

end Session

end Protoc.Io
