import Protoc.Io.CodedInputLimits

/-!
# The limit stack of a coded input stream

A caller pushes and pops limits, moves the total bytes limit, reads and skips in any order,
and goes on after a call that fails.  No call delivers a byte from behind the smallest limit,
and a `PopLimit` gives back what the matching `PushLimit` took away.

`Skip` has two paths that move the position without looking at the stream.  Where it runs into
a limit it takes the limit for the position, even when the stream ends before it, and where the
stream ends it takes `ByteCount` for the position, which may lie before it.
-/

namespace Protoc.Io

open Protoc.Lib CodedInputStream
open List Option

/-! ## Calls -/

/-- The value of a varint in some bits, or what the caller finds after a failure. -/
def FromVarint (bits : ℕ) (failed : ℤ) (bytes : List UInt8) (ok : Bool) (value : Value) : Prop :=
  ok = true ∧ (∃ v, Varint bytes v ∧ value = .number (v % 2 ^ bits : ℕ)) ∨
    ok = false ∧ value = .number failed

/-- A number of `width` bytes, or nothing. -/
def FromLittleEndian (width : ℕ) (bytes : List UInt8) (ok : Bool) (value : Value) : Prop :=
  ok = true ∧ bytes.length = width ∧ value = .number (leValue bytes) ∨ ok = false ∧ value = .nothing

/-- How the value of a call comes from the bytes that it took. -/
def Delivers (bytes : List UInt8) (ok : Bool) (value : Value) : Call → Prop
  | .op .readVarint32 => FromVarint 32 (2 ^ 32 - 1) bytes ok value
  | .op .readVarint64 => FromVarint 64 0 bytes ok value
  | .op .readVarintSizeAsInt =>
    FromVarint 64 (-1) bytes ok value ∧ ∀ n, value = .number n → n ≤ INT_MAX
  | .op .readLittleEndian32 => FromLittleEndian 4 bytes ok value
  | .op .readLittleEndian64 => FromLittleEndian 8 bytes ok value
  | .op (.readRaw size) => value = .bytes bytes ∧ (ok = true ↔ bytes.length = size)
  | .op (.readString size) => ok = true ∧ bytes.length = size ∧ value = .bytes bytes ∨
      ok = false ∧ (value = .nothing ∨ value = .bytes bytes)
  | .op .readTag => ∃ tag : ℕ, value = .number tag ∧ IsTag bytes tag
  | .op .consumedEntireMessage => ∃ b, value = .flag b
  | .getDirectBufferPointer => ok = true ∧ value = .bytes bytes ∨ ok = false ∧ value = .nothing
  | .op (.skip _) | .op (.pushLimit _) | .op .popLimit | .setTotalBytesLimit _ => value = .nothing

/-- An `int`. -/
def IsInt (n : ℤ) : Prop := -INT_MAX - 1 ≤ n ∧ n ≤ INT_MAX

instance (n : ℤ) : Decidable (IsInt n) := inferInstanceAs (Decidable (_ ∧ _))

/-- The arguments are ints. -/
def Call.IntArgs : Call → Prop
  | .op (.readRaw size) => IsInt size
  | .op (.readString size) => IsInt size
  | .op (.skip count) => IsInt count
  | .op (.pushLimit byteLimit) => IsInt byteLimit
  | .setTotalBytesLimit totalBytesLimit => IsInt totalBytesLimit
  | _ => True

/-- A `Skip` that runs off the end of the stream finds a count within the limits. -/
def CountFits (s : CodedInputStream) : Call → Prop
  | .op (.skip count) => s.RunsOff count → s.endCount ≤ s.closestLimit
  | _ => True

def InStep (c : Caller CodedInputStream) (call : Call) : Prop := call.IntArgs ∧ CountFits c.stream call

instance (call : Call) : Decidable call.IntArgs :=
  match call with
  | .op (.readRaw _) | .op (.readString _) | .op (.skip _) | .op (.pushLimit _)
  | .setTotalBytesLimit _ => inferInstanceAs (Decidable (IsInt _))
  | .op .readVarint32 | .op .readVarint64 | .op .readVarintSizeAsInt | .op .readLittleEndian32
  | .op .readLittleEndian64 | .op .readTag | .op .popLimit | .op .consumedEntireMessage
  | .getDirectBufferPointer => inferInstanceAs (Decidable True)

instance (s : CodedInputStream) (call : Call) : Decidable (CountFits s call) :=
  match call with
  | .op (.skip count) => inferInstanceAs (Decidable (s.RunsOff count → _))
  | .op .readVarint32 | .op .readVarint64 | .op .readVarintSizeAsInt | .op .readLittleEndian32
  | .op .readLittleEndian64 | .op (.readRaw _) | .op (.readString _) | .op .readTag
  | .op (.pushLimit _) | .op .popLimit | .op .consumedEntireMessage | .setTotalBytesLimit _
  | .getDirectBufferPointer => inferInstanceAs (Decidable True)

instance (c : Caller CodedInputStream) (call : Call) : Decidable (InStep c call) :=
  inferInstanceAs (Decidable (_ ∧ _))

/-- A `Skip` that runs off the end of the stream finds a count before the position. -/
def StepsBack (s : CodedInputStream) : Call → Prop
  | .op (.skip count) => s.RunsOff count ∧ s.endCount < s.totalBytesRead
  | _ => False

def Call.Plain : Call → Prop
  | .op (.pushLimit _) | .op .popLimit => False
  | _ => True

/-- Calls that pop what they push, and no more. -/
inductive Nested : List Call → Prop
  | nil : Nested []
  | plain {call : Call} {calls : List Call} (hcall : call.Plain) (rest : Nested calls) :
      Nested (call :: calls)
  | block {byteLimit : ℤ} {calls more : List Call} (inner : Nested calls) (rest : Nested more) :
      Nested (.op (.pushLimit byteLimit) :: (calls ++ .op .popLimit :: more))

/-- The stream stands in the data, and the limits to be popped are nested. -/
structure CallerStands (data : List UInt8) (top last : ℕ) (c : Caller CodedInputStream) : Prop where
  stream : Stands data top last c.stream
  nested : (c.stream.currentLimit :: c.limits).Pairwise (· ≤ ·)
  limits_le : ∀ limit ∈ c.limits, limit ≤ top

variable {data bytes : List UInt8} {top last : ℕ} {c c' : Caller CodedInputStream} {call : Call} {ok : Bool}
  {value : Value} {t : CodedInputStream}

/-- What a call does. -/
structure CallSpec (data : List UInt8) (top last : ℕ) (c : Caller CodedInputStream) (call : Call) (ok : Bool)
    (value : Value) (c' : Caller CodedInputStream) : Prop where
  stands : CallerStands data top last c'
  delivers : ∃ bytes, bytes <+: readable data c.stream ∧ Delivers bytes ok value call
  position : c.stream.currentPosition ≤ c'.stream.currentPosition ∨
    StepsBack c.stream call ∧ data.length ≤ c'.stream.currentPosition
  plain : call.Plain → c'.limits = c.limits ∧ c'.stream.currentLimit = c.stream.currentLimit
  pushed : ∀ byteLimit, call = .op (.pushLimit byteLimit) →
    c'.limits = c.stream.currentLimit :: c.limits
  popped : call = .op .popLimit → c.limits = c'.stream.currentLimit :: c'.limits

theorem CallerStands.withStream (h : CallerStands data top last c) (ht : Stands data top last t)
    (hcurrent : t.currentLimit = c.stream.currentLimit) :
    CallerStands data top last { c with stream := t } := by
  refine ⟨ht, ?_, h.limits_le⟩
  dsimp only
  rw [hcurrent]
  exact h.nested

theorem CallSpec.of_plain (bytes : List UInt8) (hcall : call.Plain)
    (hstands : CallerStands data top last { c with stream := t })
    (hcurrent : t.currentLimit = c.stream.currentLimit) (hfirst : bytes <+: readable data c.stream)
    (hdelivers : Delivers bytes ok value call)
    (hposition : c.stream.currentPosition ≤ t.currentPosition ∨
      StepsBack c.stream call ∧ data.length ≤ t.currentPosition) :
    CallSpec data top last c call ok value { c with stream := t } := by
  refine ⟨hstands, ⟨bytes, hfirst, hdelivers⟩, hposition, fun _ => ⟨rfl, hcurrent⟩, ?_, ?_⟩
  · intro byteLimit hpush
    rw [hpush] at hcall
    exact hcall.elim
  · intro hpop
    rw [hpop] at hcall
    exact hcall.elim

theorem CallSpec.of_reads (h : CallerStands data top last c) (hreads : Reads c.stream bytes t)
    (hcall : call.Plain) (hdelivers : Delivers bytes ok value call) :
    CallSpec data top last c call ok value { c with stream := t } := by
  obtain ⟨ht, hcurrent, -, hposition, hreadable⟩ := hreads.stands h.stream
  refine .of_plain bytes hcall (h.withStream ht hcurrent) hcurrent ?_ hdelivers (.inl ?_)
  · rw [hreadable]
    exact prefix_append _ _
  · rw [hposition]
    exact Nat.le_add_right _ _

theorem IsVarint64.fromVarint {n : ℕ} (h : IsVarint64 bytes ok n) : FromVarint 64 0 bytes ok (.number n) := by
  rcases h with ⟨hok, v, hv, rfl⟩ | ⟨hok, rfl⟩
  · exact .inl ⟨hok, v, hv, rfl⟩
  · exact .inr ⟨hok, rfl⟩

theorem littleEndian_delivers (s : CodedInputStream) (width : ℕ) :
    ∃ bytes, Reads s bytes (s.readLittleEndian width).2.2 ∧
      FromLittleEndian width bytes (s.readLittleEndian width).1 (.ofOption (s.readLittleEndian width).2.1) := by
  obtain ⟨bytes, hreads, hvalue⟩ := readLittleEndian_reads s width
  refine ⟨bytes, hreads, ?_⟩
  rcases hvalue with ⟨hok, hlen, hvalue⟩ | ⟨hok, hvalue⟩
  · exact .inl ⟨hok, hlen, by rw [hvalue]; rfl⟩
  · exact .inr ⟨hok, by rw [hvalue]; rfl⟩

theorem CallSpec.push (h : CallerStands data top last c) (byteLimit : ℤ) :
    CallSpec data top last c (.op (.pushLimit byteLimit)) true .nothing
      ⟨(c.stream.pushLimit byteLimit).2, (c.stream.pushLimit byteLimit).1 :: c.limits⟩ := by
  obtain ⟨hold, hstands, hposition, hlower, -⟩ := pushLimit_stands h.stream byteLimit
  rw [hold]
  refine ⟨⟨hstands, ?_, ?_⟩, ⟨[], nil_prefix, rfl⟩, .inl hposition.ge, nofun, fun _ _ => rfl, nofun⟩
  · refine pairwise_cons.mpr ⟨fun limit hmem => ?_, h.nested⟩
    rcases mem_cons.mp hmem with rfl | hmem
    · exact hlower
    · exact hlower.trans ((pairwise_cons.mp h.nested).1 limit hmem)
  · rw [forall_mem_cons]
    exact ⟨h.stream.limit_le_top, h.limits_le⟩

theorem CallSpec.pop {limit : ℕ} {limits : List ℕ} (h : CallerStands data top last c)
    (hlimits : c.limits = limit :: limits) :
    CallSpec data top last c (.op .popLimit) true .nothing ⟨c.stream.popLimit limit, limits⟩ := by
  have hnested := h.nested
  have hle := h.limits_le
  rw [hlimits] at hnested
  rw [hlimits, forall_mem_cons] at hle
  obtain ⟨hlower, hrest⟩ := pairwise_cons.mp hnested
  obtain ⟨hstands, hposition, hcurrent, -⟩ :=
    popLimit_stands h.stream (hlower limit mem_cons_self) hle.1
  refine ⟨⟨hstands, ?_, hle.2⟩, ⟨[], nil_prefix, rfl⟩, .inl hposition.ge, nofun, nofun, fun _ => ?_⟩
  · dsimp only
    rw [hcurrent]
    exact hrest
  · rw [hlimits, hcurrent]

/-- **A call** delivers bytes that could be read, and keeps the stream in its place. -/
theorem call_spec (h : CallerStands data top last c) (hok : InStep c call)
    {r : Bool × Value × Caller CodedInputStream} (hcall : CodedInputStream.call c call = some r) :
    CallSpec data top last c call r.1 r.2.1 r.2.2 := by
  obtain ⟨hargs, hfits⟩ := hok
  cases call with
  | setTotalBytesLimit totalBytesLimit =>
    cases hcall
    obtain ⟨hstands, hposition, hcurrent⟩ := setTotalBytesLimit_stands h.stream hargs.2
    exact .of_plain [] trivial (h.withStream hstands hcurrent) hcurrent nil_prefix rfl
      (.inl hposition.ge)
  | getDirectBufferPointer =>
    cases hcall
    obtain ⟨hreads, hvalue⟩ := getDirectBufferPointer_reads c.stream
    obtain ⟨hstands, hcurrent, -, hposition, hreadable⟩ := hreads.stands h.stream
    rw [nil_append] at hreadable
    refine .of_plain c.stream.getDirectBufferPointer.2.2.visible trivial
      (h.withStream hstands hcurrent) hcurrent ?_ ?_ (.inl hposition.ge)
    · rw [hreadable]
      exact hstands.visible_first
    · rcases hvalue with ⟨hok, hvalue⟩ | ⟨hok, hvalue⟩
      · exact .inl ⟨hok, by rw [hvalue]; rfl⟩
      · exact .inr ⟨hok, by rw [hvalue]; rfl⟩
  | op op =>
    cases op with
    | readVarint32 =>
      cases hcall
      obtain ⟨bytes, hreads, hvalue⟩ := readVarint32_reads c.stream
      refine .of_reads h hreads trivial ?_
      rcases hvalue with ⟨hok, v, hv, hvalue⟩ | ⟨hok, hvalue⟩
      · exact .inl ⟨hok, v, hv, by rw [hvalue]⟩
      · exact .inr ⟨hok, by rw [hvalue]; rfl⟩
    | readVarint64 =>
      cases hcall
      obtain ⟨bytes, hreads, hvalue⟩ := readVarint64_reads c.stream
      exact .of_reads h hreads trivial hvalue.fromVarint
    | readVarintSizeAsInt =>
      cases hcall
      obtain ⟨bytes, hreads, hvalue⟩ := readVarintSizeAsInt_reads c.stream
      refine .of_reads h hreads trivial ?_
      rcases hvalue with ⟨hok, v, hv, hle, hvalue⟩ | ⟨hok, hvalue⟩
      · refine ⟨.inl ⟨hok, v, hv, by rw [hvalue]⟩, fun n hn => ?_⟩
        rw [hvalue] at hn
        cases hn
        exact_mod_cast hle
      · refine ⟨.inr ⟨hok, by rw [hvalue]⟩, fun n hn => ?_⟩
        rw [hvalue] at hn
        cases hn
        decide
    | readLittleEndian32 =>
      cases hcall
      obtain ⟨bytes, hreads, hvalue⟩ := littleEndian_delivers c.stream 4
      exact .of_reads h hreads trivial hvalue
    | readLittleEndian64 =>
      cases hcall
      obtain ⟨bytes, hreads, hvalue⟩ := littleEndian_delivers c.stream 8
      exact .of_reads h hreads trivial hvalue
    | readRaw size =>
      cases hcall
      obtain ⟨hreads, hend⟩ := copyLoop_reads c.stream size
      refine .of_reads h hreads trivial ⟨rfl, ?_⟩
      rcases hend with ⟨hok, hlen⟩ | ⟨hok, hlen, -⟩
      · exact iff_of_true hok hlen
      · exact iff_of_false (by rw [readRaw, hok]; decide) hlen.ne
    | readString size =>
      cases hcall
      obtain ⟨bytes, hreads, hvalue⟩ := readString_reads c.stream size
      refine .of_reads h hreads trivial ?_
      rcases hvalue with ⟨hok, hlen, hvalue⟩ | ⟨hok, hvalue | hvalue⟩
      · exact .inl ⟨hok, hlen, by rw [hvalue]; rfl⟩
      · exact .inr ⟨hok, .inl (by rw [hvalue]; rfl)⟩
      · exact .inr ⟨hok, .inr (by rw [hvalue]; rfl)⟩
    | skip count =>
      cases hcall
      have hskips := skip_stands h.stream count hfits
      refine .of_plain [] trivial (h.withStream hskips.stands hskips.currentLimit)
        hskips.currentLimit nil_prefix rfl ?_
      exact hskips.position.imp id fun hback => ⟨⟨hback.1, hback.2.1⟩, hback.2.2⟩
    | readTag =>
      cases hcall
      obtain ⟨bytes, hreads, htag⟩ := readTag_reads c.stream
      exact .of_reads h hreads trivial ⟨_, rfl, htag⟩
    | pushLimit byteLimit =>
      cases hcall
      exact .push h byteLimit
    | popLimit =>
      rw [CodedInputStream.call, CodedInputStream.perform] at hcall
      cases hlimits : c.limits with
      | nil => simp [hlimits] at hcall
      | cons limit limits =>
        rw [hlimits] at hcall
        cases hcall
        exact .pop h hlimits
    | consumedEntireMessage =>
      cases hcall
      exact .of_reads h (.done c.stream) trivial ⟨_, rfl⟩

/-! ## Runs -/

/-- The two constructors; a chunk and an array have a size that is an `int`. -/
inductive Opened : List UInt8 → CodedInputStream → Prop
  | stream (input : ZeroCopyInputStream) (h : ∀ chunk ∈ input.chunks, chunk.length ≤ INT_MAX) :
      Opened input.remaining (ofStream input)
  | array (data : List UInt8) (h : data.length ≤ INT_MAX) : Opened data (ofArray data)

variable {s : CodedInputStream} {calls : List Call}

theorem unread_stands (input : ZeroCopyInputStream) (h : ∀ chunk ∈ input.chunks, chunk.length ≤ INT_MAX) :
    Stands input.remaining INT_MAX (input.byteCount + input.remaining.length)
      ⟨[], 0, some input, 0, 0, 0, false, INT_MAX, INT_MAX⟩ := by
  refine ⟨⟨by simp, by simp, by simp, le_rfl, le_rfl, le_rfl, .inl rfl, by simp,
    ⟨[], rfl, rfl⟩, ?_, ?_, by simp, Nat.le_add_left _ _⟩, by simp⟩
  · intro input' heq
    exact some.inj heq ▸ h
  · intro input' heq
    exact some.inj heq ▸ rfl

theorem ofStream_stands {input : ZeroCopyInputStream} (h : ∀ chunk ∈ input.chunks, chunk.length ≤ INT_MAX) :
    CallerStands input.remaining INT_MAX (input.byteCount + input.remaining.length) ⟨ofStream input, []⟩ :=
  ⟨((unread_stands input h).refresh rfl).1, pairwise_singleton _ _, by simp⟩

theorem ofArray_stands (h : data.length ≤ INT_MAX) :
    CallerStands data data.length data.length ⟨ofArray data, []⟩ := by
  refine ⟨⟨⟨by simp [ofArray], ?_, h, le_rfl, h, le_rfl, .inl rfl, h, ⟨[], rfl, ?_⟩,
    by simp [ofArray], by simp [ofArray], fun _ => le_rfl, le_rfl⟩, ?_⟩,
    pairwise_singleton _ _, by simp⟩
  · exact Nat.le_add_left _ _
  · simp [ofArray, behind]
  · simp only [ofArray, closestLimit]
    omega

theorem Opened.stands (h : Opened data s) : ∃ top last, CallerStands data top last ⟨s, []⟩ := by
  cases h with
  | stream input hchunks => exact ⟨_, _, ofStream_stands hchunks⟩
  | array data hdata => exact ⟨_, _, ofArray_stands hdata⟩

theorem callStep_spec (h : CallerStands data top last c) (hok : InStep c call)
    (hstep : callStep c call = some c') : ∃ ok value, CallSpec data top last c call ok value c' := by
  rw [callStep, map_eq_some_iff] at hstep
  obtain ⟨r, hcall, rfl⟩ := hstep
  exact ⟨r.1, r.2.1, call_spec h hok hcall⟩

theorem runs_stands (h : CallerStands data top last c) (run : Runs callStep InStep c calls c') :
    CallerStands data top last c' ∧ (c.stream.currentPosition ≤ c'.stream.currentPosition ∨
      data.length ≤ c'.stream.currentPosition) := by
  refine run.invariant (P := fun c' => CallerStands data top last c' ∧
    (c.stream.currentPosition ≤ c'.stream.currentPosition ∨
      data.length ≤ c'.stream.currentPosition)) ?_ ⟨h, .inl le_rfl⟩
  rintro c₁ call c₂ ⟨hc₁, hposition⟩ hok hstep
  obtain ⟨ok, value, hspec⟩ := callStep_spec hc₁ hok hstep
  refine ⟨hspec.stands, ?_⟩
  rcases hspec.position with hforward | ⟨-, hend⟩
  · rcases hposition with hbefore | hbefore
    · exact .inl (le_trans hbefore hforward)
    · exact .inr (le_trans hbefore hforward)
  · exact .inr hend

theorem nested_limits (hnested : Nested calls) (h : CallerStands data top last c)
    (run : Runs callStep InStep c calls c') :
    c'.limits = c.limits ∧ c'.stream.currentLimit = c.stream.currentLimit := by
  induction hnested generalizing c c' with
  | nil =>
    cases run
    exact ⟨rfl, rfl⟩
  | plain hcall _ ih =>
    cases run with
    | cons hok hstep rest =>
      obtain ⟨ok, value, hspec⟩ := callStep_spec h hok hstep
      obtain ⟨hlimits, hcurrent⟩ := hspec.plain hcall
      obtain ⟨hlimits', hcurrent'⟩ := ih hspec.stands rest
      exact ⟨hlimits'.trans hlimits, hcurrent'.trans hcurrent⟩
  | block _ _ ihinner ihrest =>
    cases run with
    | cons hok hstep rest =>
      obtain ⟨ok, value, hpush⟩ := callStep_spec h hok hstep
      obtain ⟨c₂, inner, rest⟩ := rest.split
      obtain ⟨hlimits, -⟩ := ihinner hpush.stands inner
      cases rest with
      | cons hok' hstep' rest =>
        obtain ⟨ok', value', hpop⟩ := callStep_spec (runs_stands hpush.stands inner).1 hok' hstep'
        have hpopped := hpop.popped rfl
        rw [hlimits, hpush.pushed _ rfl] at hpopped
        obtain ⟨hcurrent, hlimits'⟩ := List.cons.inj hpopped
        obtain ⟨hlimits'', hcurrent''⟩ := ihrest hpop.stands rest
        exact ⟨hlimits''.trans hlimits'.symm, hcurrent''.trans hcurrent.symm⟩

theorem readable_later (hclosest : t.closestLimit = s.closestLimit)
    (hposition : s.currentPosition ≤ t.currentPosition ∨ data.length ≤ t.currentPosition) :
    readable data t = (readable data s).drop (t.currentPosition - s.currentPosition) := by
  rw [readable, readable, hclosest]
  by_cases hforward : s.currentPosition ≤ t.currentPosition
  · rw [drop_take, drop_drop, Nat.add_sub_cancel' hforward, ← Nat.sub_add_eq, Nat.add_sub_cancel' hforward]
  · rw [drop_eq_nil_of_le (hposition.resolve_left hforward),
      drop_eq_nil_of_le (show data.length ≤ s.currentPosition by omega)]
    simp

/-! ## Ints -/

/-- The sizes, the positions and the limits. -/
def CodedInputStream.measures (s : CodedInputStream) : List ℤ :=
  let bufferSize : ℤ := s.buffer.length - s.bufferSizeAfterLimit
  [bufferSize, bufferSize + s.bufferSizeAfterLimit, s.bufferSizeAfterLimit, s.overflowBytes,
    bufferSize + s.bufferSizeAfterLimit + s.overflowBytes, s.totalBytesRead,
    s.totalBytesRead - (bufferSize + s.bufferSizeAfterLimit), s.totalBytesRead - s.bufferSizeAfterLimit,
    s.currentLimit, s.totalBytesLimit]

/-- The differences between positions and limits. -/
def CodedInputStream.differences (s : CodedInputStream) : List ℤ :=
  let bufferSize : ℤ := s.buffer.length - s.bufferSizeAfterLimit
  let currentPosition : ℤ := s.totalBytesRead - (bufferSize + s.bufferSizeAfterLimit)
  let closestLimit : ℤ := min s.currentLimit s.totalBytesLimit
  [INT_MAX - currentPosition, s.currentLimit - currentPosition, s.totalBytesLimit - currentPosition,
    closestLimit - currentPosition, closestLimit - s.totalBytesRead, s.totalBytesRead - closestLimit]

/-- What the functions compute from the fields fits an `int`, and no size or position is
negative. -/
def CodedInputStream.InRange (s : CodedInputStream) : Prop :=
  (∀ n ∈ s.measures, 0 ≤ n ∧ n ≤ INT_MAX) ∧ ∀ n ∈ s.differences, IsInt n

theorem Stands.inRange (h : Stands data top last s) : s.InRange := by
  have hafter := h.sizes.1
  have hbuffer := h.buffer_le
  have hread := h.read_le
  have hlimit := le_trans h.limit_le_top h.top_le
  have htotal := h.total_le
  have hchunk := h.chunk_le
  constructor
  · simp only [measures, forall_mem_cons, not_mem_nil, false_implies, implies_true, and_true]
    omega
  · simp only [differences, IsInt, forall_mem_cons, not_mem_nil, false_implies, implies_true, and_true]
    omega

/-! ## The limit stack -/

/-- **The limit stack.**  In every state of a run, a read keeps to the readable bytes and delivers
all of them; a call delivers none but these and, unless it steps back, does not lower the
position; and what `PushLimit` took away, `PopLimit` gives back. -/
theorem limit_stack (h : Opened data s) (run : Runs callStep InStep ⟨s, []⟩ calls c) :
    (∀ bytes t, Reads c.stream bytes t → t.InRange) ∧
      (∀ size, (c.stream.readRaw size).1 = decide (size ≤ (readable data c.stream).length) ∧
        (c.stream.readRaw size).2.1 = (readable data c.stream).take size) ∧
      (∀ call ok value c', InStep c call → CodedInputStream.call c call = some (ok, value, c') →
        (∃ bytes, bytes <+: readable data c.stream ∧ Delivers bytes ok value call) ∧
          (¬ StepsBack c.stream call → c.stream.currentPosition ≤ c'.stream.currentPosition)) ∧
      ∀ byteLimit inner c', Nested inner →
        Runs callStep InStep c (.op (.pushLimit byteLimit) :: (inner ++ [.op .popLimit])) c' →
        c'.stream.currentLimit = c.stream.currentLimit ∧
          (c'.stream.totalBytesLimit = c.stream.totalBytesLimit →
            readable data c'.stream = (readable data c.stream).drop
              (c'.stream.currentPosition - c.stream.currentPosition)) := by
  obtain ⟨top, last, hstart⟩ := h.stands
  have hc := (runs_stands hstart run).1
  refine ⟨fun bytes t hreads => (hreads.stands hc.stream).1.inRange, readRaw_readable hc.stream, ?_, ?_⟩
  · intro call ok value c' hok hcall
    have hspec := call_spec hc hok hcall
    refine ⟨hspec.delivers, fun hforward => ?_⟩
    exact hspec.position.resolve_right fun hback => hforward hback.1
  · intro byteLimit inner c' hinner hrun
    obtain ⟨-, hcurrent⟩ := nested_limits (.block hinner .nil) hc hrun
    refine ⟨hcurrent, fun htotal => ?_⟩
    apply readable_later _ (runs_stands hc hrun).2
    rw [closestLimit, closestLimit, hcurrent, htotal]

/-- Under a limit of three and a total bytes limit of two, one byte of the chunk is left. -/
theorem limit_stack_twoLimits : ∃ c, exec callStep ⟨ofStream ⟨[[1, 2], [3, 4]], 0⟩, []⟩
        [.op (.pushLimit 3), .op (.skip 1), .setTotalBytesLimit 2] = some c ∧
      ∀ size, (c.stream.readRaw size).2.1 = [2].take size := by
  refine ⟨_, rfl, fun size => ?_⟩
  have hopened : Opened [1, 2, 3, 4] (ofStream ⟨[[1, 2], [3, 4]], 0⟩) :=
    .stream ⟨[[1, 2], [3, 4]], 0⟩ (by decide)
  have hrun : Runs callStep InStep ⟨ofStream ⟨[[1, 2], [3, 4]], 0⟩, []⟩
      [.op (.pushLimit 3), .op (.skip 1), .setTotalBytesLimit 2] _ := runs_of_execOk rfl
  exact ((limit_stack hopened hrun).2.1 size).2

/-- A total bytes limit of three set between a `PushLimit` and its `PopLimit` stays; and after a
`Skip` to a limit of five over a single byte, the next `Skip` puts the position back to one. -/
theorem limit_stack_not_always : (¬ ∀ data s byteLimit inner c', Opened data s → Nested inner →
        Runs callStep InStep ⟨s, []⟩ (.op (.pushLimit byteLimit) :: (inner ++ [.op .popLimit])) c' →
        readable data c'.stream =
          (readable data s).drop (c'.stream.currentPosition - s.currentPosition)) ∧
      ¬ ∀ data s calls c call c', Opened data s → Runs callStep InStep ⟨s, []⟩ calls c →
        InStep c call → callStep c call = some c' →
        c.stream.currentPosition ≤ c'.stream.currentPosition := by
  constructor
  · intro h
    have hrestored := h _ _ 2 [.setTotalBytesLimit 3] _ (.stream ⟨[[1, 2, 3, 4]], 0⟩ (by decide))
      (.plain trivial .nil) (runs_of_execOk rfl)
    exact absurd hrestored (by decide)
  · intro h
    have hforward := h _ _ [.op (.pushLimit 5), .op (.skip 6), .op .popLimit] _ (.op (.skip 1)) _
      (.stream ⟨[[1]], 0⟩ (by decide)) (runs_of_execOk rfl) (by decide) rfl
    exact absurd hforward (by decide)

end Protoc.Io
