import Protoc.Io.InputStreamsCursor

/-!
# Every adaptor is a faithful cursor

A user calls the methods of a stream one after the other, and goes back only inside the chunk
that the last call gave.
-/

namespace Protoc.Io

open Protoc.Lib InputStream

namespace InputStream

/-- A call of a method. -/
inductive Call where
  | next
  | backUp (count : ℕ)
  | skip (count : ℕ)
  deriving DecidableEq

/-- What a call returns. -/
inductive Returned where
  | chunk (data : Option (List UInt8))
  | backedUp
  | skipped (all : Bool)
  deriving DecidableEq

def call (s : InputStream) : Call → Option (Returned × InputStream)
  | .next => some (.chunk s.next.1, s.next.2)
  | .backUp count => (s.backUp count).map fun s => (.backedUp, s)
  | .skip count => some (.skipped (s.skip count).1, (s.skip count).2)

end InputStream

/-- The stream, and the size of the last chunk as long as no other call came after it. -/
abbrev Used := InputStream × Option ℕ

def lastSize : Returned → Option ℕ
  | .chunk data => data.map List.length
  | _ => none

def use (u : Used) (call : Call) : Option Used :=
  (u.1.call call).map fun r => (r.2, lastSize r.1)

/-- Back inside the last chunk only, and not zero bytes forward. -/
def Legal (u : Used) : Call → Prop
  | .next => True
  | .backUp count => ∃ n ∈ u.2, count ≤ n
  | .skip count => 1 ≤ count

abbrev Calls (s : InputStream) (calls : List Call) (u : Used) : Prop :=
  Runs use Legal (s, none) calls u

/-- The streams that can be put together, and their data.  A stream may be in use before a limit
is put on it. -/
inductive Built : InputStream → List UInt8 → Prop
  | array (data : List UInt8) (blockSize : ℤ) : Built (.array (.new data blockSize)) data
  | copying (source : CopyingInputStream) (blockSize : ℤ) :
      Built (.copying (.new source blockSize)) source.data
  | limiting {input input' : InputStream} {data : List UInt8} {calls : List Call}
      {last : Option ℕ} {limit : ℤ} (inner : Built input data)
      (used : Calls input calls (input', last)) (hlimit : 0 ≤ limit) :
      Built (.newLimiting input' limit) ((data.drop input'.byteCount.toNat).take limit.toNat)
  | concatenatingNil : Built (.concatenating [] 0) []
  | concatenatingCons {s : InputStream} {streams : List InputStream} {first rest : List UInt8}
      (head : Built s first) (tail : Built (.concatenating streams 0) rest) :
      Built (.concatenating (s :: streams) 0) (first ++ rest)

/-- What a call at that position of the data returns, and `ByteCount` after it. -/
def Observed (data : List UInt8) (pos : ℕ) :
    Call → Returned → ℤ → Prop
  | .next, .chunk (some buf), count =>
    buf ≠ [] ∧ buf = (data.drop pos).take buf.length ∧ count = pos + buf.length
  | .next, .chunk none, count => pos = data.length ∧ count = data.length
  | .backUp n, .backedUp, count => n ≤ pos ∧ count = pos - n
  | .skip n, .skipped true, count => pos + n ≤ data.length ∧ count = pos + n
  | .skip n, .skipped false, count => data.length < pos + n ∧ count = data.length
  | _, _, _ => False

/-- After any legal calls, `ByteCount` is a position of the data, and each further legal call
passes the checks and returns what the data have there. -/
def Faithful (s : InputStream) (data : List UInt8) : Prop :=
  ∀ (calls : List Call) (s' : InputStream) (last : Option ℕ),
    Calls s calls (s', last) → ∃ pos : ℕ, s'.byteCount = pos ∧ pos ≤ data.length ∧
      ∀ call, Legal (s', last) call →
        ∃ r s'', s'.call call = some (r, s'') ∧ Observed data pos call r s''.byteCount

/-! ## A call -/

/-- The stream at a position of the data, as far as the user knows. -/
def At (data : List UInt8) (u : Used) : Prop :=
  ∃ c, u.1.Sim c ∧ c.data = data ∧ ∀ n ∈ u.2, c.last = some n

variable {c : ReadCursor UInt8} {s : InputStream}

/-- A legal call passes the checks, and returns what the data have at the position. -/
theorem call_of_sim (h : s.Sim c) {last : Option ℕ}
    (hlast : ∀ n ∈ last, c.last = some n) {call : Call} (hlegal : Legal (s, last) call) :
    ∃ r s' c', s.call call = some (r, s') ∧ s'.Sim c' ∧ c'.data = c.data ∧
      (∀ n ∈ lastSize r, c'.last = some n) ∧ Observed c.data c.pos call r c'.pos := by
  cases call with
  | next =>
    obtain ⟨c', hnext, hsim⟩ := sim_next s c h
    refine ⟨_, _, c', rfl, hsim, hnext.data, ?_, ?_⟩
    · intro n hn
      rw [hnext.last]
      exact hn
    · cases hchunk : s.next.1 with
      | none =>
        obtain ⟨hend, hpos⟩ := hnext.ends hchunk
        exact ⟨hend, by rw [hpos, hend]⟩
      | some buf =>
        obtain ⟨hne, hprefix, hpos⟩ := hnext.gives buf hchunk
        exact ⟨hne, List.prefix_iff_eq_take.mp hprefix, by rw [hpos]; push_cast; rfl⟩
  | backUp count =>
    obtain ⟨n, hn, hcount⟩ := hlegal
    obtain ⟨s', hs', c', hback, hsim⟩ := sim_backUp s c h (hlast n hn) hcount
    refine ⟨.backedUp, s', c', ?_, hsim, hback.data, by simp [lastSize], ?_⟩
    · rw [call, hs', Option.map_some]
    · have hpos := hback.pos
      exact ⟨by omega, by omega⟩
  | skip count =>
    obtain ⟨c', hskip, hsim⟩ := sim_skip s c count h
    have hone : 1 ≤ count := hlegal
    refine ⟨_, _, c', rfl, hsim, hskip.data, by simp [lastSize], ?_⟩
    have hle := c'.pos_le
    rw [hskip.data] at hle
    cases hall : (s.skip count).1 with
    | true =>
      have hpos := hskip.yes hall
      exact ⟨by omega, by omega⟩
    | false =>
      obtain ⟨hpos, -, hlt⟩ := hskip.no hall
      exact ⟨hlt (by omega), by rw [hpos]⟩

variable {data : List UInt8}

theorem at_use (u : Used) (call : Call) (u' : Used)
    (h : At data u) (hlegal : Legal u call) (hstep : use u call = some u') : At data u' := by
  obtain ⟨s, last⟩ := u
  obtain ⟨c, hsim, rfl, hlast⟩ := h
  obtain ⟨r, s', c', hcall, hsim', hdata, hlast', -⟩ := call_of_sim hsim hlast hlegal
  rw [use, hcall, Option.map_some] at hstep
  cases hstep
  exact ⟨c', hsim', hdata, hlast'⟩

theorem at_start (h : s.Sim c) : At c.data (s, none) := ⟨c, h, rfl, by simp⟩

theorem faithful_of_sim (h : s.Sim c) : Faithful s c.data := by
  intro calls s' last hcalls
  obtain ⟨c', hsim, hdata, hlast⟩ := hcalls.invariant at_use (at_start h)
  refine ⟨c'.pos, byteCount_of_sim s' c' hsim, hdata ▸ c'.pos_le, ?_⟩
  intro call hlegal
  obtain ⟨r, s'', c'', hcall, hsim', -, -, hobserved⟩ := call_of_sim hsim hlast hlegal
  rw [hdata] at hobserved
  exact ⟨r, s'', hcall, by rwa [byteCount_of_sim s'' c'' hsim']⟩

/-! ## What can be put together -/

theorem fresh_of_simOf {streams : List InputStream} (h : SimOf streams (.start data)) : Fresh streams data := by
  cases streams with
  | nil =>
    rw [SimOf] at h
    rw [Fresh]
    exact congrArg ReadCursor.data h
  | cons s streams =>
    rw [SimOf] at h
    obtain ⟨inner, tail, hs, hstreams, heq⟩ := h
    have hinner : inner = .start inner.data :=
      ReadCursor.ext_fields rfl (congrArg ReadCursor.pos heq).symm
        (congrArg ReadCursor.last heq).symm
    rw [Fresh]
    refine ⟨inner.data, tail, ?_, hstreams, congrArg ReadCursor.data heq⟩
    rwa [← hinner]

theorem limited_newLimiting {input : InputStream} {inner : ReadCursor UInt8} (h : input.Sim inner) (limit : ℕ) :
    Limited inner.data input.byteCount (.newLimiting input limit) (.start (inner.rest.take limit)) := by
  refine ⟨input, limit, inner, rfl, h, rfl, ?_⟩
  rw [byteCount_of_sim input inner h]
  exact limits_new inner limit

theorem limited_of_calls {input input' : InputStream}
    {calls : List Call} {last : Option ℕ} {limit : ℤ} (h : input.Sim (.start data))
    (hcalls : Calls input calls (input', last)) (hlimit : 0 ≤ limit) :
    input'.byteCount.toNat ≤ data.length ∧ (input'.byteCount.toNat : ℤ) = input'.byteCount ∧
    Limited data input'.byteCount (.newLimiting input' limit)
      (.start ((data.drop input'.byteCount.toNat).take limit.toNat)) := by
  obtain ⟨inner, hinner, hdata, -⟩ := hcalls.invariant at_use (at_start h)
  rw [ReadCursor.start_data] at hdata
  subst hdata
  have hpos := byteCount_of_sim input' inner hinner
  have hlimited := limited_newLimiting hinner limit.toNat
  rw [Int.toNat_of_nonneg hlimit] at hlimited
  have hle := inner.pos_le
  have hnat : input'.byteCount.toNat = inner.pos := by omega
  rw [hnat]
  exact ⟨hle, by omega, hlimited⟩

theorem sim_of_built (h : Built s data) : s.Sim (.start data) := by
  induction h with
  | array data blockSize =>
    rw [Sim]
    exact ArrayInputStream.sim_new data blockSize
  | copying source blockSize =>
    rw [Sim]
    exact CopyingInputStreamAdaptor.sim_new source blockSize
  | limiting inner used hlimit ih => exact (limited_of_calls ih used hlimit).2.2.sim
  | concatenatingNil =>
    rw [Sim]
    refine ⟨[], .start [], rfl, ?_, (ReadCursor.behind_nil _).symm⟩
    rw [SimOf]
  | concatenatingCons head tail ihHead ihTail =>
    rw [Sim] at ihTail ⊢
    obtain ⟨gone, c, hgone, hstreams, heq⟩ := ihTail
    obtain rfl : gone = [] := List.length_eq_zero_iff.mp (by omega)
    rw [ReadCursor.behind_nil] at heq
    subst heq
    refine ⟨[], _, rfl, ?_, (ReadCursor.behind_nil _).symm⟩
    rw [SimOf]
    exact ⟨_, _, ihHead, fresh_of_simOf hstreams, rfl⟩

/-! ## A stream with a limit -/

def LimitedAt (data limited : List UInt8) (priorBytesRead : ℤ) (u : Used) : Prop :=
  ∃ c, Limited data priorBytesRead u.1 c ∧ c.data = limited ∧ ∀ n ∈ u.2, c.last = some n

theorem limitedAt_use {data limited : List UInt8} {priorBytesRead : ℤ} (u : Used)
    (call : Call) (u' : Used) (h : LimitedAt data limited priorBytesRead u)
    (hlegal : Legal u call) (hstep : use u call = some u') : LimitedAt data limited priorBytesRead u' := by
  obtain ⟨s, last⟩ := u
  obtain ⟨c, ⟨input, limit, inner, rfl, hinner, rfl, hlimits⟩, rfl, hlast⟩ := h
  cases call with
  | next =>
    obtain ⟨c', hnext, hlimited⟩ :=
      limiting_next hinner hlimits (sim_next input inner hinner)
    cases hstep
    refine ⟨c', hlimited, hnext.data, ?_⟩
    intro n hn
    rw [hnext.last]
    exact hn
  | backUp count =>
    obtain ⟨n, hn, hcount⟩ := hlegal
    obtain ⟨s', hs', c', hback, hlimited⟩ := limiting_backUp hlimits (hlast n hn) hcount
      fun hlast hcount => sim_backUp input inner hinner hlast hcount
    rw [use, call, hs'] at hstep
    cases hstep
    exact ⟨c', hlimited, hback.data, by simp [lastSize]⟩
  | skip count =>
    obtain ⟨c', hskip, hlimited⟩ := limiting_skip hinner hlimits count
      fun count => sim_skip input inner count hinner
    cases hstep
    exact ⟨c', hlimited, hskip.data, by simp [lastSize]⟩

theorem destroy_of_limited {priorBytesRead : ℤ} (h : Limited data priorBytesRead s c) :
    ∃ input, s.destroy = some input ∧ input.byteCount = priorBytesRead + c.pos ∧ Faithful input data := by
  obtain ⟨input, limit, inner, rfl, hinner, rfl, hlimits⟩ := h
  obtain ⟨hlast, hover, hwithin⟩ := limits_destroy hlimits
  rw [destroy]
  split
  · next hneg =>
    obtain ⟨n, hn, hle⟩ := hlast hneg
    obtain ⟨input', hinput', inner', hback, hinner'⟩ :=
      sim_backUp input inner hinner hn hle
    refine ⟨input', hinput', ?_, hback.data ▸ faithful_of_sim hinner'⟩
    rw [byteCount_of_sim input' inner' hinner', hover hneg inner' hback]
  · next hnonneg =>
    refine ⟨input, rfl, ?_, faithful_of_sim hinner⟩
    rw [byteCount_of_sim input inner hinner, hwithin hnonneg]

/-- **Every adaptor is a faithful cursor over its data**, whatever it is put together from.  A
stream with a limit delivers as many bytes as the limit says or as there are, and its destructor
leaves the stream inside right behind the bytes it consumed. -/
theorem inputStream_faithful :
    (∀ {s : InputStream} {data : List UInt8}, Built s data → s.byteCount = 0 ∧ Faithful s data) ∧
    ∀ {input input' : InputStream} {data : List UInt8} {calls : List Call}
      {last : Option ℕ} {limit : ℤ}, Built input data → Calls input calls (input', last) → 0 ≤ limit →
      let limited := (data.drop input'.byteCount.toNat).take limit.toNat
      (limited.length : ℤ) = min limit (data.length - input'.byteCount) ∧
      Faithful (.newLimiting input' limit) limited ∧
      ∀ {calls' : List Call} {s : InputStream} {last' : Option ℕ},
        Calls (.newLimiting input' limit) calls' (s, last') →
        ∃ input'', s.destroy = some input'' ∧
          input''.byteCount = input'.byteCount + s.byteCount ∧ Faithful input'' data := by
  constructor
  · intro s data h
    have hsim := sim_of_built h
    exact ⟨byteCount_of_sim s _ hsim, faithful_of_sim hsim⟩
  · intro input input' data calls last limit hbuilt hcalls hlimit
    obtain ⟨hle, hnat, hlimited⟩ := limited_of_calls (sim_of_built hbuilt) hcalls hlimit
    refine ⟨?_, faithful_of_sim hlimited.sim, fun {calls' s last'} hcalls' => ?_⟩
    · rw [List.length_take, List.length_drop]
      omega
    · have hstart : LimitedAt data ((data.drop input'.byteCount.toNat).take limit.toNat)
          input'.byteCount (.newLimiting input' limit, none) := ⟨_, hlimited, rfl, by simp⟩
      obtain ⟨c, hc, -, -⟩ := hcalls'.invariant limitedAt_use hstart
      rw [byteCount_of_sim s c hc.sim]
      exact destroy_of_limited hc

/-- A limit of two bytes on two arrays, after the first chunk. -/
theorem inputStream_faithful_two :
    let input : InputStream := .concatenating [.array (.new [1, 2] 0), .array (.new [3, 4, 5] 2)] 0
    Built input [1, 2, 3, 4, 5] ∧ Faithful input [1, 2, 3, 4, 5] ∧
      Calls input [.next] (input.next.2, some 2) ∧ Faithful (.newLimiting input.next.2 2) [3, 4] := by
  intro input
  have hbuilt : Built input [1, 2, 3, 4, 5] :=
    .concatenatingCons (.array [1, 2] 0) (.concatenatingCons (.array [3, 4, 5] 2) .concatenatingNil)
  have hcalls : Calls input [.next] (input.next.2, some 2) := .single trivial rfl
  have hlimited := (inputStream_faithful.2 hbuilt hcalls (by decide : (0 : ℤ) ≤ 2)).2.1
  exact ⟨hbuilt, (inputStream_faithful.1 hbuilt).2, hcalls, hlimited⟩

end Protoc.Io
