import Protoc.Io.InputStreams
import Protoc.Lib.ReadCursor
import Protoc.Lib.Run

/-!
# The adaptors are cursors

Each stream stands at a position of its data, whatever streams are inside it, and each method
does what the cursor at that position may do.
-/

namespace Protoc.Io

open Protoc.Lib
open List Option

/-! ## An array -/

namespace ArrayInputStream

/-- The array at a position of its data. -/
structure Sim (s : ArrayInputStream) (c : ReadCursor UInt8) : Prop where
  data : c.data = s.data
  pos : c.pos = s.position
  block : 0 < s.blockSize ∨ s.data = []
  last : ∀ n ∈ c.last, n = s.lastReturnedSize ∧ 0 < n

theorem sim_new (data : List UInt8) (blockSize : ℤ) : (new data blockSize).Sim (.start data) where
  data := rfl
  pos := rfl
  block := by
    rw [new]
    split
    · left
      simp only
      omega
    · cases data
      · exact .inr rfl
      · exact .inl (Nat.succ_pos _)
  last n h := by cases h

variable {s : ArrayInputStream} {c : ReadCursor UInt8}

theorem sim_next (h : s.Sim c) : ∃ c', c.Next s.next.1 c' ∧ s.next.2.Sim c' := by
  have hle := c.pos_le
  rw [h.data, h.pos] at hle
  rw [next]
  split
  · next hlt =>
    have hblock : 0 < s.blockSize := by
      rcases h.block with hblock | hnil
      · exact hblock
      · simp [hnil] at hlt
    have hsize : ((s.data.drop s.position).take
        (min s.blockSize (s.data.length - s.position))).length =
        min s.blockSize (s.data.length - s.position) := by
      simp
    refine ⟨⟨c.data, c.pos + min s.blockSize (s.data.length - s.position),
      some (min s.blockSize (s.data.length - s.position)), ?_, ?_⟩, ⟨rfl, ?_, ?_, ?_⟩,
      ⟨h.data, ?_, h.block, ?_⟩⟩
    · rw [h.data, h.pos]
      omega
    · intro n hn
      obtain rfl := mem_some_iff.mp hn
      omega
    · simp [hsize]
    · simp
    · rintro buf hbuf
      cases hbuf
      refine ⟨ne_nil_of_length_pos (by omega), ?_, by rw [hsize]⟩
      rw [ReadCursor.rest, h.data, h.pos]
      exact take_prefix _ _
    · simp [h.pos]
    · intro n hn
      obtain rfl := mem_some_iff.mp hn
      exact ⟨rfl, by omega⟩
  · next hge => exact ⟨⟨c.data, c.pos, none, c.pos_le, by simp⟩,
      ⟨rfl, rfl, fun _ => ⟨by rw [h.data, h.pos]; omega, rfl⟩, by simp⟩,
      ⟨h.data, h.pos, h.block, by simp⟩⟩

theorem sim_backUp (h : s.Sim c) {n count : ℕ} (hlast : c.last = some n) (hcount : count ≤ n) :
    ∃ s', s.backUp count = some s' ∧ ∃ c', c.BackUp count c' ∧ s'.Sim c' := by
  obtain ⟨hn, hpos⟩ := h.last n hlast
  have hle := c.last_le n hlast
  refine ⟨_, if_pos ⟨by omega, by omega⟩, ⟨c.data, c.pos - count, none, ?_, by simp⟩,
    ⟨rfl, ?_, rfl⟩, ⟨h.data, ?_, h.block, by simp⟩⟩
  · exact le_trans (Nat.sub_le _ _) c.pos_le
  · simp only
    omega
  · simp [h.pos]

theorem sim_skip (h : s.Sim c) (count : ℕ) :
    ∃ c', c.Skip count (s.skip count).1 c' ∧ (s.skip count).2.Sim c' := by
  have hle := c.pos_le
  rw [h.data, h.pos] at hle
  rw [skip]
  split
  · next hpast =>
    refine ⟨⟨c.data, c.data.length, none, le_rfl, by simp⟩, ⟨rfl, rfl, by simp, fun _ => ?_⟩,
      ⟨h.data, congrArg List.length h.data, h.block, by simp⟩⟩
    rw [h.data, h.pos]
    exact ⟨rfl, by omega, by omega⟩
  · next hroom =>
    refine ⟨⟨c.data, c.pos + count, none, ?_, by simp⟩, ⟨rfl, rfl, fun _ => rfl, by simp⟩,
      ⟨h.data, by simp [h.pos], h.block, by simp⟩⟩
    rw [h.data, h.pos]
    omega

end ArrayInputStream

/-! ## A source that is read in pieces -/

namespace CopyingInputStream

theorem read_spec (s : CopyingInputStream) {size : ℕ} (hsize : 0 < size) :
    (∃ s', ∃ data, s.read size = (.bytes data, s') ∧ data ≠ [] ∧ s.data = data ++ s'.data ∧
      data.length ≤ size) ∨ (∃ r, s.read size = (r, s) ∧ (r = .eof ∨ r = .error) ∧ s.data = []) := by
  rw [read]
  split
  · next hnil =>
    right
    cases s.failing
    · exact ⟨.eof, rfl, .inl rfl, hnil⟩
    · exact ⟨.error, rfl, .inr rfl, hnil⟩
  · next hne =>
    left
    have hpos : 0 < s.data.length := length_pos_iff.mpr hne
    refine ⟨_, _, rfl, ?_, (take_append_drop _ _).symm, ?_⟩
    · apply ne_nil_of_length_pos
      rw [length_take]
      omega
    · rw [length_take]
      omega

/-- **`Skip`** skips as many bytes as there are. -/
theorem skip_spec (s : CopyingInputStream) (count : ℕ) : (s.skip count).1 = min count s.data.length ∧
      (s.skip count).2.data = s.data.drop (s.skip count).1 := by
  fun_induction skip s count with
  | case1 s count hcount data s' hread skipped s'' hskip ih =>
    rw [hskip] at ih
    rcases s.read_spec (show 0 < min count 4096 by omega) with
      ⟨t, d, hr, hne, hdata, hle⟩ | ⟨r, hr, hend, -⟩
    · rw [hr] at hread
      cases hread
      obtain ⟨hskipped, hrest⟩ := ih
      simp only at hskipped hrest ⊢
      rw [hdata, length_append, hrest, drop_append]
      have hdrop : data.drop (data.length + skipped) = [] := drop_eq_nil_of_le (by omega)
      exact ⟨by omega, by rw [hdrop, nil_append, Nat.add_sub_cancel_left]⟩
    · rw [hr] at hread
      rcases hend with rfl | rfl <;> cases hread
  | case2 s count hcount r s' hnot hread =>
    rcases s.read_spec (show 0 < min count 4096 by omega) with
      ⟨t, d, hr, hne, hdata, hle⟩ | ⟨r, hr, hend, hnil⟩
    · rw [hr] at hread
      cases hread
      exact (hnot d rfl).elim
    · rw [hr] at hread
      cases hread
      simp [hnil]
  | case3 s count hcount =>
    have hzero : count = 0 := by omega
    simp [hzero]

end CopyingInputStream

/-! ## The adaptor of such a source -/

namespace CopyingInputStreamAdaptor

/-- The adaptor at a position of the bytes that the source had. -/
structure Sim (s : CopyingInputStreamAdaptor) (c : ReadCursor UInt8) : Prop where
  size : 0 < s.bufferSize
  position_le : s.position ≤ c.data.length
  source : s.copyingStream.data = c.data.drop s.position
  pos : c.pos + s.backupBytes = s.position
  backup_le : s.backupBytes ≤ s.used.length
  failed : s.failed = true → s.buffer = none ∧ s.position = c.data.length
  -- what can be given again is still in the buffer
  buffer : 0 < s.backupBytes ∨ c.last ≠ none → s.used <:+ c.data.take s.position
  last : ∀ n ∈ c.last, s.backupBytes = 0 ∧ s.buffer ≠ none ∧ n ≤ s.used.length

theorem sim_new (source : CopyingInputStream) (blockSize : ℤ) :
    (new source blockSize).Sim (.start source.data) where
  size := by
    rw [new]
    split
    · simp only
      omega
    · exact Nat.succ_pos _
  position_le := Nat.zero_le _
  source := rfl
  pos := rfl
  backup_le := Nat.zero_le _
  failed h := by cases h
  buffer h := by
    rcases h with h | h
    · exact absurd h (lt_irrefl _)
    · exact absurd rfl h
  last n h := by cases h

variable {s : CopyingInputStreamAdaptor} {c : ReadCursor UInt8}

theorem Sim.backup_of_failed (h : s.Sim c) (hfailed : s.failed = true) : s.backupBytes = 0 := by
  have hroom := h.backup_le
  rw [used, (h.failed hfailed).1] at hroom
  exact Nat.le_zero.mp hroom

theorem drop_used {k : ℕ} (hbuffer : s.used <:+ c.data.take s.position) (hk : k ≤ s.used.length)
    (hposition : s.position ≤ c.data.length) :
    s.used.drop (s.used.length - k) = (c.data.drop (s.position - k)).take k := by
  obtain ⟨before, hbefore⟩ := hbuffer
  have hlength := congrArg List.length hbefore
  rw [length_append, length_take] at hlength
  have hused : s.used = (c.data.take s.position).drop before.length := by
    rw [← hbefore, drop_left]
  have hdrop : s.used.drop (s.used.length - k) = (c.data.take s.position).drop (s.position - k) := by
    conv_lhs => rw [hused, drop_drop]
    congr 1
    rw [length_drop, length_take]
    omega
  rw [hdrop, drop_take]
  congr 1
  omega

theorem sim_next (h : s.Sim c) : ∃ c', c.Next s.next.1 c' ∧ s.next.2.Sim c' := by
  have hpos := h.pos
  have hle := h.position_le
  rw [next]
  split
  · next hfailed =>
    obtain ⟨hnone, hend⟩ := h.failed hfailed
    have hzero := h.backup_of_failed hfailed
    exact ⟨⟨c.data, c.pos, none, c.pos_le, by simp⟩, ⟨rfl, rfl, fun _ => ⟨by omega, rfl⟩, by simp⟩,
      ⟨h.size, hle, h.source, hpos, h.backup_le, h.failed, by simp [hzero], by simp⟩⟩
  · next hfailed =>
    split
    · next hbackup =>
      have hback := drop_used (h.buffer (.inl hbackup)) h.backup_le hle
      have hfrom : s.position - s.backupBytes = c.pos := by omega
      rw [hfrom] at hback
      have hlength : (s.used.drop (s.used.length - s.backupBytes)).length = s.backupBytes := by
        have hroom := h.backup_le
        rw [length_drop]
        omega
      have hbuffer : s.buffer ≠ none := by
        intro hnone
        have hroom := h.backup_le
        simp only [used, hnone, getD_none, length_nil] at hroom
        omega
      refine ⟨⟨c.data, s.position, some s.backupBytes, hle, ?_⟩, ⟨rfl, by simp [hlength], by simp, ?_⟩,
        ⟨h.size, hle, h.source, rfl, Nat.zero_le _, fun hf => absurd hf hfailed,
          fun _ => h.buffer (.inl hbackup), ?_⟩⟩
      · intro n hn
        obtain rfl := mem_some_iff.mp hn
        omega
      · rintro buf hbuf
        cases hbuf
        refine ⟨ne_nil_of_length_pos (by omega), ?_, by rw [hlength]; exact hpos.symm⟩
        rw [hback]
        exact take_prefix _ _
      · intro n hn
        obtain rfl := mem_some_iff.mp hn
        exact ⟨rfl, hbuffer, h.backup_le⟩
    · next hbackup =>
      have hzero : s.backupBytes = 0 := by omega
      rcases s.copyingStream.read_spec h.size with
        ⟨stream, data, hread, hne, hdata, -⟩ | ⟨r, hread, hend, hnil⟩
      · rw [hread]
        have hsource := h.source
        rw [hdata] at hsource
        have hroom := congrArg List.length hsource
        rw [length_append, length_drop] at hroom
        have htake : c.data.take (s.position + data.length) = c.data.take s.position ++ data := by
          rw [take_add, ← hsource, take_left]
        have hstream : stream.data = c.data.drop (s.position + data.length) := by
          rw [← drop_drop, ← hsource, drop_left]
        refine ⟨⟨c.data, s.position + data.length, some data.length, by omega, ?_⟩,
          ⟨rfl, rfl, by simp, ?_⟩,
          ⟨h.size, by simp only; omega, hstream, by simp [hzero], by simp [hzero],
            fun hf => absurd hf hfailed, fun _ => ?_, ?_⟩⟩
        · intro n hn
          obtain rfl := mem_some_iff.mp hn
          omega
        · rintro buf hbuf
          cases hbuf
          refine ⟨hne, ?_, by simp only; omega⟩
          have hpos' : c.pos = s.position := by omega
          rw [ReadCursor.rest, hpos', ← hsource]
          exact prefix_append _ _
        · simp only [used, getD_some, htake]
          exact suffix_append _ _
        · intro n hn
          obtain rfl := mem_some_iff.mp hn
          simp [hzero, used]
      · have hend' : s.position = c.data.length := by
          have hsource := h.source
          rw [hnil] at hsource
          have hlength := congrArg List.length hsource
          rw [length_nil, length_drop] at hlength
          omega
        have hnext : c.Next none ⟨c.data, c.pos, none, c.pos_le, by simp⟩ :=
          ⟨rfl, rfl, fun _ => ⟨by omega, rfl⟩, by simp⟩
        rw [hread]
        rcases hend with rfl | rfl
        · exact ⟨_, hnext, ⟨h.size, hle, h.source, hpos, by simp [hzero],
            fun hf => absurd hf hfailed, by simp [hzero], by simp⟩⟩
        · exact ⟨_, hnext, ⟨h.size, hle, h.source, hpos, by simp [hzero],
            fun _ => ⟨rfl, hend'⟩, by simp [hzero], by simp⟩⟩

theorem sim_backUp (h : s.Sim c) {n count : ℕ} (hlast : c.last = some n) (hcount : count ≤ n) :
    ∃ s', s.backUp count = some s' ∧ ∃ c', c.BackUp count c' ∧ s'.Sim c' := by
  obtain ⟨hzero, hbuffer, hn⟩ := h.last n hlast
  have hle := c.last_le n hlast
  have hpos := h.pos
  refine ⟨_, if_pos ⟨hzero, hbuffer, le_trans hcount hn⟩, ⟨c.data, c.pos - count, none, ?_, by simp⟩,
    ⟨rfl, ?_, rfl⟩,
    ⟨h.size, h.position_le, h.source, ?_, le_trans hcount hn, fun hf => ?_, fun _ => ?_, by simp⟩⟩
  · exact le_trans (Nat.sub_le _ _) c.pos_le
  · simp only
    omega
  · simp only
    omega
  · exact absurd (h.failed hf).1 hbuffer
  · exact h.buffer (.inr (by simp [hlast]))

theorem sim_skip (h : s.Sim c) (count : ℕ) :
    ∃ c', c.Skip count (s.skip count).1 c' ∧ (s.skip count).2.Sim c' := by
  have hpos := h.pos
  have hle := h.position_le
  rw [skip]
  split
  · next hfailed =>
    obtain ⟨hnone, hend⟩ := h.failed hfailed
    have hzero := h.backup_of_failed hfailed
    exact ⟨⟨c.data, c.pos, none, c.pos_le, by simp⟩,
      ⟨rfl, rfl, by simp, fun _ => ⟨by simp only; omega, by omega, by omega⟩⟩,
      ⟨h.size, hle, h.source, hpos, h.backup_le, h.failed, by simp [hzero], by simp⟩⟩
  · next hfailed =>
    split
    · next hchop =>
      have hroom := h.backup_le
      refine ⟨⟨c.data, c.pos + count, none, by omega, by simp⟩, ⟨rfl, rfl, fun _ => rfl, by simp⟩,
        ⟨h.size, hle, h.source, by simp only; omega, by simp only [used] at *; omega,
          fun hf => absurd hf hfailed, fun hmore => ?_, by simp⟩⟩
      have hmore : 0 < s.backupBytes - count := by simpa using hmore
      exact h.buffer (.inl (by omega))
    · next hpast =>
      obtain ⟨hskipped, hrest⟩ := s.copyingStream.skip_spec (count - s.backupBytes)
      rw [h.source, length_drop] at hskipped
      rw [h.source, drop_drop] at hrest
      generalize s.copyingStream.skip (count - s.backupBytes) = r at hskipped hrest
      obtain ⟨skipped, stream⟩ := r
      simp only at hskipped hrest ⊢
      refine ⟨⟨c.data, s.position + skipped, none, by omega, by simp⟩,
        ⟨rfl, rfl, fun hyes => ?_, fun hno => ?_⟩,
        ⟨h.size, by simp only; omega, hrest, rfl, Nat.zero_le _, fun hf => absurd hf hfailed,
          by simp, by simp⟩⟩
      · have hall := of_decide_eq_true hyes
        simp only
        omega
      · have hshort := of_decide_eq_false hno
        simp only
        omega

end CopyingInputStreamAdaptor

/-! ## A limit -/

/-- The limit is not reached, or just so.  Behind a `Skip` that failed it may say too much, but
then the stream inside is at its end. -/
structure Within (start size : ℕ) (limit : ℤ) (inner outer : ReadCursor UInt8) : Prop where
  nonneg : 0 ≤ limit
  pos : inner.pos = start + outer.pos
  room : limit = size - outer.pos ∨ inner.pos = inner.data.length
  last : ∀ n ∈ outer.last, inner.last = some n ∧ limit = size - outer.pos

/-- The last buffer went past the limit. -/
structure Over (start size : ℕ) (limit : ℤ) (inner outer : ReadCursor UInt8) : Prop where
  neg : limit < 0
  outerPos : outer.pos = size
  innerPos : (inner.pos : ℤ) = start + size - limit
  last : ∃ n : ℕ, inner.last = some n ∧ -limit ≤ n ∧ ∀ k ∈ outer.last, (k : ℤ) = n + limit

/-- A stream that ends `size` bytes behind the place where the stream inside stood. -/
def Limits (limit priorBytesRead : ℤ) (inner outer : ReadCursor UInt8) : Prop :=
  ∃ start size : ℕ, priorBytesRead = start ∧ start ≤ inner.data.length ∧
    outer.data = (inner.data.drop start).take size ∧
    (Within start size limit inner outer ∨ Over start size limit inner outer)

section Limit

variable {limit priorBytesRead : ℤ} {inner inner' outer : ReadCursor UInt8}

theorem limits_new (inner : ReadCursor UInt8) (size : ℕ) :
    Limits size inner.pos inner (.start (inner.rest.take size)) :=
  ⟨inner.pos, size, rfl, inner.pos_le, rfl, .inl ⟨by omega, rfl, .inl (by simp), by simp⟩⟩

theorem length_limited {start size : ℕ} (h : outer.data = (inner.data.drop start).take size) :
    outer.data.length = min size (inner.data.length - start) := by
  rw [h, length_take, length_drop]

theorem rest_limited {start size : ℕ} (hdata : outer.data = (inner.data.drop start).take size)
    (hpos : inner.pos = start + outer.pos) : outer.rest = inner.rest.take (size - outer.pos) := by
  rw [ReadCursor.rest, ReadCursor.rest, hdata, drop_take, drop_drop, hpos]

section
variable (h : Limits limit priorBytesRead inner outer)
include h

theorem limits_next_stop (hlimit : limit ≤ 0) :
    ∃ outer', outer.Next none outer' ∧ Limits limit priorBytesRead inner outer' := by
  obtain ⟨start, size, hprior, hstart, hdata, hcase⟩ := h
  have hlength := length_limited hdata
  have houter := outer.pos_le
  refine ⟨⟨outer.data, outer.pos, none, outer.pos_le, by simp⟩, ⟨rfl, rfl, fun _ => ⟨?_, rfl⟩, by simp⟩,
    start, size, hprior, hstart, hdata, ?_⟩
  · rcases hcase with h | h
    · have hnonneg := h.nonneg
      have hpos := h.pos
      rcases h.room with hroom | hend <;> omega
    · have hpos := h.outerPos
      omega
  · rcases hcase with h | h
    · exact .inl ⟨h.nonneg, h.pos, h.room, by simp⟩
    · obtain ⟨n, hlast, hle, -⟩ := h.last
      exact .inr ⟨h.neg, h.outerPos, h.innerPos, n, hlast, hle, by simp⟩

theorem limits_next_none (hlimit : 0 < limit) (hnext : inner.Next none inner') :
    ∃ outer', outer.Next none outer' ∧ Limits limit priorBytesRead inner' outer' := by
  obtain ⟨start, size, hprior, hstart, hdata, hcase⟩ := h
  obtain ⟨hend, hpos'⟩ := hnext.ends rfl
  have hlength := length_limited hdata
  have houter := outer.pos_le
  have hwithin := hcase.resolve_right fun h => by have := h.neg; omega
  have hpos := hwithin.pos
  refine ⟨⟨outer.data, outer.pos, none, outer.pos_le, by simp⟩,
    ⟨rfl, rfl, fun _ => ⟨by omega, rfl⟩, by simp⟩, start, size, hprior, ?_, ?_,
    .inl ⟨hwithin.nonneg, ?_, .inr ?_, by simp⟩⟩
  · rwa [hnext.data]
  · rwa [hnext.data]
  · simp only
    omega
  · rw [hnext.data, hpos', hend]

/-- A buffer that may go past the limit. -/
theorem limits_next_some (hlimit : 0 < limit) {data : List UInt8} (hnext : inner.Next (some data) inner') :
    (limit - data.length < 0 → ∃ outer',
      outer.Next (some (data.take (data.length + (limit - data.length)).toNat)) outer' ∧
        Limits (limit - data.length) priorBytesRead inner' outer') ∧
    (¬ limit - data.length < 0 → ∃ outer', outer.Next (some data) outer' ∧
      Limits (limit - data.length) priorBytesRead inner' outer') := by
  obtain ⟨start, size, hprior, hstart, hdata, hcase⟩ := h
  obtain ⟨hne, hprefix, hpos'⟩ := hnext.gives data rfl
  have hlength := length_limited hdata
  have hinner' := inner'.pos_le
  rw [hnext.data] at hinner'
  have hwithin := hcase.resolve_right fun h => by have := h.neg; omega
  have hpos := hwithin.pos
  have hdatapos : 0 < data.length := length_pos_iff.mpr hne
  have hroom : limit = size - outer.pos := by
    rcases hwithin.room with hroom | hend
    · exact hroom
    · omega
  have hrest := rest_limited hdata hpos
  have hlast' := hnext.last
  constructor
  · intro hover
    have hcount : (data.length + (limit - data.length)).toNat = size - outer.pos := by omega
    rw [hcount]
    have htake : (data.take (size - outer.pos)).length = size - outer.pos := by
      rw [length_take]
      omega
    refine ⟨⟨outer.data, size, some (size - outer.pos), by omega, ?_⟩, ⟨rfl, by simp [htake], by simp, ?_⟩,
      start, size, hprior, by rwa [hnext.data], by rwa [hnext.data],
      .inr ⟨hover, rfl, by omega, data.length, hlast', by omega, ?_⟩⟩
    · intro n hn
      obtain rfl := mem_some_iff.mp hn
      omega
    · rintro buf hbuf
      cases hbuf
      refine ⟨ne_nil_of_length_pos (by omega), ?_, by rw [htake]; simp only; omega⟩
      rw [hrest]
      exact prefix_take_iff.mpr ⟨( take_prefix _ _).trans hprefix, by omega⟩
    · intro k hk
      obtain rfl := mem_some_iff.mp hk
      omega
  · intro hwith
    refine ⟨⟨outer.data, outer.pos + data.length, some data.length, by omega, ?_⟩,
      ⟨rfl, rfl, by simp, ?_⟩, start, size, hprior, by rwa [hnext.data], by rwa [hnext.data],
      .inl ⟨by omega, by simp only; omega, .inl (by push_cast; omega), ?_⟩⟩
    · intro n hn
      obtain rfl := mem_some_iff.mp hn
      omega
    · rintro buf hbuf
      cases hbuf
      refine ⟨hne, ?_, rfl⟩
      rw [hrest]
      obtain ⟨tail, htail⟩ := hprefix
      rw [← htail, take_append, take_of_length_le (by omega)]
      exact prefix_append _ _
    · intro n hn
      obtain rfl := mem_some_iff.mp hn
      exact ⟨hlast', by push_cast; omega⟩

theorem limits_backUp_over (hlimit : limit < 0)
    {n count : ℕ} (hlast : outer.last = some n) (hcount : count ≤ n) :
    (∃ k, inner.last = some k ∧ (count - limit).toNat ≤ k) ∧
    ∀ inner', inner.BackUp (count - limit).toNat inner' →
      ∃ outer', outer.BackUp count outer' ∧ Limits count priorBytesRead inner' outer' := by
  obtain ⟨start, size, hprior, hstart, hdata, hcase⟩ := h
  have hover := hcase.resolve_left fun h => by have := h.nonneg; omega
  obtain ⟨k, hinner, hle, hn⟩ := hover.last
  have hn := hn n hlast
  have hback := outer.last_le n hlast
  have houter := hover.outerPos
  have hpos := hover.innerPos
  refine ⟨⟨k, hinner, by omega⟩, fun inner' hbackUp => ?_⟩
  have hpos' := hbackUp.pos
  refine ⟨⟨outer.data, outer.pos - count, none, ?_, by simp⟩, ⟨rfl, ?_, rfl⟩, start, size, hprior,
    by rwa [hbackUp.data], by rwa [hbackUp.data],
    .inl ⟨by omega, ?_, .inl ?_, by simp⟩⟩
  · exact le_trans (Nat.sub_le _ _) outer.pos_le
  · simp only
    omega
  · simp only
    omega
  · simp only
    omega

theorem limits_backUp_within (hlimit : ¬ limit < 0)
    {n count : ℕ} (hlast : outer.last = some n) (hcount : count ≤ n) :
    inner.last = some n ∧ ∀ inner', inner.BackUp count inner' →
      ∃ outer', outer.BackUp count outer' ∧ Limits (limit + count) priorBytesRead inner' outer' := by
  obtain ⟨start, size, hprior, hstart, hdata, hcase⟩ := h
  have hwithin := hcase.resolve_right fun h => by have := h.neg; omega
  obtain ⟨hinner, hroom⟩ := hwithin.last n hlast
  have hback := outer.last_le n hlast
  have hpos := hwithin.pos
  refine ⟨hinner, fun inner' hbackUp => ?_⟩
  have hpos' := hbackUp.pos
  refine ⟨⟨outer.data, outer.pos - count, none, ?_, by simp⟩, ⟨rfl, ?_, rfl⟩, start, size, hprior,
    by rwa [hbackUp.data], by rwa [hbackUp.data],
    .inl ⟨by omega, ?_, .inl ?_, by simp⟩⟩
  · exact le_trans (Nat.sub_le _ _) outer.pos_le
  · simp only
    omega
  · simp only
    omega
  · simp only
    omega

theorem limits_skip_over (hlimit : limit < 0) (count : ℕ) :
    ∃ outer', outer.Skip count false outer' ∧ Limits limit priorBytesRead inner outer' := by
  obtain ⟨start, size, hprior, hstart, hdata, hcase⟩ := h
  have hover := hcase.resolve_left fun h => by have := h.nonneg; omega
  obtain ⟨k, hinner, hle, -⟩ := hover.last
  have hlength := length_limited hdata
  have houter := outer.pos_le
  have hpos := hover.outerPos
  exact ⟨⟨outer.data, outer.pos, none, outer.pos_le, by simp⟩,
    ⟨rfl, rfl, by simp, fun _ => ⟨by simp only; omega, by omega, by omega⟩⟩,
    start, size, hprior, hstart, hdata, .inr ⟨hlimit, hpos, hover.innerPos, k, hinner, hle, by simp⟩⟩

/-- Up to the limit and not further. -/
theorem limits_skip_limit (hlimit : ¬ limit < 0) {count : ℕ} (hcount : limit < count) {skipped : Bool}
    (hskip : inner.Skip limit.toNat skipped inner') :
    ∃ outer', outer.Skip count false outer' ∧ Limits 0 priorBytesRead inner' outer' := by
  obtain ⟨start, size, hprior, hstart, hdata, hcase⟩ := h
  have hwithin := hcase.resolve_right fun h => hlimit h.neg
  have hlength := length_limited hdata
  have houter := outer.pos_le
  have hinner' := inner'.pos_le
  rw [hskip.data] at hinner'
  have hpos := hwithin.pos
  have hend : inner'.pos = start + outer.data.length ∧
      (outer.data.length = size ∨ inner'.pos = inner.data.length) ∧
      outer.data.length < outer.pos + count := by
    cases skipped with
    | true =>
      have hyes := hskip.yes rfl
      rcases hwithin.room with hroom | hroom <;> omega
    | false =>
      obtain ⟨hno, hle, -⟩ := hskip.no rfl
      rcases hwithin.room with hroom | hroom <;> omega
  refine ⟨⟨outer.data, outer.data.length, none, le_rfl, by simp⟩,
    ⟨rfl, rfl, by simp, fun _ => ⟨rfl, by omega, by omega⟩⟩,
    start, size, hprior, by rwa [hskip.data], by rwa [hskip.data],
    .inl ⟨Int.le_refl 0, hend.1, ?_, by simp⟩⟩
  rcases hend.2.1 with hsize | hinnerEnd
  · left
    simp only
    omega
  · right
    rw [hskip.data, hinnerEnd]

/-- Inside the limit. -/
theorem limits_skip_within {count : ℕ}
    (hcount : ¬ limit < count) {skipped : Bool} (hskip : inner.Skip count skipped inner') :
    ∃ outer', outer.Skip count skipped outer' ∧
      Limits (if skipped then limit - count else limit) priorBytesRead inner' outer' := by
  obtain ⟨start, size, hprior, hstart, hdata, hcase⟩ := h
  have hwithin := hcase.resolve_right fun h => by have := h.neg; omega
  have hlength := length_limited hdata
  have houter := outer.pos_le
  have hinner' := inner'.pos_le
  rw [hskip.data] at hinner'
  have hpos := hwithin.pos
  cases skipped with
  | true =>
    have hyes := hskip.yes rfl
    have hroom : outer.pos + count ≤ outer.data.length := by
      rcases hwithin.room with hroom | hroom <;> omega
    refine ⟨⟨outer.data, outer.pos + count, none, hroom, by simp⟩, ⟨rfl, rfl, fun _ => rfl, by simp⟩,
      start, size, hprior, by rwa [hskip.data], by rwa [hskip.data], .inl ⟨?_, ?_, ?_, by simp⟩⟩
    · rw [if_pos rfl]
      omega
    · simp only
      omega
    · rw [if_pos rfl, hskip.data]
      rcases hwithin.room with hroom' | hroom'
      · left
        push_cast
        omega
      · right
        omega
  | false =>
    obtain ⟨hno, hle, hlt⟩ := hskip.no rfl
    refine ⟨⟨outer.data, outer.data.length, none, le_rfl, by simp⟩, ⟨rfl, rfl, by simp, ?_⟩,
      start, size, hprior, by rwa [hskip.data], by rwa [hskip.data],
      .inl ⟨hwithin.nonneg, ?_, .inr ?_, by simp⟩⟩
    · intro _
      refine ⟨rfl, by omega, fun hcount => ?_⟩
      omega
    · rcases hwithin.room with hroom | hroom
      · simp only
        omega
      · simp only
        omega
    · rw [hskip.data, hno]

theorem limits_byteCount :
    (if limit < 0 then inner.pos + limit - priorBytesRead else inner.pos - priorBytesRead) =
      outer.pos := by
  obtain ⟨start, size, hprior, hstart, hdata, hcase⟩ := h
  rcases hcase with h | h
  · have hpos := h.pos
    rw [if_neg (by have := h.nonneg; omega)]
    omega
  · have hpos := h.innerPos
    have houter := h.outerPos
    rw [if_pos h.neg]
    omega

theorem limits_destroy : (limit < 0 → ∃ n, inner.last = some n ∧ (-limit).toNat ≤ n) ∧
      (limit < 0 → ∀ inner', inner.BackUp (-limit).toNat inner' →
        (inner'.pos : ℤ) = priorBytesRead + outer.pos) ∧
      (¬ limit < 0 → (inner.pos : ℤ) = priorBytesRead + outer.pos) := by
  obtain ⟨start, size, hprior, hstart, hdata, hcase⟩ := h
  rcases hcase with h | h
  · have hpos := h.pos
    have hnonneg := h.nonneg
    exact ⟨by omega, by omega, by omega⟩
  · obtain ⟨n, hlast, hle, -⟩ := h.last
    have hpos := h.innerPos
    have houter := h.outerPos
    refine ⟨fun _ => ⟨n, hlast, by omega⟩, fun hneg inner' hbackUp => ?_, fun hno => absurd h.neg hno⟩
    have hpos' := hbackUp.pos
    omega

end

end Limit

/-! ## The nested streams -/

namespace InputStream

mutual

/-- The stream at a position of its data. -/
def Sim : InputStream → ReadCursor UInt8 → Prop
  | .array s, c => s.Sim c
  | .copying s, c => s.Sim c
  | .limiting input limit priorBytesRead, c =>
    ∃ inner, Sim input inner ∧ Limits limit priorBytesRead inner c
  | .concatenating streams bytesRetired, c =>
    ∃ gone c', bytesRetired = ((gone : List UInt8).length : ℤ) ∧ SimOf streams c' ∧ c = c'.behind gone

/-- The streams that are left to read: the first one as it stands, the others not yet begun. -/
def SimOf : List InputStream → ReadCursor UInt8 → Prop
  | [], c => c = .start []
  | s :: streams, c => ∃ inner tail, Sim s inner ∧ Fresh streams tail ∧ c = inner.extend tail

def Fresh : List InputStream → List UInt8 → Prop
  | [], data => data = []
  | s :: streams, data => ∃ first tail, Sim s (.start first) ∧ Fresh streams tail ∧ data = first ++ tail

end

theorem simOf_of_fresh {streams : List InputStream} {data : List UInt8} (h : Fresh streams data) :
    SimOf streams (.start data) := by
  cases streams with
  | nil =>
    rw [Fresh] at h
    rw [SimOf, h]
  | cons s streams =>
    rw [Fresh] at h
    obtain ⟨first, tail, hs, hstreams, rfl⟩ := h
    rw [SimOf]
    exact ⟨.start first, tail, hs, hstreams, rfl⟩

/-- **`ByteCount`** is the position. -/
theorem byteCount_of_sim : ∀ (s : InputStream) (c : ReadCursor UInt8), s.Sim c → s.byteCount = c.pos
  | .array s, c, h => by
      rw [Sim] at h
      rw [byteCount, h.pos]
  | .copying s, c, h => by
      rw [Sim] at h
      have hpos := h.pos
      rw [byteCount]
      omega
  | .limiting input limit priorBytesRead, c, h => by
      rw [Sim] at h
      obtain ⟨inner, hinner, hlimits⟩ := h
      rw [byteCount, byteCount_of_sim input inner hinner, limits_byteCount hlimits]
  | .concatenating [] bytesRetired, c, h => by
      rw [Sim] at h
      obtain ⟨gone, c', rfl, hstreams, rfl⟩ := h
      rw [SimOf] at hstreams
      simp [byteCount, hstreams]
  | .concatenating (s :: streams) bytesRetired, c, h => by
      rw [Sim] at h
      obtain ⟨gone, c', rfl, hstreams, rfl⟩ := h
      rw [SimOf] at hstreams
      obtain ⟨inner, tail, hs, -, rfl⟩ := hstreams
      rw [byteCount, byteCount_of_sim s inner hs]
      simp

/-- A `LimitingInputStream` over a stream with that data. -/
def Limited (data : List UInt8) (priorBytesRead : ℤ) (s : InputStream) (c : ReadCursor UInt8) : Prop :=
  ∃ input limit inner, s = .limiting input limit priorBytesRead ∧ input.Sim inner ∧
    inner.data = data ∧ Limits limit priorBytesRead inner c

section Limiting

variable {input : InputStream} {limit priorBytesRead : ℤ} {inner c : ReadCursor UInt8}

theorem Limited.sim {data : List UInt8} {s : InputStream} (h : Limited data priorBytesRead s c) : s.Sim c := by
  obtain ⟨input, limit, inner, rfl, hinner, -, hlimits⟩ := h
  rw [Sim]
  exact ⟨inner, hinner, hlimits⟩

theorem limiting_next (hinner : input.Sim inner) (hlimits : Limits limit priorBytesRead inner c)
    (hnext : ∃ inner', inner.Next input.next.1 inner' ∧ input.next.2.Sim inner') :
    ∃ c', c.Next (next (.limiting input limit priorBytesRead)).1 c' ∧
      Limited inner.data priorBytesRead (next (.limiting input limit priorBytesRead)).2 c' := by
  rw [next]
  split
  · next hstop =>
    obtain ⟨c', hnext', hlimits'⟩ := limits_next_stop hlimits hstop
    exact ⟨c', hnext', _, _, inner, rfl, hinner, rfl, hlimits'⟩
  · next hgo =>
    have hlimit : 0 < limit := by omega
    obtain ⟨inner', hinnerNext, hinner'⟩ := hnext
    generalize next input = r at hinnerNext hinner'
    obtain ⟨chunk, input'⟩ := r
    cases chunk with
    | none =>
      obtain ⟨c', hnext', hlimits'⟩ := limits_next_none hlimits hlimit hinnerNext
      exact ⟨c', hnext', _, _, inner', rfl, hinner', hinnerNext.data, hlimits'⟩
    | some data =>
      obtain ⟨hover, hwithin⟩ := limits_next_some hlimits hlimit hinnerNext
      simp only
      split
      · next hneg =>
        obtain ⟨c', hnext', hlimits'⟩ := hover hneg
        exact ⟨c', hnext', _, _, inner', rfl, hinner', hinnerNext.data, hlimits'⟩
      · next hnonneg =>
        obtain ⟨c', hnext', hlimits'⟩ := hwithin hnonneg
        exact ⟨c', hnext', _, _, inner', rfl, hinner', hinnerNext.data, hlimits'⟩

theorem limiting_backUp (hlimits : Limits limit priorBytesRead inner c)
    {n count : ℕ} (hlast : c.last = some n) (hcount : count ≤ n)
    (hback : ∀ {n count : ℕ}, inner.last = some n → count ≤ n → ∃ input', input.backUp count = some input' ∧
        ∃ inner', inner.BackUp count inner' ∧ input'.Sim inner') :
    ∃ s', (limiting input limit priorBytesRead).backUp count = some s' ∧
      ∃ c', c.BackUp count c' ∧ Limited inner.data priorBytesRead s' c' := by
  rw [backUp]
  split
  · next hneg =>
    obtain ⟨⟨k, hk, hle⟩, hafter⟩ := limits_backUp_over hlimits hneg hlast hcount
    obtain ⟨input', hinput', inner', hinnerBack, hinner'⟩ := hback hk hle
    obtain ⟨c', hback', hlimits'⟩ := hafter inner' hinnerBack
    exact ⟨_, by rw [hinput', map_some], c', hback', _, _, inner', rfl, hinner',
      hinnerBack.data, hlimits'⟩
  · next hnonneg =>
    obtain ⟨hk, hafter⟩ := limits_backUp_within hlimits hnonneg hlast hcount
    obtain ⟨input', hinput', inner', hinnerBack, hinner'⟩ := hback hk hcount
    obtain ⟨c', hback', hlimits'⟩ := hafter inner' hinnerBack
    exact ⟨_, by rw [hinput', map_some], c', hback', _, _, inner', rfl, hinner',
      hinnerBack.data, hlimits'⟩

theorem limiting_skip (hinner : input.Sim inner) (hlimits : Limits limit priorBytesRead inner c)
    (count : ℕ) (hskip : ∀ count : ℕ, ∃ inner', inner.Skip count (input.skip count).1 inner' ∧
      (input.skip count).2.Sim inner') :
    ∃ c', c.Skip count (skip (.limiting input limit priorBytesRead) count).1 c' ∧
      Limited inner.data priorBytesRead (skip (.limiting input limit priorBytesRead) count).2 c' := by
  rw [skip]
  split
  · next hpast =>
    split
    · next hneg =>
      obtain ⟨c', hskip', hlimits'⟩ := limits_skip_over hlimits hneg count
      exact ⟨c', hskip', _, _, inner, rfl, hinner, rfl, hlimits'⟩
    · next hnonneg =>
      obtain ⟨inner', hinnerSkip, hinner'⟩ := hskip limit.toNat
      obtain ⟨c', hskip', hlimits'⟩ := limits_skip_limit hlimits hnonneg hpast hinnerSkip
      exact ⟨c', hskip', _, _, inner', rfl, hinner', hinnerSkip.data, hlimits'⟩
  · next hroom =>
    obtain ⟨inner', hinnerSkip, hinner'⟩ := hskip count
    generalize skip input count = r at hinnerSkip hinner'
    obtain ⟨skipped, input'⟩ := r
    obtain ⟨c', hskip', hlimits'⟩ := limits_skip_within hlimits hroom hinnerSkip
    cases skipped with
    | true => exact ⟨c', hskip', _, _, inner', rfl, hinner', hinnerSkip.data, hlimits'⟩
    | false => exact ⟨c', hskip', _, _, inner', rfl, hinner', hinnerSkip.data, hlimits'⟩

end Limiting

mutual

/-- **`Next`** gives the next chunk. -/
theorem sim_next : ∀ (s : InputStream) (c : ReadCursor UInt8), s.Sim c →
    ∃ c', c.Next s.next.1 c' ∧ s.next.2.Sim c'
  | .array s, c, h => by
      rw [Sim] at h
      obtain ⟨c', hnext, hsim⟩ := ArrayInputStream.sim_next h
      rw [next]
      exact ⟨c', hnext, by rwa [Sim]⟩
  | .copying s, c, h => by
      rw [Sim] at h
      obtain ⟨c', hnext, hsim⟩ := CopyingInputStreamAdaptor.sim_next h
      rw [next]
      exact ⟨c', hnext, by rwa [Sim]⟩
  | .limiting input limit priorBytesRead, c, h => by
      rw [Sim] at h
      obtain ⟨inner, hinner, hlimits⟩ := h
      obtain ⟨c', hnext, hlimited⟩ := limiting_next hinner hlimits (sim_next input inner hinner)
      exact ⟨c', hnext, hlimited.sim⟩
  | .concatenating streams bytesRetired, c, h => by
      rw [Sim] at h
      obtain ⟨gone, c', hretired, hstreams, rfl⟩ := h
      obtain ⟨more, c'', hnext, hsim, hretired'⟩ := simOf_nextOf streams c' bytesRetired hstreams
      refine ⟨(c''.behind more).behind gone, ?_, ?_⟩
      · rw [next]
        exact hnext.behind gone
      · rw [next, Sim]
        refine ⟨gone ++ more, c'', ?_, hsim, ReadCursor.behind_behind gone more c''⟩
        rw [hretired', hretired]
        simp

/-- The first stream that is not at its end gives the next chunk. -/
theorem simOf_nextOf : ∀ (streams : List InputStream) (c : ReadCursor UInt8) (bytesRetired : ℤ),
    SimOf streams c → ∃ more c', c.Next (nextOf streams bytesRetired).1 (c'.behind more) ∧
      SimOf (nextOf streams bytesRetired).2.1 c' ∧
      (nextOf streams bytesRetired).2.2 = bytesRetired + (more.length : ℤ)
  | [], c, bytesRetired, h => by
      rw [SimOf] at h
      subst h
      exact ⟨[], .start [], ⟨rfl, rfl, fun _ => ⟨rfl, rfl⟩, by simp [nextOf]⟩, by simp [nextOf, SimOf],
        by simp [nextOf]⟩
  | s :: streams, c, bytesRetired, h => by
      rw [SimOf] at h
      obtain ⟨inner, tail, hs, hfresh, rfl⟩ := h
      obtain ⟨inner', hinnerNext, hs'⟩ := sim_next s inner hs
      rw [nextOf]
      generalize next s = r at hinnerNext hs'
      obtain ⟨chunk, s'⟩ := r
      cases chunk with
      | some data =>
        refine ⟨[], inner'.extend tail, ?_, ?_, by simp⟩
        · rw [ReadCursor.behind_nil]
          exact hinnerNext.extend tail
        · simp only
          rw [SimOf]
          exact ⟨inner', tail, hs', hfresh, rfl⟩
      | none =>
        obtain ⟨hend, hpos⟩ := hinnerNext.ends rfl
        have hcount : s'.byteCount = (inner.data.length : ℤ) := by
          rw [byteCount_of_sim s' inner' hs', hpos, hend]
        obtain ⟨more, c', hnext, hsim, hretired⟩ :=
          simOf_nextOf streams (.start tail) (bytesRetired + s'.byteCount) (simOf_of_fresh hfresh)
        refine ⟨inner.data ++ more, c', ?_, hsim, ?_⟩
        · rw [← ReadCursor.behind_behind]
          exact ReadCursor.Next.after hend hnext
        · simp only
          rw [hretired, hcount]
          push_cast [length_append]
          omega

end

/-- **`BackUp`** inside the last chunk passes the checks and goes back. -/
theorem sim_backUp : ∀ (s : InputStream) (c : ReadCursor UInt8) {n count : ℕ}, s.Sim c →
    c.last = some n → count ≤ n →
    ∃ s', s.backUp count = some s' ∧ ∃ c', c.BackUp count c' ∧ s'.Sim c'
  | .array s, c, n, count, h, hlast, hcount => by
      rw [Sim] at h
      obtain ⟨s', hs', c', hback, hsim⟩ := ArrayInputStream.sim_backUp h hlast hcount
      refine ⟨.array s', by rw [backUp, hs', map_some], c', hback, ?_⟩
      rwa [Sim]
  | .copying s, c, n, count, h, hlast, hcount => by
      rw [Sim] at h
      obtain ⟨s', hs', c', hback, hsim⟩ := CopyingInputStreamAdaptor.sim_backUp h hlast hcount
      refine ⟨.copying s', by rw [backUp, hs', map_some], c', hback, ?_⟩
      rwa [Sim]
  | .limiting input limit priorBytesRead, c, n, count, h, hlast, hcount => by
      rw [Sim] at h
      obtain ⟨inner, hinner, hlimits⟩ := h
      obtain ⟨s', hs', c', hback, hlimited⟩ := limiting_backUp hlimits hlast hcount
        fun hlast hcount => sim_backUp input inner hinner hlast hcount
      exact ⟨s', hs', c', hback, hlimited.sim⟩
  | .concatenating [] bytesRetired, c, n, count, h, hlast, hcount => by
      rw [Sim] at h
      obtain ⟨gone, c', -, hstreams, rfl⟩ := h
      rw [SimOf] at hstreams
      simp [hstreams] at hlast
  | .concatenating (s :: streams) bytesRetired, c, n, count, h, hlast, hcount => by
      rw [Sim] at h
      obtain ⟨gone, c', hretired, hstreams, rfl⟩ := h
      rw [SimOf] at hstreams
      obtain ⟨inner, tail, hs, hfresh, rfl⟩ := hstreams
      obtain ⟨s', hs', inner', hinnerBack, hsim⟩ := sim_backUp s inner hs hlast hcount
      refine ⟨_, by rw [backUp, hs', map_some], (inner'.extend tail).behind gone,
        (hinnerBack.extend tail).behind gone, ?_⟩
      rw [Sim]
      refine ⟨gone, inner'.extend tail, hretired, ?_, rfl⟩
      rw [SimOf]
      exact ⟨inner', tail, hsim, hfresh, rfl⟩

mutual

/-- **`Skip`** goes forward, or to the end. -/
theorem sim_skip : ∀ (s : InputStream) (c : ReadCursor UInt8) (count : ℕ), s.Sim c →
    ∃ c', c.Skip count (s.skip count).1 c' ∧ (s.skip count).2.Sim c'
  | .array s, c, count, h => by
      rw [Sim] at h
      obtain ⟨c', hskip, hsim⟩ := ArrayInputStream.sim_skip h count
      rw [skip]
      exact ⟨c', hskip, by rwa [Sim]⟩
  | .copying s, c, count, h => by
      rw [Sim] at h
      obtain ⟨c', hskip, hsim⟩ := CopyingInputStreamAdaptor.sim_skip h count
      rw [skip]
      exact ⟨c', hskip, by rwa [Sim]⟩
  | .limiting input limit priorBytesRead, c, count, h => by
      rw [Sim] at h
      obtain ⟨inner, hinner, hlimits⟩ := h
      obtain ⟨c', hskip, hlimited⟩ := limiting_skip hinner hlimits count
        fun count => sim_skip input inner count hinner
      exact ⟨c', hskip, hlimited.sim⟩
  | .concatenating streams bytesRetired, c, count, h => by
      rw [Sim] at h
      obtain ⟨gone, c', hretired, hstreams, rfl⟩ := h
      obtain ⟨more, c'', hskip, hsim, hretired'⟩ := simOf_skipOf streams c' bytesRetired count hstreams
      refine ⟨(c''.behind more).behind gone, ?_, ?_⟩
      · rw [skip]
        exact hskip.behind gone
      · rw [skip, Sim]
        refine ⟨gone ++ more, c'', ?_, hsim, ReadCursor.behind_behind gone more c''⟩
        rw [hretired', hretired]
        simp

/-- What is left to skip behind the end of a stream is skipped in the next one. -/
theorem simOf_skipOf : ∀ (streams : List InputStream) (c : ReadCursor UInt8) (bytesRetired : ℤ)
    (count : ℕ), SimOf streams c →
    ∃ more c', c.Skip count (skipOf streams bytesRetired count).1 (c'.behind more) ∧
      SimOf (skipOf streams bytesRetired count).2.1 c' ∧
      (skipOf streams bytesRetired count).2.2 = bytesRetired + (more.length : ℤ)
  | [], c, bytesRetired, count, h => by
      rw [SimOf] at h
      subst h
      refine ⟨[], .start [], ⟨rfl, rfl, by simp [skipOf], fun _ => ⟨rfl, by simp, ?_⟩⟩,
        by simp [skipOf, SimOf], by simp [skipOf]⟩
      intro hcount
      simp only [ReadCursor.start_data, ReadCursor.start_pos, length_nil]
      omega
  | s :: streams, c, bytesRetired, count, h => by
      rw [SimOf] at h
      obtain ⟨inner, tail, hs, hfresh, rfl⟩ := h
      obtain ⟨inner', hinnerSkip, hs'⟩ := sim_skip s inner count hs
      have htarget := byteCount_of_sim s inner hs
      rw [skipOf]
      generalize skip s count = r at hinnerSkip hs'
      obtain ⟨skipped, s'⟩ := r
      cases skipped with
      | true =>
        refine ⟨[], inner'.extend tail, ?_, ?_, by simp⟩
        · rw [ReadCursor.behind_nil]
          exact hinnerSkip.extend tail
        · simp only
          rw [SimOf]
          exact ⟨inner', tail, hs', hfresh, rfl⟩
      | false =>
        obtain ⟨hend, hle, hlt⟩ := hinnerSkip.no rfl
        have hcount : s'.byteCount = (inner.data.length : ℤ) := by
          rw [byteCount_of_sim s' inner' hs', hend]
        have hleft : inner.pos + count =
            inner.data.length + (s.byteCount + count - s'.byteCount).toNat := by omega
        obtain ⟨more, c', hskip, hsim, hretired⟩ :=
          simOf_skipOf streams (.start tail) (bytesRetired + s'.byteCount)
            (s.byteCount + count - s'.byteCount).toNat (simOf_of_fresh hfresh)
        refine ⟨inner.data ++ more, c', ?_, hsim, ?_⟩
        · rw [← ReadCursor.behind_behind]
          exact ReadCursor.Skip.after hleft (fun hne => by have := hlt hne; omega) hskip
        · simp only
          rw [hretired, hcount]
          push_cast [length_append]
          omega

end

end InputStream

end Protoc.Io
